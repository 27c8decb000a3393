import Flwor.Plan.Tree

/-
  This file defines the walk that drives every pass over a
  plan to its fixpoint.

  A traversal visits the nodes in pre-order.  As soon as a
  visit records a change of the structure the traversal is
  given up and the next one starts at the root; the walk is
  done with the first traversal that records no change.

  Key definitions include:
    * `Visit`
    * `Walk`
    * `Walker`
    * `Walker.traverse`
    * `WalkReport`
    * `Walker.walk`
    * `Pass`
    * `Pass.run`
-/

------------------------------------------------------------
-- Visits
------------------------------------------------------------

namespace Flwor

/-
  Where a traversal goes on after a visit: below a node,
  which may have taken the place of the visited one, or not
  below it at all.
-/
inductive Visit where
  | descend (id : NodeId)
  | skip
deriving DecidableEq, Repr

/-
  What a walk changes: the plan, a state of the walker's
  own, and the record of a change in the traversal.
-/
structure WalkState (σ : Type) where
  plan : Plan
  own : σ
  changed : Bool

/- A step of a walk; its effects outlive a failure. -/
abbrev Walk (σ : Type) :=
  ExceptT Failure (StateM (WalkState σ))

namespace Walk

variable {σ α : Type}

/- Edit the plan during a walk. -/
def edit
    (e : Edit α) : Walk σ α := do
  let state ← get
  let (result, plan) := e.run state.plan
  set { state with plan := plan }
  match result with
  | .ok x => return x
  | .error e => throw e

/- The plan as it stands. -/
def plan : Walk σ Plan := do
  return (← get).plan

/- Record a change of the structure. -/
def recordChange : Walk σ Unit :=
  modify (fun state => { state with changed := true })

/- Whether a change is recorded in this traversal. -/
def hasChanged : Walk σ Bool := do
  return (← get).changed

end Walk

/-
  A pass or an analysis: what is done before each
  traversal, and at each node.
-/
structure Walker (σ : Type) where
  name : String
  prepare : Walk σ Unit
  visit : NodeId → Walk σ Visit

end Flwor

------------------------------------------------------------
-- Walks
------------------------------------------------------------

namespace Flwor

/- How a walk reached its fixpoint. -/
structure WalkReport where
  pass : String
  traversals : Nat
  changed : Bool
deriving DecidableEq, Repr

namespace Walker

variable {σ : Type}

/-
  Visit a subtree, down to a given depth, until a change is
  recorded.
-/
def traverse
    (walker : Walker σ) : Nat → NodeId → Walk σ Unit
  | 0, _ => return ()
  | depth + 1, id => do
      let next ← walker.visit id
      if ← Walk.hasChanged then return ()
      match next with
      | .skip => return ()
      | .descend node => do
          let plan ← Walk.plan
          (plan.children node).forM (fun child => do
            if !(← Walk.hasChanged) then
              traverse walker depth child)

/-
  One traversal from the root.  A visit may wrap the node it
  is at into one more level, hence the slack.
-/
def traverseRoot
    (walker : Walker σ) : Walk σ Unit := do
  walker.prepare
  modify (fun state => { state with changed := false })
  let plan ← Walk.plan
  walker.traverse (plan.size + 2) plan.root

/-
  Traverse until nothing changes, with a number of
  traversals left and a number of them done.
-/
def walkFrom
    (walker : Walker σ) : Nat → Nat → Walk σ WalkReport
  | 0, traversals =>
      throw (.noFixpoint walker.name traversals)
  | left + 1, traversals => do
      walker.traverseRoot
      if ← Walk.hasChanged then
        walkFrom walker left (traversals + 1)
      else
        return { pass := walker.name
                 traversals := traversals + 1
                 changed := traversals != 0 }

/- Walk to the fixpoint within a number of traversals. -/
def walk
    (walker : Walker σ)
    (maxTraversals : Nat) : Walk σ WalkReport :=
  walker.walkFrom maxTraversals 0

end Walker

end Flwor

------------------------------------------------------------
-- Passes
------------------------------------------------------------

namespace Flwor

/-
  A walk without a state of its own: at each node it tells
  whether it changed the structure.
-/
structure Pass where
  name : String
  transform : NodeId → Edit Bool

namespace Pass

/- The walker of a pass. -/
def walker
    (pass : Pass) : Walker Unit where
  name := pass.name
  prepare := return ()
  visit id := do
    if ← Walk.edit (pass.transform id) then
      Walk.recordChange
    return .descend id

/- Walk a pass over a plan to its fixpoint. -/
def run
    (pass : Pass)
    (maxTraversals : Nat)
    (plan : Plan) : Except Failure WalkReport × Plan :=
  let (result, state) :=
    StateT.run
      (ExceptT.run (pass.walker.walk maxTraversals))
      { plan := plan, own := (), changed := false }
  (result, state.plan)

end Pass

end Flwor
