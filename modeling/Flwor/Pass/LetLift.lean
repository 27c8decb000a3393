import Flwor.Pass.Moves
import Flwor.Walk

/-
  This file defines the pass that moves `let` bindings out
  of the loops that they do not depend on.

  A binding hops the stages before it that neither bind what
  it reads nor bind or read its name; it moves only if that
  takes it out of a loop.  A binding at the head of a nested
  pipeline may leave for the pipeline outside.

  Key definitions include:
    * `Tree.letsPass`
    * `Tree.loopExit?`
    * `Plan.rowExprOwner?`
    * `Pass.liftLocally`
    * `Pass.liftOutward`
    * `Pass.letLift`
-/

------------------------------------------------------------
-- Where a Binding May Go
------------------------------------------------------------

namespace Flwor

namespace Tree

/-
  Whether a binding of a name that reads some variables can
  move from behind a stage to before it.
-/
def letsPass
    (name : String)
    (reads : List String)
    (stage : Tree) : Bool :=
  (stage.kind = .forBind || stage.kind = .letBind)
    && (stage.properties.get? Properties.check).isNone
    && stage.bound.all (fun b =>
        b != name && !reads.contains b)
    && !stage.stageReads.contains name

/-
  The stage before which a binding ends up: the furthest one
  that it can hop to, if a loop is among those it hops.
-/
def loopExit?
    (name : String)
    (reads : List String)
    (bind : Tree) : Option NodeId :=
  let hopped :=
    (bind.stages.drop 1).takeWhile (letsPass name reads)
  if hopped.any (fun stage => stage.kind = .forBind) then
    hopped.getLast?.map id
  else none

end Tree

namespace Plan

/-
  Go up through eager nodes to the stage or end whose
  once-per-row expression they are part of.
-/
def rowExprOwnerWithin
    (plan : Plan) : Nat → NodeId → Option NodeId
  | 0, _ => none
  | steps + 1, node =>
      match plan.parent? node with
      | none => none
      | some parent =>
          if plan.rowExpr? parent = some node then
            some parent
          else if (plan.kind parent).isEager then
            rowExprOwnerWithin plan steps parent
          else none

/- The stage whose once-per-row expression holds a node. -/
def rowExprOwner?
    (plan : Plan)
    (node : NodeId) : Option NodeId :=
  plan.rowExprOwnerWithin plan.size node

end Plan

end Flwor

------------------------------------------------------------
-- The Pass
------------------------------------------------------------

namespace Flwor

namespace Pass

/- Move a binding to a place further up its pipeline. -/
def liftLocally
    (bind : NodeId)
    (name : String)
    (reads : List String) : Edit Bool := do
  let plan ← get
  match (plan.tree bind).loopExit? name reads with
  | none => return false
  | some target =>
      Edit.bypass bind
      Edit.interpose target bind
      return true

/-
  The stage of the pipeline outside to which a binding at
  the head of a nested pipeline can move: it must be able to
  hop the loop there, and its name must not be read there.
-/
def outwardTarget?
    (plan : Plan)
    (bind : NodeId)
    (name : String)
    (reads : List String) : Option NodeId := do
  let input ← (plan.tree bind).input?
  guard (input.kind = .start)
  let pipe ←
    (plan.enclosingFinish? bind).bind plan.parent?
  let owner ← plan.rowExprOwner? pipe
  guard (!plan.isChecked owner)
  let feeder ← plan.child? owner 0
  guard (plan.kind feeder = .forBind)
  guard ((plan.tree feeder).letsPass name reads)
  let finish ←
    if plan.kind owner = .finish then some owner
    else plan.enclosingFinish? owner
  let outside := (plan.tree finish).referencesOutside pipe
  guard (!outside.contains name)
  return owner

/- Move a binding to the pipeline outside. -/
def liftOutward
    (bind : NodeId)
    (name : String)
    (reads : List String) : Edit Bool := do
  match outwardTarget? (← get) bind name reads with
  | none => return false
  | some owner =>
      Edit.bypass bind
      Edit.interpose owner bind
      return true

/- Move one binding, if it can be moved. -/
def liftBinding
    (bind : NodeId) : Edit Bool := do
  let plan ← get
  if plan.kind bind ≠ .letBind || plan.isChecked bind then
    return false
  let tree := plan.tree bind
  match tree.binding?, tree.children[2]? with
  | some name, some value =>
      let reads := value.references
      if ← liftLocally bind name reads then return true
      else liftOutward bind name reads
  | _, _ => return false

/- Move bindings until none can leave a loop. -/
def letLift : Pass where
  name := "let-lift"
  transform := liftBinding

end Pass

end Flwor
