import Flwor.Library
import Flwor.Pass.Moves
import Flwor.Walk

/-
  This file defines the pass that allows left joins to give
  their matches in any order where nobody can tell.

  What depends on the right input is followed from the join
  to the first grouping.  If the grouping collects nothing
  of it, or only functions that ignore the order of their
  argument read what it collects, the order does not matter.

  Key definitions include:
    * `OrderBlind`
    * `Plan.readsOrder`
    * `Plan.orderMatters?`
    * `Pass.joinSortElimination`
-/

------------------------------------------------------------
-- Who Observes the Order
------------------------------------------------------------

namespace Flwor

/- The functions that ignore the order of their argument. -/
abbrev OrderBlind :=
  List String

namespace OrderBlind

/- Whether a function is among them. -/
def holds
    (functions : OrderBlind)
    (name : String) : Bool :=
  functions.any (fun f =>
    Library.localName f == Library.localName name)

end OrderBlind

namespace Tree

mutual

/-
  Whether some reference to one of the variables is anything
  but the sole argument of a function that ignores order.
-/
def readsOrder
    (blind : OrderBlind)
    (names : List String)
    (shielded : Bool) : Tree → Bool
  | .node _ k p _ cs =>
      let reads :=
        k = .variableRef
          && (p.var?.map names.contains).getD false
      let shields :=
        k = .functionCall && cs.length = 1
          && (p.label?.map blind.holds).getD false
      (reads && !shielded)
        || readsOrderAny blind names shields cs

/- The same, for several trees below one node. -/
def readsOrderAny
    (blind : OrderBlind)
    (names : List String)
    (shielded : Bool) : List Tree → Bool
  | [] => false
  | t :: ts =>
      readsOrder blind names shielded t
        || readsOrderAny blind names shielded ts

end

/- What a binding adds to the variables that depend. -/
def derived
    (dependents : List String)
    (t : Tree) : List String :=
  if (t.properties.get? Properties.check).isSome
      || t.stageReads.any dependents.contains then
    t.bound
  else []

end Tree

namespace Plan

/-
  Whether the nodes after a grouping, up to the end of its
  pipeline, read one of the variables in an order-sensitive
  way.  The number bounds the steps.
-/
def readsOrderWithin
    (plan : Plan)
    (blind : OrderBlind)
    (names : List String) : Nat → NodeId → Bool
  | 0, _ => false
  | steps + 1, node =>
      match plan.parent? node with
      | none => false
      | some parent =>
          let kind := plan.kind parent
          if !kind.isStage && kind ≠ .finish then false
          else
            let others :=
              (plan.children parent).filter (fun c =>
                c != node)
            if others.any (fun c =>
                (plan.tree c).readsOrder blind names false)
            then true
            else if kind = .finish then false
            else
              readsOrderWithin plan blind names steps parent

/- The same, for the whole way. -/
def readsOrder
    (plan : Plan)
    (blind : OrderBlind)
    (group : NodeId)
    (names : List String) : Bool :=
  plan.readsOrderWithin blind names plan.size group

/-
  Follow the variables that depend on the right input of a
  join through the stages after it.
-/
def orderMattersAfter
    (plan : Plan)
    (blind : OrderBlind) :
    List String → List NodeId → Bool
  | _, [] => false
  | dependents, stage :: rest =>
      let tree := plan.tree stage
      match plan.kind stage with
      | .groupBy =>
          if tree.groupKeys.any dependents.contains then true
          else
            let collected :=
              (tree.groupAggregates.filter (fun a =>
                dependents.contains a.2)).map Prod.fst
            !collected.isEmpty
              && plan.readsOrder blind stage collected
      | .forBind =>
          orderMattersAfter plan blind
            (dependents ++ tree.derived dependents) rest
      | .letBind =>
          orderMattersAfter plan blind
            (dependents ++ tree.derived dependents) rest
      | _ => orderMattersAfter plan blind dependents rest

/-
  Whether the order of a join's matches can be observed; no
  answer where the right input does not begin with a binding.
-/
def orderMatters?
    (plan : Plan)
    (blind : OrderBlind)
    (join : NodeId) : Option Bool := do
  let right ← plan.lastChild? join
  match (plan.tree right).stages.reverse with
  | _ :: first :: _ =>
      let run ← first.binding?
      let dependents :=
        run :: (plan.tree right).stages.flatMap Tree.bound
      return plan.orderMattersAfter blind dependents
        (plan.stagesAfter join)
  | _ => none

end Plan

end Flwor

------------------------------------------------------------
-- The Pass
------------------------------------------------------------

namespace Flwor

namespace Pass

/-
  Mark a left join whose order nobody observes.  A mark is
  no change of the structure.
-/
def markJoin
    (blind : OrderBlind)
    (join : NodeId) : Edit Bool := do
  let plan ← get
  let properties := plan.properties join
  if plan.kind join = .join
      && properties.flag Properties.leftJoin
      && (properties.get? Properties.skipSort).isNone
      && plan.orderMatters? blind join = some false then
    Edit.setProperty join Properties.skipSort (.flag true)
  return false

/- Mark every left join whose order nobody observes. -/
def joinSortElimination
    (blind : OrderBlind) : Pass where
  name := "join-sort-elimination"
  transform := markJoin blind

end Pass

end Flwor
