import Flwor.Pass.Moves
import Flwor.Walk

/-
  This file defines the pass that emits the regroupings that
  are pending on left joins.

  A grouping on everything that is visible in the left input
  of the join, its row number included, collects the joined
  values of each outer row.

  Key definitions include:
    * `Names.latest`
    * `Tree.isPendingJoin`
    * `Plan.regroupPoint`
    * `Pass.emitGroup`
    * `Pass.groupEmission`
-/

------------------------------------------------------------
-- Where and by What to Group
------------------------------------------------------------

namespace Flwor

namespace Names

/- Each name once, at its last occurrence. -/
def latest
    (names : List String) : List String :=
  names.reverse.eraseDups.reverse

end Names

namespace Tree

/- Whether a node is a join with a pending regrouping. -/
def isPendingJoin
    (t : Tree) : Bool :=
  t.kind = .join
    && (t.properties.get? Properties.regroup).isSome

end Tree

namespace Plan

/-
  The last stage of the checked bindings right after a join.
  The number bounds the steps.
-/
def regroupPointWithin
    (plan : Plan) : Nat → NodeId → NodeId
  | 0, stage => stage
  | steps + 1, stage =>
      match plan.consumer stage with
      | .ok (.stage next) =>
          if plan.kind next = .letBind
              && plan.isChecked next then
            regroupPointWithin plan steps next
          else stage
      | _ => stage

/- The stage after which the rows of a join are grouped. -/
def regroupPoint
    (plan : Plan)
    (join : NodeId) : NodeId :=
  plan.regroupPointWithin plan.size join

end Plan

end Flwor

------------------------------------------------------------
-- The Pass
------------------------------------------------------------

namespace Flwor

namespace Pass

/- Add the key of a grouping. -/
def addGroupKey
    (group : NodeId)
    (name : String) : Edit Unit := do
  let reference ← Edit.add .variableRef (.var name) []
  let spec ← Edit.addWith .groupSpec .none [reference]
  Edit.append group spec

/- Group the rows of a join, collecting a source variable. -/
def emitGroup
    (join : NodeId)
    (target source : String) : Edit Unit := do
  let plan ← get
  let keys := Names.latest
    (((plan.child? join 0).map plan.visible).getD [])
  let last := plan.regroupPoint join
  match plan.parent? last, plan.indexInParent? last with
  | none, _ => Edit.fail .joinWithoutConsumer
  | some _, none => Edit.fail .parentWithoutChild
  | some consumer, some index =>
      let _ ← Edit.remove consumer index
      let group ← Edit.addWith .groupBy .none [last]
      keys.forM (addGroupKey group)
      let declared ← Edit.add .variable (.var target) []
      let reference ← Edit.add .variableRef (.var source) []
      let aggregate ← Edit.addWith .aggregateSpec .none
        [declared, reference]
      Edit.append group aggregate
      Edit.insert consumer index group
      Edit.eraseProperty join Properties.regroup

/-
  Emit the regrouping of a join.  The groups of joins in its
  left input come first, as their keys are read from there.
-/
def regroupJoin
    (join : NodeId) : Edit Bool := do
  let plan ← get
  let properties := plan.properties join
  if plan.kind join ≠ .join
      || !properties.flag Properties.leftJoin then
    return false
  match properties.vars? Properties.regroup with
  | some [target, source] =>
      let left := (plan.child? join 0).map plan.tree
      let pending := (left.map (fun t =>
        t.subtrees.any Tree.isPendingJoin)).getD false
      if pending then return false
      emitGroup join target source
      return true
  | _ => return false

/- Emit regroupings until none is pending. -/
def groupEmission : Pass where
  name := "group-emission"
  transform := regroupJoin

end Pass

end Flwor
