import Flwor.Stage.Bindings

/-
  This file defines who reads the rows of a stage, by going
  up the arena.

  Key definitions include:
    * `Consumer`
    * `Plan.consumer`
    * `Plan.stagesAfter`
    * `Plan.enclosingFinish?`
-/

------------------------------------------------------------
-- Consumers
------------------------------------------------------------

namespace Flwor

/- What reads the rows of a stage. -/
inductive Consumer where
  | finish (id : NodeId)
  | join (id : NodeId)
  | stage (id : NodeId)
deriving DecidableEq, Repr

namespace Plan

/- The consumer of the rows of a stage. -/
def consumer
    (plan : Plan)
    (stage : NodeId) : Except Failure Consumer :=
  match plan.parent? stage with
  | none => .error (.malformed .stageWithoutConsumer)
  | some parent =>
      match plan.kind parent with
      | .finish => .ok (.finish parent)
      | .join =>
          if plan.child? parent 0 = some stage
              ∨ plan.lastChild? parent = some stage then
            .ok (.join parent)
          else .error (.malformed .stageInKeySlot)
      | k =>
          if k.isStage
              ∧ plan.child? parent 0 = some stage then
            .ok (.stage parent)
          else .error (.malformed .stageOutsidePipeline)

/-
  Go up from a node; the number bounds the steps, and no
  path upwards is longer than the number of nodes.
-/
def stagesAfterWithin
    (plan : Plan) : Nat → NodeId → List NodeId
  | 0, _ => []
  | steps + 1, stage =>
      match plan.consumer stage with
      | .ok (.stage next) =>
          next :: stagesAfterWithin plan steps next
      | _ => []

/- The stages after a stage in its pipeline, nearest first. -/
def stagesAfter
    (plan : Plan)
    (stage : NodeId) : List NodeId :=
  plan.stagesAfterWithin plan.size stage

/- The end above a node, through stages only. -/
def enclosingFinishWithin
    (plan : Plan) : Nat → NodeId → Option NodeId
  | 0, _ => none
  | steps + 1, id =>
      match plan.parent? id with
      | none => none
      | some parent =>
          if plan.kind parent = .finish then some parent
          else if (plan.kind parent).isStage then
            enclosingFinishWithin plan steps parent
          else none

/- The end of the pipeline that a stage belongs to. -/
def enclosingFinish?
    (plan : Plan)
    (stage : NodeId) : Option NodeId :=
  plan.enclosingFinishWithin plan.size stage

end Plan

end Flwor
