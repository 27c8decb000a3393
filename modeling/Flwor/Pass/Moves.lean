import Flwor.Stage.Consumer

/-
  This file defines what the passes share: the expression
  slots from which nested pipelines can be moved, and the
  two moves of a stage.

  Key definitions include:
    * `Kind.isEager`
    * `Plan.rowExpr?`
    * `Tree.eagerPipes`
    * `Edit.interpose`
    * `Edit.bypass`
-/

------------------------------------------------------------
-- Slots
------------------------------------------------------------

namespace Flwor

namespace Kind

/-
  Whether every operand is evaluated exactly once, so that a
  nested pipeline can be evaluated before.
-/
def isEager : Kind → Bool
  | .functionCall => true
  | .arithmeticExpr => true
  | .comparisonExpr => true
  | .sequenceExpr => true
  | _ => false

end Kind

namespace Plan

/-
  The expression of a stage that is evaluated once for each
  row of its input.
-/
def rowExpr?
    (plan : Plan)
    (stage : NodeId) : Option NodeId :=
  match plan.kind stage with
  | .finish => plan.child? stage 1
  | .selection => plan.child? stage 1
  | .letBind => plan.lastChild? stage
  | .forBind => plan.lastChild? stage
  | _ => none

/- Whether a node carries a check. -/
def isChecked
    (plan : Plan)
    (id : NodeId) : Bool :=
  ((plan.properties id).get? Properties.check).isSome

/- The bindings visible after a stage. -/
def visible
    (plan : Plan)
    (stage : NodeId) : List String :=
  (plan.tree stage).visible

end Plan

namespace Tree

mutual

/-
  The nested pipelines reached through eager nodes,
  the topmost node included.
-/
def eagerPipes : Tree → List NodeId
  | .node i k _ _ cs =>
      if k = .pipeExpr then [i]
      else if k.isEager then eagerPipesAll cs
      else []

/- The nested pipelines of several trees. -/
def eagerPipesAll : List Tree → List NodeId
  | [] => []
  | t :: ts =>
      eagerPipes t ++ eagerPipesAll ts

end

end Tree

end Flwor

------------------------------------------------------------
-- Moves
------------------------------------------------------------

namespace Flwor

namespace Edit

/-
  Put a detached stage between a stage, or an end, and what
  feeds it.
-/
def interpose
    (consumer : NodeId)
    (stage : NodeId) : Edit Unit := do
  let feeder ← remove consumer 0
  insert stage 0 feeder
  insert consumer 0 stage

/- Cut a stage out, so that its input takes its place. -/
def bypass
    (stage : NodeId) : Edit Unit := do
  let feeder ← remove stage 0
  replace stage feeder

end Edit

end Flwor
