import Flwor.Walk

/-
  This file defines the pass that merges two path steps: a
  step to all descendants and the node itself, followed by
  one to the children, is a step to the descendants.

  Key definitions include:
    * `Plan.isAnyDescendantStep`
    * `Plan.isChildStep`
    * `Plan.mergeable?`
    * `Pass.stepMerge`
-/

------------------------------------------------------------
-- Mergeable Steps
------------------------------------------------------------

namespace Flwor

namespace Plan

/- Whether a step without predicates moves along an axis. -/
def stepsAlong
    (plan : Plan)
    (axis : Axis)
    (step : NodeId) : Bool :=
  plan.kind step = .stepExpr
    && (plan.children step).length = 2
    && ((plan.child? step 0).map (fun spec =>
          plan.kind spec = .axisSpec
            && plan.payload spec = .axis axis)).getD false

/- Whether a step is `descendant-or-self::node()`. -/
def isAnyDescendantStep
    (plan : Plan)
    (step : NodeId) : Bool :=
  plan.stepsAlong .descendantOrSelf step
    && ((plan.child? step 1).map (fun test =>
          decide (plan.kind test = .kindTestAnyKind))).getD
            false

/- Whether a step goes to children, without predicates. -/
def isChildStep
    (plan : Plan)
    (step : NodeId) : Bool :=
  plan.stepsAlong .child step

/- The place of the first two steps that can be merged. -/
def mergeable?
    (plan : Plan)
    (steps : List NodeId) : Option (Nat × NodeId) :=
  ((steps.zip (steps.drop 1)).zipIdx.find? (fun p =>
    plan.isAnyDescendantStep p.1.1
      && plan.isChildStep p.1.2)).bind
        (fun p =>
          (plan.child? p.1.2 1).map (fun test =>
            (p.2, test)))

end Plan

end Flwor

------------------------------------------------------------
-- The Pass
------------------------------------------------------------

namespace Flwor

namespace Pass

/- Merge the first two steps of a path that can be. -/
def mergeSteps
    (path : NodeId) : Edit Bool := do
  let plan ← get
  if plan.kind path ≠ .pathExpr then return false
  match plan.mergeable? (plan.children path) with
  | none => return false
  | some (index, test) =>
      let test ← Edit.copy test
      let axis ← Edit.add .axisSpec (.axis .descendant) []
      let merged ← Edit.addWith .stepExpr .none [axis, test]
      let _ ← Edit.remove path (index + 1)
      let _ ← Edit.replaceChild path index merged
      return true

/- Merge steps until no path has two that can be. -/
def stepMerge : Pass where
  name := "step-merge"
  transform := mergeSteps

end Pass

end Flwor
