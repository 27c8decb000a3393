import Flwor.Proofs.Convergence.Grouping
import Flwor.Proofs.Convergence.Lifting
import Flwor.Proofs.Convergence.Marks
import Flwor.Proofs.Convergence.Merging
import Flwor.Proofs.Convergence.Unnesting
import Flwor.Proofs.Rewriting.Validity

/-
  Each pass reaches its fixpoint on each valid plan.

  The number of its changes is bounded by what there is to
  change in the plan: steps to merge, pipelines to extract
  and to join, `let` bindings to take out of pipelines and
  loops, and groupings to emit.  Marks are no changes.

  Key theorems include:
    * `Plan.upright_of_validate`
    * `Pass.reaches_fixpoint`
-/

------------------------------------------------------------
-- All Passes
------------------------------------------------------------

namespace Flwor

variable {plan : Plan}

/- A valid plan is in order if its root is no stage. -/
theorem Plan.upright_of_validate
    (hLinked : plan.Linked)
    (hValid : plan.validate = .ok ())
    (hRoot : (plan.kind plan.root).isStage = false) :
    plan.Upright := by
  have hSound : plan.Sound :=
    ⟨hLinked, root_lt_of_validate hValid⟩
  have hTop : plan.rootTree.kind = plan.kind plan.root := by
    rw [rootTree, tree, kind_treeWithin]
  exact { sound := hSound, top := hTop ▸ hRoot,
          shaped := shaped_of_validate hValid }

/-
  On a valid plan whose root is no stage each pass reaches
  its fixpoint, within as many changes as there are steps to
  merge, twice as many as there are pipelines to unnest, as
  many as there are pipelines and loops around each `let`,
  as many as there are pending groupings, or none at all.
-/
theorem Pass.reaches_fixpoint
    (hLinked : plan.Linked)
    (hValid : plan.validate = .ok ())
    (hRoot : (plan.kind plan.root).isStage = false) :
    stepMerge.ConvergesWithin plan
        (plan.rootTree.tally (fun k _ => k = .stepExpr)) ∧
      unnest.ConvergesWithin plan
        (2 * plan.rootTree.tally
          (fun k _ => k = .pipeExpr)) ∧
      letLift.ConvergesWithin plan (plan.rootTree.load 0) ∧
      groupEmission.ConvergesWithin plan
        (plan.rootTree.tally (fun k ps => k = .join
          && (ps.get? Properties.regroup).isSome)) ∧
      ∀ blind, (joinSortElimination blind).ConvergesWithin
        plan 0 := by
  have hUpright := Plan.upright_of_validate hLinked hValid
    hRoot
  refine ⟨?_, ?_, ?_, ?_, fun blind => ?_⟩
  · exact descends_stepMerge.converges_within hUpright.sound
  · rcases descends_unnest.converges_within hUpright with
      ⟨changes, result, hConverges, hLe⟩
    exact ⟨changes, result, hConverges,
      hLe.trans (Tree.pipeWork_le le_rfl plan.rootTree)⟩
  · exact descends_letLift.converges_within hUpright
  · exact descends_groupEmission.converges_within
      hUpright.toAnchored
  · rcases converges_joinSortElimination blind plan with
      ⟨result, _, hConverges⟩
    exact ⟨0, result, hConverges, le_rfl⟩

/- Two changes per pipeline suffice for a nested loop. -/
theorem Pass.reaches_fixpoint_nestedPlan :
    Plan.ofDocument Plan.nestedLoop = .ok Plan.nestedPlan ∧
      Plan.nestedPlan.validate = .ok () ∧
      (Plan.nestedPlan.kind Plan.nestedPlan.root).isStage =
        false ∧
      stepMerge.ConvergesWithin Plan.nestedPlan 0 ∧
      unnest.ConvergesWithin Plan.nestedPlan 4 ∧
      letLift.ConvergesWithin Plan.nestedPlan 2 ∧
      groupEmission.ConvergesWithin Plan.nestedPlan 0 ∧
      ∀ blind, (joinSortElimination blind).ConvergesWithin
        Plan.nestedPlan 0 := by
  have hPlan :
      Plan.ofDocument Plan.nestedLoop =
        .ok Plan.nestedPlan := by
    decide +kernel
  have hValid : Plan.nestedPlan.validate = .ok () := by
    decide +kernel
  have hRoot : (Plan.nestedPlan.kind
      Plan.nestedPlan.root).isStage = false := by
    decide +kernel
  have hSteps : Plan.nestedPlan.rootTree.tally
      (fun k _ => k = .stepExpr) = 0 := by
    decide +kernel
  have hPipes : Plan.nestedPlan.rootTree.tally
      (fun k _ => k = .pipeExpr) = 2 := by
    decide +kernel
  have hLoad : Plan.nestedPlan.rootTree.load 0 = 2 := by
    decide +kernel
  have hPending : Plan.nestedPlan.rootTree.tally
      (fun k ps => k = .join
        && (ps.get? Properties.regroup).isSome) = 0 := by
    decide +kernel
  have hReaches := reaches_fixpoint
    (Plan.linked_of_ofDocument hPlan) hValid hRoot
  rw [hSteps, hPipes, hLoad, hPending] at hReaches
  exact ⟨hPlan, hValid, hRoot, hReaches⟩

end Flwor
