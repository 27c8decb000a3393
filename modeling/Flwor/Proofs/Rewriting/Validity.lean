import Flwor.Optimizer
import Flwor.Proofs.Rewriting.Emission
import Flwor.Proofs.Rewriting.Lifting
import Flwor.Proofs.Rewriting.Merging
import Flwor.Proofs.Rewriting.Unnesting

/-
  The passes keep plans well formed, in any order and within
  any bounds.

  A plan may start out with annotations or without, and with
  nodes that are reached no more.  All that is asked of it
  is that it passes the check and that neither its root nor
  the result of a pipeline is a stage: such a stage would
  pass the check, but no rewrite could move it.

  Key definitions include:
    * `Plan.RewritesTo`

  Key theorems include:
    * `Settings.keeps_of_mem_passes`
    * `Pass.run_validate`
    * `optimize_validate`
-/

------------------------------------------------------------
-- Rewrites
------------------------------------------------------------

namespace Flwor

/- Each pass that any settings ask for. -/
theorem Settings.keeps_of_mem_passes
    {settings : Settings}
    {pass : Pass}
    (hPass : pass ∈ settings.passes) :
    pass.Keeps := by
  rw [passes, List.mem_cons] at hPass
  rcases hPass with rfl | hPass
  · exact Pass.keeps_stepMerge
  split at hPass
  · simp only [List.mem_cons, List.not_mem_nil, or_false]
      at hPass
    rcases hPass with rfl | rfl | rfl | rfl
    · exact Pass.keeps_unnest
    · exact Pass.keeps_letLift
    · exact Pass.keeps_groupEmission
    · exact Pass.keeps_joinSortElimination _
  · cases hPass

/-
  What a plan is rewritten to by passes, whatever settings
  ask for them, within whatever bounds and however they end.
-/
inductive Plan.RewritesTo
    (start : Plan) : Plan → Prop where
  | refl : start.RewritesTo start
  | run
      {plan : Plan}
      {pass : Pass}
      {settings : Settings}
      (hRewrites : start.RewritesTo plan)
      (hPass : pass ∈ settings.passes)
      (bound : Nat) :
      start.RewritesTo (pass.run bound plan).2

variable {start plan : Plan}
variable {pass : Pass}
variable {settings : Settings}

theorem Plan.RewritesTo.wellFormed
    (hRewrites : start.RewritesTo plan)
    (hFormed : start.WellFormed) :
    plan.WellFormed := by
  induction hRewrites with
  | refl => exact hFormed
  | run _ hPass bound ih =>
      exact ((Settings.keeps_of_mem_passes hPass).run bound
        ih).1

/-
  After any passes, a further one reaches its fixpoint or
  its bound, and the plan that it leaves passes the check.
-/
theorem Pass.run_validate
    (hLinked : start.Linked)
    (hValid : start.validate = .ok ())
    (hReturns : start.rootTree.ReturnsNoStage)
    (hRewrites : start.RewritesTo plan)
    (hPass : pass ∈ settings.passes)
    (bound : Nat) :
    ((∃ report, (pass.run bound plan).1 = .ok report) ∨
      (pass.run bound plan).1 =
        .error (.noFixpoint pass.name bound)) ∧
      (pass.run bound plan).2.validate = .ok () := by
  have hFormed := hRewrites.wellFormed
    (Plan.wellFormed_of_validate hLinked hValid hReturns)
  have hRun :=
    (Settings.keeps_of_mem_passes hPass).run bound hFormed
  exact ⟨hRun.2, hRun.1.validate⟩

/- The passes that settings ask for, one after the other. -/
theorem runPasses_wellFormed
    {passes : List Pass}
    (hKeeps : ∀ pass ∈ passes, pass.Keeps)
    (bound : Nat)
    (hFormed : plan.WellFormed) :
    (∃ reports after,
      runPasses bound passes plan = .ok (reports, after) ∧
        after.WellFormed) ∨
      ∃ name, runPasses bound passes plan =
        .error (.noFixpoint name bound) := by
  induction passes generalizing plan with
  | nil => exact .inl ⟨[], plan, rfl, hFormed⟩
  | cons pass rest ih =>
      rw [List.forall_mem_cons] at hKeeps
      rcases hKeeps.1.run bound hFormed with
        ⟨hAfter, hResult⟩
      rw [runPasses]
      cases hRun : pass.run bound plan with
      | mk result middle =>
          rw [hRun] at hAfter hResult
          rcases hResult with ⟨report, rfl⟩ | rfl
          · dsimp only at hAfter ⊢
            rcases ih hKeeps.2 hAfter with
              ⟨reports, after, hRest, hFormed⟩ |
                ⟨name, hRest⟩
            · exact .inl ⟨report :: reports, after,
                by rw [hRest]; rfl, hFormed⟩
            · exact .inr ⟨name, by rw [hRest]; rfl⟩
          · exact .inr ⟨pass.name, rfl⟩

/- The optimizer fails by running out of traversals only. -/
theorem optimize_validate
    (hLinked : plan.Linked)
    (hValid : plan.validate = .ok ())
    (hReturns : plan.rootTree.ReturnsNoStage)
    (settings : Settings) :
    (∃ reports after,
      optimize settings plan = .ok (reports, after) ∧
        after.validate = .ok ()) ∨
      ∃ name, optimize settings plan =
        .error (.noFixpoint name settings.maxTraversals) := by
  rcases runPasses_wellFormed
      (fun _ => Settings.keeps_of_mem_passes)
      settings.maxTraversals
      (Plan.wellFormed_of_validate hLinked hValid
        hReturns) with
    ⟨reports, after, hRun, hFormed⟩ | ⟨name, hRun⟩
  · exact .inl ⟨reports, after, hRun, hFormed.validate⟩
  · exact .inr ⟨name, hRun⟩

namespace Plan

/-
  The document of a loop over a nested loop:

    for $x in $in
    let $y := (for $z in $in where $z = $x return $z)
    return $y.
-/
def nestedLoop : Document :=
  .branch .pipeExpr
    [.branch .finish
      [.branch .letBind
        [.branch .forBind
          [.leaf .start,
           .carrying .variable (.var "x"),
           .carrying .variableRef (.var "in")],
         .carrying .variable (.var "y"),
         .branch .pipeExpr
          [.branch .finish
            [.branch .selection
              [.branch .forBind
                [.leaf .start,
                 .carrying .variable (.var "z"),
                 .carrying .variableRef (.var "in")],
               .node .comparisonExpr (.cmp (.general .eq))
                [.carrying .variableRef (.var "z"),
                 .carrying .variableRef (.var "x")] []],
             .carrying .variableRef (.var "z")]]],
       .carrying .variableRef (.var "y")]]

/- The plan of the nested loop. -/
def nestedPlan : Plan :=
  ((Edit.install nestedLoop).run empty).2

end Plan

/-
  One traversal unnests the loop but finds no fixpoint; the
  regrouping that it leaves pending is emitted after it.
-/
theorem Pass.run_nestedPlan :
    Plan.ofDocument Plan.nestedLoop = .ok Plan.nestedPlan ∧
      Plan.nestedPlan.validate = .ok () ∧
      Plan.nestedPlan.rootTree.ReturnsNoStage ∧
      ((∃ report, (groupEmission.run 4
          (unnest.run 1 Plan.nestedPlan).2).1 =
            .ok report) ∨
        (groupEmission.run 4
          (unnest.run 1 Plan.nestedPlan).2).1 =
            .error (.noFixpoint groupEmission.name 4)) ∧
      (groupEmission.run 4
        (unnest.run 1 Plan.nestedPlan).2).2.validate =
          .ok () := by
  have hPlan :
      Plan.ofDocument Plan.nestedLoop =
        .ok Plan.nestedPlan := by
    decide +kernel
  have hValid : Plan.nestedPlan.validate = .ok () := by
    decide +kernel
  have hReturns :
      Plan.nestedPlan.rootTree.ReturnsNoStage := by
    decide +kernel
  have hUnnest : unnest ∈
      ({ Settings.standard with unnest := true } :
        Settings).passes :=
    List.mem_cons_of_mem _ List.mem_cons_self
  have hEmission : groupEmission ∈
      ({ Settings.standard with unnest := true } :
        Settings).passes := by
    simp [Settings.passes]
  exact ⟨hPlan, hValid, hReturns,
    run_validate (Plan.linked_of_ofDocument hPlan) hValid
      hReturns (.run .refl hUnnest 1) hEmission 4⟩

end Flwor
