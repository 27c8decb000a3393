import Flwor.Pass.MatchOrder
import Flwor.Pass.Steps
import Flwor.Proofs.Rewriting.Copies
import Flwor.Proofs.Rewriting.Fixpoints

/-
  The two passes that leave pipelines as they are: path
  steps are merged into a new step, and joins are marked.

  Key theorems include:
    * `Pass.keeps_stepMerge`
    * `Pass.keeps_joinSortElimination`
-/

------------------------------------------------------------
-- Merged Steps
------------------------------------------------------------

namespace Flwor

namespace Plan

variable {plan : Plan}
variable {id step test : NodeId}
variable {steps : List NodeId}
variable {index : Nat}

theorem kind_of_stepsAlong
    {axis : Axis}
    (hAlong : plan.stepsAlong axis step) :
    plan.kind step = .stepExpr := by
  simp only [stepsAlong, Bool.and_eq_true,
    decide_eq_true_eq] at hAlong
  exact hAlong.1.1

theorem kind_of_isAnyDescendantStep
    (hAny : plan.isAnyDescendantStep step) :
    plan.kind step = .stepExpr := by
  rw [isAnyDescendantStep, Bool.and_eq_true] at hAny
  exact kind_of_stepsAlong hAny.1

/- Where two steps can be merged. -/
theorem mergeable?_eq_some
    (hMerge : plan.mergeable? steps = some (index, test)) :
    ∃ first second, steps[index]? = some first ∧
      steps[index + 1]? = some second ∧
      plan.isAnyDescendantStep first ∧
      plan.isChildStep second ∧
      plan.child? second 1 = some test := by
  rw [mergeable?, Option.bind_eq_some_iff] at hMerge
  rcases hMerge with ⟨⟨⟨first, second⟩, i⟩, hFind, hTest⟩
  rw [Option.map_eq_some_iff] at hTest
  rcases hTest with ⟨_, hTest, hEq⟩
  cases hEq
  have hSteps := List.find?_some hFind
  rw [Bool.and_eq_true] at hSteps
  have hMem := List.mem_of_find?_eq_some hFind
  rw [List.mk_mem_zipIdx_iff_getElem?,
    List.getElem?_zip_eq_some, List.getElem?_drop,
    Nat.add_comm] at hMem
  exact ⟨first, second, hMem.1, hMem.2, hSteps.1, hSteps.2,
    hTest⟩

/- All that paths ask for is that their steps are plain. -/
theorem proper_path_iff
    (hKind : plan.kind id = .pathExpr) :
    plan.Proper id ↔
      ∀ c ∈ plan.children id, (plan.kind c).isPlain := by
  have hKinds : (∀ k ∈ plan.childKinds id, k.isPlain) ↔
      ∀ c ∈ plan.children id, (plan.kind c).isPlain := by
    rw [childKinds, List.forall_mem_map]
  rw [← hKinds, Proper, hKind]
  exact ⟨fun hProper => hProper.plain,
    fun hPlain => ⟨trivial, hPlain⟩⟩

/- What a step tests or goes to is plain. -/
theorem isPlain_of_step
    (hProper : plan.Proper step)
    (hKind : plan.kind step = .stepExpr)
    (hTest : plan.child? step index = some test) :
    (plan.kind test).isPlain := by
  rw [Proper, hKind] at hProper
  exact hProper.plain _
    (List.mem_map_of_mem (mem_children_of_child? hTest))

end Plan

namespace Pass

open Plan

variable {plan : Plan}
variable {path test : NodeId}
variable {index : Nat}

/-
  A copy of the test goes into a step of its own, beside the
  plan as it is.
-/
theorem achieves_copyStep
    {α : Type}
    {next : NodeId → Edit α}
    {post : α → Plan → Prop}
    (hFormed : plan.WellFormed)
    (hReach : plan.Reaches test)
    (hPlain : (plan.kind test).isPlain)
    (axis : Axis)
    (hNext : ∀ merged after,
      plan.Surgery ∅ after → plan.Edited ∅ ∅ after →
        plan.size ≤ merged → after.Detached merged →
          after.kind merged = .stepExpr →
            (next merged).Achieves after post) :
    (do
      let test ← Edit.copy test
      let axis ← Edit.add .axisSpec (.axis axis) []
      let merged ← Edit.addWith .stepExpr .none [axis, test]
      next merged : Edit α).Achieves plan post := by
  refine (hFormed.surgery.achieves_copy hFormed
    hReach).bind ?_
  rintro copied plan₁
    ⟨hSurgery₁, hEdited₁, hCopied, hCopiedNew, hCopiedKind⟩
  have hAxisProper : Kind.axisSpec.Proper (.axis axis) [] :=
    .leaf rfl
  refine (hSurgery₁.achieves_add [] hAxisProper).bind ?_
  rintro spec plan₂ ⟨hSurgery₂, hAxis⟩
  have hNe : copied ≠ spec := hAxis.ne_of_lt hCopied.lt
  have hCopied₂ : plan₂.Detached copied :=
    hAxis.edited.detached hCopied (by simp)
  have hEdited₂ : plan.Edited ∅ ∅ plan₂ :=
    hAxis.edited_of hEdited₁ (by simp)
  have hStepProper : Kind.stepExpr.Proper .none
      ([spec, copied].map plan₂.kind) := by
    rw [List.map_cons, List.map_singleton, hAxis.kind,
      hAxis.edited.kind copied hCopied.lt, hCopiedKind]
    exact ⟨⟨_, _, rfl⟩, forall_mem_pair rfl hPlain⟩
  refine (hSurgery₂.achieves_addWith
    (forall_mem_pair (hSurgery₁.live_of_new hAxis.size_le)
      (live_of_size_le hCopiedNew))
    (forall_mem_pair hAxis.detached hCopied₂)
    (by simp [Ne.symm hNe]) hStepProper).bind ?_
  rintro merged plan₃ ⟨hSurgery₃, hMerged⟩
  refine hNext merged plan₃ hSurgery₃ ?_
    (Nat.le_trans hEdited₂.size hMerged.size_le)
    hMerged.detached hMerged.kind
  exact hMerged.edited_of hEdited₂ (forall_mem_pair
    (fun hOld =>
      (hAxis.ne_of_lt (hEdited₁.lt hOld) rfl).elim)
    (fun hOld => (Nat.not_lt.mpr hCopiedNew hOld).elim))

/- A step takes the place of two that follow each other. -/
theorem achieves_putStep
    {before : Plan}
    {first second merged : NodeId}
    (hFormed : before.WellFormed)
    (hReach : before.Reaches path)
    (hKind : before.kind path = .pathExpr)
    (hFirst : before.child? path index = some first)
    (hSecond :
      before.child? path (index + 1) = some second)
    (hFirstKind : before.kind first = .stepExpr)
    (hSurgery : before.Surgery ∅ plan)
    (hEdited : before.Edited ∅ ∅ plan)
    (hNew : before.size ≤ merged)
    (hMerged : plan.Detached merged)
    (hMergedKind : plan.kind merged = .stepExpr) :
    (do
      let _ ← Edit.remove path (index + 1)
      let _ ← Edit.replaceChild path index merged
      return true : Edit Bool).Achieves plan
        before.Rewritten := by
  have hPathLt := hFormed.lt_of_reaches hReach
  have hChildren : plan.children path = before.children path :=
    hEdited.children path hPathLt (by simp)
  have hSecondHere :
      plan.child? path (index + 1) = some second := by
    rw [child?, hChildren]
    exact hSecond
  refine (hSurgery.achieves_remove hSecondHere).bind ?_
  rintro _ cut ⟨rfl, hSurgeryCut, hCut⟩
  have hKindCut (x : NodeId) (hX : x < before.size) :
      cut.kind x = before.kind x := by
    rw [hCut.edited.kind x (hEdited.lt hX),
      hEdited.kind x hX]
  -- Without its second step the path is a path.
  have hPathProper : cut.Proper path := by
    have hBefore := (proper_path_iff hKind).mp
      (hFormed.proper path hReach)
    refine (proper_path_iff
      ((hKindCut path hPathLt).trans hKind)).mpr ?_
    intro c hC
    rw [hCut.children, hChildren] at hC
    have hMem := List.mem_of_mem_eraseIdx hC
    rw [hKindCut c (hFormed.linked.lt_of_mem hMem)]
    exact hBefore c hMem
  have hFirstCut : cut.child? path index = some first := by
    rw [child?, hCut.children, hChildren,
      List.getElem?_eraseIdx_of_lt (Nat.lt_succ_self _)]
    exact hFirst
  have hSecondLt := hFormed.linked.lt_of_mem
    (mem_children_of_child? hSecond)
  have hNe : merged ≠ second :=
    (Nat.lt_of_lt_of_le hSecondLt hNew).ne'
  have hMergedCut : cut.Detached merged :=
    hCut.edited.detached hMerged (by simpa using hNe)
  have hAlike :
      (cut.kind first).Alike (cut.kind merged) := by
    rw [hKindCut first (hFormed.linked.lt_of_mem
      (mem_children_of_child? hFirst)), hFirstKind,
      hCut.edited.kind merged hMerged.lt, hMergedKind]
    exact .same _
  refine ((hSurgeryCut.mend
    hPathProper).achieves_replaceChild hFirstCut hMergedCut
      (live_of_size_le hNew) hAlike).bind ?_
  intro _ after hSurgeryAfter
  exact achieves_return (.of_changed
    (hSurgeryAfter.wellFormed_of_empty hFormed (by simp)))

/- The two steps make way for the new one. -/
theorem achieves_mergeSteps
    (hFormed : plan.WellFormed)
    (hReach : plan.Reaches path) :
    (mergeSteps path).Achieves plan plan.Rewritten := by
  refine achieves_get_bind ?_
  split
  · exact hFormed.achieves_nothing
  next hKind =>
  rw [ne_eq, not_not] at hKind
  split
  · exact hFormed.achieves_nothing
  next index test hMerge =>
  rcases mergeable?_eq_some hMerge with
    ⟨first, second, hFirst, hSecond, hAny, hChild, hTest⟩
  have hSecondReach :=
    hReach.child (List.mem_of_getElem? hSecond)
  have hPlain : (plan.kind test).isPlain :=
    isPlain_of_step (hFormed.proper second hSecondReach)
      (kind_of_stepsAlong hChild) hTest
  refine achieves_copyStep hFormed
    (hSecondReach.child (mem_children_of_child? hTest))
    hPlain .descendant ?_
  intro merged after hSurgery hEdited hNew hMerged
    hMergedKind
  exact achieves_putStep hFormed hReach hKind hFirst hSecond
    (kind_of_isAnyDescendantStep hAny) hSurgery hEdited hNew
    hMerged hMergedKind

theorem keeps_stepMerge :
    stepMerge.Keeps :=
  fun _ _ hFormed hReach => achieves_mergeSteps hFormed hReach

end Pass

end Flwor

------------------------------------------------------------
-- Marked Joins
------------------------------------------------------------

namespace Flwor

namespace Pass

/- A mark is no change of the structure. -/
theorem keeps_joinSortElimination
    (blind : OrderBlind) :
    (joinSortElimination blind).Keeps := by
  intro plan join hFormed _
  refine achieves_get_bind ?_
  dsimp only
  split
  · refine (Edit.achieves_setProperty join
      Properties.skipSort (.flag true)).bind ?_
    exact fun _ after hSame =>
      achieves_return (.of_sameLinks hFormed hSame)
  · exact hFormed.achieves_nothing

end Pass

end Flwor
