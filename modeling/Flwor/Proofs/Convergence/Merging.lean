import Flwor.Proofs.Arena.Loose
import Flwor.Proofs.Convergence.Measures
import Flwor.Proofs.Convergence.Traversals
import Flwor.Proofs.Hoisting.Edits
import Flwor.Proofs.Joins.Unnesting
import Flwor.Proofs.Rewriting.Merging
import Flwor.Proofs.Rewriting.PathSteps

/-
  Each merge of two path steps leaves one step less.

  The new step takes a copy of what the second one tests, so
  that the steps in the copy stand for those that leave the
  plan with it.

  Key definitions include:
    * `Plan.StepsMerged`

  Key theorems include:
    * `Plan.Loose.achieves_install`
    * `Pass.run_mergeSteps`
    * `Pass.descends_stepMerge`
-/

------------------------------------------------------------
-- Copies
------------------------------------------------------------

namespace Flwor

namespace Plan

namespace Loose

open Edit

variable {plan : Plan}
variable {xs : List NodeId}
variable {p : NodeId}
variable {k : Kind}
variable {q : Payload}
variable {ps : Properties}
variable {ts : List Tree}

/- Documents are installed one after the other. -/
theorem achieves_installAll
    {ds : List Document}
    (hEach : ∀ d ∈ ds, ∀ (plan : Plan) (xs : List NodeId),
      plan.Loose xs →
        (install d).Achieves plan (fun id after =>
          ∃ t : Tree, t.id = id ∧ t.document = d ∧
            after.Loose (id :: xs) ∧ plan.Alters ∅ after ∧
            after.Holds t ∧ ∀ x ∈ t.ids, plan.size ≤ x))
    (hLoose : plan.Loose xs)
    (hStands : plan.Stands (.node p k q ps ts))
    (hHolds : ∀ t ∈ ts, plan.Holds t ∧ p ∉ t.ids) :
    (installAll p ds).Achieves plan (fun _ after =>
      ∃ us, Tree.documentAll us = ds ∧ after.Loose xs ∧
        plan.Alters {p} after ∧
        after.Stands (.node p k q ps (ts ++ us)) ∧
        (∀ t ∈ ts ++ us, after.Holds t ∧ p ∉ t.ids) ∧
        ∀ u ∈ us, ∀ x ∈ u.ids, plan.size ≤ x) := by
  induction ds generalizing plan ts with
  | nil =>
      rw [installAll]
      refine achieves_return ⟨[], rfl, hLoose,
        ⟨hLoose.sound, rfl, le_rfl, fun _ _ h => h⟩, ?_, ?_,
        List.forall_mem_nil _⟩
      · rw [List.append_nil]
        exact hStands
      · rw [List.append_nil]
        exact hHolds
  | cons d ds ih =>
      rw [installAll]
      rw [List.forall_mem_cons] at hEach
      refine (hEach.1 plan xs hLoose).bind ?_
      rintro _ middle
        ⟨t, rfl, hDocument, hMiddle, hAdded, hT, hNew⟩
      have hApart : p ∉ t.ids :=
        fun hMem => (hNew p hMem).not_gt hStands.lt
      refine (hMiddle.achieves_append
        (hAdded.spared _ id hStands)).bind ?_
      rintro _ put ⟨hPut, hAlters, hHere⟩
      have hKept (u : Tree) (hU : middle.Holds u ∧ p ∉ u.ids) :
          put.Holds u ∧ p ∉ u.ids := by
        refine ⟨hAlters.holds hU.1 ?_, hU.2⟩
        rintro x hX rfl
        exact hU.2 hX
      refine (ih hEach.2 hPut hHere ?_).mono ?_
      · intro u hU
        rcases List.mem_append.mp hU with hU | hU
        · exact hKept u ⟨hAdded.holds (hHolds u hU).1
            (fun _ _ => id), (hHolds u hU).2⟩
        · cases List.mem_singleton.mp hU
          exact hKept t ⟨hT, hApart⟩
      · rintro _ after ⟨us, hDocuments, hAfter, hRest, hDone,
          hAll, hLater⟩
        rw [List.append_assoc] at hDone hAll
        refine ⟨t :: us, ?_, hAfter, ?_, hDone, hAll, ?_⟩
        · rw [Tree.documentAll, hDocument, hDocuments]
        · refine ((hAdded.trans hAlters).trans hRest).narrow ?_
          rintro x ((hX | hX) | hX) _
          · exact hX.elim
          · exact hX
          · exact hX
        · refine List.forall_mem_cons.mpr ⟨hNew, ?_⟩
          exact fun u hU x hX =>
            (hAdded.trans hAlters).size.trans
              (hLater u hU x hX)

/- A document becomes a loose tree of new nodes. -/
theorem achieves_install
    (d : Document)
    (hLoose : plan.Loose xs) :
    (install d).Achieves plan (fun id after =>
      ∃ t : Tree, t.id = id ∧ t.document = d ∧
        after.Loose (id :: xs) ∧ plan.Alters ∅ after ∧
        after.Holds t ∧ ∀ x ∈ t.ids, plan.size ≤ x) := by
  induction d using Document.induction generalizing plan xs with
  | node k q ds ps ih =>
      rw [install]
      refine ((hLoose.achieves_add k q ps).ensuring
        (ensures_add hLoose.sound k q ps)).bind ?_
      rintro _ middle
        ⟨⟨rfl, hMiddle, hAdded⟩, _, _, _, hNew⟩
      refine (achieves_installAll
        (fun d hD plan xs hLoose => ih d hD hLoose) hMiddle
        hNew (List.forall_mem_nil _)).bind ?_
      rintro _ after
        ⟨us, hDocuments, hAfter, hRest, hHere, hAll, hLater⟩
      rw [List.nil_append] at hHere hAll
      refine achieves_return ⟨.node plan.size k q ps us, rfl,
        ?_, hAfter, (hAdded.trans hRest).narrow ?_,
        holds_node hHere (fun u hU => (hAll u hU).1), ?_⟩
      · rw [Tree.document, hDocuments]
      · rintro x (hX | rfl) hLt
        · exact hX
        · exact (lt_irrefl _ hLt).elim
      · intro x hX
        rw [Tree.ids, List.mem_cons, Tree.mem_idsAll_iff]
          at hX
        rcases hX with rfl | ⟨u, hU, hX⟩
        · exact le_rfl
        · exact hAdded.size.trans (hLater u hU x hX)

end Loose

end Plan

end Flwor

------------------------------------------------------------
-- Merged Steps
------------------------------------------------------------

namespace Flwor

/- Two neighbors in a list, with what is around them. -/
theorem exists_of_neighbors
    {α : Type}
    {cs : List α}
    {index : Nat}
    {a b : α}
    (hFirst : cs[index]? = some a)
    (hSecond : cs[index + 1]? = some b) :
    ∃ before after, cs = before ++ a :: b :: after ∧
      before.length = index := by
  induction index generalizing cs with
  | zero =>
      rcases cs with _ | ⟨c, _ | ⟨d, rest⟩⟩
      · cases hFirst
      · cases hSecond
      · cases hFirst
        cases hSecond
        exact ⟨[], rest, rfl, rfl⟩
  | succ index ih =>
      rcases cs with _ | ⟨c, cs⟩
      · cases hFirst
      rcases ih hFirst hSecond with
        ⟨before, after, rfl, hLength⟩
      exact ⟨c :: before, after, rfl,
        congrArg (· + 1) hLength⟩

/- In a path a new step stands for two that were merged. -/
inductive Plan.StepsMerged
    (plan : Plan)
    (path : NodeId) : Plan → Prop where
  | intro
      {p : Payload}
      {ps : Properties}
      {before rest : List Tree}
      {first second test step : Tree}
      {after : Plan}
      (hPath : .node path .pathExpr p ps
          (before ++ first :: second :: rest) ∈
        plan.rootTree.subtrees)
      (hFirst : plan.isAnyDescendantStep first.id)
      (hSecond : plan.isChildStep second.id)
      (hTest : second.children[1]? = some test)
      (hStep : step.document =
        .descendantStep test.document)
      (hSound : after.Sound)
      (hTree : after.rootTree =
        plan.rootTree.mapAt path (fun _ =>
          .node path .pathExpr p ps
            (before ++ step :: rest))) :
      StepsMerged plan path after

namespace Pass

open Plan

variable {plan : Plan}
variable {path : NodeId}
variable {p : Payload}
variable {ps : Properties}
variable {cs : List Tree}
variable {first second test : Tree}

/- The number of steps in a tree, and in that of a plan. -/
abbrev stepCount : Tree → Nat :=
  Tree.tally (fun k _ => k = .stepExpr)

abbrev planSteps
    (plan : Plan) : Nat :=
  stepCount plan.rootTree

/- A copy of a test goes into a loose step of its own. -/
theorem achieves_newStep
    {next : NodeId → Edit Bool}
    {post : Bool → Plan → Prop}
    (hSound : plan.Sound)
    (hTest : plan.tree test.id = test)
    (hNext : ∀ (t : Tree) (after : Plan),
      after.Loose [t.id] → plan.Alters ∅ after →
      after.Holds t →
      t.document = .descendantStep test.document →
      (∀ x ∈ t.ids, plan.size ≤ x) →
      (next t.id).Achieves after post) :
    Achieves (do
        let copied ← Edit.copy test.id
        let axis ← Edit.add .axisSpec (.axis .descendant) []
        let step ← Edit.addWith .stepExpr .none
          [axis, copied]
        next step) plan post := by
  have hCopied : (Edit.copy test.id).Achieves plan
      (fun id after => ∃ t : Tree, t.id = id ∧
        t.document = test.document ∧ after.Loose [id] ∧
        plan.Alters ∅ after ∧ after.Holds t ∧
        ∀ x ∈ t.ids, plan.size ≤ x) := by
    refine achieves_get_bind ?_
    rw [document, hTest]
    exact hSound.loose.achieves_install test.document
  refine hCopied.bind ?_
  rintro _ middle ⟨t, rfl, hSame, hLoose, hAdded, hT, hNew⟩
  refine ((hLoose.achieves_add .axisSpec
    (.axis .descendant) []).ensuring
      (Edit.ensures_add hLoose.sound .axisSpec
        (.axis .descendant) [])).bind ?_
  rintro _ both
    ⟨⟨rfl, hBoth, hAxis⟩, _, _, _, hSpec⟩
  have hParts : ∀ u ∈ [Tree.node middle.size .axisSpec
      (.axis .descendant) [] [], t], both.Holds u :=
    forall_mem_pair (holds_leaf hSpec)
      (hAxis.holds hT (fun _ _ => id))
  have hPerm : ([middle.size, t.id] ++ []).Perm
      [middle.size, t.id] :=
    List.Perm.refl _
  refine ((hBoth.achieves_addWith hPerm
    .stepExpr .none).ensuring
      (Edit.ensures_addWith hBoth.sound .stepExpr .none
        hParts rfl)).bind ?_
  rintro _ after ⟨⟨rfl, hAfter, hStep⟩, _, _, _, hTree⟩
  have hSize := hAdded.size.trans hAxis.size
  refine hNext (.node both.size .stepExpr .none []
      [.node middle.size .axisSpec (.axis .descendant) [] [],
        t]) after hAfter
    (((hAdded.trans hAxis).trans hStep).narrow ?_) hTree ?_ ?_
  · rintro x ((hX | hX) | hX) _ <;> exact hX
  · simp [Tree.document, Tree.documentAll, hSame,
      Document.descendantStep, Document.branch,
      Document.carrying]
  · intro x hX
    simp only [Tree.ids, Tree.idsAll, List.mem_cons,
      List.mem_append, List.not_mem_nil, or_false] at hX
    rcases hX with rfl | rfl | hX
    · exact hSize
    · exact hAdded.size
    · exact hNew x hX

/- The new step takes the place of two of a path. -/
theorem achieves_mergedStep
    {middle : Plan}
    {t : Tree}
    {before after : List Tree}
    (hSound : plan.Sound)
    (hPath : .node path .pathExpr p ps
        (before ++ first :: second :: after) ∈
      plan.rootTree.subtrees)
    (hAlters : plan.Alters ∅ middle)
    (hLoose : middle.Loose [t.id])
    (hT : middle.Holds t)
    (hNew : ∀ x ∈ t.ids, plan.size ≤ x) :
    (do
      let _ ← Edit.remove path (before.length + 1)
      let _ ← Edit.replaceChild path before.length t.id
      return true : Edit Bool).Achieves middle
        (fun done last => done = true ∧ last.Sound ∧
          last.rootTree = plan.rootTree.mapAt path (fun _ =>
            .node path .pathExpr p ps
              (before ++ t :: after))) := by
  rcases hSound.holds_rootTree with ⟨_, hHolds, hNodup⟩
  have hHere := hHolds.subtree hPath
  have hApart (c : Tree)
      (hC : c ∈ before ++ first :: second :: after) :
      path ∉ c.ids := by
    have hTop :=
      (List.nodup_cons.mp
        (Tree.nodup_ids_of_subtree hNodup hPath)).1
    exact fun hMem =>
      hTop (Tree.mem_idsAll_iff.mpr ⟨c, hC, hMem⟩)
  have hLt : path < plan.size := hHere.self.lt
  refine (hLoose.achieves_remove (t := second)
    (hAlters.spared _ id hHere.self) (by simp)).bind ?_
  rintro _ cut ⟨rfl, hCut, hTaken, hStands⟩
  rw [List.eraseIdx_append_of_length_le (by omega),
    Nat.add_sub_cancel_left] at hStands
  have hFree : cut.Detached t.id :=
    hCut.detached t.id (by simp)
  have hPlace : cut.child? path before.length =
      some first.id := by
    rw [child?, hStands.links]
    simp
  refine (Edit.achieves_replaceChild hPlace hFree).bind ?_
  rintro _ _ ⟨rfl, rfl⟩
  have hPut := hCut.sound.alters_exchange hPlace hFree
  have hAll : plan.Alters {path} _ :=
    ((hAlters.trans hTaken).trans hPut).narrow (by
      rintro x ((hX | hX) | hX) _
      · exact hX.elim
      · exact hX
      · exact hX)
  refine achieves_return ⟨rfl, hPut.sound, ?_⟩
  refine hAll.rootTree_eq (s := .node path .pathExpr p ps
      (before ++ first :: second :: after)) hSound
    (fun r hR => Tree.around_ne hR) (holds_node ?_ ?_) rfl
  · refine (hCut.sound.stands_exchange hPlace hFree).2 _ _ _
      _ _ _ hStands ?_
    rw [← hStands.links,
      ← set_eq_map hCut.sound.linked hPlace, hStands.links]
    simp
  · intro c hC
    have hOld (hC : c ∈ before ++ first :: second :: after) :
        (cut.exchange path before.length first.id t.id).Holds
          c := by
      refine hAll.holds (hHere.child hC) ?_
      rintro x hX rfl
      exact hApart c hC hX
    rcases List.mem_append.mp hC with hC | hC
    · exact hOld (List.mem_append_left _ hC)
    rcases List.mem_cons.mp hC with rfl | hC
    · refine hPut.holds (hTaken.holds hT ?_) ?_
      · rintro x hX rfl
        exact (hNew _ hX).not_gt hLt
      · rintro x hX rfl
        exact (hNew _ hX).not_gt hLt
    · exact hOld (by simp [hC])

/- The copied test stands for the one that leaves. -/
theorem stepCount_merged
    {before after : List Tree}
    {t : Tree}
    (hFirst : first.kind = .stepExpr)
    (hSecond : second.kind = .stepExpr)
    (hTest : test ∈ second.children)
    (hStep : t.document = .descendantStep test.document) :
    stepCount (.node path .pathExpr p ps
        (before ++ t :: after)) <
      stepCount (.node path .pathExpr p ps
        (before ++ first :: second :: after)) := by
  have hCount : stepCount t = stepCount test + 1 := by
    have hSame : t.document =
        (Tree.node 0 .stepExpr .none [] [.node 0 .axisSpec
          (.axis .descendant) [] [], test]).document :=
      hStep
    rw [stepCount, Tree.tally_eq_of_document hSame]
    simp [Tree.tally_node]
  have hFirstOne : 0 < stepCount first := by
    rcases first with ⟨j, l, q, qs, ds⟩
    cases hFirst
    rw [stepCount, Tree.tally_node]
    simp
  have hSecondMore : stepCount test < stepCount second := by
    rcases second with ⟨j, l, q, qs, ds⟩
    cases hSecond
    have hLe : stepCount test ≤ (ds.map stepCount).sum :=
      List.le_sum_of_mem (List.mem_map_of_mem hTest)
    rw [stepCount, Tree.tally_node]
    simpa using Nat.lt_succ_of_le hLe
  simp only [stepCount, Tree.tally_node, List.map_append,
    List.map_cons, List.sum_append, List.sum_cons]
    at hCount hFirstOne hSecondMore ⊢
  omega

/- A path has no mergeable steps, or the first two merge. -/
theorem run_mergeSteps
    (hSound : plan.Sound)
    (hReach : plan.Reaches path) :
    ((mergeSteps path).run plan = (.ok false, plan) ∧
      (plan.kind path = .pathExpr →
        plan.mergeable? (plan.children path) = none)) ∨
      ∃ after,
        (mergeSteps path).run plan = (.ok true, after) ∧
          plan.StepsMerged path after := by
  rcases hSound.exists_of_reaches hReach with
    ⟨⟨i, k, p, ps, cs⟩, hPath, rfl⟩
  rcases hSound.holds_rootTree with ⟨hTop, hHolds, hNodup⟩
  have hHere := hHolds.subtree hPath
  have hKindHere : plan.kind i = k := hHere.self.kind
  have hTree (s : Tree) (hS : s ∈ plan.rootTree.subtrees) :
      plan.tree s.id = s :=
    hHolds.tree_eq hSound.linked hTop hS
  rw [Tree.id]
  unfold mergeSteps
  rw [Edit.run_get_bind]
  split
  · next hKind =>
      exact .inl ⟨rfl, fun hPathKind => (hKind hPathKind).elim⟩
  next hKind =>
  rw [ne_eq, not_not, hKindHere] at hKind
  subst hKind
  split
  · next hNone => exact .inl ⟨rfl, fun _ => hNone⟩
  next index test hMerge =>
  rcases mergeable?_eq_some hMerge with
    ⟨one, two, hOne, hTwo, hAny, hChild, hTest⟩
  rw [hHere.self.links, List.getElem?_map,
    Option.map_eq_some_iff] at hOne hTwo
  rcases hOne with ⟨first, hFirst, rfl⟩
  rcases hTwo with ⟨second, hSecond, rfl⟩
  rcases exists_of_neighbors hFirst hSecond with
    ⟨before, rest, rfl, rfl⟩
  have hSecondHolds := hHere.child
    (List.mem_of_getElem? hSecond)
  rw [child?, hSecondHolds.self.children, List.getElem?_map,
    Option.map_eq_some_iff] at hTest
  rcases hTest with ⟨tested, hTested, rfl⟩
  have hTestTree := hTree tested
    (Tree.mem_subtrees_trans
      (Tree.mem_subtrees_of_child
        (List.mem_of_getElem? hTested)
        (Tree.mem_subtrees_self _))
      (Tree.mem_subtrees_trans (Tree.mem_subtrees_of_child
        (List.mem_of_getElem? hSecond)
        (Tree.mem_subtrees_self _)) hPath))
  have hMerged : Achieves (do
      let copied ← Edit.copy tested.id
      let axis ← Edit.add .axisSpec (.axis .descendant) []
      let merged ← Edit.addWith .stepExpr .none
        [axis, copied]
      let _ ← Edit.remove i (before.length + 1)
      let _ ← Edit.replaceChild i before.length merged
      return true) plan (fun done last => done = true ∧
        plan.StepsMerged i last) := by
    refine achieves_newStep hSound hTestTree ?_
    intro t middle hLoose hAlters hT hStep hNew
    refine (achieves_mergedStep hSound hPath hAlters hLoose
      hT hNew).mono ?_
    rintro _ last ⟨rfl, hLast, hEq⟩
    exact ⟨rfl, .intro hPath hAny hChild hTested hStep hLast
      hEq⟩
  rcases hMerged with ⟨_, after, hRun, rfl, hAfter⟩
  exact .inr ⟨after, hRun, hAfter⟩

/- A path either has no mergeable steps, or loses one. -/
theorem descends_stepMerge :
    stepMerge.Descends Plan.Sound (Lowers planSteps) := by
  intro plan path hSound hReach
  rcases run_mergeSteps hSound hReach with
    ⟨hRun, _⟩ | ⟨after, hRun, hMerged⟩
  · exact .inl hRun
  cases hMerged with
  | intro hPath hFirst hSecond hTest hStep hAfter hTree =>
      rcases hSound.holds_rootTree with ⟨_, hHolds, hNodup⟩
      have hHere := hHolds.subtree hPath
      have hOneKind := kind_of_isAnyDescendantStep hFirst
      have hTwoKind := kind_of_stepsAlong hSecond
      rw [(hHere.child (by simp)).self.kind] at hOneKind
      rw [(hHere.child (by simp)).self.kind] at hTwoKind
      refine .inr ⟨after, hRun, hAfter, ?_⟩
      rw [Lowers, planSteps, hTree]
      exact Tree.congruent_tally.mapAt hNodup hPath
        (stepCount_merged hOneKind hTwoKind
          (List.mem_of_getElem? hTest) hStep)

end Pass

end Flwor
