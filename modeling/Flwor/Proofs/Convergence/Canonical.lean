import Flwor.Proofs.Convergence.Merging
import Flwor.Proofs.Rewriting.Validity

/-
  Merging the steps of a plan computes its canonical form,
  with one change for each pair of steps.

  A plan finds the pairs that its document has, and a merge
  in the plan is one in the document.  A walk ends when no
  visit merges anything, and then no pair is left.

  Key theorems include:
    * `Plan.StepsMerged.merges`
    * `Pass.canonical_of_changesTo`
    * `Pass.stepMerge_canonical`
-/

------------------------------------------------------------
-- Steps of Plans
------------------------------------------------------------

namespace Flwor

namespace Tree

variable {t : Tree}

theorem children_document
    (t : Tree) :
    t.document.children = t.children.map document := by
  rcases t with ⟨i, k, p, ps, cs⟩
  exact documentAll_eq_map cs

theorem payload_document
    (t : Tree) :
    t.document.payload = t.payload := by
  rcases t with ⟨i, k, p, ps, cs⟩
  rfl

theorem congruent_merges :
    Congruent (fun t u => t.document.Merges u.document) := by
  intro i k p ps before after c d hMerges
  simp only [document, documentAll_eq_map, List.map_append,
    List.map_cons]
  exact .inside _ _ hMerges

/- Without pairs in its paths a tree has none. -/
theorem mergeablePairs_document
    (hNone : ∀ s ∈ t.subtrees, s.kind = .pathExpr →
      Document.neighborPairs (s.children.map document) = 0) :
    t.document.mergeablePairs = 0 := by
  induction t using Tree.induction with
  | node i k p ps cs ih =>
      rw [document, Document.mergeablePairs,
        Document.mergeablePairsAll_eq_sum,
        documentAll_eq_map, Nat.add_eq_zero_iff,
        List.sum_eq_zero_iff, List.map_map,
        List.forall_mem_map]
      refine ⟨?_, fun c hC => ?_⟩
      · split
        · next hPath => exact hNone _ (mem_subtrees_self _) hPath
        · rfl
      · exact ih c hC (fun s hS =>
          hNone s (mem_subtrees_of_child hC hS))

end Tree

namespace Plan

variable {plan after : Plan}
variable {path : NodeId}
variable {s : Tree}

/- The plan and the document tell the same of a child. -/
theorem map_child?
    {α : Type}
    (hHolds : plan.Holds s)
    (f : Kind → Payload → α)
    (index : Nat) :
    (plan.child? s.id index).map
        (fun c => f (plan.kind c) (plan.payload c)) =
      (s.document.children[index]?).map
        (fun d => f d.kind d.payload) := by
  rcases s with ⟨i, k, p, ps, cs⟩
  rw [child?, hHolds.self.children, Tree.children_document,
    List.getElem?_map, List.getElem?_map, Option.map_map,
    Option.map_map]
  refine Option.map_congr (fun c hC => ?_)
  have hStands :=
    (hHolds.child (List.mem_of_getElem? hC)).self
  rw [Function.comp_apply, Function.comp_apply, hStands.kind,
    hStands.payload, Tree.kind_document,
    Tree.payload_document]

theorem stepsAlong_document
    (hHolds : plan.Holds s)
    (axis : Axis) :
    plan.stepsAlong axis s.id =
      s.document.stepsAlong axis := by
  rw [stepsAlong, Document.stepsAlong, hHolds.self.kind,
    hHolds.self.children, Tree.kind_document,
    Tree.children_document, List.length_map,
    List.length_map, ← Tree.children_document]
  exact congrArg (fun o => _ && Option.getD o false)
    (map_child? hHolds (fun k p =>
      decide (k = .axisSpec) && decide (p = .axis axis)) 0)

theorem isChildStep_document
    (hHolds : plan.Holds s) :
    plan.isChildStep s.id = s.document.isChildStep :=
  stepsAlong_document hHolds .child

theorem isAnyDescendantStep_document
    (hHolds : plan.Holds s) :
    plan.isAnyDescendantStep s.id =
      s.document.isAnyDescendantStep := by
  rw [isAnyDescendantStep, Document.isAnyDescendantStep,
    stepsAlong_document hHolds]
  exact congrArg (fun o => _ && Option.getD o false)
    (map_child? hHolds (fun k _ =>
      decide (k = .kindTestAnyKind)) 1)

/- A merge in a plan is a merge in its document. -/
theorem StepsMerged.merges
    (hSound : plan.Sound)
    (hMerged : plan.StepsMerged path after) :
    (plan.document plan.root).Merges
      (after.document after.root) := by
  cases hMerged with
  | @intro p ps before rest first second test step _ hPath
      hFirst hSecond hTest hStep _ hTree =>
      rcases hSound.holds_rootTree with ⟨_, hHolds, hNodup⟩
      have hHere := hHolds.subtree hPath
      rw [isAnyDescendantStep_document
        (hHere.child (by simp))] at hFirst
      rw [isChildStep_document
        (hHere.child (by simp))] at hSecond
      change plan.rootTree.document.Merges
        after.rootTree.document
      rw [hTree]
      refine Tree.congruent_merges.mapAt hNodup hPath ?_
      simp only [Tree.document, Tree.documentAll_eq_map,
        List.map_append, List.map_cons]
      refine .here _ _ (Document.mergedStep?_eq_some_iff.mpr
        ⟨hFirst, hSecond, test.document, ?_, hStep⟩)
      rw [Tree.children_document, List.getElem?_map, hTest,
        Option.map_some]

theorem exists_test_of_isChildStep
    {step : NodeId}
    (hChild : plan.isChildStep step) :
    ∃ test, plan.child? step 1 = some test := by
  simp only [isChildStep, stepsAlong, Bool.and_eq_true,
    decide_eq_true_eq] at hChild
  rcases List.length_eq_two.mp hChild.1.2 with
    ⟨spec, test, hPair⟩
  exact ⟨test, by rw [child?, hPair]; rfl⟩

/- The search for two steps misses no pair. -/
theorem mergeable?_eq_none
    {steps : List NodeId}
    (hNone : plan.mergeable? steps = none) :
    ∀ p ∈ steps.zip (steps.drop 1),
      ¬ (plan.isAnyDescendantStep p.1
        && plan.isChildStep p.2) := by
  intro p hP hBoth
  rcases List.mem_iff_getElem?.mp hP with ⟨index, hIndex⟩
  rw [mergeable?, Option.bind_eq_none_iff] at hNone
  cases hFind : (steps.zip (steps.drop 1)).zipIdx.find?
      (fun p => plan.isAnyDescendantStep p.1.1
        && plan.isChildStep p.1.2) with
  | none =>
      rw [List.find?_eq_none] at hFind
      exact hFind (p, index)
        (List.mk_mem_zipIdx_iff_getElem?.mpr hIndex) hBoth
  | some q =>
      have hFound := List.find?_some hFind
      rw [Bool.and_eq_true] at hFound
      rcases exists_test_of_isChildStep hFound.2 with
        ⟨test, hTest⟩
      have hMissed := hNone q hFind
      rw [hTest] at hMissed
      cases hMissed

/- Where a plan finds no two steps there is no pair. -/
theorem neighborPairs_of_mergeable?
    {cs : List Tree}
    (hHolds : ∀ c ∈ cs, plan.Holds c)
    (hNone : plan.mergeable? (cs.map Tree.id) = none) :
    Document.neighborPairs (cs.map Tree.document) = 0 := by
  have hPairs := mergeable?_eq_none hNone
  rw [← List.map_drop, List.zip_map, List.forall_mem_map]
    at hPairs
  rw [Document.neighborPairs, List.countP_eq_zero,
    ← List.map_drop, List.zip_map, List.forall_mem_map]
  intro p hP
  have hMem := List.of_mem_zip hP
  have hHere := hPairs p hP
  rw [Prod.map_fst, Prod.map_snd,
    isAnyDescendantStep_document (hHolds _ hMem.1),
    isChildStep_document
      (hHolds _ (List.mem_of_mem_drop hMem.2))] at hHere
  exact hHere

end Plan

end Flwor

------------------------------------------------------------
-- The Canonical Form of a Plan
------------------------------------------------------------

namespace Flwor

namespace Pass

open Plan

variable {plan last : Plan}
variable {changes : Nat}

/- If no visit merges anything, there is no pair left. -/
theorem mergeablePairs_of_still
    (hSound : plan.Sound)
    (hStill : ∀ id, plan.Reaches id →
      stepMerge.Still plan id) :
    (plan.document plan.root).mergeablePairs = 0 := by
  rcases hSound.holds_rootTree with ⟨_, hHolds, _⟩
  refine Tree.mergeablePairs_document (fun s hS hPath => ?_)
  have hHere := hHolds.subtree hS
  have hReach := hSound.reaches_of_subtree hS
  rcases run_mergeSteps hSound hReach with
    ⟨_, hNone⟩ | ⟨after, hRun, _⟩
  · rw [hHere.self.kind, hHere.self.children] at hNone
    exact neighborPairs_of_mergeable?
      (fun c hC => hHere.child hC) (hNone hPath)
  · have hSame := (hStill s.id hReach).symm.trans hRun
    cases hSame

/-
  Each change merges one pair: the pairs are counted down,
  and the canonical form stays as it is.
-/
theorem canonical_of_changesTo
    (hChanges : stepMerge.ChangesTo changes plan last)
    (hSound : plan.Sound)
    (hLeaves : (plan.document plan.root).hasLeafTests) :
    last.Sound ∧
      (plan.document plan.root).mergeablePairs =
        (last.document last.root).mergeablePairs + changes ∧
      (plan.document plan.root).merged =
        (last.document last.root).merged := by
  induction hChanges with
  | refl plan => exact ⟨hSound, rfl, rfl⟩
  | @step changes plan middle last _ hChange _ ih =>
      rcases hChange with ⟨path, hReach, hRun⟩
      rcases run_mergeSteps hSound hReach with
        ⟨hSame, _⟩ | ⟨after, hMerge, hMerged⟩
      · have hEq := hRun.symm.trans hSame
        cases hEq
      have hEq := hRun.symm.trans hMerge
      cases hEq
      have hMerges := hMerged.merges hSound
      have hMiddle : middle.Sound := by
        cases hMerged with
        | intro _ _ _ _ _ hSound _ => exact hSound
      rcases ih hMiddle (hMerges.hasLeafTests hLeaves) with
        ⟨hLast, hCount, hForm⟩
      refine ⟨hLast, ?_, hMerges.merged_eq.trans hForm⟩
      rw [hMerges.mergeablePairs_eq hLeaves, hCount]
      omega

/-
  Merging the steps of a valid plan computes its canonical
  form, if nothing stands below the axes and below `node()`
  in its steps: it takes one traversal more than there are
  pairs of steps that can be merged, and a walk that may not
  make so many finds no fixpoint.
-/
theorem stepMerge_canonical
    (hLinked : plan.Linked)
    (hValid : plan.validate = .ok ())
    (hLeaves : (plan.document plan.root).hasLeafTests) :
    ∃ result,
      (∀ bound,
        (plan.document plan.root).mergeablePairs < bound →
          stepMerge.run bound plan =
            (.ok ⟨"step-merge",
              (plan.document plan.root).mergeablePairs + 1,
              (plan.document plan.root).mergeablePairs != 0⟩,
              result)) ∧
      (∀ bound,
        bound ≤ (plan.document plan.root).mergeablePairs →
          (stepMerge.run bound plan).1 =
            .error (.noFixpoint "step-merge" bound)) ∧
      result.document result.root =
        (plan.document plan.root).merged ∧
      (result.document result.root).mergeablePairs = 0 := by
  have hSound : plan.Sound :=
    ⟨hLinked, root_lt_of_validate hValid⟩
  rcases descends_stepMerge.converges
      (InvImage.wf planSteps Nat.lt_wfRel.wf) hSound with
    ⟨changes, result, hConverges⟩
  rcases hConverges.traversals with ⟨last, hChanges, hLast⟩
  rcases canonical_of_changesTo hChanges hSound hLeaves with
    ⟨hLastSound, hCount, hForm⟩
  rcases (descends_stepMerge.steps
      hLastSound).still_of_traverses hLastSound.linked hLast
    with ⟨rfl, hStill⟩
  have hNone := mergeablePairs_of_still hLastSound hStill
  rw [hNone, Nat.zero_add] at hCount
  rw [hCount, hForm]
  exact ⟨result, hConverges.succeeds, hConverges.fails,
    (Document.merged_eq_self hNone).symm, hNone⟩

/- A step along an axis that tests a name. -/
def namedStep
    (axis : Axis)
    (name : String)
    (predicates : List Document) : Document :=
  .branch .stepExpr
    (.carrying .axisSpec (.axis axis)
      :: .carrying .nameTest (.label name) :: predicates)

/- The document of the path `.//a/b[.//c]`. -/
def nestedPaths : Document :=
  let anywhere : Document :=
    .branch .stepExpr
      [.carrying .axisSpec (.axis .descendantOrSelf),
       .leaf .kindTestAnyKind]
  .branch .pathExpr
    [.leaf .contextItemExpr, anywhere,
     namedStep .child "a" [],
     namedStep .child "b"
      [.branch .pathExpr
        [.leaf .contextItemExpr, anywhere,
         namedStep .child "c" []]]]

/- The plan of the two paths. -/
def nestedPathsPlan : Plan where
  nodes := #[
    ⟨.pathExpr, .none, none, [1, 2, 5, 8], []⟩,
    ⟨.contextItemExpr, .none, some 0, [], []⟩,
    ⟨.stepExpr, .none, some 0, [3, 4], []⟩,
    ⟨.axisSpec, .axis .descendantOrSelf, some 2, [], []⟩,
    ⟨.kindTestAnyKind, .none, some 2, [], []⟩,
    ⟨.stepExpr, .none, some 0, [6, 7], []⟩,
    ⟨.axisSpec, .axis .child, some 5, [], []⟩,
    ⟨.nameTest, .label "a", some 5, [], []⟩,
    ⟨.stepExpr, .none, some 0, [9, 10, 11], []⟩,
    ⟨.axisSpec, .axis .child, some 8, [], []⟩,
    ⟨.nameTest, .label "b", some 8, [], []⟩,
    ⟨.pathExpr, .none, some 8, [12, 13, 16], []⟩,
    ⟨.contextItemExpr, .none, some 11, [], []⟩,
    ⟨.stepExpr, .none, some 11, [14, 15], []⟩,
    ⟨.axisSpec, .axis .descendantOrSelf, some 13, [], []⟩,
    ⟨.kindTestAnyKind, .none, some 13, [], []⟩,
    ⟨.stepExpr, .none, some 11, [17, 18], []⟩,
    ⟨.axisSpec, .axis .child, some 16, [], []⟩,
    ⟨.nameTest, .label "c", some 16, [], []⟩]
  root := 0
  counter := 0

/- Both paths are merged, in three traversals. -/
theorem stepMerge_nestedPaths :
    ∃ result, Plan.ofDocument nestedPaths =
        .ok nestedPathsPlan ∧
      stepMerge.run 3 nestedPathsPlan =
        (.ok ⟨"step-merge", 3, true⟩, result) ∧
      (stepMerge.run 2 nestedPathsPlan).1 =
        .error (.noFixpoint "step-merge" 2) ∧
      result.document result.root =
        .branch .pathExpr
          [.leaf .contextItemExpr,
           namedStep .descendant "a" [],
           namedStep .child "b"
            [.branch .pathExpr
              [.leaf .contextItemExpr,
               namedStep .descendant "c" []]]] := by
  have hPlan : Plan.ofDocument nestedPaths =
      .ok nestedPathsPlan := by
    decide +kernel
  have hDocument : nestedPathsPlan.document
      nestedPathsPlan.root = nestedPaths :=
    rfl
  have hCanonical := stepMerge_canonical
    (Plan.linked_of_ofDocument hPlan) (by decide +kernel)
    (by rw [hDocument]; decide +kernel)
  have hPairs : nestedPaths.mergeablePairs = 2 := by
    decide +kernel
  rw [hDocument, hPairs] at hCanonical
  rcases hCanonical with ⟨result, hRun, hFails, hForm, _⟩
  exact ⟨result, hPlan, hRun 3 (by decide),
    hFails 2 (by decide), hForm⟩

end Pass

end Flwor
