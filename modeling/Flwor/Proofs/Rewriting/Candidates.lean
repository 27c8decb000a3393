import Flwor.Pass.Unnest
import Flwor.Proofs.Rewriting.Reach

/-
  The nested pipelines that the passes take out of their
  places, and the parts that the replaceable ones have.

  Key definitions include:
    * `Plan.Pipeline`

  Key theorems include:
    * `Plan.Shows.eagerPipes`
    * `Tree.candidate?_eq_some`
    * `Plan.exists_pipeline`
-/

------------------------------------------------------------
-- Buried Pipelines
------------------------------------------------------------

namespace Flwor

namespace Tree

theorem mem_eagerPipesAll_iff
    {pipe : NodeId}
    {ts : List Tree} :
    pipe ∈ eagerPipesAll ts ↔
      ∃ t ∈ ts, pipe ∈ t.eagerPipes := by
  induction ts with
  | nil => simp [eagerPipesAll]
  | cons t ts ih => simp [eagerPipesAll, ih]

end Tree

namespace Plan

variable {plan : Plan}
variable {t : Tree}
variable {n : Nat}
variable {stage slot pipe : NodeId}

/- Pipelines that are buried in a tree lie in it. -/
theorem Shows.eagerPipes
    (hShows : plan.Shows t)
    (hAt : plan.At n t.id)
    (hPipe : pipe ∈ t.eagerPipes) :
    plan.kind pipe = .pipeExpr ∧
      ∃ m, n ≤ m ∧ plan.At m pipe := by
  induction t using Tree.induction generalizing n with
  | node i k p ps cs ih =>
      rw [Tree.eagerPipes] at hPipe
      split at hPipe
      · next hKind =>
        rw [List.mem_singleton] at hPipe
        subst hPipe
        exact ⟨hShows.kind_eq.symm.trans hKind,
          n, Nat.le_refl n, hAt⟩
      · split at hPipe
        · rw [Tree.mem_eagerPipesAll_iff] at hPipe
          rcases hPipe with ⟨c, hC, hPipe⟩
          have hChild := hShows.child (c := c) hC
          rcases ih c hC hChild.1 (hAt.child hChild.2)
              hPipe with
            ⟨hKind, m, hDepth, hPipeAt⟩
          exact ⟨hKind, m, by omega, hPipeAt⟩
        · cases hPipe

/- The stages and ends with an expression for each row. -/
theorem rowExpr?_eq_some
    (hSlot : plan.rowExpr? stage = some slot) :
    slot ∈ plan.children stage ∧
      (plan.kind stage = .finish ∨
        (plan.kind stage).isStage) ∧
      plan.kind stage ≠ .start := by
  unfold rowExpr? at hSlot
  split at hSlot
  · next hKind =>
    exact ⟨mem_children_of_child? hSlot, .inl hKind,
      by simp [hKind]⟩
  · next hKind =>
    exact ⟨mem_children_of_child? hSlot,
      .inr (by rw [hKind]; rfl), by simp [hKind]⟩
  · next hKind =>
    exact ⟨List.mem_of_getLast? hSlot,
      .inr (by rw [hKind]; rfl), by simp [hKind]⟩
  · next hKind =>
    exact ⟨List.mem_of_getLast? hSlot,
      .inr (by rw [hKind]; rfl), by simp [hKind]⟩
  · cases hSlot

end Plan

end Flwor

------------------------------------------------------------
-- Candidates
------------------------------------------------------------

namespace Flwor

namespace Tree

variable {outer bound : List String}
variable {t : Tree}
variable {c : Correlation}

/- A correlation is a comparison that a selection tests. -/
theorem correlation?_eq_some
    (hCorrelation : t.correlation? outer bound = some c) :
    c.selection = t.id ∧
      (c.outerSide = 0 ∨ c.outerSide = 1) ∧
      ∃ predicate, t.children[1]? = some predicate ∧
        predicate.kind = .comparisonExpr := by
  unfold correlation? at hCorrelation
  split at hCorrelation
  · next hPredicate =>
    split at hCorrelation
    · cases hCorrelation
      exact ⟨rfl, .inl rfl, _, hPredicate, rfl⟩
    · split at hCorrelation
      · cases hCorrelation
        exact ⟨rfl, .inr rfl, _, hPredicate, rfl⟩
      · cases hCorrelation
  · cases hCorrelation

/- The correlation that is found belongs to a selection. -/
theorem scanStages_eq_some
    {found : Option Correlation}
    {stages : List Tree}
    {all : List String}
    (hScan :
      scanStages outer bound found stages =
        some (all, some c)) :
    found = some c ∨
      ∃ s ∈ stages, s.kind = .selection ∧
        ∃ before, s.correlation? outer before = some c := by
  induction stages generalizing bound found with
  | nil =>
      cases hScan
      exact .inl rfl
  | cons s rest ih =>
      unfold scanStages at hScan
      dsimp only at hScan
      split at hScan
      · cases hScan
      · split at hScan
        · next d hHere =>
          split at hHere
          · next hSelection =>
            rw [Bool.and_eq_true, decide_eq_true_eq]
              at hSelection
            rcases ih hScan with hFound | ⟨r, hR, hRest⟩
            · cases hFound
              exact .inr ⟨s, List.mem_cons_self,
                hSelection.2, bound, hHere⟩
            · exact .inr
                ⟨r, List.mem_cons_of_mem _ hR, hRest⟩
          · cases hHere
        · split at hScan
          · cases hScan
          · rcases ih hScan with hFound | ⟨r, hR, hRest⟩
            · exact .inl hFound
            · exact .inr
                ⟨r, List.mem_cons_of_mem _ hR, hRest⟩

/- What makes a nested pipeline replaceable. -/
theorem candidate?_eq_some
    {candidate : Candidate}
    (hCandidate : t.candidate? outer = some candidate) :
    t.kind = .pipeExpr ∧
      ∃ finish tail selection,
        t.finish? = some finish ∧
        candidate.finish = finish.id ∧
        2 ≤ finish.children.length ∧
        finish.children.head? = some tail ∧
        selection ∈ tail.stages ∧
        selection.kind = .selection ∧
        ∃ before, selection.correlation? outer before =
          some candidate.correlation := by
  simp only [candidate?, Option.bind_eq_bind,
    Option.bind_eq_some_iff, Option.pure_def]
    at hCandidate
  rcases hCandidate with
    ⟨_, hKind, finish, hFinish, _, hLength, tail, hTail,
      hRest⟩
  split at hRest
  · next start first second rest hStages =>
    simp only [Option.bind_eq_some_iff] at hRest
    rcases hRest with
      ⟨_, _, _, _, ⟨all, found⟩, hScan, c, hFound, _, _, _,
        _, run, _, hEq⟩
    cases hEq
    dsimp only at hFound
    subst hFound
    rcases scanStages_eq_some hScan with
      hFound | ⟨s, hS, hSelection, hBefore⟩
    · cases hFound
    · refine ⟨by simpa [guard] using hKind, finish, tail, s,
        hFinish, rfl,
        by simpa [guard, Nat.succ_le_iff] using hLength, hTail,
        ?_, hSelection, hBefore⟩
      rw [← List.mem_reverse, hStages]
      exact List.mem_cons_of_mem _ hS
  · cases hRest

end Tree

end Flwor

------------------------------------------------------------
-- Parts
------------------------------------------------------------

namespace Flwor

namespace Plan

/-
  The parts of a replaceable pipeline, with their depths:
  its end has a tail and a result, and somewhere below the
  end a selection tests a comparison.
-/
structure Pipeline
    (plan : Plan)
    (level : Nat)
    (pipe : NodeId)
    (candidate : Candidate) where
  depth : Nat
  tail : NodeId
  result : NodeId
  feeder : NodeId
  predicate : NodeId
  left : NodeId
  right : NodeId
  pipe_at : plan.At level pipe
  pipe_kind : plan.kind pipe = .pipeExpr
  finish_mem : candidate.finish ∈ plan.children pipe
  finish_children :
    plan.children candidate.finish = [tail, result]
  tail_stage : (plan.kind tail).isStage
  result_plain : (plan.kind result).isPlain
  selection_at :
    plan.At depth candidate.correlation.selection
  selection_below : level + 2 ≤ depth
  selection_kind :
    plan.kind candidate.correlation.selection = .selection
  selection_children :
    plan.children candidate.correlation.selection =
      [feeder, predicate]
  feeder_stage : (plan.kind feeder).isStage
  predicate_kind : plan.kind predicate = .comparisonExpr
  predicate_children :
    plan.children predicate = [left, right]
  left_plain : (plan.kind left).isPlain
  right_plain : (plan.kind right).isPlain
  side :
    candidate.correlation.outerSide = 0 ∨
      candidate.correlation.outerSide = 1

variable {plan : Plan}
variable {level : Nat}
variable {id pipe : NodeId}
variable {candidate : Candidate}

/- The two children of a node, by their kinds. -/
theorem children_eq_pair
    {s v : Kind}
    (hKinds : plan.childKinds id = [s, v]) :
    ∃ a b, plan.children id = [a, b] ∧
      plan.kind a = s ∧ plan.kind b = v := by
  rw [childKinds, List.map_eq_cons_iff] at hKinds
  rcases hKinds with ⟨a, cs, hChildren, hA, hCs⟩
  rw [List.map_eq_cons_iff] at hCs
  rcases hCs with ⟨b, ds, rfl, hB, hDs⟩
  rw [List.map_eq_nil_iff] at hDs
  subst hDs
  exact ⟨a, b, hChildren, hA, hB⟩

theorem Proper.finish_children
    (hProper : plan.Proper id)
    (hKind : plan.kind id = .finish)
    (hLength : 2 ≤ (plan.children id).length) :
    ∃ tail result, plan.children id = [tail, result] ∧
      (plan.kind tail).isStage ∧
      (plan.kind result).isPlain := by
  rw [Proper, hKind] at hProper
  rcases hProper.admits with ⟨s, rest, hKinds, hStage, hRest⟩
  have hCount : (plan.childKinds id).length =
      (plan.children id).length := List.length_map _
  rw [hKinds, List.length_cons] at hCount
  rcases rest with _ | ⟨v, _ | ⟨w, more⟩⟩
  · rw [List.length_nil] at hCount
    omega
  · rcases children_eq_pair hKinds with
      ⟨tail, result, hChildren, rfl, rfl⟩
    refine ⟨tail, result, hChildren, hStage, ?_⟩
    have hPlain := hProper.plain
    rw [hKinds] at hPlain
    exact hPlain _ (List.mem_singleton_self _)
  · simp at hRest

theorem Proper.selection_children
    (hProper : plan.Proper id)
    (hKind : plan.kind id = .selection) :
    ∃ feeder predicate,
      plan.children id = [feeder, predicate] ∧
      (plan.kind feeder).isStage := by
  rw [Proper, hKind] at hProper
  rcases hProper.admits with ⟨s, v, hKinds, hStage⟩
  rcases children_eq_pair hKinds with
    ⟨feeder, predicate, hChildren, rfl, rfl⟩
  exact ⟨feeder, predicate, hChildren, hStage⟩

theorem Proper.comparison_children
    (hProper : plan.Proper id)
    (hKind : plan.kind id = .comparisonExpr) :
    ∃ left right, plan.children id = [left, right] ∧
      (plan.kind left).isPlain ∧
      (plan.kind right).isPlain := by
  rw [Proper, hKind] at hProper
  rcases hProper.admits with ⟨⟨l, r, hKinds⟩, _⟩
  have hPlain := hProper.plain
  rw [hKinds] at hPlain
  rcases children_eq_pair hKinds with
    ⟨left, right, hChildren, rfl, rfl⟩
  exact ⟨left, right, hChildren,
    hPlain _ List.mem_cons_self,
    hPlain _ (List.mem_cons_of_mem _ List.mem_cons_self)⟩

/- A replaceable pipeline has its parts. -/
theorem exists_pipeline
    {outer : List String}
    (hFormed : plan.WellFormed)
    (hAt : plan.At level pipe)
    (hCandidate :
      (plan.tree pipe).candidate? outer = some candidate) :
    Nonempty (plan.Pipeline level pipe candidate) := by
  rcases Tree.candidate?_eq_some hCandidate with
    ⟨hPipeKind, finish, tail, selection, hFinish, hFinishId,
      hLength, hTail, hSelection, hSelectionKind, before,
      hCorrelation⟩
  rcases Tree.correlation?_eq_some hCorrelation with
    ⟨hSelectionId, hSide, predicate, hPredicate,
      hPredicateKind⟩
  have hShows := plan.shows_tree pipe
  rw [Tree.finish?, Option.filter_eq_some_iff,
    List.head?_eq_getElem?, decide_eq_true_eq] at hFinish
  rw [List.head?_eq_getElem?] at hTail
  have hPipeAt : plan.At level (plan.tree pipe).id := by
    rw [id_tree]
    exact hAt
  rcases hShows.child (List.mem_of_getElem? hFinish.1) with
    ⟨hShowsFinish, hFinishMem⟩
  have hFinishAt := hPipeAt.child hFinishMem
  rcases hShowsFinish.child (List.mem_of_getElem? hTail) with
    ⟨hShowsTail, hTailMem⟩
  rcases hShowsTail.stages (hFinishAt.child hTailMem)
      selection hSelection with
    ⟨hShowsSelection, depth, hDepth, hSelectionAt⟩
  rcases hShowsSelection.child?_eq hPredicate with
    ⟨hShowsPredicate, hPredicateAt⟩
  rw [hShows.kind_eq, id_tree] at hPipeKind
  rw [id_tree] at hFinishMem
  rw [hShowsSelection.kind_eq] at hSelectionKind
  rw [hShowsPredicate.kind_eq] at hPredicateKind
  rcases (hFormed.proper _ ⟨_, hFinishAt⟩).finish_children
      (hShowsFinish.kind_eq.symm.trans hFinish.2)
      (Nat.le_trans hLength
        hShowsFinish.length_children_le) with
    ⟨a, b, hFinishChildren, hTailStage, hResultPlain⟩
  rcases (hFormed.proper _
      ⟨_, hSelectionAt⟩).selection_children
        hSelectionKind with
    ⟨feeder, q, hSelectionChildren, hFeederStage⟩
  have hEq : predicate.id = q := by
    rw [child?, hSelectionChildren] at hPredicateAt
    exact (Option.some.inj hPredicateAt).symm
  rcases (hFormed.proper _
      ⟨_, hSelectionAt.child
        (mem_children_of_child? hPredicateAt)⟩
          ).comparison_children hPredicateKind with
    ⟨left, right, hPredicateChildren, hLeft, hRight⟩
  rw [hEq] at hPredicateKind hPredicateChildren
  rw [← hFinishId] at hFinishMem hFinishChildren
  rw [← hSelectionId]
    at hSelectionAt hSelectionKind hSelectionChildren
  exact ⟨{
    depth := depth
    tail := a
    result := b
    feeder := feeder
    predicate := q
    left := left
    right := right
    pipe_at := hAt
    pipe_kind := hPipeKind
    finish_mem := hFinishMem
    finish_children := hFinishChildren
    tail_stage := hTailStage
    result_plain := hResultPlain
    selection_at := hSelectionAt
    selection_below := by omega
    selection_kind := hSelectionKind
    selection_children := hSelectionChildren
    feeder_stage := hFeederStage
    predicate_kind := hPredicateKind
    predicate_children := hPredicateChildren
    left_plain := hLeft
    right_plain := hRight
    side := hSide }⟩

end Plan

end Flwor
