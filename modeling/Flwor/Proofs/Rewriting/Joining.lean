import Flwor.Proofs.Rewriting.Candidates
import Flwor.Proofs.Rewriting.Surgery

/-
  A nested pipeline is taken apart, and a new stage takes
  the place of the one that it was bound by.

  What is left behind, the scrap, stays in the arena.  Each
  scrap node hangs below another one or has no parent, so
  it is cut off from the root with the replaced stage.

  Key definitions include:
    * `Plan.Below`
    * `Plan.Scrap`
    * `Plan.TakenApart`
    * `Plan.Ready`

  Key theorems include:
    * `Pass.achieves_takeApart`
    * `Plan.Ready.achieves_replace`
    * `Pass.achieves_joinPipeline`
-/

------------------------------------------------------------
-- Depths
------------------------------------------------------------

namespace Flwor

namespace Plan

/- The reached nodes below some depth. -/
def Below
    (plan : Plan)
    (n : Nat) : Set NodeId :=
  {x | ∃ m, n < m ∧ plan.At m x}

variable {plan : Plan}
variable {n m : Nat}
variable {x y : NodeId}

theorem At.mem_below
    (hAt : plan.At m x)
    (hDepth : n < m) :
    x ∈ plan.Below n :=
  ⟨m, hDepth, hAt⟩

theorem At.not_mem_below
    (hLinked : plan.Linked)
    (hAt : plan.At m x)
    (hDepth : m ≤ n) :
    x ∉ plan.Below n := by
  rintro ⟨k, hK, hAtK⟩
  have hSame := hAt.unique hLinked hAtK
  omega

theorem At.ne_of_depth
    (hLinked : plan.Linked)
    (hX : plan.At n x)
    (hY : plan.At m y)
    (hDepth : n ≠ m) :
    x ≠ y := by
  rintro rfl
  exact hDepth (hX.unique hLinked hY)

theorem WellFormed.lt_of_below
    (hFormed : plan.WellFormed)
    (hX : x ∈ plan.Below n) :
    x < plan.size := by
  rcases hX with ⟨m, _, hAt⟩
  exact hFormed.lt_of_reaches ⟨m, hAt⟩

theorem below_mono
    (hLe : m ≤ n) :
    plan.Below n ⊆ plan.Below m := by
  rintro x ⟨k, hK, hAt⟩
  exact ⟨k, Nat.lt_of_le_of_lt hLe hK, hAt⟩

end Plan

end Flwor

------------------------------------------------------------
-- Scrap
------------------------------------------------------------

namespace Flwor

namespace Plan

/-
  Nodes that hang below a stage that is about to be
  replaced, or that hang nowhere.
-/
structure Scrap
    (plan : Plan)
    (stage : NodeId)
    (scrap : Set NodeId) : Prop where
  mem : stage ∈ scrap
  lt : ∀ x ∈ scrap, x < plan.size
  root : plan.root ∉ scrap
  closed :
    ∀ x ∈ scrap, x ≠ stage →
      ∀ p, plan.parent? x = some p → p ∈ scrap

variable {start plan after : Plan}
variable {scrap touched moved : Set NodeId}
variable {stage consumer new x : NodeId}

theorem Scrap.edited
    (hScrap : plan.Scrap stage scrap)
    (hEdited : plan.Edited touched moved after)
    (hMoved : ∀ x ∈ moved, x ∉ scrap) :
    after.Scrap stage scrap := by
  refine ⟨hScrap.mem, fun x hX =>
    Nat.lt_of_lt_of_le (hScrap.lt x hX) hEdited.size, ?_, ?_⟩
  · rw [hEdited.root]
    exact hScrap.root
  · intro x hX hNe p hP
    rw [hEdited.parent x (hScrap.lt x hX)
      (fun hMem => hMoved x hMem hX)] at hP
    exact hScrap.closed x hX hNe p hP

/- Without the stage above it, nothing of it is reached. -/
theorem Scrap.not_reaches
    (hScrap : plan.Scrap stage scrap)
    (hLinked : plan.Linked)
    (hParent : plan.parent? stage = none)
    (hX : x ∈ scrap) :
    ¬plan.Reaches x := by
  rintro ⟨n, hAt⟩
  induction hAt with
  | root => exact hScrap.root hX
  | @child n p c _ hMem ih =>
      have hP := hLinked.parent?_of_mem hMem
      by_cases hStage : c = stage
      · rw [hStage, hParent] at hP
        cases hP
      · exact ih (hScrap.closed c hX hStage p hP)

/- A new stage is about to take the place of another one. -/
structure Ready
    (start : Plan)
    (stage : NodeId)
    (scrap : Set NodeId)
    (new : NodeId)
    (plan : Plan) : Prop where
  surgery : start.Surgery scrap plan
  hanging : plan.Scrap stage scrap
  attached : ∃ consumer, plan.parent? stage = some consumer
  detached : plan.Detached new
  live : start.Live new
  kept : new ∉ scrap
  stages :
    (plan.kind stage).isStage ∧ (plan.kind new).isStage

namespace Ready

theorem sameLinks
    (hReady : start.Ready stage scrap new plan)
    (hSame : plan.SameLinks after) :
    start.Ready stage scrap new after := by
  refine ⟨hReady.surgery.sameLinks hSame,
    hReady.hanging.edited hSame.edited (by simp), ?_,
    hSame.edited.detached hReady.detached (by simp),
    hReady.live, hReady.kept, ?_⟩
  · rw [hSame.parent]
    exact hReady.attached
  · rw [hSame.kind, hSame.kind]
    exact hReady.stages

/- The stage makes way, and the scrap is cut off. -/
theorem achieves_replace
    (hReady : start.Ready stage scrap new plan)
    (hFormed : start.WellFormed) :
    (Edit.replace stage new).Achieves plan
      (fun _ after => after.WellFormed) := by
  rcases hReady.attached with ⟨consumer, hParent⟩
  refine (hReady.surgery.achieves_replace hParent
    hReady.detached hReady.live
    (.stage hReady.stages.1 hReady.stages.2)).mono ?_
  rintro _ after ⟨hSurgery, hReplaced⟩
  have hScrap : after.Scrap stage scrap := by
    refine ⟨hReady.hanging.mem, fun x hX =>
      Nat.lt_of_lt_of_le (hReady.hanging.lt x hX)
        hReplaced.edited.size, ?_, ?_⟩
    · rw [hReplaced.edited.root]
      exact hReady.hanging.root
    · intro x hX hNe p hP
      have hNew : x ≠ new := by
        rintro rfl
        exact hReady.kept hX
      rw [hReplaced.edited.parent x (hReady.hanging.lt x hX)
        (by simp [hNe, hNew])] at hP
      exact hReady.hanging.closed x hX hNe p hP
  exact hSurgery.wellFormed hFormed (fun x hX =>
    hScrap.not_reaches hSurgery.linked
      hReplaced.detached.parent hX)

end Ready

end Plan

end Flwor

------------------------------------------------------------
-- Taking Apart
------------------------------------------------------------

namespace Flwor

namespace Plan

namespace Pipeline

variable {plan : Plan}
variable {level : Nat}
variable {pipe : NodeId}
variable {candidate : Candidate}
variable (parts : plan.Pipeline level pipe candidate)

include parts

theorem finish_at :
    plan.At (level + 1) candidate.finish :=
  parts.pipe_at.child parts.finish_mem

theorem tail_at :
    plan.At (level + 2) parts.tail :=
  parts.finish_at.child (by simp [parts.finish_children])

theorem result_at :
    plan.At (level + 2) parts.result :=
  parts.finish_at.child (by simp [parts.finish_children])

theorem feeder_at :
    plan.At (parts.depth + 1) parts.feeder :=
  parts.selection_at.child
    (by simp [parts.selection_children])

theorem predicate_at :
    plan.At (parts.depth + 1) parts.predicate :=
  parts.selection_at.child
    (by simp [parts.selection_children])

theorem left_at :
    plan.At (parts.depth + 2) parts.left :=
  parts.predicate_at.child
    (by simp [parts.predicate_children])

theorem right_at :
    plan.At (parts.depth + 2) parts.right :=
  parts.predicate_at.child
    (by simp [parts.predicate_children])

/- The two sides of the comparison, the outer one first. -/
theorem exists_keys
    (hLinked : plan.Linked) :
    ∃ outer inner,
      [parts.left, parts.right][
        candidate.correlation.outerSide]? = some outer ∧
      [parts.left, parts.right].eraseIdx
        candidate.correlation.outerSide = [inner] ∧
      plan.At (parts.depth + 2) outer ∧
      plan.At (parts.depth + 2) inner ∧
      (plan.kind outer).isPlain ∧
      (plan.kind inner).isPlain ∧ outer ≠ inner := by
  have hNodup := hLinked.nodup parts.predicate
  rw [parts.predicate_children, List.nodup_cons,
    List.mem_singleton] at hNodup
  rcases parts.side with hSide | hSide
  · rw [hSide]
    exact ⟨parts.left, parts.right, rfl, rfl, parts.left_at,
      parts.right_at, parts.left_plain, parts.right_plain,
      hNodup.1⟩
  · rw [hSide]
    exact ⟨parts.right, parts.left, rfl, rfl,
      parts.right_at, parts.left_at, parts.right_plain,
      parts.left_plain, Ne.symm hNodup.1⟩

/- The predicate is none of the parts that are moved. -/
theorem predicate_kept
    (hLinked : plan.Linked) :
    parts.predicate ∉
      ({candidate.correlation.selection, parts.feeder,
        parts.tail, parts.result} : Set NodeId) := by
  have hBelow := parts.selection_below
  have hFeeder : parts.feeder ≠ parts.predicate :=
    ne_of_isStage parts.feeder_stage
      (by rw [parts.predicate_kind]; rfl)
  have hOther (x : NodeId) (n : Nat)
      (hDepth : n < parts.depth + 1)
      (hAt : plan.At n x) : parts.predicate ≠ x :=
    parts.predicate_at.ne_of_depth hLinked hAt hDepth.ne'
  simp [Ne.symm hFeeder,
    hOther _ _ (Nat.lt_succ_self _) parts.selection_at,
    hOther _ _ (by omega) parts.tail_at,
    hOther _ _ (by omega) parts.result_at]

end Pipeline

variable {start : Plan}
variable {level : Nat}
variable {pipe : NodeId}
variable {candidate : Candidate}

/-
  A nested pipeline lies in parts, which are reached no
  more; nothing above its end was touched.
-/
structure TakenApart
    (start : Plan)
    (parts : start.Pipeline level pipe candidate)
    (loose : Set NodeId)
    (before : Plan)
    (inner : Pass.InnerParts)
    (after : Plan) : Prop where
  surgery :
    start.Surgery
      (insert candidate.finish
        (insert candidate.correlation.selection
          (insert parts.predicate loose))) after
  edited :
    before.Edited (start.Below level)
      (start.Below (level + 1)) after
  keys_new : before.size ≤ inner.keys
  keys : after.Detached inner.keys
  keys_kind : after.kind inner.keys = .joinExpr
  tail_below : inner.tail ∈ start.Below (level + 1)
  tail : after.Detached inner.tail
  tail_stage : (start.kind inner.tail).isStage
  tail_ne : inner.tail ≠ candidate.correlation.selection
  result_eq : inner.result = parts.result
  result : after.Detached inner.result
  selection :
    after.parent? candidate.correlation.selection = none
  predicate :
    after.parent? parts.predicate =
      some candidate.correlation.selection

end Plan

namespace Pass

open Plan

variable {start plan : Plan}
variable {loose : Set NodeId}
variable {level : Nat}
variable {pipe consumer : NodeId}
variable {candidate : Candidate}

/- The sides of the comparison become the keys of a join. -/
theorem achieves_takeKeys
    {α : Type}
    {next : NodeId → Edit α}
    {post : α → Plan → Prop}
    (hFormed : start.WellFormed)
    (parts : start.Pipeline level pipe candidate)
    (hSurgery : start.Surgery loose plan)
    (hChildren : plan.children parts.predicate =
      [parts.left, parts.right])
    (relation : Relation)
    (hNext : ∀ keys after,
      start.Surgery (insert parts.predicate loose) after →
        plan.Edited {parts.predicate}
          (start.Below (parts.depth + 1)) after →
          plan.size ≤ keys → after.Detached keys →
            after.kind keys = .joinExpr →
              (next keys).Achieves after post) :
    (do
      let outerKey ← Edit.remove parts.predicate
        candidate.correlation.outerSide
      let innerKey ← Edit.remove parts.predicate 0
      let keys ← Edit.addWith .joinExpr
        (.cmp (.general relation)) [outerKey, innerKey]
      next keys : Edit α).Achieves plan post := by
  have hLinked := hFormed.linked
  rcases parts.exists_keys hLinked with
    ⟨outer, inner, hOuter, hInner, hOuterAt, hInnerAt,
      hOuterPlain, hInnerPlain, hNe⟩
  have hOuterLt := hFormed.lt_of_reaches ⟨_, hOuterAt⟩
  have hInnerLt := hFormed.lt_of_reaches ⟨_, hInnerAt⟩
  have hChild : plan.child? parts.predicate
      candidate.correlation.outerSide = some outer := by
    rw [child?, hChildren]
    exact hOuter
  refine (hSurgery.achieves_remove hChild).bind ?_
  rintro _ plan₁ ⟨rfl, hSurgery₁, hCut₁⟩
  have hChildren₁ : plan₁.children parts.predicate =
      [inner] := by
    rw [hCut₁.children, hChildren, hInner]
  have hChild₁ : plan₁.child? parts.predicate 0 =
      some inner := by
    rw [child?, hChildren₁]
    rfl
  refine (hSurgery₁.achieves_remove hChild₁).bind ?_
  rintro _ plan₂ ⟨rfl, hSurgery₂, hCut₂⟩
  have hOuter₂ : plan₂.Detached outer :=
    hCut₂.edited.detached hCut₁.detached (by simpa using hNe)
  have hKinds : [outer, inner].map plan₂.kind =
      [start.kind outer, start.kind inner] := by
    rw [List.map_cons, List.map_singleton,
      hSurgery₂.kind outer hOuterLt,
      hSurgery₂.kind inner hInnerLt]
  have hProper : Kind.joinExpr.Proper
      (.cmp (.general relation))
      ([outer, inner].map plan₂.kind) := by
    rw [hKinds]
    exact ⟨⟨⟨_, _, rfl⟩, rfl⟩,
      forall_mem_pair hOuterPlain hInnerPlain⟩
  refine (hSurgery₂.achieves_addWith
    (forall_mem_pair (live_of_reaches ⟨_, hOuterAt⟩)
      (live_of_reaches ⟨_, hInnerAt⟩))
    (forall_mem_pair hOuter₂ hCut₂.detached)
    (by simp [hNe]) hProper).bind ?_
  rintro keys plan₃ ⟨hSurgery₃, hKeys⟩
  have hEdited₂ := hCut₁.edited.trans hCut₂.edited
  refine hNext keys plan₃ (hSurgery₃.mono (by simp)) ?_ ?_
    hKeys.detached hKeys.kind
  · have hOuterBelow : outer ∈ start.Below (parts.depth + 1) :=
      hOuterAt.mem_below (Nat.lt_succ_self _)
    have hInnerBelow : inner ∈ start.Below (parts.depth + 1) :=
      hInnerAt.mem_below (Nat.lt_succ_self _)
    refine hKeys.edited_of (hEdited₂.mono (by simp) ?_)
      (forall_mem_pair (fun _ => hOuterBelow)
        (fun _ => hInnerBelow))
    rintro x (rfl | rfl)
    · exact hOuterBelow
    · exact hInnerBelow
  · exact Nat.le_trans hEdited₂.size hKeys.size_le

/- The selection is cut out, and the end loses its parts. -/
theorem achieves_takeEnds
    (hFormed : start.WellFormed)
    (parts : start.Pipeline level pipe candidate)
    (hSurgery : start.Surgery loose plan)
    (hFinish : plan.children candidate.finish =
      [parts.tail, parts.result])
    (hSelection :
      plan.child? candidate.correlation.selection 0 =
        some parts.feeder)
    (hParent :
      plan.parent? candidate.correlation.selection =
        some consumer)
    (hNe : consumer ≠ candidate.correlation.selection)
    (keys : NodeId) :
    (do
      Edit.bypass candidate.correlation.selection
      let result ← Edit.remove candidate.finish 1
      let tail ← Edit.remove candidate.finish 0
      return ⟨keys, tail, result⟩ :
        Edit InnerParts).Achieves plan (fun inner after =>
      inner.keys = keys ∧ inner.result = parts.result ∧
        (inner.tail = parts.tail ∨
          inner.tail = parts.feeder) ∧
        inner.tail ≠ candidate.correlation.selection ∧
        start.Surgery (insert candidate.finish
          (insert candidate.correlation.selection loose))
            after ∧
        plan.Edited
          {candidate.finish, consumer,
            candidate.correlation.selection}
          {candidate.correlation.selection, parts.feeder,
            parts.tail, parts.result} after ∧
        after.Detached candidate.correlation.selection ∧
        after.Detached inner.tail ∧
        after.Detached inner.result) := by
  generalize hSelectionId :
    candidate.correlation.selection = selection at *
  generalize hFinishId : candidate.finish = finish at *
  have hLinked := hFormed.linked
  have hSelectionAt : start.At parts.depth selection :=
    hSelectionId ▸ parts.selection_at
  have hSelectionStage : (start.kind selection).isStage := by
    rw [← hSelectionId, parts.selection_kind]
    rfl
  have hFinishAt : start.At (level + 1) finish :=
    hFinishId ▸ parts.finish_at
  have hBelow := parts.selection_below
  have hKind (x : NodeId) (n : Nat) (hAt : start.At n x) :
      plan.kind x = start.kind x :=
    hSurgery.kind x (hFormed.lt_of_reaches ⟨n, hAt⟩)
  have hAlike : (plan.kind selection).Alike
      (plan.kind parts.feeder) := by
    rw [hKind _ _ hSelectionAt, hKind _ _ parts.feeder_at]
    exact .stage hSelectionStage parts.feeder_stage
  have hFinishNe : finish ≠ selection :=
    hFinishAt.ne_of_depth hLinked hSelectionAt (by omega)
  have hFeederNe : parts.feeder ≠ selection :=
    parts.feeder_at.ne_of_depth hLinked hSelectionAt
      (Nat.succ_ne_self _)
  have hResultStage : (start.kind parts.result).isStage =
      false := Kind.isStage_of_isPlain parts.result_plain
  have hResultNe : selection ≠ parts.result :=
    ne_of_isStage hSelectionStage hResultStage
  refine (hSurgery.achieves_bypass hSelection hParent hNe
    (live_of_reaches ⟨_, hSelectionAt⟩) hAlike).bind ?_
  rintro _ plan₁ ⟨hSurgery₁, hBypassed⟩
  -- The end may have lost its tail to the bypass.
  generalize hTail : (if parts.tail = selection
    then parts.feeder else parts.tail) = tail
  have hTailIs : tail = parts.tail ∨ tail = parts.feeder := by
    rw [← hTail]
    split
    · exact .inr rfl
    · exact .inl rfl
  have hTailNe : tail ≠ selection := by
    rw [← hTail]
    split
    · exact hFeederNe
    · next hNe => exact hNe
  have hTailStage : (start.kind tail).isStage := by
    rcases hTailIs with rfl | rfl
    · exact parts.tail_stage
    · exact parts.feeder_stage
  have hTailResult : tail ≠ parts.result :=
    ne_of_isStage hTailStage hResultStage
  have hChildren₁ : plan₁.children finish =
      [tail, parts.result] := by
    rw [hBypassed.children finish hFinishNe, hFinish,
      List.map_cons, List.map_singleton, hTail,
      if_neg hResultNe.symm]
  have hResult₁ : plan₁.child? finish 1 =
      some parts.result := by
    rw [child?, hChildren₁]
    rfl
  refine (hSurgery₁.achieves_remove hResult₁).bind ?_
  rintro _ plan₂ ⟨rfl, hSurgery₂, hCut₂⟩
  have hTail₂ : plan₂.child? finish 0 = some tail := by
    rw [child?, hCut₂.children, hChildren₁]
    rfl
  refine (hSurgery₂.achieves_remove hTail₂).bind ?_
  rintro _ plan₃ ⟨rfl, hSurgery₃, hCut₃⟩
  have hSelection₂ : plan₂.Detached selection :=
    hCut₂.edited.detached hBypassed.detached
      (by simpa using hResultNe)
  refine achieves_return ⟨rfl, rfl, hTailIs, hTailNe,
    hSurgery₃.mono (by simp), ?_, ?_, hCut₃.detached, ?_⟩
  · refine ((hBypassed.edited.trans hCut₂.edited).trans
      hCut₃.edited).mono ?_ ?_
    · rintro x (((rfl | rfl) | rfl) | rfl) <;> simp
    · rintro x (((rfl | rfl) | rfl) | rfl)
      · simp
      · simp
      · simp
      · rcases hTailIs with rfl | rfl <;> simp
  · exact hCut₃.edited.detached hSelection₂
      (by simpa using Ne.symm hTailNe)
  · exact hCut₃.edited.detached hCut₂.detached
      (by simpa using Ne.symm hTailResult)

/- The keys of a join, its right input and its result. -/
theorem achieves_takeApart
    (hFormed : start.WellFormed)
    (parts : start.Pipeline level pipe candidate)
    (hSurgery : start.Surgery loose plan)
    (hChildren : ∀ n x, level < n → start.At n x →
      plan.children x = start.children x)
    (hParents : ∀ n x, level < n → start.At n x →
      plan.parent? x = start.parent? x) :
    (takeApart candidate).Achieves plan
      (start.TakenApart parts loose plan) := by
  have hLinked := hFormed.linked
  have hBelow := parts.selection_below
  have hLt (x : NodeId) (n : Nat) (hAt : start.At n x) :
      x < plan.size :=
    Nat.lt_of_lt_of_le (hFormed.lt_of_reaches ⟨n, hAt⟩)
      hSurgery.size
  have hSelectionChildren :
      plan.children candidate.correlation.selection =
        [parts.feeder, parts.predicate] := by
    rw [hChildren _ _ (by omega) parts.selection_at]
    exact parts.selection_children
  have hPredicate :
      plan.child? candidate.correlation.selection 1 =
        some parts.predicate := by
    rw [child?, hSelectionChildren]
    rfl
  have hPredicateChildren : plan.children parts.predicate =
      [parts.left, parts.right] := by
    rw [hChildren _ _ (by omega) parts.predicate_at]
    exact parts.predicate_children
  rcases hFormed.exists_consumer ⟨_, parts.selection_at⟩
      (by rw [parts.selection_kind]; rfl) with
    ⟨consumer, hConsumer, _, hConsumerNe⟩
  rcases parts.selection_at.parent hLinked hConsumer with
    ⟨above, hAbove, hConsumerAt⟩
  refine achieves_get_bind ?_
  dsimp only
  rw [hPredicate]
  refine achieves_takeKeys hFormed parts hSurgery
    hPredicateChildren _ ?_
  intro keys middle hSurgery₁ hEdited₁ hNew hKeys hKeysKind
  -- The end and the selection are as they were.
  have hFinish : middle.children candidate.finish =
      [parts.tail, parts.result] := by
    have hNe := parts.finish_at.ne_of_depth hLinked
      parts.predicate_at (by omega)
    rw [hEdited₁.children _ (hLt _ _ parts.finish_at)
        (by simpa using hNe),
      hChildren _ _ (Nat.lt_succ_self _) parts.finish_at]
    exact parts.finish_children
  have hHead :
      middle.child? candidate.correlation.selection 0 =
        some parts.feeder := by
    have hNe := parts.selection_at.ne_of_depth hLinked
      parts.predicate_at (Nat.lt_succ_self _).ne
    rw [hEdited₁.child?_eq (hLt _ _ parts.selection_at)
      (by simpa using hNe), child?, hSelectionChildren]
    rfl
  have hParent :
      middle.parent? candidate.correlation.selection =
        some consumer := by
    rw [hEdited₁.parent _ (hLt _ _ parts.selection_at)
        (parts.selection_at.not_mem_below hLinked
          (Nat.le_succ _)),
      hParents _ _ (by omega) parts.selection_at]
    exact hConsumer
  have hPredicateParent :
      middle.parent? parts.predicate =
        some candidate.correlation.selection := by
    rw [hEdited₁.parent _ (hLt _ _ parts.predicate_at)
        (parts.predicate_at.not_mem_below hLinked
          (Nat.le_refl _)),
      hParents _ _ (by omega) parts.predicate_at]
    exact hLinked.parent?_of_mem
      (by simp [parts.selection_children])
  refine (achieves_takeEnds hFormed parts hSurgery₁ hFinish
    hHead hParent hConsumerNe keys).mono ?_
  rintro inner after ⟨rfl, hResult, hTail, hTailNe,
    hSurgery₂, hEdited₂, hSelection, hTailFree, hResultFree⟩
  have hKeysNe (x : NodeId) (n : Nat)
      (hAt : start.At n x) : inner.keys ≠ x :=
    (Nat.lt_of_lt_of_le (hLt x n hAt) hNew).ne'
  have hKeysFree : inner.keys ∉
      ({candidate.correlation.selection, parts.feeder,
        parts.tail, parts.result} : Set NodeId) := by
    simp [hKeysNe _ _ parts.selection_at,
      hKeysNe _ _ parts.feeder_at,
      hKeysNe _ _ parts.tail_at,
      hKeysNe _ _ parts.result_at]
  refine {
    surgery := hSurgery₂
    edited := ?_
    keys_new := hNew
    keys := hEdited₂.detached hKeys hKeysFree
    keys_kind := (hEdited₂.kind _ hKeys.lt).trans hKeysKind
    tail_below := ?_
    tail := hTailFree
    tail_stage := ?_
    tail_ne := hTailNe
    result_eq := hResult
    result := hResultFree
    selection := hSelection.parent
    predicate := ?_ }
  · refine (hEdited₁.trans hEdited₂).mono ?_ ?_
    · rintro x (rfl | rfl | rfl | rfl)
      · exact parts.predicate_at.mem_below (by omega)
      · exact parts.finish_at.mem_below (Nat.lt_succ_self _)
      · exact hConsumerAt.mem_below (by omega)
      · exact parts.selection_at.mem_below (by omega)
    · rintro x (hX | rfl | rfl | rfl | rfl)
      · exact below_mono (by omega) hX
      · exact parts.selection_at.mem_below (by omega)
      · exact parts.feeder_at.mem_below (by omega)
      · exact parts.tail_at.mem_below (by omega)
      · exact parts.result_at.mem_below (by omega)
  · rcases hTail with hTail | hTail
    · rw [hTail]
      exact parts.tail_at.mem_below (by omega)
    · rw [hTail]
      exact parts.feeder_at.mem_below (by omega)
  · rcases hTail with hTail | hTail
    · rw [hTail]
      exact parts.tail_stage
    · rw [hTail]
      exact parts.feeder_stage
  · rw [hEdited₂.parent _
      (hEdited₁.lt (hLt _ _ parts.predicate_at))
      (parts.predicate_kept hLinked)]
    exact hPredicateParent

end Pass

end Flwor

------------------------------------------------------------
-- Joins
------------------------------------------------------------

namespace Flwor

namespace Plan

variable {start plan after : Plan}
variable {scrap : Set NodeId}
variable {n level : Nat}
variable {stage pipe feeder result join : NodeId}
variable {candidate : Candidate}

/- A join that is in place up to its consumer. -/
structure Joined
    (start : Plan)
    (stage : NodeId)
    (scrap : Set NodeId)
    (result join : NodeId)
    (plan : Plan) : Prop where
  ready : start.Ready stage scrap join plan
  detached : plan.Detached result
  live : start.Live result
  kept : result ∉ scrap
  plain : (plan.kind result).isPlain

namespace Joined

variable (hJoined : start.Joined stage scrap result join plan)

include hJoined

theorem sameLinks
    (hSame : plan.SameLinks after) :
    start.Joined stage scrap result join after := by
  refine ⟨hJoined.ready.sameLinks hSame,
    hSame.edited.detached hJoined.detached (by simp),
    hJoined.live, hJoined.kept, ?_⟩
  rw [hSame.kind]
  exact hJoined.plain

/- A stage above the join binds the result. -/
theorem achieves_bind
    {α : Type}
    {k : Kind}
    {next : NodeId → Edit α}
    {post : α → Plan → Prop}
    (hKind : k = .letBind ∨ k = .forBind)
    (name : String)
    (hNext : ∀ bind after,
      start.Ready stage scrap bind after →
        (next bind).Achieves after post) :
    (do
      let declared ← Edit.add .variable (.var name) []
      let bind ← Edit.addWith k .none
        [join, declared, result]
      next bind : Edit α).Achieves plan post := by
  have hReady := hJoined.ready
  refine (hReady.surgery.achieves_add []
    (Kind.proper_variable name)).bind ?_
  rintro declared plan₁ ⟨hSurgery₁, hDeclared⟩
  have hJoin₁ : plan₁.Detached join :=
    hDeclared.edited.detached hReady.detached (by simp)
  have hResult₁ : plan₁.Detached result :=
    hDeclared.edited.detached hJoined.detached (by simp)
  have hJoinDeclared : join ≠ declared :=
    hDeclared.ne_of_lt hReady.detached.lt
  have hResultDeclared : result ≠ declared :=
    hDeclared.ne_of_lt hJoined.detached.lt
  have hJoinResult : join ≠ result :=
    ne_of_isStage hReady.stages.2
      (Kind.isStage_of_isPlain hJoined.plain)
  have hDeclaredNew : declared ∉ scrap := fun hIn =>
    hDeclared.ne_of_lt (hReady.hanging.lt _ hIn) rfl
  have hProper : k.Proper .none
      ([join, declared, result].map plan₁.kind) := by
    rw [List.map_cons, List.map_cons, List.map_singleton,
      hDeclared.kind,
      hDeclared.edited.kind join hReady.detached.lt,
      hDeclared.edited.kind result hJoined.detached.lt]
    have hPlain : ∀ c ∈ [.variable, plan.kind result],
        c.isPlain := forall_mem_pair rfl hJoined.plain
    rcases hKind with rfl | rfl
    · exact ⟨⟨_, _, rfl, hReady.stages.2⟩, hPlain⟩
    · exact ⟨⟨_, hReady.stages.2, .inl ⟨_, rfl⟩⟩, hPlain⟩
  have hTaken : ∀ c ∈ [join, declared, result],
      c ∉ scrap :=
    forall_mem_triple hReady.kept hDeclaredNew hJoined.kept
  refine (hSurgery₁.achieves_addWith
    (forall_mem_triple hReady.live
      (hReady.surgery.live_of_new hDeclared.size_le)
      hJoined.live)
    (forall_mem_triple hJoin₁ hDeclared.detached hResult₁)
    (by simp [hJoinDeclared, hJoinResult,
      Ne.symm hResultDeclared])
    hProper).bind ?_
  rintro bind plan₂ ⟨hSurgery₂, hBind⟩
  have hHanging₁ : plan₁.Scrap stage scrap :=
    hReady.hanging.edited hDeclared.edited (by simp)
  have hStageLt : stage < plan.size :=
    hReady.hanging.lt _ hReady.hanging.mem
  have hStageLt₁ : stage < plan₁.size :=
    hHanging₁.lt _ hHanging₁.mem
  refine hNext bind plan₂ ⟨hSurgery₂,
    hHanging₁.edited hBind.edited hTaken, ?_, hBind.detached,
    hSurgery₁.live_of_new hBind.size_le, ?_, ?_⟩
  · rw [hBind.edited.parent stage hStageLt₁
        (fun hIn => hTaken stage hIn hReady.hanging.mem),
      hDeclared.edited.parent stage hStageLt (by simp)]
    exact hReady.attached
  · exact fun hIn =>
      hBind.ne_of_lt (hHanging₁.lt _ hIn) rfl
  · rw [hBind.kind, hBind.edited.kind stage hStageLt₁,
      hDeclared.edited.kind stage hStageLt]
    refine ⟨hReady.stages.1, ?_⟩
    rcases hKind with rfl | rfl <;> rfl

end Joined

namespace Pipeline

/- What is left of a pipeline and of the stage that binds it. -/
def leftover
    (parts : plan.Pipeline level pipe candidate)
    (stage : NodeId) : Set NodeId :=
  {stage, pipe, candidate.finish,
    candidate.correlation.selection, parts.predicate}

variable (parts : plan.Pipeline (n + 1) pipe candidate)

include parts

/- All of it is reached before, at some depth. -/
theorem at_of_leftover
    (hStage : plan.At n stage)
    {x : NodeId}
    (hX : x ∈ parts.leftover stage) :
    ∃ m, n ≤ m ∧ plan.At m x := by
  have hBelow := parts.selection_below
  rcases hX with rfl | rfl | rfl | rfl | rfl
  · exact ⟨n, Nat.le_refl n, hStage⟩
  · exact ⟨n + 1, Nat.le_succ n, parts.pipe_at⟩
  · exact ⟨n + 2, by omega, parts.finish_at⟩
  · exact ⟨_, by omega, parts.selection_at⟩
  · exact ⟨_, by omega, parts.predicate_at⟩

end Pipeline

end Plan

end Flwor

------------------------------------------------------------
-- Nested Pipelines
------------------------------------------------------------

namespace Flwor

namespace Plan

variable {start before after : Plan}
variable {n : Nat}
variable {stage feeder pipe x : NodeId}
variable {candidate : Candidate}

/- A stage that is fed by another binds a nested pipeline. -/
structure Nested
    (plan : Plan)
    (n : Nat)
    (stage feeder pipe : NodeId)
    (candidate : Candidate) where
  parts : plan.Pipeline (n + 1) pipe candidate
  stage_at : plan.At n stage
  stage_kind : (plan.kind stage).isStage
  feeder_mem : feeder ∈ plan.children stage
  feeder_kind : (plan.kind feeder).isStage
  pipe_mem : pipe ∈ plan.children stage

namespace Nested

variable (nested : start.Nested n stage feeder pipe candidate)

include nested

theorem feeder_at :
    start.At (n + 1) feeder :=
  nested.stage_at.child nested.feeder_mem

theorem feeder_ne_stage
    (hLinked : start.Linked) :
    stage ≠ feeder :=
  nested.stage_at.ne_of_depth hLinked nested.feeder_at
    (Nat.lt_succ_self _).ne

/- The feeder is no part of what is left over. -/
theorem feeder_kept
    (hLinked : start.Linked) :
    feeder ∉ nested.parts.leftover stage := by
  have hBelow := nested.parts.selection_below
  have hPipe : feeder ≠ pipe :=
    ne_of_isStage nested.feeder_kind
      (by rw [nested.parts.pipe_kind]; rfl)
  have hOther (m : Nat) (x : NodeId) (hDepth : n + 1 ≠ m)
      (hAt : start.At m x) : feeder ≠ x :=
    nested.feeder_at.ne_of_depth hLinked hAt hDepth
  rintro (hEq | hEq | hEq | hEq | hEq)
  · exact nested.feeder_ne_stage hLinked hEq.symm
  · exact hPipe hEq
  · exact hOther _ _ (by omega) nested.parts.finish_at hEq
  · exact hOther _ _ (by omega) nested.parts.selection_at hEq
  · exact hOther _ _ (by omega) nested.parts.predicate_at hEq

/- Once it is taken apart the leftover hangs nowhere else. -/
theorem scrap
    {loose : Set NodeId}
    {inner : Pass.InnerParts}
    (hFormed : start.WellFormed)
    (hEdited : start.Edited {stage} {feeder} before)
    (hTaken :
      start.TakenApart nested.parts loose before inner
        after) :
    after.Scrap stage (nested.parts.leftover stage) := by
  have hLinked := hFormed.linked
  have hLt (x : NodeId) (hX : start.Reaches x) :
      x < start.size := hFormed.lt_of_reaches hX
  have hSize := hEdited.size
  refine ⟨.inl rfl, fun x hX => ?_, ?_, fun x hX hNe p hP => ?_⟩
  · rcases nested.parts.at_of_leftover nested.stage_at hX with
      ⟨m, _, hAt⟩
    exact Nat.lt_of_lt_of_le (hLt x ⟨m, hAt⟩)
      (Nat.le_trans hSize hTaken.edited.size)
  · rw [hTaken.surgery.root]
    intro hIn
    rcases nested.parts.at_of_leftover nested.stage_at hIn with
      ⟨m, hDepth, hAt⟩
    have hZero := hAt.unique hLinked .root
    have hStageZero : n = 0 := by omega
    have hRoot : stage = start.root := by
      have hAtStage := nested.stage_at
      rw [hStageZero] at hAtStage
      cases hAtStage
      rfl
    have hPlain := (Kind.isPlain_iff _).mp hFormed.root
    have hStage := nested.stage_kind
    rw [hRoot, hPlain.1] at hStage
    cases hStage
  -- Parents at the depth of the end and above are the old ones.
  · have hOld (m : Nat) (hAt : start.At m x)
        (hDepth : m ≤ n + 2) (hFeeder : x ≠ feeder) :
        after.parent? x = start.parent? x := by
      have hX := hLt x ⟨m, hAt⟩
      rw [hTaken.edited.parent x (Nat.lt_of_lt_of_le hX hSize)
          (hAt.not_mem_below hLinked hDepth),
        hEdited.parent x hX (by simpa using hFeeder)]
    have hKept : x ≠ feeder := by
      rintro rfl
      exact nested.feeder_kept hLinked hX
    rcases hX with rfl | rfl | rfl | rfl | rfl
    · exact (hNe rfl).elim
    · rw [hOld _ nested.parts.pipe_at (Nat.le_succ _) hKept,
        hLinked.parent?_of_mem nested.pipe_mem] at hP
      cases hP
      exact .inl rfl
    · rw [hOld _ nested.parts.finish_at (Nat.le_refl _) hKept,
        hLinked.parent?_of_mem nested.parts.finish_mem] at hP
      cases hP
      exact .inr (.inl rfl)
    · rw [hTaken.selection] at hP
      cases hP
    · rw [hTaken.predicate] at hP
      cases hP
      exact .inr (.inr (.inr (.inl rfl)))

/- Neither are the parts that a join needs. -/
theorem part_kept
    {loose : Set NodeId}
    {inner : Pass.InnerParts}
    (hLinked : start.Linked)
    (hTaken :
      start.TakenApart nested.parts loose before inner after)
    (hBelow : x ∈ start.Below (n + 2))
    (hSelection : x ≠ candidate.correlation.selection)
    (hDetached : after.Detached x) :
    x ∉ nested.parts.leftover stage := by
  have hOther (m : Nat) (y : NodeId) (hDepth : m ≤ n + 2)
      (hAt : start.At m y) : x ≠ y := by
    rintro rfl
    exact hAt.not_mem_below hLinked hDepth hBelow
  rintro (hEq | hEq | hEq | hEq | hEq)
  · exact hOther _ _ (by omega) nested.stage_at hEq
  · exact hOther _ _ (by omega) nested.parts.pipe_at hEq
  · exact hOther _ _ (by omega) nested.parts.finish_at hEq
  · exact hSelection hEq
  · have hParent := hTaken.predicate
    rw [← hEq, hDetached.parent] at hParent
    cases hParent

theorem new_kept
    (hFormed : start.WellFormed)
    (hNew : start.size ≤ x) :
    x ∉ nested.parts.leftover stage := by
  intro hIn
  rcases nested.parts.at_of_leftover nested.stage_at hIn with
    ⟨m, _, hAt⟩
  exact Nat.not_lt.mpr hNew (hFormed.lt_of_reaches ⟨m, hAt⟩)

/- The feeder and new stages are apart from the pipeline. -/
theorem input_apart
    {input : NodeId}
    (hFormed : start.WellFormed)
    (hInput : input = feeder ∨ start.size ≤ input) :
    start.Live input ∧
      input ∉ nested.parts.leftover stage ∧
      input ∉ start.Below (n + 2) := by
  rcases hInput with rfl | hNew
  · exact ⟨live_of_reaches ⟨_, nested.feeder_at⟩,
      nested.feeder_kept hFormed.linked,
      nested.feeder_at.not_mem_below hFormed.linked
        (Nat.le_succ _)⟩
  · exact ⟨live_of_size_le hNew,
      nested.new_kept hFormed hNew,
      fun hIn => Nat.not_lt.mpr hNew
        (hFormed.lt_of_below hIn)⟩

/- A join of the parts is in place up to its consumer. -/
theorem joined
    {plan : Plan}
    {cs : List NodeId}
    {join : NodeId}
    {inner : Pass.InnerParts}
    (hFormed : start.WellFormed)
    (hEdited : start.Edited {stage} {feeder} before)
    (hTaken :
      start.TakenApart nested.parts {stage} before inner
        after)
    (hSurgery : start.Surgery
      (insert candidate.finish
        (insert candidate.correlation.selection
          (insert nested.parts.predicate {stage}))) plan)
    (hJoin : after.Grown .join .none cs join plan)
    (hKept : ∀ c ∈ cs, c ∉ nested.parts.leftover stage)
    (hResult : inner.result ∉ cs)
    (hResultBelow : inner.result ∈ start.Below (n + 2))
    (hResultPlain : (start.kind inner.result).isPlain)
    (hResultKept :
      inner.result ∉ nested.parts.leftover stage) :
    start.Joined stage (nested.parts.leftover stage)
      inner.result join plan := by
  have hScrap := nested.scrap hFormed hEdited hTaken
  have hStageLt := hFormed.lt_of_reaches ⟨n, nested.stage_at⟩
  refine ⟨⟨hSurgery.mono ?_,
    hScrap.edited hJoin.edited hKept, ?_, hJoin.detached,
    hTaken.surgery.live_of_new hJoin.size_le, ?_, ?_⟩,
    hJoin.edited.detached hTaken.result hResult, ?_,
    hResultKept, ?_⟩
  · rintro x (rfl | rfl | rfl | rfl)
    · exact .inr (.inr (.inl rfl))
    · exact .inr (.inr (.inr (.inl rfl)))
    · exact .inr (.inr (.inr (.inr rfl)))
    · exact .inl rfl
  · rcases hFormed.exists_consumer ⟨n, nested.stage_at⟩
        nested.stage_kind with
      ⟨consumer, hConsumer, _, _⟩
    refine ⟨consumer, ?_⟩
    rw [hJoin.edited.parent stage
        (hScrap.lt _ hScrap.mem)
        (fun hIn => hKept stage hIn hScrap.mem),
      hTaken.edited.parent stage (hEdited.lt hStageLt)
        (nested.stage_at.not_mem_below hFormed.linked
          (by omega)),
      hEdited.parent stage hStageLt
        (by simpa using
          nested.feeder_ne_stage hFormed.linked)]
    exact hConsumer
  · exact fun hIn => hJoin.ne_of_lt (hScrap.lt _ hIn) rfl
  · rw [hJoin.kind, hSurgery.kind stage hStageLt]
    exact ⟨nested.stage_kind, rfl⟩
  · rcases hResultBelow with ⟨m, _, hAt⟩
    exact live_of_reaches ⟨m, hAt⟩
  · rw [hSurgery.kind _ (hFormed.lt_of_below hResultBelow)]
    exact hResultPlain

end Nested

end Plan

namespace Pass

open Plan

variable {start plan : Plan}
variable {n : Nat}
variable {stage feeder pipe input : NodeId}
variable {candidate : Candidate}

/-
  The rows of an input are joined with those of a nested
  pipeline that is taken apart.
-/
theorem achieves_joinPipeline
    {α : Type}
    {next : InnerParts → NodeId → Edit α}
    {post : α → Plan → Prop}
    (hFormed : start.WellFormed)
    (nested : start.Nested n stage feeder pipe candidate)
    (hSurgery : start.Surgery {stage} plan)
    (hEdited : start.Edited {stage} {feeder} plan)
    (hInput : plan.Detached input)
    (hInputIs : input = feeder ∨ start.size ≤ input)
    (hInputStage : (plan.kind input).isStage)
    (hNext : ∀ inner join after,
      start.Joined stage (nested.parts.leftover stage)
        inner.result join after →
          (next inner join).Achieves after post) :
    (do
      let inner ← takeApart candidate
      let join ← Edit.addWith .join .none
        [input, inner.keys, inner.tail]
      next inner join : Edit α).Achieves plan post := by
  have hLinked := hFormed.linked
  have hFeederNe (m : Nat) (x : NodeId)
      (hDepth : n + 1 < m) (hAt : start.At m x) :
      x ≠ feeder :=
    (nested.feeder_at.ne_of_depth hLinked hAt
      hDepth.ne).symm
  have hStageNe (m : Nat) (x : NodeId)
      (hDepth : n + 1 < m) (hAt : start.At m x) :
      x ≠ stage :=
    (nested.stage_at.ne_of_depth hLinked hAt
      (by omega)).symm
  refine (achieves_takeApart hFormed nested.parts hSurgery
    ?_ ?_).bind ?_
  · intro m x hDepth hAt
    exact hEdited.children x
      (hFormed.lt_of_reaches ⟨m, hAt⟩)
      (by simpa using hStageNe m x hDepth hAt)
  · intro m x hDepth hAt
    exact hEdited.parent x
      (hFormed.lt_of_reaches ⟨m, hAt⟩)
      (by simpa using hFeederNe m x hDepth hAt)
  intro inner apart hTaken
  rcases nested.input_apart hFormed hInputIs with
    ⟨hInputLive, hInputKept, hInputAbove⟩
  have hTailLt := hFormed.lt_of_below hTaken.tail_below
  have hTailKept := nested.part_kept hLinked hTaken
    hTaken.tail_below hTaken.tail_ne hTaken.tail
  have hTailLive : start.Live inner.tail := by
    rcases hTaken.tail_below with ⟨m, _, hAt⟩
    exact live_of_reaches ⟨m, hAt⟩
  have hKeysNew : start.size ≤ inner.keys :=
    Nat.le_trans hEdited.size hTaken.keys_new
  have hKeysKept := nested.new_kept hFormed hKeysNew
  -- The result is below the end, and no stage.
  have hResultBelow : inner.result ∈ start.Below (n + 2) := by
    rw [hTaken.result_eq]
    exact nested.parts.result_at.mem_below (by omega)
  have hResultLt := hFormed.lt_of_below hResultBelow
  have hResultPlain : (start.kind inner.result).isPlain := by
    rw [hTaken.result_eq]
    exact nested.parts.result_plain
  have hNoStage := Kind.isStage_of_isPlain hResultPlain
  have hSelectionNe :
      candidate.correlation.selection ≠ inner.result :=
    ne_of_isStage (by rw [nested.parts.selection_kind]; rfl)
      hNoStage
  have hResultKept := nested.part_kept hLinked hTaken
    hResultBelow (Ne.symm hSelectionNe) hTaken.result
  -- The three inputs of the join are three nodes.
  have hInputKeys : input ≠ inner.keys :=
    (Nat.lt_of_lt_of_le hInput.lt hTaken.keys_new).ne
  have hInputTail : input ≠ inner.tail := by
    rintro rfl
    exact hInputAbove hTaken.tail_below
  have hKeysTail : inner.keys ≠ inner.tail :=
    (Nat.lt_of_lt_of_le hTailLt hKeysNew).ne'
  have hResultNew :
      inner.result ∉ [input, inner.keys, inner.tail] := by
    have hInputNe : inner.result ≠ input := by
      intro hEq
      rw [hEq] at hResultBelow
      exact hInputAbove hResultBelow
    have hKeysNe : inner.result ≠ inner.keys :=
      (Nat.lt_of_lt_of_le hResultLt hKeysNew).ne
    have hTailNe : inner.tail ≠ inner.result :=
      ne_of_isStage hTaken.tail_stage hNoStage
    simp [hInputNe, hKeysNe, Ne.symm hTailNe]
  have hProper : Kind.join.Proper .none
      ([input, inner.keys, inner.tail].map apart.kind) := by
    rw [List.map_cons, List.map_cons, List.map_singleton,
      hTaken.keys_kind, hTaken.surgery.kind _ hTailLt,
      hTaken.edited.kind input hInput.lt]
    exact ⟨⟨_, _, rfl, hInputStage, hTaken.tail_stage⟩,
      by simp [Kind.operands]⟩
  refine (hTaken.surgery.achieves_addWith
    (forall_mem_triple hInputLive (live_of_size_le hKeysNew)
      hTailLive)
    (forall_mem_triple
      (hTaken.edited.detached hInput hInputAbove)
      hTaken.keys hTaken.tail)
    (by simp [hInputKeys, hInputTail, hKeysTail])
    hProper).bind ?_
  rintro join after ⟨hSurgery₂, hJoin⟩
  exact hNext inner join after (nested.joined hFormed hEdited
    hTaken hSurgery₂ hJoin
    (forall_mem_triple hInputKept hKeysKept hTailKept)
    hResultNew hResultBelow hResultPlain hResultKept)

end Pass

end Flwor
