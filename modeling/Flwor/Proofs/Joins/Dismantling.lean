import Flwor.Proofs.Arena.Loose
import Flwor.Proofs.Joins.Collections

/-
  A nested pipeline that is taken apart in the arena.

  The keys of the join, the stages without the selection and
  the result are left as trees of their own, and nothing is
  changed outside of the pipeline.

  Key theorems include:
    * `Tree.Correlated.exists_selection`
    * `Edit.ensures_bypass`
    * `Edit.achieves_takeApart`
-/

------------------------------------------------------------
-- The Selection
------------------------------------------------------------

namespace Flwor

namespace Tree

variable {outer names : List String}
variable {run : String}
variable {tie : Tie outer}
variable {tail stripped : Tree}

/- Without its selection a tail has the input in its place. -/
theorem Correlated.exists_selection
    (hCorrelated :
      Correlated outer run tie names tail stripped)
    (hNodup : tail.ids.Nodup) :
    ∃ p ps below predicate rest,
      .node tie.selection .selection p ps
          (below :: predicate :: rest) ∈ tail.subtrees ∧
        tie.Stated predicate ∧
        stripped =
          tail.mapAt tie.selection (fun _ => below) := by
  induction hCorrelated with
  | @here p ps input predicate rest hInput hStated =>
      refine ⟨p, ps, input, predicate, rest,
        mem_subtrees_self _, hStated, ?_⟩
      rw [mapAt_self]
  | @after names i k p ps input input' rest hInput hStage ih =>
      rw [ids, List.nodup_cons, idsAll, List.nodup_append']
        at hNodup
      rcases hNodup with ⟨hTop, hHere, _, hApart⟩
      rcases ih hHere with
        ⟨p', ps', below, predicate, more, hMem, hStated, rfl⟩
      have hSelection : tie.selection ∈ input.ids :=
        mem_ids_iff.mpr ⟨_, hMem, rfl⟩
      have hNe : i ≠ tie.selection := by
        rintro rfl
        exact hTop (List.mem_append_left _ hSelection)
      have hRest (c : Tree) (hC : c ∈ rest) :
          c.mapAt tie.selection (fun _ => below) = c :=
        mapAt_of_not_mem (fun hMem =>
          hApart hSelection (mem_idsAll_iff.mpr ⟨c, hC, hMem⟩))
      refine ⟨p', ps', below, predicate, more,
        mem_subtrees_of_child List.mem_cons_self hMem, hStated,
        ?_⟩
      rw [mapAt_of_ne hNe, List.map_cons,
        List.map_congr_left hRest, List.map_id']

/- The keys and the remaining stages come from the stages. -/
theorem Correlated.ids_subset
    (hCorrelated : Correlated outer run tie names tail stripped) :
    (∀ x ∈ stripped.ids, x ∈ tail.ids) ∧
      (∀ x ∈ tie.outerKey.ids, x ∈ tail.ids) ∧
      ∀ x ∈ tie.innerKey.ids, x ∈ tail.ids := by
  induction hCorrelated with
  | @here p ps input predicate rest _ hStated =>
      have hInput : input ∈ (Tree.node tie.selection .selection
          p ps (input :: predicate :: rest)).subtrees :=
        mem_subtrees_of_child List.mem_cons_self
          (mem_subtrees_self _)
      have hKey (key : Tree)
          (hKey : key ∈ predicate.children) :
          key ∈ (Tree.node tie.selection .selection p ps
            (input :: predicate :: rest)).subtrees :=
        mem_subtrees_of_child
          (List.mem_cons_of_mem _ List.mem_cons_self)
          (mem_subtrees_of_child hKey (mem_subtrees_self _))
      exact ⟨Tree.ids_subset hInput,
        Tree.ids_subset (hKey _ hStated.mem_children.1),
        Tree.ids_subset (hKey _ hStated.mem_children.2)⟩
  | after hInput hStage ih =>
      simp only [ids, idsAll, List.mem_cons, List.mem_append]
      refine ⟨?_, fun x hX => .inr (.inl (ih.2.1 x hX)),
        fun x hX => .inr (.inl (ih.2.2 x hX))⟩
      exact fun x hX => hX.imp_right (Or.imp_left (ih.1 x))

end Tree

end Flwor

------------------------------------------------------------
-- Cutting a Stage Out
------------------------------------------------------------

namespace Flwor

namespace Edit

open Plan

variable {plan : Plan}
variable {stage : NodeId}
variable {k : Kind}
variable {q : Payload}
variable {ps : Properties}
variable {below consumer t : Tree}
variable {rest : List Tree}

/-
  The input of a stage that is cut out takes its place; what
  read the rows of the stage reads those of the input.
-/
theorem ensures_bypass
    (hSound : plan.Sound)
    (hStage : plan.Stands (.node stage k q ps (below :: rest)))
    (hBelow : plan.Holds below)
    (hRoot : stage ≠ plan.root)
    (hNodup :
      (Tree.node stage k q ps (below :: rest)).ids.Nodup)
    (hAround : ∀ r ∈ t.around stage, plan.Stands r)
    (hConsumer : consumer ∈ t.around stage)
    (hChild : stage ∈ consumer.children.map Tree.id) :
    (bypass stage).Ensures plan (fun _ after =>
      plan.Alters {stage, consumer.id} after ∧
        after.size = plan.size ∧
        after.Holds (t.mapAt stage (fun _ => below))) := by
  have hBelowNot : stage ∉ below.ids := by
    intro hMem
    rw [Tree.ids, Tree.idsAll, List.nodup_cons] at hNodup
    exact hNodup.1 (List.mem_append_left _ hMem)
  have hNe := Tree.around_ne hConsumer
  refine (ensures_remove hSound hStage rfl).bind ?_
  rintro _ middle ⟨rfl, hAlters, hSize, _⟩
  refine (ensures_exchange hAlters.sound
    (hBelow.self.lt.trans_le hAlters.size)
    (hAlters.root ▸ hRoot)).mono ?_
  rintro _ after ⟨p, index, hParent, hPlace, hDetached, rfl⟩
  have hSpared (r : Tree) (hR : r ∈ t.around stage) :
      middle.Stands r :=
    hAlters.spared r (Tree.around_ne hR) (hAround r hR)
  have hUp : middle.parent? stage = some consumer.id := by
    refine hAlters.sound.linked.parent?_of_mem ?_
    rw [(hSpared consumer hConsumer).children]
    exact hChild
  cases hUp.symm.trans hParent
  have hExchange :=
    hAlters.sound.alters_exchange hPlace hDetached
  refine ⟨(hAlters.trans hExchange).narrow
      (fun x hX _ => hX), by simp [exchange, hSize], ?_⟩
  refine hAlters.sound.holds_exchange hPlace hDetached
    hSpared (hAlters.holds hBelow ?_) hBelowNot
  rintro x hX rfl
  exact hBelowNot hX

end Edit

end Flwor

------------------------------------------------------------
-- The Parts of a Pipeline
------------------------------------------------------------

namespace Flwor

/- Without the outer key the inner one comes first. -/
theorem Tie.Stated.erase_outer
    {outer : List String}
    {tie : Tie outer}
    {predicate : Tree}
    (hStated : tie.Stated predicate) :
    predicate.children[tie.outerSide]? = some tie.outerKey ∧
      ∃ more, predicate.children.eraseIdx tie.outerSide =
        tie.innerKey :: more := by
  rcases hStated.keys with
    ⟨hSide, more, hKeys⟩ | ⟨hSide, more, hKeys⟩ <;>
    rw [hSide, hKeys]
  · exact ⟨rfl, more, rfl⟩
  · exact ⟨rfl, more, rfl⟩

namespace Tree

namespace Nested

variable {outer : List String}
variable {candidate : Candidate}
variable {pipe : Tree}
variable (nested : Nested outer candidate pipe)

/- The end of the pipeline, with its last stage below. -/
def finish
    (tail : Tree) : Tree :=
  .node candidate.finish .finish nested.q nested.qs
    (tail :: nested.result :: nested.rest)

theorem finish_mem :
    nested.finish nested.tail ∈ pipe.subtrees := by
  refine mem_subtrees_of_child ?_ (mem_subtrees_self _)
  simp [nested.pipe_eq, finish]

theorem nodup_finish
    (hNodup : pipe.ids.Nodup) :
    (nested.finish nested.tail).ids.Nodup := by
  rw [nested.pipe_eq, ids, List.nodup_cons] at hNodup
  exact nodup_ids_of_mem hNodup.2 List.mem_cons_self

/- The end of the pipeline without the selection. -/
theorem exists_selection
    (hNodup : pipe.ids.Nodup) :
    ∃ p ps below predicate rest more,
      .node nested.tie.selection .selection p ps
          (below :: predicate :: rest) ∈
          nested.tail.subtrees ∧
        nested.tie.Stated predicate ∧
        nested.stripped = nested.tail.mapAt
          nested.tie.selection (fun _ => below) ∧
        (nested.finish nested.tail).mapAt
            nested.tie.selection (fun _ => below) =
          .node candidate.finish .finish nested.q nested.qs
            (nested.stripped :: nested.result :: more) := by
  have hFinish := nested.nodup_finish hNodup
  rw [finish, ids, List.nodup_cons] at hFinish
  rcases nested.correlated.exists_selection
      (nodup_ids_of_mem hFinish.2 List.mem_cons_self) with
    ⟨p, ps, below, predicate, rest, hMem, hStated, hStripped⟩
  have hTail : nested.tie.selection ∈ nested.tail.ids :=
    mem_ids_iff.mpr ⟨_, hMem, rfl⟩
  have hNe : candidate.finish ≠ nested.tie.selection := by
    intro hEq
    rw [hEq] at hFinish
    exact hFinish.1 (List.mem_append_left _ hTail)
  have hResult :
      nested.tie.selection ∉ nested.result.ids := by
    intro hResult
    rw [idsAll, List.nodup_append'] at hFinish
    exact hFinish.2.2.2 hTail (mem_idsAll_iff.mpr
      ⟨_, List.mem_cons_self, hResult⟩)
  refine ⟨p, ps, below, predicate, rest,
    nested.rest.map (mapAt nested.tie.selection
      (fun _ => below)), hMem, hStated, hStripped, ?_⟩
  rw [finish, mapAt_of_ne hNe, List.map_cons, List.map_cons,
    ← hStripped, mapAt_of_not_mem hResult]

/- What is made of a pipeline comes from the pipeline. -/
theorem ids_subset :
    ∀ part ∈ [nested.tie.outerKey, nested.tie.innerKey,
        nested.stripped, nested.result],
      ∀ x ∈ part.ids, x ∈ pipe.ids := by
  have hFinish (c : Tree)
      (hC : c ∈ (nested.finish nested.tail).children) :=
    Tree.ids_subset (mem_subtrees_trans
      (mem_subtrees_of_child hC (mem_subtrees_self _))
      nested.finish_mem)
  have hTail := hFinish nested.tail List.mem_cons_self
  have hResult := hFinish nested.result
    (List.mem_cons_of_mem _ List.mem_cons_self)
  have hParts := nested.correlated.ids_subset
  simp only [List.forall_mem_cons, List.not_mem_nil,
    IsEmpty.forall_iff, implies_true, and_true]
  exact ⟨fun x hX => hTail x (hParts.2.1 x hX),
    fun x hX => hTail x (hParts.2.2 x hX),
    fun x hX => hTail x (hParts.1 x hX), hResult⟩

end Nested

end Tree

namespace Plan

variable {plan : Plan}
variable {stage : NodeId}
variable {k : Kind}
variable {p : Payload}
variable {ps : Properties}
variable {feeder pipe : Tree}
variable {rest : List Tree}
variable {candidate : Candidate}

theorem Stands.isChecked_eq
    {cs : List Tree}
    (hStands : plan.Stands (.node stage k p ps cs)) :
    plan.isChecked stage =
      (ps.get? Properties.check).isSome :=
  congrArg (fun ps : Properties =>
    (ps.get? Properties.check).isSome) hStands.properties

/- The tree that a stage ends with. -/
theorem Stands.lastChild?_eq
    (hStands : plan.Stands (.node stage k p ps (feeder :: rest)))
    (hRest : rest ≠ []) :
    plan.lastChild? stage = rest.getLast?.map Tree.id := by
  rw [lastChild?, hStands.links, List.getLast?_map]
  rcases List.exists_cons_of_ne_nil hRest with ⟨c, cs, rfl⟩
  rfl

/- A replaceable pipeline under a stage has these parts. -/
theorem nonempty_nested
    (hLinked : plan.Linked)
    (hHolds : plan.Holds plan.rootTree)
    (hRoot : plan.rootTree.id = plan.root)
    (hStage : .node stage k p ps (feeder :: rest) ∈
      plan.rootTree.subtrees)
    (hPipe : pipe ∈ rest)
    (hCandidate :
      plan.candidate? stage pipe.id = some candidate) :
    Nonempty (Tree.Nested feeder.visible candidate pipe) := by
  have hTree (c : Tree) (hC : c ∈ feeder :: rest) :
      plan.tree c.id = c :=
    hHolds.tree_eq hLinked hRoot (Tree.mem_subtrees_trans
      (Tree.mem_subtrees_of_child hC (Tree.mem_subtrees_self _))
      hStage)
  have hFeeder : plan.child? stage 0 = some feeder.id := by
    rw [child?, (hHolds.subtree hStage).self.links]
    rfl
  simp only [candidate?, hFeeder, Option.bind_eq_bind,
    Option.bind_some, Option.bind_eq_some_iff,
    Option.pure_def] at hCandidate
  rcases hCandidate with ⟨found, hFound, _, _, _, _, hEq⟩
  cases hEq
  rw [visible, hTree _ (List.mem_cons_of_mem _ hPipe),
    hTree _ List.mem_cons_self] at hFound
  exact Tree.nonempty_nested hFound

end Plan

namespace Edit

open Plan

variable {plan : Plan}
variable {outer : List String}
variable {candidate : Candidate}
variable {pipe : Tree}

/- The keys of a join are taken from the comparison. -/
theorem achieves_joinExpr
    {tie : Tie outer}
    {predicate : Tree}
    {xs : List NodeId}
    {α : Type}
    {next : NodeId → Edit α}
    {post : α → Plan → Prop}
    (hStated : tie.Stated predicate)
    (hLoose : plan.Loose xs)
    (hHolds : plan.Holds predicate)
    (hNodup : predicate.ids.Nodup)
    (hNext : ∀ after, after.Loose (plan.size :: xs) →
      plan.Alters {predicate.id} after →
      after.size = plan.size + 1 →
      after.Holds (.node plan.size .joinExpr
        (.cmp (.general tie.joining)) []
        [tie.outerKey, tie.innerKey]) →
      (next plan.size).Achieves after post) :
    Achieves (do
        let outerKey ← remove predicate.id tie.outerSide
        let innerKey ← remove predicate.id 0
        let keys ← addWith .joinExpr
          (.cmp (.general tie.joining)) [outerKey, innerKey]
        next keys) plan post := by
  have hMem := hStated.mem_children
  have hErased := hStated.erase_outer
  rcases predicate with ⟨i, k, q, qs, sides⟩
  rcases hErased with ⟨hOuter, others, hOthers⟩
  simp only [Tree.children_node] at hMem hOuter hOthers
  have hApart (t : Tree) (hT : t ∈ sides) :
      ∀ x ∈ t.ids, x ∉ ({i} : Set NodeId) := by
    rintro x hX rfl
    rw [Tree.ids, List.nodup_cons] at hNodup
    exact hNodup.1 (Tree.mem_idsAll_iff.mpr ⟨t, hT, hX⟩)
  refine ((hLoose.achieves_remove hHolds.self hOuter).ensuring
    (ensures_remove hLoose.sound hHolds.self hOuter)).bind ?_
  rintro _ first ⟨⟨rfl, hFirstLoose, hFirst, hStands⟩, _, _,
    hFirstSize, _⟩
  rw [hOthers] at hStands
  refine ((hFirstLoose.achieves_remove hStands rfl).ensuring
    (ensures_remove hFirst.sound hStands rfl)).bind ?_
  rintro _ second ⟨⟨rfl, hSecondLoose, hSecond, _⟩, _, _,
    hSecondSize, _⟩
  have hBoth : plan.Alters {i} second :=
    (hFirst.trans hSecond).narrow
      (fun x hX _ => Set.union_self {i} ▸ hX)
  have hKeys : ∀ t ∈ [tie.outerKey, tie.innerKey],
      second.Holds t := by
    have hSide (t : Tree) (hT : t ∈ sides) : second.Holds t :=
      hBoth.holds (hHolds.child hT) (hApart t hT)
    simp only [List.forall_mem_cons, List.not_mem_nil,
      IsEmpty.forall_iff, implies_true, and_true]
    exact ⟨hSide _ hMem.1, hSide _ hMem.2⟩
  have hPerm : ([tie.outerKey.id, tie.innerKey.id] ++ xs).Perm
      (tie.innerKey.id :: tie.outerKey.id :: xs) :=
    List.Perm.swap ..
  refine ((hSecondLoose.achieves_addWith hPerm .joinExpr
    (.cmp (.general tie.joining))).ensuring
      (ensures_addWith hBoth.sound .joinExpr
        (.cmp (.general tie.joining)) hKeys rfl)).bind ?_
  rintro _ third ⟨⟨rfl, hThirdLoose, _⟩, _, hThird,
    hThirdSize, hNew⟩
  have hSize : second.size = plan.size :=
    hSecondSize.trans hFirstSize
  rw [hSize] at hThirdLoose hThirdSize hNew ⊢
  exact hNext third hThirdLoose ((hBoth.trans hThird).narrow
    (fun x hX _ => Set.union_empty {i} ▸ hX)) hThirdSize hNew

/-
  The keys, the remaining stages and the result stand in the
  arena afterwards, each of them loose, and nothing has
  changed outside of the pipeline.
-/
theorem achieves_takeApart
    {xs : List NodeId}
    (nested : Tree.Nested outer candidate pipe)
    (hLoose : plan.Loose xs)
    (hHolds : plan.Holds pipe)
    (hNodup : pipe.ids.Nodup) :
    (Pass.takeApart candidate).Achieves plan
      (fun inner after =>
        after.Loose (inner.tail :: inner.result
          :: inner.keys :: xs) ∧
        plan.Alters {x | x ∈ pipe.ids} after ∧
          after.size = plan.size + 1 ∧
          inner = ⟨plan.size, nested.stripped.id,
            nested.result.id⟩ ∧
          after.Holds (.node plan.size .joinExpr
            (.cmp (.general nested.tie.joining)) []
            [nested.tie.outerKey, nested.tie.innerKey]) ∧
          after.Holds nested.stripped ∧
          after.Holds nested.result) := by
  rcases nested.exists_selection hNodup with
    ⟨p, ps, below, predicate, rest, more, hSelection,
      hStated, hStripped, hFinish⟩
  have hFinishNodup := nested.nodup_finish hNodup
  have hFinishHolds := hHolds.subtree nested.finish_mem
  have hTail : nested.tail ∈
      (nested.finish nested.tail).children :=
    List.mem_cons_self
  have hInFinish :=
    Tree.mem_subtrees_of_child hTail hSelection
  have hSelectionHolds := hFinishHolds.subtree hInFinish
  refine achieves_get_bind ?_
  dsimp only
  rw [← nested.tie_eq]
  have hPredicate :
      plan.child? nested.tie.selection 1 =
        some predicate.id := by
    rw [child?, hSelectionHolds.self.links]
    rfl
  rw [hPredicate]
  dsimp only
  have hPredicateHolds := hSelectionHolds.child
    (List.mem_cons_of_mem _ List.mem_cons_self)
  -- What is around the selection is apart from it.
  have hFar (r : Tree)
      (hR : r ∈ (nested.finish nested.tail).around
        nested.tie.selection) :
      r.id ∉ (Tree.node nested.tie.selection .selection p ps
        (below :: predicate :: rest)).ids :=
    Tree.not_mem_of_around hFinishNodup hInFinish hR
  have hSelectionNodup :=
    Tree.nodup_ids_of_subtree hFinishNodup hInFinish
  have hBelowApart : predicate.id ∉ below.ids ∧
      nested.tie.selection ∉ predicate.ids := by
    rw [Tree.ids, List.nodup_cons, Tree.idsAll,
      List.nodup_append', Tree.idsAll] at hSelectionNodup
    refine ⟨fun hMem => hSelectionNodup.2.2.2 hMem
      (List.mem_append_left _ predicate.id_mem_ids),
      fun hMem => hSelectionNodup.1 (List.mem_append_right _
        (List.mem_append_left _ hMem))⟩
  have hPredicateIn : predicate ∈ (Tree.node
      nested.tie.selection .selection p ps
        (below :: predicate :: rest)).subtrees :=
    Tree.mem_subtrees_of_child
      (List.mem_cons_of_mem _ List.mem_cons_self)
      (Tree.mem_subtrees_self _)
  refine achieves_joinExpr hStated hLoose hPredicateHolds
    (Tree.nodup_ids_of_subtree hSelectionNodup hPredicateIn)
    ?_
  intro third hThirdLoose hThird hThirdSize hKeys
  have hTop : candidate.finish ∉ nested.tail.ids ∧
      candidate.finish ∉ nested.result.ids := by
    rw [Tree.Nested.finish, Tree.ids, List.nodup_cons,
      Tree.idsAll, Tree.idsAll, List.mem_append,
      List.mem_append, not_or, not_or] at hFinishNodup
    exact ⟨hFinishNodup.1.1, hFinishNodup.1.2.1⟩
  have hNe : candidate.finish ≠ nested.tie.selection := by
    intro hEq
    exact hTop.1 (Tree.mem_ids_iff.mpr
      ⟨_, hSelection, hEq.symm⟩)
  have hIn (s : Tree)
      (hS : s ∈ (nested.finish nested.tail).subtrees) :
      s.id ∈ pipe.ids :=
    Tree.mem_ids_iff.mpr
      ⟨s, Tree.mem_subtrees_trans hS nested.finish_mem, rfl⟩
  rcases Tree.exists_parent_around
      (Tree.mem_ids_iff.mpr ⟨_, hInFinish, rfl⟩) hNe with
    ⟨consumer, hConsumer, hChild⟩
  have hSelectionThird : third.Stands (.node
      nested.tie.selection .selection p ps
        (below :: predicate :: rest)) := by
    refine hThird.spared _ ?_ hSelectionHolds.self
    rintro (hEq : nested.tie.selection = predicate.id)
    exact hBelowApart.2 (hEq ▸ predicate.id_mem_ids)
  have hAroundThird (r : Tree)
      (hR : r ∈ (nested.finish nested.tail).around
        nested.tie.selection) : third.Stands r := by
    refine hThird.spared r (fun hEq => hFar r hR ?_)
      (hFinishHolds r (Tree.around_subset hR))
    exact Tree.mem_ids_iff.mpr ⟨_, hPredicateIn, hEq.symm⟩
  have hParent : third.parent? nested.tie.selection =
      some consumer.id := by
    refine hThird.sound.linked.parent?_of_mem ?_
    rw [(hAroundThird consumer hConsumer).children]
    exact hChild
  refine ((hThirdLoose.achieves_bypass hSelectionThird hParent
    (Tree.around_ne hConsumer)).ensuring
      (ensures_bypass hThird.sound hSelectionThird
        (hThird.holds
          (hSelectionHolds.child List.mem_cons_self) ?below)
        (hThird.sound.linked.ne_root_of_parent? hParent)
        hSelectionNodup hAroundThird
        hConsumer hChild)).bind ?_
  case below =>
    rintro x hX rfl
    exact hBelowApart.1 hX
  rintro _ fourth ⟨⟨hFourthLoose, _⟩, hFourth, hFourthSize,
    hWithout⟩
  rw [hFinish] at hWithout
  have hKeysLoose : fourth.Loose (plan.size :: xs) :=
    hFourthLoose.subperm
      (List.sublist_cons_self _ _).subperm
  refine ((hKeysLoose.achieves_remove hWithout.self
    rfl).ensuring (ensures_remove hFourth.sound hWithout.self
      rfl)).bind ?_
  rintro _ fifth ⟨⟨rfl, hFifthLoose, _⟩, _, hFifth, hFifthSize,
    hStands⟩
  refine ((hFifthLoose.achieves_remove hStands rfl).ensuring
    (ensures_remove hFifth.sound hStands rfl)).bind ?_
  rintro _ after ⟨⟨rfl, hAfterLoose, _⟩, _, hSixth,
    hSixthSize, _⟩
  have hFinishOnly : fourth.Alters {candidate.finish} after :=
    (hFifth.trans hSixth).narrow (fun x hX _ =>
      Set.union_self {candidate.finish} ▸ hX)
  have hRest : third.Alters
      {x | x ∈ pipe.ids ∧ x ∉ predicate.ids} after := by
    refine (hFourth.trans hFinishOnly).narrow ?_
    rintro x ((rfl | rfl) | rfl) _
    · exact ⟨hIn _ hInFinish, hBelowApart.2⟩
    · exact ⟨hIn _ (Tree.around_subset hConsumer),
        fun hMem => hFar _ hConsumer
          (Tree.ids_subset hPredicateIn _ hMem)⟩
    · refine ⟨hIn _ (Tree.mem_subtrees_self _), fun hMem =>
        hFar (nested.finish nested.tail)
          (Tree.mem_around_node.mpr ⟨hNe, .inl rfl⟩)
          (Tree.ids_subset hPredicateIn _ hMem)⟩
  refine achieves_return
    ⟨hAfterLoose, ?_, by omega, rfl, ?_, ?_, ?_⟩
  · refine (hThird.trans hRest).narrow ?_
    rintro x (rfl | hX) _
    · exact hIn _ (Tree.mem_subtrees_trans hPredicateIn
        hInFinish)
    · exact hX.1
  · refine hRest.holds hKeys (fun x hX hFar => ?_)
    rw [Tree.ids, List.mem_cons] at hX
    rcases hX with rfl | hX
    · exact Nat.lt_irrefl _ (hHolds.lt_of_mem hFar.1)
    · refine hFar.2 ?_
      rcases Tree.mem_idsAll_iff.mp hX with ⟨key, hKey, hX⟩
      have hMem := hStated.mem_children
      have hSide : key ∈ predicate.children := by
        simp only [List.mem_cons, List.not_mem_nil, or_false]
          at hKey
        rcases hKey with rfl | rfl
        · exact hMem.1
        · exact hMem.2
      exact Tree.ids_subset (Tree.mem_subtrees_of_child hSide
        (Tree.mem_subtrees_self _)) _ hX
  · refine hFinishOnly.holds (hWithout.child
      List.mem_cons_self) ?_
    rintro x hX rfl
    rw [hStripped] at hX
    refine (Tree.ids_mapAt hX).elim hTop.1 (fun hX => hTop.1 ?_)
    exact Tree.ids_subset (Tree.mem_subtrees_trans
      (Tree.mem_subtrees_of_child List.mem_cons_self
        (Tree.mem_subtrees_self _)) hSelection) _ hX
  · refine hFinishOnly.holds (hWithout.child
      (List.mem_cons_of_mem _ List.mem_cons_self)) ?_
    rintro x hX rfl
    exact hTop.2 hX

/- A new stage binds the value of a tree. -/
theorem ensures_binder
    {α : Type}
    {k : Kind}
    {name : String}
    {input value : Tree}
    {x y : NodeId}
    {next : NodeId → Edit α}
    {post : α → Plan → Prop}
    (hSound : plan.Sound)
    (hInput : plan.Holds input ∧ input.id = x)
    (hValue : plan.Holds value ∧ value.id = y)
    (hNext : ∀ after, plan.Alters ∅ after →
      after.size = plan.size + 2 →
      after.Holds (Tree.binder k (plan.size + 1) plan.size []
        name input value) →
      (next (plan.size + 1)).Ensures after post) :
    Edit.Ensures (do
        let declared ← add .variable (.var name) []
        let bind ← addWith k .none [x, declared, y]
        next bind) plan post := by
  rcases hInput with ⟨hInput, rfl⟩
  rcases hValue with ⟨hValue, rfl⟩
  refine (ensures_add hSound .variable (.var name) []).bind ?_
  rintro _ middle ⟨rfl, hFirst, hFirstSize, hVariable⟩
  have hParts : ∀ t ∈ [input,
      .node plan.size .variable (.var name) [] [], value],
      middle.Holds t := by
    have hKept (t : Tree) (hT : plan.Holds t) :
        middle.Holds t := hFirst.holds hT (fun _ _ => id)
    simp only [List.forall_mem_cons, List.not_mem_nil,
      IsEmpty.forall_iff, implies_true, and_true]
    exact ⟨hKept _ hInput, holds_leaf hVariable,
      hKept _ hValue⟩
  refine (ensures_addWith hFirst.sound k .none hParts
    rfl).bind ?_
  rintro _ after ⟨rfl, hSecond, hSecondSize, hBinder⟩
  rw [hFirstSize] at hSecondSize hBinder ⊢
  exact hNext after ((hFirst.trans hSecond).narrow
    (fun x hX _ => Set.union_self ∅ ▸ hX)) hSecondSize hBinder

end Edit

end Flwor
