import Flwor.Proofs.Joins.Dismantling

/-
  A loop over a nested pipeline that becomes an inner join.

  Key theorems include:
    * `Edit.ensures_innerJoinFor`
-/

------------------------------------------------------------
-- The Edit
------------------------------------------------------------

namespace Flwor

namespace Edit

open Plan

variable {plan : Plan}
variable {stage : NodeId}
variable {p : Payload}
variable {ps : Properties}
variable {feeder : Tree}
variable {rest : List Tree}

/-
  If the loop is replaced, the plan has a loop over a join
  in its place.  Otherwise the plan is as it was.
-/
theorem ensures_innerJoinFor
    (hSound : plan.Sound)
    (hStage : .node stage .forBind p ps (feeder :: rest) ∈
      plan.rootTree.subtrees)
    (hRest : rest ≠ []) :
    (Pass.innerJoinFor stage).Ensures plan
      (fun done after => (done = false → after = plan) ∧
        (done = true → ∃ pipe candidate target,
          ∃ nested :
            Tree.Nested feeder.visible candidate pipe,
          ∃ b v j k,
            ps.get? Properties.check = none ∧
            Tree.position? (.node stage .forBind p ps
              (feeder :: rest)) = none ∧
            Tree.binding? (.node stage .forBind p ps
              (feeder :: rest)) = some target ∧
            rest.getLast? = some pipe ∧
            plan.candidate? stage pipe.id = some candidate ∧
            plan.size ≤ j ∧
            after.Sound ∧
            after.rootTree =
              plan.rootTree.mapAt stage (fun _ =>
                Tree.binder .forBind b v [] target
                  (nested.tie.join j k [] feeder
                    nested.stripped) nested.result))) := by
  rcases hSound.holds_rootTree with ⟨hRoot, hHolds, hNodup⟩
  have hTree : plan.tree stage = _ :=
    hHolds.tree_eq hSound.linked hRoot hStage
  have hHere := hHolds.subtree hStage
  have hHereNodup := Tree.nodup_ids_of_subtree hNodup hStage
  refine ensures_get_bind ?_
  dsimp only
  rw [hTree]
  split
  · exact ensures_unchanged
  next hOpen =>
  rw [Bool.or_eq_true, not_or, Bool.not_eq_true,
    Bool.not_eq_true, Option.isSome_eq_false_iff,
    Option.isNone_iff_eq_none, hHere.self.isChecked_eq,
    Option.isSome_eq_false_iff, Option.isNone_iff_eq_none]
    at hOpen
  split
  · exact ensures_unchanged
  next candidate hCandidate =>
  rcases Option.bind_eq_some_iff.mp hCandidate with
    ⟨pipeId, hLast, hCandidate⟩
  rw [hHere.self.lastChild?_eq hRest,
    Option.map_eq_some_iff] at hLast
  rcases hLast with ⟨pipe, hPipe, rfl⟩
  have hMem := List.mem_of_getLast? hPipe
  rcases nonempty_nested hSound.linked hHolds hRoot hStage
    hMem hCandidate with ⟨nested⟩
  split
  · exact ensures_fail _
  next target hTarget =>
  split
  · exact ensures_unchanged
  have hApart := Tree.apart_of_nodup hHereNodup hMem
  refine (ensures_remove hSound hHere.self rfl).bind ?_
  rintro _ first ⟨rfl, hFirst, hFirstSize, _⟩
  refine (achieves_takeApart nested hFirst.sound.loose
    (hFirst.holds (hHere.child (List.mem_cons_of_mem _ hMem))
      ?_) hApart.2.2.2).ensures.bind ?_
  · rintro x hX rfl
    exact hApart.2.1 hX
  rintro _ second
    ⟨_, hSecond, hSecondSize, rfl, hKeys, hStripped, hResult⟩
  have hFeeder : second.Holds feeder := by
    refine hSecond.holds (hFirst.holds
      (hHere.child List.mem_cons_self) ?_)
      (fun x hX hX' => hApart.2.2.1 hX hX')
    rintro x hX rfl
    exact hApart.1 hX
  have hInputs : ∀ t ∈ [feeder, .node first.size .joinExpr
      (.cmp (.general nested.tie.joining)) []
      [nested.tie.outerKey, nested.tie.innerKey],
      nested.stripped], second.Holds t := by
    simp only [List.forall_mem_cons, List.not_mem_nil,
      IsEmpty.forall_iff, implies_true, and_true]
    exact ⟨hFeeder, hKeys, hStripped⟩
  refine (ensures_addWith hSecond.sound .join .none
    hInputs rfl).bind ?_
  rintro _ third ⟨rfl, hThird, hThirdSize, hJoin⟩
  refine ensures_binder hThird.sound ⟨hJoin, rfl⟩
    ⟨hThird.holds hResult (fun _ _ => id), rfl⟩ ?_
  intro fourth hFourth _ hBinder
  have hAlters : plan.Alters {x | x ∈ (Tree.node stage .forBind
      p ps (feeder :: rest)).ids} fourth := by
    refine (((hFirst.trans hSecond).trans hThird).trans
      hFourth).narrow ?_
    rintro x (((hX | hX) | hX) | hX) _
    · cases hX
      exact Tree.id_mem_ids (.node stage _ _ _ _)
    · exact Tree.ids_subset (Tree.mem_subtrees_of_child
        (List.mem_cons_of_mem _ hMem)
        (Tree.mem_subtrees_self _)) _ hX
    · exact hX.elim
    · exact hX.elim
  refine (ensures_replace_tree hSound hStage hAlters hBinder
    ?_).bind ?_
  · have hLt : stage < plan.size := hHere.self.lt
    have hParts := nested.ids_subset
    simp only [List.forall_mem_cons, List.not_mem_nil,
      IsEmpty.forall_iff, implies_true, and_true] at hParts
    have hNot (part : Tree)
        (hPart : ∀ x ∈ part.ids, x ∈ pipe.ids) :
        stage ∉ part.ids :=
      fun hX => hApart.2.1 (hPart _ hX)
    have hNew (x : NodeId) (hX : plan.size ≤ x) : stage ≠ x :=
      (hLt.trans_le hX).ne
    simp only [Tree.binder, Tree.id, Tree.ids, Tree.idsAll,
      List.mem_cons, List.mem_append, List.not_mem_nil,
      or_false, not_or]
    exact ⟨hNew _ (by omega), ⟨hNew _ (by omega), hApart.1,
      ⟨hNew _ (by omega), hNot _ hParts.1,
        hNot _ hParts.2.1⟩, hNot _ hParts.2.2.1⟩,
      hNew _ (by omega), hNot _ hParts.2.2.2⟩
  rintro _ after ⟨hAfter, _, hReplaced⟩
  refine ensures_return ⟨Bool.noConfusion, fun _ => ⟨pipe,
    candidate, target, nested, _, _, _, _, hOpen.1, hOpen.2,
    hTarget, hPipe, hCandidate, ?_, hAfter, hReplaced⟩⟩
  exact (hFirst.trans hSecond).size

end Edit

end Flwor
