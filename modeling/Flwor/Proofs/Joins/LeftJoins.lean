import Flwor.Proofs.Arena.Freshness
import Flwor.Proofs.Joins.Dismantling

/-
  A binding of a nested pipeline that becomes a left join
  whose regrouping is pending.

  Key definitions include:
    * `Tree.Nested.joined`

  Key theorems include:
    * `Edit.ensures_leftJoinLet`
-/

------------------------------------------------------------
-- Up to the Join
------------------------------------------------------------

namespace Flwor

namespace Tree

/- The join of the numbered outer rows with the inner ones. -/
def Nested.joined
    {feeder pipe : Tree}
    {candidate : Candidate}
    (nested : Nested feeder.visible candidate pipe)
    (number : String)
    (c v j k : NodeId)
    (qs : Properties) : Tree :=
  nested.tie.join j k qs (counter c v number feeder)
    nested.stripped

namespace Nested

variable {feeder pipe : Tree}
variable {candidate : Candidate}
variable (nested : Nested feeder.visible candidate pipe)
variable {number : String}
variable {c v j k x : NodeId}
variable {qs : Properties}

theorem ids_joined :
    (nested.joined number c v j k qs).ids =
      j :: idsAll (nested.joined number c v j k qs).children :=
  rfl

/- The nodes below the join are new or those of its inputs. -/
theorem mem_ids_joined
    (hX : x ∈ idsAll
      (nested.joined number c v j k qs).children) :
    x ∈ [c, v, k] ∨ x ∈ feeder.ids ∨ x ∈ pipe.ids := by
  have hParts := nested.ids_subset
  simp only [List.forall_mem_cons, List.not_mem_nil,
    IsEmpty.forall_iff, implies_true, and_true] at hParts
  simp only [joined, Tie.join, counter, ids, idsAll,
    children_node, List.mem_cons, List.mem_append,
    List.not_mem_nil, or_false] at hX ⊢
  rcases hX with (hX | hX | hX) | (hX | hX | hX) | hX
  · exact .inl (.inl hX)
  · exact .inr (.inl hX)
  · exact .inl (.inr (.inl hX))
  · exact .inl (.inr (.inr hX))
  · exact .inr (.inr (hParts.1 x hX))
  · exact .inr (.inr (hParts.2.1 x hX))
  · exact .inr (.inr (hParts.2.2.1 x hX))

end Nested

end Tree

namespace Edit

open Plan

variable {plan : Plan}
variable {stage : NodeId}
variable {p : Payload}
variable {ps : Properties}
variable {feeder pipe : Tree}
variable {rest : List Tree}
variable {candidate : Candidate}

/- The input of a stage is numbered. -/
theorem ensures_counter
    {α : Type}
    {next : NodeId → Edit α}
    {post : α → Plan → Prop}
    {x : NodeId}
    (hSound : plan.Sound)
    (hFeeder : plan.Holds feeder ∧ feeder.id = x)
    (hNext : ∀ after number, plan.Alters ∅ after →
      after.size = plan.size + 2 →
      plan.Fresh number →
      after.Holds (Tree.counter (plan.size + 1) plan.size number
        feeder) →
      (next (plan.size + 1)).Ensures after post) :
    Edit.Ensures (do
        let number ← fresh "pos"
        let declared ← add .variable (.var number) []
        let count ← addWith .count .none [x, declared]
        next count) plan post := by
  rcases hFeeder with ⟨hFeeder, rfl⟩
  refine (ensures_fresh hSound "pos").bind ?_
  rintro number first ⟨hFirst, hFirstSize, hFresh⟩
  refine (ensures_add hFirst.sound .variable (.var number)
    []).bind ?_
  rintro _ second ⟨rfl, hSecond, hSecondSize, hVariable⟩
  have hBoth := hFirst.trans hSecond
  have hParts : ∀ t ∈ [feeder,
      .node first.size .variable (.var number) [] []],
      second.Holds t := by
    simp only [List.forall_mem_cons, List.not_mem_nil,
      IsEmpty.forall_iff, implies_true, and_true]
    exact ⟨hBoth.holds hFeeder (by simp),
      holds_leaf hVariable⟩
  refine (ensures_addWith hSecond.sound .count .none
    hParts rfl).bind ?_
  rintro _ third ⟨rfl, hThird, hThirdSize, hCount⟩
  rw [hSecondSize, hFirstSize] at hThirdSize hCount ⊢
  refine hNext third number ((hBoth.trans hThird).narrow ?_)
    hThirdSize hFresh hCount
  rintro x ((hX | hX) | hX) _ <;> exact hX.elim

/-
  The join of the numbered rows of the input with the rows
  of the pipeline, which is a left join.
-/
theorem ensures_leftJoin
    {α : Type}
    {next : Pass.InnerParts → NodeId → Edit α}
    {post : α → Plan → Prop}
    (nested : Tree.Nested feeder.visible candidate pipe)
    (hSound : plan.Sound)
    (hStage : .node stage .letBind p ps (feeder :: rest) ∈
      plan.rootTree.subtrees)
    (hPipe : pipe ∈ rest)
    (hNext : ∀ after number,
      plan.Alters {x | x ∈ (Tree.node stage .letBind p ps
        (feeder :: rest)).ids} after →
      after.size = plan.size + 4 →
      plan.Fresh number →
      after.Holds (nested.joined number (plan.size + 1)
        plan.size (plan.size + 3) (plan.size + 2)
        [(Properties.leftJoin, .flag true)]) →
      after.Holds nested.result →
      (next ⟨plan.size + 2, nested.stripped.id,
        nested.result.id⟩ (plan.size + 3)).Ensures
          after post) :
    Edit.Ensures (do
        let feeder ← remove stage 0
        let number ← fresh "pos"
        let declared ← add .variable (.var number) []
        let count ← addWith .count .none [feeder, declared]
        let inner ← Pass.takeApart candidate
        let join ← addWith .join .none
          [count, inner.keys, inner.tail]
        setProperty join Properties.leftJoin (.flag true)
        next inner join) plan post := by
  rcases hSound.holds_rootTree with ⟨_, hHolds, hNodup⟩
  have hHere := hHolds.subtree hStage
  have hApart := Tree.apart_of_nodup
    (Tree.nodup_ids_of_subtree hNodup hStage) hPipe
  refine (ensures_remove hSound hHere.self rfl).bind ?_
  rintro _ first ⟨rfl, hFirst, hFirstSize, hStripped⟩
  have hKept (t : Tree) (hT : t ∈ feeder :: rest)
      (hNot : stage ∉ t.ids) : first.Holds t := by
    refine hFirst.holds (hHere.child hT) ?_
    rintro x hX rfl
    exact hNot hX
  refine ensures_counter hFirst.sound
    ⟨hKept _ List.mem_cons_self hApart.1, rfl⟩ ?_
  intro second number hSecond hSecondSize hFresh hCounter
  refine (achieves_takeApart nested hSecond.sound.loose
    (hSecond.holds (hKept _ (List.mem_cons_of_mem _ hPipe)
      hApart.2.1) (by simp)) hApart.2.2.2).ensures.bind ?_
  rintro _ third
    ⟨_, hThird, hThirdSize, rfl, hKeys, hStages, hResult⟩
  have hSize : second.size = plan.size + 2 := by omega
  rw [hFirstSize] at hCounter ⊢
  rw [hSize] at hThirdSize hKeys ⊢
  have hInputs : ∀ t ∈ [Tree.counter (plan.size + 1) plan.size
        number feeder,
      .node (plan.size + 2) .joinExpr
        (.cmp (.general nested.tie.joining)) []
        [nested.tie.outerKey, nested.tie.innerKey],
      nested.stripped], third.Holds t := by
    simp only [List.forall_mem_cons, List.not_mem_nil,
      IsEmpty.forall_iff, implies_true, and_true]
    refine ⟨hThird.holds hCounter ?_, hKeys, hStages⟩
    intro x hX hPart
    have hOld : x < plan.size :=
      (hHere.child (List.mem_cons_of_mem _ hPipe)).lt_of_mem
        hPart
    simp only [Tree.counter, Tree.ids, Tree.idsAll,
      List.mem_cons, List.mem_append, List.not_mem_nil,
      or_false] at hX
    rcases hX with rfl | hX | rfl
    · exact absurd hOld (by simp)
    · exact hApart.2.2.1 hX hPart
    · exact absurd hOld (Nat.lt_irrefl _)
  refine (ensures_addWith hThird.sound .join .none
    hInputs rfl).bind ?_
  rintro _ fourth ⟨rfl, hFourth, hFourthSize, hJoin⟩
  refine (ensures_setProperty_holds hFourth.sound hJoin ?_
    Properties.leftJoin (.flag true)).bind ?_
  · intro hMem
    rcases Tree.mem_idsAll_iff.mp hMem with ⟨t, hT, hX⟩
    exact Nat.lt_irrefl _ ((hInputs t hT).lt_of_mem hX)
  rintro _ fifth ⟨hFifth, hFifthSize, hJoined⟩
  rw [hThirdSize] at hFourthSize hJoined ⊢
  refine hNext fifth number ?_ (by omega) ?_ hJoined ?_
  · refine ((((hFirst.trans hSecond).trans hThird).trans
      hFourth).trans hFifth).narrow ?_
    rintro x ((((hX | hX) | hX) | hX) | hX) hLt
    · cases hX
      exact Tree.id_mem_ids (.node stage _ _ _ _)
    · exact hX.elim
    · exact Tree.ids_subset (Tree.mem_subtrees_of_child
        (List.mem_cons_of_mem _ hPipe)
        (Tree.mem_subtrees_self _)) _ hX
    · exact hX.elim
    · cases hX
      exact absurd hLt (Nat.not_lt.mpr (by omega))
  · exact hFresh.of_removed hFirst hHere.self hStripped
  · refine hFifth.holds (hFourth.holds hResult (by simp)) ?_
    rintro x hX rfl
    exact Nat.lt_irrefl _ (hResult.lt_of_mem hX)

end Edit

end Flwor

------------------------------------------------------------
-- The Pending Join
------------------------------------------------------------

namespace Flwor

namespace Tree

namespace Nested

variable {plan : Plan}
variable {feeder pipe : Tree}
variable {candidate : Candidate}
variable {nested : Nested feeder.visible candidate pipe}
variable {number : String}

/-
  The stage that takes the place of a binding.  It collects
  the result of the pipeline for the rows of a left join.
-/
structure Pending
    (plan : Plan)
    (nested : Nested feeder.visible candidate pipe)
    (number source target : String)
    (c v j k : NodeId)
    (last : Tree) : Prop where
  fresh : plan.Fresh number
  apart : source ∉ feeder.visible ∧ source ≠ number
  collector :
    nested.Collector source
      (nested.joined number c v j k
        [(Properties.leftJoin, .flag true),
          (Properties.regroup, .vars [target, source])])
      last
  new : plan.size ≤ last.id
  joinNew : plan.size ≤ j

/- What the pipeline binds is mentioned in it. -/
theorem mentions_of_bound
    (nested : Nested feeder.visible candidate pipe)
    {name : String}
    (hName : name ∈ candidate.bound) :
    pipe.Mentions name := by
  rw [← nested.correlated.visible_eq] at hName
  exact (mentions_of_visible hName).of_subtree
    (mem_subtrees_trans (mem_subtrees_of_child
      List.mem_cons_self (mem_subtrees_self _))
      nested.finish_mem)

end Nested

end Tree

namespace Edit

open Plan

variable {plan middle : Plan}
variable {stage : NodeId}
variable {p : Payload}
variable {ps : Properties}
variable {feeder pipe : Tree}
variable {rest : List Tree}
variable {candidate : Candidate}
variable {nested : Tree.Nested feeder.visible candidate pipe}
variable {number target : String}

section Ends

/- The nodes of the join are no older ones but its inputs. -/
theorem joined_apart
    (nested : Tree.Nested feeder.visible candidate pipe)
    (number : String)
    (qs : Properties)
    (hSound : plan.Sound)
    (hStage : .node stage .letBind p ps (feeder :: rest) ∈
      plan.rootTree.subtrees)
    (hPipe : pipe ∈ rest) :
    plan.size + 3 ∉ Tree.idsAll (nested.joined number
        (plan.size + 1) plan.size (plan.size + 3)
        (plan.size + 2) qs).children ∧
      stage ∉ (nested.joined number (plan.size + 1) plan.size
        (plan.size + 3) (plan.size + 2) qs).ids := by
  rcases hSound.holds_rootTree with ⟨_, hHolds, hNodup⟩
  have hHere := hHolds.subtree hStage
  have hApart := Tree.apart_of_nodup
    (Tree.nodup_ids_of_subtree hNodup hStage) hPipe
  have hOld (x : NodeId)
      (hX : x ∈ feeder.ids ∨ x ∈ pipe.ids) : x < plan.size :=
    hX.elim
      (hHere.child List.mem_cons_self).lt_of_mem
      (hHere.child (List.mem_cons_of_mem _ hPipe)).lt_of_mem
  have hLt : stage < plan.size := hHere.self.lt
  have hNew (x : NodeId) (n : Nat) (hX : x < plan.size) :
      x ≠ plan.size + n :=
    (hX.trans_le (Nat.le_add_right _ _)).ne
  refine ⟨fun hMem => ?_, fun hMem => ?_⟩
  · rcases nested.mem_ids_joined hMem with hMem | hMem
    · simp at hMem
    · exact hNew _ 3 (hOld _ hMem) rfl
  · rw [Tree.Nested.ids_joined, List.mem_cons] at hMem
    rcases hMem with hMem | hMem
    · exact hNew _ 3 hLt hMem
    · rcases nested.mem_ids_joined hMem with hMem | hMem
      · simp only [List.mem_cons, List.not_mem_nil, or_false]
          at hMem
        rcases hMem with hMem | hMem | hMem
        · exact hNew _ 1 hLt hMem
        · exact hNew _ 0 hLt hMem
        · exact hNew _ 2 hLt hMem
      · exact hMem.elim hApart.1 hApart.2.1

/- The nodes of the result are older ones. -/
theorem result_apart
    (nested : Tree.Nested feeder.visible candidate pipe)
    (hSound : plan.Sound)
    (hStage : .node stage .letBind p ps (feeder :: rest) ∈
      plan.rootTree.subtrees)
    (hPipe : pipe ∈ rest) :
    ∀ x ∈ nested.result.ids, x < plan.size ∧ x ≠ stage := by
  rcases hSound.holds_rootTree with ⟨_, hHolds, hNodup⟩
  have hHere := hHolds.subtree hStage
  have hApart := Tree.apart_of_nodup
    (Tree.nodup_ids_of_subtree hNodup hStage) hPipe
  intro x hX
  have hMem := nested.ids_subset nested.result (by simp) x hX
  refine ⟨(hHere.child (List.mem_cons_of_mem _
    hPipe)).lt_of_mem hMem, ?_⟩
  rintro rfl
  exact hApart.2.1 hMem

variable (hSound : plan.Sound)
variable (hStage : .node stage .letBind p ps (feeder :: rest) ∈
  plan.rootTree.subtrees)
variable (hPipe : pipe ∈ rest)
variable (hAlters : plan.Alters
  {x | x ∈ (Tree.node stage .letBind p ps
    (feeder :: rest)).ids} middle)
variable (hFresh : plan.Fresh number)
variable (hJoined :
  middle.Holds (nested.joined number (plan.size + 1) plan.size
    (plan.size + 3) (plan.size + 2)
    [(Properties.leftJoin, .flag true)]))

include hSound hStage hPipe hAlters hFresh hJoined

/- The join itself replaces the binding. -/
theorem ensures_replace_joined
    {source : String}
    (hKind : nested.result.kind = .variableRef)
    (hVar : nested.result.var? = some source)
    (hSource : source ∈ candidate.bound) :
    Edit.Ensures (do
        setProperty (plan.size + 3) Properties.regroup
          (.vars [target, source])
        replace stage (plan.size + 3)
        return true) middle (fun done after =>
      done = true ∧ ∃ c v j k last,
        nested.Pending plan number source target c v j k
          last ∧
        after.Sound ∧
        after.rootTree =
          plan.rootTree.mapAt stage (fun _ => last)) := by
  rcases hSound.holds_rootTree with ⟨_, hHolds, _⟩
  have hApart := joined_apart nested number
    [(Properties.leftJoin, .flag true),
      (Properties.regroup, .vars [target, source])]
    hSound hStage hPipe
  refine (ensures_setProperty_holds hAlters.sound hJoined
    hApart.1 Properties.regroup
    (.vars [target, source])).bind ?_
  rintro _ flagged ⟨hFlagged, _, hFlaggedHolds⟩
  refine (ensures_replace_tree hSound hStage
    ((hAlters.trans hFlagged).narrow ?_) hFlaggedHolds
    hApart.2).bind ?_
  · rintro x (hX | hX) hLt
    · exact hX
    · cases hX
      exact absurd hLt (by simp)
  rintro _ after ⟨hAfter, _, hReplaced⟩
  refine ensures_return ⟨rfl, _, _, _, _, _, ⟨hFresh,
    ⟨?_, ?_⟩, .inner hKind hVar hSource,
    Nat.le_add_right _ _, Nat.le_add_right _ _⟩, hAfter,
    hReplaced⟩
  · exact nested.disjoint source hSource
  · rintro rfl
    exact hFresh.not_mentions ((hHolds.subtree hStage).child
      (List.mem_cons_of_mem _ hPipe))
        (nested.mentions_of_bound hSource)

/- A checked binding of the result replaces the binding. -/
theorem ensures_replace_checked
    (hResult : middle.Holds nested.result) :
    Edit.Ensures (do
        let source ← fresh "r"
        let declared ← add .variable (.var source) []
        let bind ← addWith .letBind .none
          [plan.size + 3, declared, nested.result.id]
        setProperty bind Properties.check (.var candidate.run)
        setProperty (plan.size + 3) Properties.regroup
          (.vars [target, source])
        replace stage bind
        return true) middle (fun done after =>
      done = true ∧ ∃ source c v j k last,
        nested.Pending plan number source target c v j k
          last ∧
        after.Sound ∧
        after.rootTree =
          plan.rootTree.mapAt stage (fun _ => last)) := by
  refine (ensures_fresh hAlters.sound "r").bind ?_
  rintro source first ⟨hFirst, hFirstSize, hSource⟩
  have hApart := joined_apart nested number
    [(Properties.leftJoin, .flag true),
      (Properties.regroup, .vars [target, source])]
    hSound hStage hPipe
  refine ensures_binder hFirst.sound
    ⟨hFirst.holds hJoined (by simp), rfl⟩
    ⟨hFirst.holds hResult (by simp), rfl⟩ ?_
  intro second hSecond hSecondSize hBound
  rw [hFirstSize] at hSecondSize hBound ⊢
  have hOld := result_apart nested hSound hStage hPipe
  have hBelow (x : NodeId) (hX : x ∈ Tree.idsAll
      [nested.joined number (plan.size + 1) plan.size
          (plan.size + 3) (plan.size + 2)
          [(Properties.leftJoin, .flag true)],
        .node middle.size .variable (.var source) [] [],
        nested.result]) : x < middle.size + 1 := by
    rcases Tree.mem_idsAll_iff.mp hX with ⟨t, hT, hX⟩
    simp only [List.mem_cons, List.not_mem_nil, or_false]
      at hT
    rcases hT with rfl | rfl | rfl
    · exact (hJoined.lt_of_mem hX).trans (Nat.lt_succ_self _)
    · cases List.mem_singleton.mp hX
      exact Nat.lt_succ_self _
    · exact (hResult.lt_of_mem hX).trans (Nat.lt_succ_self _)
  refine (ensures_setProperty_holds hSecond.sound hBound
    (fun hMem => Nat.lt_irrefl _ (hBelow _ hMem))
    Properties.check (.var candidate.run)).bind ?_
  rintro _ third ⟨hThird, hThirdSize, hChecked⟩
  refine (ensures_setProperty_holds hThird.sound
    (hChecked.child List.mem_cons_self) hApart.1
    Properties.regroup (.vars [target, source])).bind ?_
  rintro _ fourth ⟨hFourth, hFourthSize, hPending⟩
  have hLast : fourth.Holds (Tree.binder .letBind
      (middle.size + 1) middle.size
      [(Properties.check, .var candidate.run)] source
      (nested.joined number (plan.size + 1) plan.size
        (plan.size + 3) (plan.size + 2)
        [(Properties.leftJoin, .flag true),
          (Properties.regroup, .vars [target, source])])
      nested.result) := by
    have hJoin : plan.size + 3 < middle.size :=
      hJoined.self.lt
    have hNe : middle.size + 1 ∉
        ({plan.size + 3} : Set NodeId) :=
      (hJoin.trans (Nat.lt_succ_self _)).ne'
    have hSpared := hFourth.spared (.node _ _ _ _ _) hNe
      hChecked.self
    refine holds_node ⟨hSpared.lt, hSpared.kind,
      hSpared.payload, hSpared.properties,
      hSpared.children⟩ ?_
    simp only [List.forall_mem_cons, List.not_mem_nil,
      IsEmpty.forall_iff, implies_true, and_true]
    refine ⟨hPending, hFourth.holds (hChecked.child
      (List.mem_cons_of_mem _ List.mem_cons_self)) ?_,
      hFourth.holds (hChecked.child (List.mem_cons_of_mem _
        (List.mem_cons_of_mem _ List.mem_cons_self))) ?_⟩
    · rintro x hX rfl
      exact hJoin.ne (List.mem_singleton.mp hX)
    · rintro x hX rfl
      exact absurd (hOld _ hX).1 (by simp)
  refine (ensures_replace_tree hSound hStage
    ((((hAlters.trans hFirst).trans hSecond).trans
      hThird).trans hFourth |>.narrow ?_) hLast
    ?_).bind ?_
  · rintro x ((((hX | hX) | hX) | hX) | hX) hLt
    · exact hX
    · exact hX.elim
    · exact hX.elim
    · cases hX
      exact absurd (hLt.trans_le hAlters.size) (by simp)
    · cases hX
      exact absurd hLt (by simp)
  · have hLt : stage < middle.size :=
      (hSound.holds_rootTree.2.1 _ hStage).lt.trans_le
        hAlters.size
    simp only [Tree.binder, Tree.ids, Tree.idsAll,
      List.mem_cons, List.mem_append, List.not_mem_nil,
      or_false, not_or]
    exact ⟨(hLt.trans (Nat.lt_succ_self _)).ne, hApart.2,
      hLt.ne, fun hX => (hOld _ hX).2 rfl⟩
  rintro _ after ⟨hAfter, _, hReplaced⟩
  refine ensures_return ⟨rfl, source, _, _, _, _, _, ⟨hFresh,
    ⟨?_, ?_⟩, .checked,
    hAlters.size.trans (Nat.le_succ _),
    Nat.le_add_right _ _⟩, hAfter, hReplaced⟩
  · exact fun hName => hSource.not_mentions hJoined
      (((Tree.mentions_of_visible hName).of_child
        List.mem_cons_self).of_child List.mem_cons_self)
  · rintro rfl
    refine hSource.not_mentions hJoined (Tree.Mentions.of_child
      (Tree.Mentions.of_child ⟨_, Tree.mem_subtrees_self
        (.node plan.size .variable (.var source) [] []), rfl⟩
        (List.mem_cons_of_mem _ List.mem_cons_self))
      List.mem_cons_self)

end Ends

/-
  If the binding is replaced, the plan has a left join in its
  place whose groups have not been made yet.  Otherwise the
  plan is as it was.
-/
theorem ensures_leftJoinLet
    (hSound : plan.Sound)
    (hStage : .node stage .letBind p ps (feeder :: rest) ∈
      plan.rootTree.subtrees) :
    (Pass.leftJoinLet stage).Ensures plan
      (fun done after => (done = false → after = plan) ∧
        (done = true → ∃ pipe candidate number source target,
          ∃ nested :
            Tree.Nested feeder.visible candidate pipe,
          ∃ c v j k last,
            ps.get? Properties.check = none ∧
            Tree.binding? (.node stage .letBind p ps
              (feeder :: rest)) = some target ∧
            rest[1]? = some pipe ∧
            nested.Pending plan number source target c v j k
              last ∧
            after.Sound ∧
            after.rootTree =
              plan.rootTree.mapAt stage
                (fun _ => last))) := by
  rcases hSound.holds_rootTree with ⟨hRoot, hHolds, hNodup⟩
  have hTree : plan.tree stage = _ :=
    hHolds.tree_eq hSound.linked hRoot hStage
  have hHere := hHolds.subtree hStage
  refine ensures_get_bind ?_
  dsimp only
  rw [hTree]
  split
  · exact ensures_unchanged
  next hOpen =>
  rw [Bool.not_eq_true, hHere.self.isChecked_eq,
    Option.isSome_eq_false_iff, Option.isNone_iff_eq_none]
    at hOpen
  split
  · exact ensures_unchanged
  next candidate hCandidate =>
  rcases Option.bind_eq_some_iff.mp hCandidate with
    ⟨pipeId, hChild, hCandidate⟩
  rw [child?, hHere.self.links, List.getElem?_map,
    Option.map_eq_some_iff] at hChild
  rcases hChild with ⟨pipe, hPipe, rfl⟩
  have hMem : pipe ∈ rest := List.mem_of_getElem? hPipe
  rcases nonempty_nested hSound.linked hHolds hRoot hStage
    hMem hCandidate with ⟨nested⟩
  split
  · exact ensures_fail _
  next target hTarget =>
  refine ensures_leftJoin nested hSound hStage hMem ?_
  intro middle number hAlters _ hFresh hJoined hResult
  refine ensures_get_bind ?_
  dsimp only
  split
  next source hReturned =>
    split at hReturned
    next hKind =>
      rcases Option.filter_eq_some_iff.mp hReturned with
        ⟨hVar, hSource⟩
      refine (ensures_replace_joined hSound hStage hMem hAlters
        hFresh hJoined ?_ ?_ ?_).mono ?_
      · rw [← hResult.self.kind]
        exact hKind
      · rw [Tree.var?, ← hResult.self.payload]
        exact hVar
      · simpa using hSource
      · rintro _ after ⟨rfl, c, v, j, k, last, hPending,
          hAfter, hReplaced⟩
        exact ⟨Bool.noConfusion, fun _ => ⟨pipe, candidate,
          number, source, target, nested, c, v, j, k, last,
          hOpen, hTarget, hPipe, hPending, hAfter,
          hReplaced⟩⟩
    · cases hReturned
  next =>
    refine (ensures_replace_checked hSound hStage hMem hAlters
      hFresh hJoined hResult).mono ?_
    rintro _ after ⟨rfl, source, c, v, j, k, last, hPending,
      hAfter, hReplaced⟩
    exact ⟨Bool.noConfusion, fun _ => ⟨pipe, candidate,
      number, source, target, nested, c, v, j, k, last, hOpen,
      hTarget, hPipe, hPending, hAfter, hReplaced⟩⟩

end Edit

end Flwor
