import Flwor.Proofs.Arena.Loose
import Flwor.Proofs.Convergence.Measures
import Flwor.Proofs.Convergence.Traversals
import Flwor.Proofs.Joins.Unnesting

/-
  Each emitted grouping leaves one pending regrouping less.

  The grouping is made of new nodes, the rows of the join and
  its consumer: there is always a place for it, and none of
  the new nodes has a regrouping that is pending.

  Key definitions include:
    * `Tree.Emitted`

  Key theorems include:
    * `Plan.Loose.achieves_grouping`
    * `Pass.achieves_emitted`
    * `Pass.ensures_emitted`
    * `Pass.descends_groupEmission`
-/

------------------------------------------------------------
-- Emitted Groupings
------------------------------------------------------------

namespace Flwor

namespace Plan

variable {plan : Plan}
variable {s : Tree}

/- The tree of a child is what stands in its place. -/
theorem Sound.map_tree_child?
    {i : NodeId}
    {k : Kind}
    {q : Payload}
    {qs : Properties}
    {cs : List Tree}
    (hSound : plan.Sound)
    (hS : .node i k q qs cs ∈ plan.rootTree.subtrees)
    (index : Nat) :
    (plan.child? i index).map plan.tree = cs[index]? := by
  rcases hSound.holds_rootTree with ⟨hTop, hHolds, _⟩
  rw [child?, (hHolds _ hS).links, List.getElem?_map,
    Option.map_map]
  cases hC : cs[index]? with
  | none => rfl
  | some c =>
      exact congrArg some (hHolds.tree_eq hSound.linked hTop
        (Tree.mem_subtrees_trans (Tree.mem_subtrees_of_child
          (List.mem_of_getElem? hC)
          (Tree.mem_subtrees_self c)) hS))

/- The rows of a join are grouped after a stage above it. -/
theorem Sound.exists_regroupPoint
    (hSound : plan.Sound)
    (hStage : s.kind.isStage)
    (hS : s ∈ plan.rootTree.subtrees)
    (steps : Nat) :
    ∃ last ∈ plan.rootTree.subtrees,
      plan.regroupPointWithin steps s.id = last.id ∧
        last.kind.isStage ∧ s ∈ last.subtrees := by
  have hHere : s ∈ s.subtrees := Tree.mem_subtrees_self s
  induction steps generalizing s with
  | zero => exact ⟨s, hS, rfl, hStage, hHere⟩
  | succ steps ih =>
      rw [regroupPointWithin]
      split
      · next next hConsumer =>
        split
        · next hGuard =>
          rw [Bool.and_eq_true, decide_eq_true_eq] at hGuard
          rcases hSound.exists_parent hS
              (parent?_of_consumer hConsumer) with
            ⟨r, hR, rfl, hChild⟩
          have hMem := Tree.around_subset hR
          have hKind := hSound.holds_rootTree.2.1 r hMem
          rcases ih (by rw [← hKind.kind, hGuard.1]; rfl)
              hMem (Tree.mem_subtrees_self r) with
            ⟨last, hLast, hEq, hLastStage, hBelow⟩
          exact ⟨last, hLast, hEq, hLastStage,
            Tree.mem_subtrees_trans
              (Tree.mem_subtrees_of_child hChild hHere)
              hBelow⟩
        · exact ⟨s, hS, rfl, hStage, hHere⟩
      · exact ⟨s, hS, rfl, hStage, hHere⟩

namespace Loose

open Pass

variable {group last : NodeId}
variable {xs : List NodeId}

/- New nodes go below a grouping. -/
theorem achieves_addGroupKey
    (hLoose : plan.Loose xs)
    (hGroup : group < plan.size)
    (name : String) :
    (addGroupKey group name).Achieves plan (fun _ after =>
      after.Loose xs ∧ plan.Alters {group} after) := by
  refine (hLoose.achieves_add .variableRef (.var name)
    []).bind ?_
  rintro _ first ⟨rfl, hFirst, hReference⟩
  have hPerm : ([plan.size] ++ xs).Perm (plan.size :: xs) :=
    List.Perm.refl _
  refine (hFirst.achieves_addWith hPerm .groupSpec
    .none).bind ?_
  rintro _ second ⟨rfl, hSecond, hSpec⟩
  have hBoth := hReference.trans hSpec
  refine (hSecond.achieves_hang
    (hGroup.trans_le hBoth.size)).mono ?_
  rintro _ after ⟨hAfter, hAlters⟩
  exact ⟨hAfter, (hBoth.trans hAlters).narrow (by simp)⟩

theorem achieves_addGroupKeys
    (hLoose : plan.Loose xs)
    (hGroup : group < plan.size)
    (names : List String) :
    (names.forM (addGroupKey group)).Achieves plan
      (fun _ after =>
        after.Loose xs ∧ plan.Alters {group} after) := by
  induction names generalizing plan with
  | nil =>
      exact achieves_return ⟨hLoose, hLoose.sound, rfl,
        le_rfl, fun _ _ h => h⟩
  | cons name rest ih =>
      change (addGroupKey group name >>= fun _ =>
        rest.forM (addGroupKey group)).Achieves plan _
      refine (hLoose.achieves_addGroupKey hGroup name).bind ?_
      rintro _ middle ⟨hMiddle, hFirst⟩
      refine (ih hMiddle (hGroup.trans_le hFirst.size)).mono
        ?_
      rintro _ after ⟨hRest, hAlters⟩
      exact ⟨hRest, (hFirst.trans hAlters).narrow
        (fun x hX _ => Set.union_self {group} ▸ hX)⟩

/- A grouping of loose rows is loose itself. -/
theorem achieves_grouping
    {names : List String}
    {target source : String}
    {next : NodeId → Edit Unit}
    {post : Unit → Plan → Prop}
    (hLoose : plan.Loose [last])
    (hNext : ∀ group after, after.Loose [group] →
      plan.Alters ∅ after → (next group).Achieves after post) :
    Achieves (do
        let group ← Edit.addWith .groupBy .none [last]
        names.forM (addGroupKey group)
        let declared ← Edit.add .variable (.var target) []
        let reference ←
          Edit.add .variableRef (.var source) []
        let aggregate ← Edit.addWith .aggregateSpec .none
          [declared, reference]
        Edit.append group aggregate
        next group) plan post := by
  have hPerm : ([last] ++ []).Perm [last] := List.Perm.refl _
  refine (hLoose.achieves_addWith hPerm .groupBy .none).bind
    ?_
  rintro _ first ⟨rfl, hFirst, hGroup⟩
  have hLt : plan.size < first.size :=
    (hFirst.detached _ List.mem_cons_self).lt
  refine (hFirst.achieves_addGroupKeys hLt names).bind ?_
  rintro _ second ⟨hSecond, hKeys⟩
  refine (hSecond.achieves_add .variable (.var target)
    []).bind ?_
  rintro _ third ⟨rfl, hThird, hDeclared⟩
  refine (hThird.achieves_add .variableRef (.var source)
    []).bind ?_
  rintro _ fourth ⟨rfl, hFourth, hReference⟩
  have hSwap : ([second.size, third.size] ++
      [plan.size]).Perm
        [third.size, second.size, plan.size] :=
    List.Perm.swap ..
  refine (hFourth.achieves_addWith hSwap .aggregateSpec
    .none).bind ?_
  rintro _ fifth ⟨rfl, hFifth, hSpec⟩
  have hParts :=
    ((hKeys.trans hDeclared).trans hReference).trans hSpec
  refine (hFifth.achieves_hang
    (hLt.trans_le hParts.size)).bind ?_
  rintro _ after ⟨hAfter, hPut⟩
  refine hNext _ after hAfter
    (((hGroup.trans hParts).trans hPut).narrow ?_)
  intro x hX hOld
  simp only [Set.union_empty, Set.empty_union, Set.union_self,
    Set.mem_singleton_iff] at hX
  exact (hOld.ne hX).elim

end Loose

end Plan

namespace Pass

open Plan

variable {plan : Plan}
variable {join : NodeId}
variable {last : Tree}

/- There is a place for the grouping of a join. -/
theorem achieves_emitted
    (hAnchored : plan.Anchored)
    (hLast : last ∈ plan.rootTree.subtrees)
    (hStage : last.kind.isStage)
    (hPoint : plan.regroupPoint join = last.id)
    (target source : String) :
    (emitGroup join target source).Achieves plan
      (fun _ _ => True) := by
  have hSound := hAnchored.sound
  rcases hAnchored.exists_consumer hStage hLast with
    ⟨⟨p, k, q, ps, ts⟩, hR, index, hPlace, hUp, hIndex⟩
  have hHere := hSound.holds_rootTree.2.1 _
    (Tree.around_subset hR)
  refine achieves_get_bind ?_
  dsimp only
  rw [hPoint, hUp, hIndex]
  refine (hSound.loose.achieves_remove hHere hPlace).bind ?_
  rintro _ first ⟨rfl, hFirst, _, hStands⟩
  refine hFirst.achieves_grouping ?_
  intro group second hSecond hAlters
  have hBound : index < ts.length :=
    (List.getElem?_eq_some_iff.mp hPlace).1
  have hGroup : second.Loose
      [(Tree.node group .groupBy .none [] []).id] := hSecond
  refine (hGroup.achieves_insert
    (hAlters.spared _ id hStands) ?_).bind ?_
  · rw [List.length_eraseIdx_of_lt hBound]
    exact Nat.le_pred_of_lt hBound
  · intro _ third _
    exact (Edit.achieves_eraseProperty join
      Properties.regroup).mono (fun _ _ _ => trivial)

end Pass

end Flwor

------------------------------------------------------------
-- Groupings in Their Places
------------------------------------------------------------

namespace Flwor

namespace Tree

variable {plan : Plan}
variable {j : NodeId}
variable {last u : Tree}

/-
  What a change puts in the place of the last stage of the
  rows of a join: a grouping of them, below which the join
  has no pending regrouping.
-/
inductive Emitted
    (plan : Plan)
    (j : NodeId) : Tree → Tree → Prop where
  | grouped
      {last q qs cs target source g specs}
      (hJoin : .node j .join q qs cs ∈ last.subtrees)
      (hStage : last.kind.isStage)
      (hPoint : plan.regroupPoint j = last.id)
      (hVars : qs.vars? Properties.regroup =
        some [target, source])
      (hDone : ∀ left, cs[0]? = some left →
        left.subtrees.any isPendingJoin = false)
      (hSpecs : GroupSpecs
        (Names.latest ((cs[0]?.map visible).getD [])) target
          source specs)
      (hNew : ∀ x ∈ g :: idsAll specs, plan.size ≤ x) :
      Emitted plan j last (.node g .groupBy .none []
        (last.mapAt j (fun _ =>
          .node j .join q (qs.erase Properties.regroup)
            cs) :: specs))

namespace Emitted

variable (hEmitted : Emitted plan j last u)

include hEmitted

theorem isStage_eq :
    u.kind.isStage = last.kind.isStage := by
  rcases hEmitted with ⟨_, hStage, _, _, _, _, _⟩
  exact hStage.symm

/- A grouping may stand where a stage does. -/
theorem shaped
    (hShaped : last.Shaped)
    (hNodup : last.ids.Nodup) :
    last.SameRole u ∧ u.Shaped := by
  rcases hEmitted with
    @⟨q, qs, cs, _, _, g, specs, hJoin, hStage, _, _, _,
      hSpecs, _⟩
  have hErased :
      (Tree.node j .join q (qs.erase Properties.regroup)
        cs).Shaped := by
    have hHere : (Tree.node j .join q qs cs).Shaped :=
      hShaped.subtree hJoin
    exact shaped_node hHere.self (fun c hC => hHere.child hC)
  refine ⟨.inl ⟨hStage, rfl⟩, hSpecs.shaped g _
    (hShaped.exchange hNodup hJoin (.inr rfl) hErased) ?_⟩
  by_cases hEq : last.id = j
  · have hSame := eq_of_id_eq hNodup (mem_subtrees_self last)
      hJoin hEq
    rw [hSame, mapAt_self]
    rfl
  · rcases last with ⟨i, k, p, ps, ts⟩
    have hNe : i ≠ j := hEq
    rw [mapAt_of_ne hNe]
    exact hStage

end Emitted

end Tree

end Flwor

------------------------------------------------------------
-- Pending Regroupings
------------------------------------------------------------

namespace Flwor

/- A list of names is an annotation. -/
theorem Properties.get?_ne_of_vars?
    {ps : Properties}
    {key : String}
    {names : List String}
    (hVars : ps.vars? key = some names) :
    ps.get? key ≠ none := by
  intro hNone
  rw [vars?, hNone] at hVars
  cases hVars

/- What is erased is no longer there. -/
theorem Properties.get?_erase_self
    (ps : Properties)
    (key : String) :
    (ps.erase key).get? key = none := by
  rw [get?, List.lookup_eq_none_iff]
  intro entry hEntry
  have hKept : entry.1 ≠ key := by
    simpa using List.of_mem_filter hEntry
  simpa using hKept.symm

namespace Pass

open Plan

variable {g j : NodeId}
variable {q : Payload}
variable {qs : Properties}
variable {cs specs : List Tree}
variable {t last : Tree}

/- The number of joins with a pending regrouping. -/
abbrev pendingCount : Tree → Nat :=
  Tree.tally (fun k ps => k = .join
    && (ps.get? Properties.regroup).isSome)

abbrev planPending
    (plan : Plan) : Nat :=
  pendingCount plan.rootTree

theorem pendingCount_of_lacks
    (hLacks : t.Lacks Properties.regroup) :
    pendingCount t = 0 := by
  rw [pendingCount, Tree.tally, List.countP_eq_zero]
  intro s hS
  simp [hLacks s hS]

/- A grouping takes the regrouping away from its join. -/
theorem pendingCount_emitted
    {plan : Plan}
    {u : Tree}
    (hEmitted : Tree.Emitted plan j last u)
    (hNodup : last.ids.Nodup) :
    pendingCount u < pendingCount last := by
  rcases hEmitted with
    @⟨q, qs, cs, _, _, g, specs, hJoin, _, _, hVars, _,
      hSpecs, _⟩
  have hPending : (qs.get? Properties.regroup).isSome :=
    Option.isSome_iff_ne_none.mpr
      (Properties.get?_ne_of_vars? hVars)
  have hRest : (specs.map pendingCount).sum = 0 := by
    rw [List.sum_eq_zero_iff, List.forall_mem_map]
    exact fun t hT => pendingCount_of_lacks
      (hSpecs.lacks _ t hT)
  have hHere : pendingCount
      (.node j .join q (qs.erase Properties.regroup) cs) <
        pendingCount (.node j .join q qs cs) := by
    simp [pendingCount, Tree.tally_node, hPending,
      Properties.get?_erase_self]
  have hErased : pendingCount (last.mapAt j (fun _ =>
      .node j .join q (qs.erase Properties.regroup) cs)) <
        pendingCount last :=
    Tree.congruent_tally.mapAt hNodup hJoin hHere
  rw [pendingCount, Tree.tally_node, List.map_cons,
    List.sum_cons, hRest]
  simpa using hErased

/-
  A visit of a join puts its grouping in the place of its
  last stage, or leaves all as it is.
-/
theorem ensures_emitted
    {plan : Plan}
    {join : NodeId}
    (hSound : plan.Sound)
    (hReach : plan.Reaches join) :
    (regroupJoin join).Ensures plan
      (plan.Swaps (Tree.Emitted plan join)) := by
  rcases hSound.exists_of_reaches hReach with
    ⟨⟨j, k, q, qs, cs⟩, hJoin, rfl⟩
  have hHere := hSound.holds_rootTree.2.1 _ hJoin
  have hKindHere : plan.kind j = k := hHere.kind
  have hPropertiesHere : plan.properties j = qs :=
    hHere.properties
  have hLeft := hSound.map_tree_child? hJoin 0
  change (regroupJoin j).Ensures plan _
  refine Edit.ensures_get_bind ?_
  dsimp only
  rw [hKindHere, hPropertiesHere, hLeft]
  split
  · exact Edit.ensures_return .nothing
  next hGuard =>
  have hKind : k = .join := by
    by_contra hKind
    simp [hKind] at hGuard
  subst hKind
  split
  case h_2 => exact Edit.ensures_return .nothing
  next target source hVars =>
  split
  · exact Edit.ensures_return .nothing
  next hDone =>
  rcases hSound.exists_regroupPoint rfl hJoin plan.size with
    ⟨last, hLast, hPoint, hStage, hBelow⟩
  refine (Edit.ensures_emitGroup hSound hLast hBelow hPoint
    target source).bind ?_
  rintro _ after ⟨g, specs, hAfter, hSpecs, hNew, hTree⟩
  refine Edit.ensures_return (.of_mapAt hLast
    (.grouped hBelow hStage hPoint hVars ?_ hSpecs hNew) hAfter
    hTree)
  intro left hC
  rw [hC] at hDone
  simpa using hDone

/- There is a place for the grouping of a join. -/
theorem achieves_grouped
    {plan : Plan}
    {join : NodeId}
    (hAnchored : plan.Anchored)
    (hReach : plan.Reaches join) :
    (regroupJoin join).Achieves plan
      (plan.Swaps (Tree.Emitted plan join)) := by
  have hSound := hAnchored.sound
  have hRuns : (regroupJoin join).Achieves plan
      (fun _ _ => True) := by
    refine achieves_get_bind ?_
    dsimp only
    split
    · exact achieves_return trivial
    next hGuard =>
    have hKind : plan.kind join = .join := by
      by_contra hKind
      simp [hKind] at hGuard
    rcases hSound.exists_of_reaches hReach with
      ⟨s, hJoin, rfl⟩
    have hStage : s.kind.isStage := by
      rw [← (hSound.holds_rootTree.2.1 s hJoin).kind, hKind]
      rfl
    split
    case h_2 => exact achieves_return trivial
    next target source _ =>
    split
    · exact achieves_return trivial
    rcases hSound.exists_regroupPoint hStage hJoin plan.size
      with ⟨last, hLast, hPoint, hLastStage, _⟩
    exact (achieves_emitted hAnchored hLast hLastStage hPoint
      target source).bind (fun _ _ _ => achieves_return trivial)
  exact (hRuns.ensuring
    (ensures_emitted hSound hReach)).mono (fun _ _ => And.right)

/- A join has no pending regrouping, or loses it. -/
theorem descends_groupEmission :
    groupEmission.Descends Plan.Anchored
      (Lowers planPending) := by
  intro plan join hAnchored hReach
  have hNodup := hAnchored.sound.holds_rootTree.2.2
  refine Edit.descends_of_achieves
    ((achieves_grouped hAnchored hReach).mono ?_)
  intro done after hSwaps
  refine ⟨hSwaps.kept, fun hDone => ?_⟩
  rcases hSwaps.swapped hDone with
    ⟨last, u, hLast, hEmitted, hAfter, hTree⟩
  refine ⟨hAnchored.of_mapAt hAfter hLast
    hEmitted.isStage_eq hTree, ?_⟩
  rw [Lowers, planPending, hTree]
  exact Tree.congruent_tally.mapAt hNodup hLast
    (pendingCount_emitted hEmitted
      (Tree.nodup_ids_of_subtree hNodup hLast))

end Pass

end Flwor
