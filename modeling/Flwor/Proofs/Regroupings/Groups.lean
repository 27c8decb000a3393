import Flwor.Proofs.Convergence.Grouping
import Flwor.Proofs.Regroupings.Steps

/-
  A pending regrouping becomes a grouping.

  The grouping stands right above the join, or above the
  guarded binding that is right above it.  From then on the
  join waits for nothing, and nothing in its left input does,
  so that other groupings leave both alone.

  Key definitions include:
    * `Tree.Tops`
    * `Tree.Groups`
    * `Plan.Answers`

  Key theorems include:
    * `Plan.Orderly.exists_tops`
    * `Tree.Groups.of_emitted`
    * `Pass.preserves_groupEmission`
-/

------------------------------------------------------------
-- Guarded Joins
------------------------------------------------------------

namespace Flwor

namespace Tree

/- A join, or the guarded binding right above it. -/
inductive Tops
    (join : Tree) : Tree → Prop where
  | bare : Tops join join
  | guarded
      {i : NodeId}
      {p : Payload}
      {ps : Properties}
      {rest : List Tree}
      (hCheck : ps.get? Properties.check ≠ none) :
      Tops join (.node i .letBind p ps (join :: rest))

variable {a : NodeId}
variable {join other new r top : Tree}

namespace Tops

variable (hTops : Tops join top)

include hTops

theorem mem_subtrees :
    join ∈ top.subtrees := by
  cases hTops with
  | bare => exact mem_subtrees_self _
  | guarded =>
      exact mem_subtrees_of_child List.mem_cons_self
        (mem_subtrees_self _)

theorem kind_eq
    (hJoin : join.kind = .join) :
    top.kind = .join ∨ top.kind = .letBind := by
  cases hTops with
  | bare => exact .inl hJoin
  | guarded => exact .inr rfl

/- It is a guarded binding unless it is the join. -/
theorem eq_of_kind
    (hKind : top.kind = .join) :
    top = join := by
  cases hTops with
  | bare => rfl
  | guarded => cases hKind

/- It is above one join only. -/
theorem eq_of_tops
    (hOther : Tops other top)
    (hJoin : join.kind = .join)
    (hOtherJoin : other.kind = .join) :
    other = join := by
  cases hTops with
  | bare => exact (hOther.eq_of_kind hJoin).symm
  | guarded =>
      cases hOther with
      | bare => cases hOtherJoin
      | guarded => rfl

/- A subtree elsewhere is replaced below or beside the join. -/
theorem mapAt
    {f : Tree → Tree}
    (hTop : top.id ≠ a) :
    Tops (join.mapAt a f) (top.mapAt a f) := by
  cases hTops with
  | bare => exact .bare
  | @guarded i p ps rest hCheck =>
      have hNe : i ≠ a := hTop
      rw [mapAt_of_ne hNe]
      exact .guarded hCheck

/- The join itself is replaced. -/
theorem replaced
    (hNodup : top.ids.Nodup)
    (new : Tree) :
    Tops new (top.mapAt join.id (fun _ => new)) := by
  cases hTops with
  | bare =>
      rw [mapAt_id]
      exact .bare
  | guarded hCheck =>
      rw [mapAt_of_first hNodup join.id_mem_ids, mapAt_id]
      exact .guarded hCheck

/- What is below or beside the join stays where it is. -/
theorem mem_replaced
    (hNodup : top.ids.Nodup)
    (hChildren : new.children = join.children)
    (hR : r ∈ top.subtrees)
    (hTop : r ≠ top)
    (hJoin : r ≠ join) :
    r ∈ (top.mapAt join.id (fun _ => new)).subtrees := by
  have hBelow (hR : r ∈ join.subtrees) : r ∈ new.subtrees := by
    rcases mem_subtrees_cases hR with hEq | ⟨c, hC, hR⟩
    · exact (hJoin hEq).elim
    · exact mem_subtrees_of_child (hChildren ▸ hC) hR
  cases hTops with
  | bare =>
      rw [mapAt_id]
      exact hBelow hR
  | guarded hCheck =>
      rw [mapAt_of_first hNodup join.id_mem_ids, mapAt_id]
      rcases mem_subtrees_cases hR with hEq | ⟨c, hC, hPart⟩
      · exact (hTop hEq).elim
      rcases List.mem_cons.mp hC with rfl | hC
      · exact mem_subtrees_of_child List.mem_cons_self
          (hBelow hPart)
      · exact mem_subtrees_of_child
          (List.mem_cons_of_mem _ hC) hPart

end Tops

end Tree

namespace Plan

variable {plan : Plan}
variable {next : NodeId}
variable {r x : Tree}

/- A stage is the first child of one that reads its rows. -/
theorem child?_of_consumer
    {stage : NodeId}
    (hConsumer : plan.consumer stage = .ok (.stage next)) :
    plan.child? next 0 = some stage := by
  unfold consumer at hConsumer
  split at hConsumer
  · cases hConsumer
  split at hConsumer
  · cases hConsumer
  · split at hConsumer <;> cases hConsumer
  · split at hConsumer
    · next hBoth =>
      cases hConsumer
      exact hBoth.2
    · cases hConsumer

namespace Sound

variable (hSound : plan.Sound)

include hSound

theorem exists_head
    (hX : x ∈ plan.rootTree.subtrees)
    (hConsumer : plan.consumer x.id = .ok (.stage next)) :
    ∃ r ∈ plan.rootTree.subtrees, r.id = next ∧
      r.children.head? = some x := by
  rcases hSound.holds_rootTree with ⟨_, hHolds, hNodup⟩
  rcases hSound.exists_parent hX
      (parent?_of_consumer hConsumer) with ⟨r, hR, rfl, _⟩
  have hMem := Tree.around_subset hR
  have hFirst := child?_of_consumer hConsumer
  rw [child?, (hHolds r hMem).children, List.getElem?_map,
    Option.map_eq_some_iff] at hFirst
  rcases hFirst with ⟨c, hC, hId⟩
  have hChild := Tree.mem_subtrees_trans
    (Tree.mem_subtrees_of_child (List.mem_of_getElem? hC)
      (Tree.mem_subtrees_self c)) hMem
  refine ⟨r, hMem, rfl, ?_⟩
  rw [List.head?_eq_getElem?, hC,
    Tree.eq_of_id_eq hNodup hChild hX hId]

end Sound

namespace Orderly

variable (hOrderly : plan.Orderly)

include hOrderly

/- The way up from a join ends where nothing checks. -/
theorem regroupPointWithin_eq
    (hX : x ∈ plan.rootTree.subtrees)
    (hOpen : ∀ r ∈ plan.rootTree.subtrees,
      r.properties.get? Properties.check ≠ none →
        r.children.head? ≠ some x)
    (steps : Nat) :
    plan.regroupPointWithin steps x.id = x.id := by
  have hSound := hOrderly.straight.sound
  cases steps with
  | zero => rfl
  | succ steps =>
      rw [regroupPointWithin]
      split
      next next hConsumer =>
        rw [if_neg]
        intro hGuard
        rcases hSound.exists_head hX hConsumer with
          ⟨r, hR, rfl, hHead⟩
        rw [Bool.and_eq_true, isChecked,
          (hSound.holds_rootTree.2.1 r hR).properties,
          Option.isSome_iff_ne_none] at hGuard
        exact hOpen r hR hGuard.2 hHead
      · rfl

/- The rows of a join are grouped right above its guard. -/
theorem exists_tops
    (hX : x ∈ plan.rootTree.subtrees) :
    ∃ top ∈ plan.rootTree.subtrees, Tree.Tops x top ∧
      plan.regroupPoint x.id = top.id ∧
      ∀ r ∈ plan.rootTree.subtrees,
        r.properties.get? Properties.check ≠ none →
          r.children.head? ≠ some top := by
  have hSound := hOrderly.straight.sound
  rcases hSound.holds_rootTree with ⟨_, hHolds, _⟩
  -- A guard is fed by a join.
  have hInput {r c : Tree}
      (hR : r ∈ plan.rootTree.subtrees)
      (hCheck : r.properties.get? Properties.check ≠ none)
      (hHead : r.children.head? = some c) :
      c.kind = .join := by
    rcases (hOrderly.tidy r hR).above hCheck with ⟨j, hInput⟩
    rw [Tree.input_of_annotated (.inl hCheck), hHead] at hInput
    simp only [Option.map_some, Option.some.injEq,
      Prod.mk.injEq] at hInput
    exact hInput.2.1
  by_cases hGuard : ∃ r ∈ plan.rootTree.subtrees,
      r.properties.get? Properties.check ≠ none ∧
        r.children.head? = some x
  case neg =>
    have hOpen : ∀ r ∈ plan.rootTree.subtrees,
        r.properties.get? Properties.check ≠ none →
          r.children.head? ≠ some x :=
      fun r hR hCheck hHead => hGuard ⟨r, hR, hCheck, hHead⟩
    exact ⟨x, hX, .bare,
      hOrderly.regroupPointWithin_eq hX hOpen _, hOpen⟩
  rcases hGuard with ⟨r, hR, hCheck, hHead⟩
  have hLet : r.kind = .letBind :=
    (hOrderly.tidy r hR).checked hCheck
  have hOpen : ∀ r' ∈ plan.rootTree.subtrees,
      r'.properties.get? Properties.check ≠ none →
        r'.children.head? ≠ some r := by
    intro r' hR' hCheck' hHead'
    cases hLet.symm.trans (hInput hR' hCheck' hHead')
  refine ⟨r, hR, ?_, ?_, hOpen⟩
  · rcases r with ⟨i, k, p, ps, _ | ⟨c, cs⟩⟩
    · cases hHead
    cases hHead
    cases hLet
    exact .guarded hCheck
  · have hSize : 0 < plan.size :=
      Nat.zero_lt_of_lt (hHolds x hX).lt
    have hConsumer := hSound.consumer_of_head hR hHead
      (by rw [hLet]; rfl) (by rw [hLet]; simp)
    have hChecked : plan.isChecked r.id = true := by
      rw [isChecked, (hHolds r hR).properties]
      exact Option.isSome_iff_ne_none.mpr hCheck
    rw [regroupPoint, ← Nat.succ_pred_eq_of_pos hSize,
      regroupPointWithin, hConsumer]
    dsimp only
    rw [(hHolds r hR).kind, hLet, hChecked, if_pos (by simp)]
    exact hOrderly.regroupPointWithin_eq hR hOpen _

end Orderly

end Plan

end Flwor

------------------------------------------------------------
-- Groupings of Joins
------------------------------------------------------------

namespace Flwor

namespace Tree

/-
  A grouping right above the guard of a join.  It collects a
  source for a variable, and its keys are all that is visible
  where the rows of the left input are numbered.
-/
inductive Groups
    (j : NodeId)
    (target source : String)
    (c : NodeId)
    (number : String) : Tree → Prop where
  | grouped
      {g : NodeId}
      {q : Payload}
      {qs : Properties}
      {top left : Tree}
      {more specs : List Tree}
      {keys : List String}
      (hTops : Tops (.node j .join q qs (left :: more)) top)
      (hDone : qs.get? Properties.regroup = none)
      (hLeft : left.Lacks Properties.regroup)
      (hCount : left.id = c ∧ left.kind = .count ∧
        left.binding? = some number)
      (hKeys : ∀ name ∈ left.visible, name ∈ keys)
      (hSpecs : GroupSpecs keys target source specs) :
      Groups j target source c number
        (.node g .groupBy .none [] (top :: specs))

/-
  What is emitted for a join: a grouping right above its
  guard, below which the join has no pending regrouping.
-/
inductive Regroups
    (plan : Plan)
    (j : NodeId) : Tree → Tree → Prop where
  | regrouped
      {last q qs cs target source g specs}
      (hTops : Tops (.node j .join q qs cs) last)
      (hVars : qs.vars? Properties.regroup =
        some [target, source])
      (hOpen : ∀ r ∈ plan.rootTree.subtrees,
        r.properties.get? Properties.check ≠ none →
          r.children.head? ≠ some last)
      (hDone : ∀ left, cs[0]? = some left →
        left.Lacks Properties.regroup)
      (hSpecs : GroupSpecs
        (Names.latest ((cs[0]?.map visible).getD [])) target
          source specs)
      (hNew : ∀ x ∈ idsAll specs, plan.size ≤ x) :
      Regroups plan j last (.node g .groupBy .none []
        (last.mapAt j (fun _ =>
          .node j .join q (qs.erase Properties.regroup)
            cs) :: specs))

end Tree

/- What was not there is not there afterwards either. -/
theorem Properties.get?_erase_of_none
    {ps : Properties}
    {key other : String}
    (hNone : ps.get? other = none) :
    (ps.erase key).get? other = none := by
  rw [get?, List.lookup_eq_none_iff] at hNone ⊢
  exact fun entry hEntry =>
    hNone entry (List.mem_of_mem_filter hEntry)

namespace Plan

variable {plan : Plan}
variable {j : NodeId}
variable {last t u : Tree}

namespace Orderly

variable (hOrderly : plan.Orderly)

include hOrderly

/- Regroupings are pending on joins only. -/
theorem lacks_of_not_pending
    (hT : t ∈ plan.rootTree.subtrees)
    (hDone : t.subtrees.any Tree.isPendingJoin = false) :
    t.Lacks Properties.regroup := by
  intro s hS
  by_contra hPending
  have hJoin : s.kind = .join :=
    (hOrderly.tidy_subtree hT s hS).join hPending
  rw [List.any_eq_false] at hDone
  refine hDone s hS ?_
  rw [Tree.isPendingJoin, hJoin, decide_eq_true rfl,
    Option.isSome_iff_ne_none.mpr hPending]
  rfl

/- A grouping goes right above the guard of its join. -/
theorem regroups_of_emitted
    (hLast : last ∈ plan.rootTree.subtrees)
    (hEmitted : Tree.Emitted plan j last u) :
    Tree.Regroups plan j last u := by
  rcases hEmitted with
    @⟨q, qs, cs, target, source, g, specs, hJoin, _, hPoint,
      hVars, hDone, hSpecs, hNew⟩
  have hJoinMem := Tree.mem_subtrees_trans hJoin hLast
  rcases hOrderly.exists_tops hJoinMem with
    ⟨top, hTop, hTops, hTopPoint, hOpen⟩
  cases Tree.eq_of_id_eq
    hOrderly.straight.sound.holds_rootTree.2.2 hTop hLast
    (hTopPoint.symm.trans hPoint)
  refine .regrouped hTops hVars hOpen (fun left hC => ?_)
    hSpecs (fun x hX => hNew x (List.mem_cons_of_mem _ hX))
  refine hOrderly.lacks_of_not_pending ?_ (hDone left hC)
  exact Tree.mem_subtrees_trans (Tree.mem_subtrees_of_child
    (List.mem_of_getElem? hC) (Tree.mem_subtrees_self left))
    hJoinMem

end Orderly

end Plan

namespace Tree

namespace Regroups

variable {plan : Plan}
variable {j : NodeId}
variable {l : Label}
variable {known : Set Label}
variable {last r t u : Tree}
variable (hRegroups : Regroups plan j last u)

include hRegroups

theorem kind_eq :
    last.kind = .join ∨ last.kind = .letBind := by
  cases hRegroups with
  | regrouped hTops => exact hTops.kind_eq rfl

/- No annotated node is fed by the stage that is grouped. -/
theorem head_ne
    (hOrderly : plan.Orderly)
    (hR : r ∈ plan.rootTree.subtrees)
    (hAnnotated : r.label.Annotated) :
    r.children.head? ≠ some last := by
  have hKind := hRegroups.kind_eq
  intro hHead
  rcases hAnnotated with hCheck | hRegroup
  · cases hRegroups with
    | regrouped _ _ hOpen => exact hOpen r hR hCheck hHead
  · rcases (hOrderly.tidy r hR).numbered hRegroup with
      ⟨c, number, hInput⟩
    rw [input_of_annotated (.inr hRegroup), hHead] at hInput
    simp only [Option.map_some, Option.some.injEq,
      Prod.mk.injEq] at hInput
    rw [hInput.2.1] at hKind
    simp at hKind

/- A grouping adds no label of an annotated node. -/
theorem labels_subset
    (hOrderly : plan.Orderly)
    (hLast : last ∈ plan.rootTree.subtrees)
    (hOld : plan.rootTree.labels ⊆ known)
    (hNew : ∀ l : Label, ¬ l.Annotated →
      (l.id = j ∨ plan.size ≤ l.id) → l ∈ known) :
    u.labels ⊆ known := by
  have hShaped := hOrderly.straight.shaped_subtree hLast
  have hNodup := nodup_ids_of_subtree
    hOrderly.straight.sound.holds_rootTree.2.2 hLast
  rcases hRegroups with
    @⟨q, qs, cs, target, source, g, specs, hTops, _, _, _,
      hSpecs, hIds⟩
  have hJoin := hTops.mem_subtrees
  have hJoinMem := mem_subtrees_trans hJoin hLast
  have hTidy := hOrderly.tidy_subtree hLast
  refine labels_new_subset (by decide)
    (List.forall_mem_cons.mpr ⟨fun l hL => ?_,
      fun t hT => ?_⟩)
  · refine (labels_mapAt (fun r hR => ?_) hL).elim
      (fun hL => hOld (labels_subset_of_mem hLast hL))
      (fun hL => ?_)
    · refine label_mapAt hShaped hNodup hTidy hJoin (by simp)
        (fun _ _ _ _ => ?_) hR
      exact ⟨rfl, rfl, rfl⟩
    · refine labels_node_subset (fun _ => hNew _ ?_ (.inl rfl))
        (fun c hC => ?_) hL
      · rintro (hCheck | hRegroup)
        · cases (hTidy _ hJoin).checked (fun hNone =>
            hCheck (Properties.get?_erase_of_none hNone))
        · exact hRegroup (Properties.get?_erase_self qs _)
      · exact (labels_child_subset hC).trans
          ((labels_subset_of_mem hJoinMem).trans hOld)
  · rintro l ⟨_, s, hS, rfl⟩
    refine hNew _ ?_ (.inr (hIds _ ?_))
    · rintro (hCheck | hRegroup)
      · exact hCheck (hSpecs.lacks _ t hT s hS)
      · exact hRegroup (hSpecs.lacks _ t hT s hS)
    · exact mem_idsAll_iff.mpr
        ⟨t, hT, mem_ids_iff.mpr ⟨s, hS, rfl⟩⟩

/- No node is lost. -/
theorem ids_subset
    (hOrderly : plan.Orderly)
    (hLast : last ∈ plan.rootTree.subtrees) :
    ∀ x ∈ last.ids, x ∈ u.ids := by
  have hNodup := nodup_ids_of_subtree
    hOrderly.straight.sound.holds_rootTree.2.2 hLast
  rcases hRegroups with
    @⟨q, qs, cs, _, _, g, specs, hTops, _, _, _, _, _⟩
  have hJoin := hTops.mem_subtrees
  intro x hX
  refine List.mem_cons_of_mem _ (List.mem_append_left _ ?_)
  rcases mem_ids_mapAt hNodup hJoin hX with hX | hX
  · exact hX
  · have hErased := mem_subtrees_mapAt
      (u := .node j .join q (qs.erase Properties.regroup) cs)
      (mem_ids_iff.mpr ⟨_, hJoin, rfl⟩)
    exact Tree.ids_subset hErased x hX

/- A regrouping is pending below the stage that is grouped. -/
theorem not_mem_ids_of_lacks
    (hOrderly : plan.Orderly)
    (hLast : last ∈ plan.rootTree.subtrees)
    (hT : t ∈ plan.rootTree.subtrees)
    (hLacks : t.Lacks Properties.regroup) :
    last.id ∉ t.ids := by
  intro hMem
  rcases mem_ids_iff.mp hMem with ⟨s, hS, hId⟩
  cases eq_of_id_eq
    hOrderly.straight.sound.holds_rootTree.2.2
    (mem_subtrees_trans hS hT) hLast hId
  cases hRegroups with
  | regrouped hTops hVars =>
      exact Properties.get?_ne_of_vars? hVars
        (hLacks _ (mem_subtrees_trans hTops.mem_subtrees hS))

/- It is not the guard of a join that waits for nothing. -/
theorem ne_of_done
    {join top : Tree}
    (hTops : Tops join top)
    (hJoin : join.kind = .join)
    (hDone :
      join.properties.get? Properties.regroup = none) :
    join ≠ last ∧ top ≠ last := by
  cases hRegroups with
  | regrouped hLastTops hVars =>
      have hPending := Properties.get?_ne_of_vars? hVars
      refine ⟨?_, ?_⟩
      · rintro rfl
        cases hLastTops.eq_of_kind hJoin
        exact hPending hDone
      · rintro rfl
        cases hTops.eq_of_tops hLastTops hJoin rfl
        exact hPending hDone

end Regroups

namespace Groups

variable {plan : Plan}
variable {j other c : NodeId}
variable {target source number : String}
variable {last t u : Tree}

/- The grouping of another join leaves it as it is. -/
theorem exists_of_regroups
    (hGroups : Groups j target source c number t)
    (hOrderly : plan.Orderly)
    (hT : t ∈ plan.rootTree.subtrees)
    (hLast : last ∈ plan.rootTree.subtrees)
    (hRegroups : Regroups plan other last u) :
    ∃ t' ∈ (plan.rootTree.mapAt last.id
        (fun _ => u)).subtrees,
      Groups j target source c number t' := by
  have hNodup :=
    hOrderly.straight.sound.holds_rootTree.2.2
  rcases mem_around_or hNodup hLast hT with hAround | hBelow
  · refine ⟨_, mapAt_mem_subtrees hAround, ?_⟩
    rcases hGroups with
      @⟨g, q, qs, top, left, more, specs, keys, hTops, hDone,
        hLeft, hCount, hKeys, hSpecs⟩
    have hNe : g ≠ last.id := around_ne hAround
    have hPart {s : Tree} (hS : s ∈ top :: specs) :
        s ∈ plan.rootTree.subtrees :=
      mem_subtrees_trans
        (mem_subtrees_of_child hS (mem_subtrees_self s)) hT
    have hTop := hPart List.mem_cons_self
    have hJoin := mem_subtrees_trans hTops.mem_subtrees hTop
    have hLeftMem : left ∈ plan.rootTree.subtrees :=
      mem_subtrees_trans (mem_subtrees_of_child
        List.mem_cons_self (mem_subtrees_self left)) hJoin
    rcases hRegroups.ne_of_done hTops rfl hDone with
      ⟨hJoinNe, hTopNe⟩
    have hJoinId : j ≠ last.id := fun hEq =>
      hJoinNe (eq_of_id_eq hNodup hJoin hLast hEq)
    have hTopId : top.id ≠ last.id := fun hEq =>
      hTopNe (eq_of_id_eq hNodup hTop hLast hEq)
    have hSame : specs.map (mapAt last.id (fun _ => u)) =
        specs := by
      refine (List.map_congr_left (fun s hS => ?_)).trans
        (List.map_id specs)
      exact mapAt_of_not_mem (hRegroups.not_mem_ids_of_lacks
        hOrderly hLast (hPart (List.mem_cons_of_mem _ hS))
          (hSpecs.lacks _ s hS))
    have hTops' := hTops.mapAt hTopId (f := fun _ => u)
    rw [mapAt_of_ne hJoinId, List.map_cons,
      mapAt_of_not_mem (hRegroups.not_mem_ids_of_lacks
        hOrderly hLast hLeftMem hLeft)] at hTops'
    rw [mapAt_of_ne hNe, List.map_cons, hSame]
    exact .grouped hTops' hDone hLeft hCount hKeys hSpecs
  · refine ⟨t, ?_, hGroups⟩
    have hKind : t.kind = .groupBy := by
      cases hGroups
      rfl
    rcases hRegroups with
      @⟨q, qs, cs, _, _, g, specs, hTops, _, _, _, _, _⟩
    refine mem_subtrees_trans (mem_subtrees_of_child
      List.mem_cons_self ?_) (mem_subtrees_mapAt
        (mem_ids_iff.mpr ⟨last, hLast, rfl⟩))
    refine hTops.mem_replaced
      (nodup_ids_of_subtree hNodup hLast) rfl hBelow ?_ ?_
    · rintro rfl
      have hLastKind := hTops.kind_eq rfl
      rw [hKind] at hLastKind
      simp at hLastKind
    · rintro rfl
      cases hKind

/- A join that waits gets its grouping. -/
theorem of_awaits
    (hOrderly : plan.Orderly)
    (hLast : last ∈ plan.rootTree.subtrees)
    (hRegroups : Regroups plan j last u)
    (hAwaits :
      plan.Awaits (.awaiting j target source c number)) :
    Groups j target source c number u := by
  rcases hRegroups with
    @⟨q, qs, cs, target', source', g, specs, hTops, hVars, _,
      hDone, hSpecs, _⟩
  have hLabel := hAwaits.only _ ⟨.inl rfl, _,
    mem_subtrees_trans hTops.mem_subtrees hLast, rfl⟩ rfl rfl
  have hProperties := congrArg Label.properties hLabel
  rcases Label.exists_of_awaiting hLabel with
    ⟨left, hHead, hLeft⟩
  rcases cs with _ | ⟨_, more⟩
  · cases hHead
  cases hHead
  change qs = _ at hProperties
  subst hProperties
  cases hVars
  exact .grouped
    (hTops.replaced (nodup_ids_of_subtree
      hOrderly.straight.sound.holds_rootTree.2.2 hLast) _)
    (Properties.get?_erase_self _ _) (hDone left rfl) hLeft
    (fun name hName => Names.mem_latest.mpr hName) hSpecs

end Groups

end Tree

end Flwor

------------------------------------------------------------
-- Emitted Groupings
------------------------------------------------------------

namespace Flwor

namespace Plan

/- A join still waits for its regrouping, or has got it. -/
def Answers
    (j : NodeId)
    (target source : String)
    (c : NodeId)
    (number : String)
    (plan : Plan) : Prop :=
  plan.Awaits (.awaiting j target source c number) ∨
    ∃ t ∈ plan.rootTree.subtrees,
      Tree.Groups j target source c number t

variable {plan after : Plan}
variable {j other c : NodeId}
variable {target source number : String}
variable {last u : Tree}

/- The grouping of a join adds no label of importance. -/
theorem Orderly.labels_of_regroups
    {known : Set Label}
    (hOrderly : plan.Orderly)
    (hLast : last ∈ plan.rootTree.subtrees)
    (hRegroups : Tree.Regroups plan other last u)
    (hTree : after.rootTree =
      plan.rootTree.mapAt last.id (fun _ => u))
    (hOld : plan.rootTree.labels ⊆ known)
    (hNew : ∀ l : Label, ¬ l.Annotated →
      (l.id = other ∨ plan.size ≤ l.id) → l ∈ known) :
    after.rootTree.labels ⊆ known := by
  rw [hTree]
  intro l hL
  refine (Tree.labels_mapAt (fun r hR => ?_) hL).elim
    (fun hL => hOld hL) (fun hL => hRegroups.labels_subset
      hOrderly hLast hOld hNew hL)
  refine Tree.label_mapAt hOrderly.straight.shaped
    hOrderly.straight.sound.holds_rootTree.2.2 hOrderly.tidy
    hLast ?_ (fun r hR hAnnotated hHead => ?_) hR
  · rcases hRegroups.kind_eq with hKind | hKind <;>
      rw [hKind] <;> simp
  · exact (hRegroups.head_ne hOrderly
      (Tree.around_subset hR) hAnnotated hHead).elim

end Plan

namespace Pass

open Plan

variable {plan : Plan}

/-
  A visit of a join leaves its grouping in an orderly plan,
  and adds no label of an annotated node.
-/
theorem ensures_regroups
    {join : NodeId}
    (hOrderly : plan.Orderly)
    (hReach : plan.Reaches join) :
    (regroupJoin join).Ensures plan (fun done after =>
      (done = false → after = plan) ∧
        (done = true → after.Orderly ∧
          (∀ l ∈ after.rootTree.labels,
            l ∈ plan.rootTree.labels ∨ ¬ l.Annotated ∧
              (l.id = join ∨ plan.size ≤ l.id)) ∧
          ∃ last ∈ plan.rootTree.subtrees, ∃ u,
            Tree.Regroups plan join last u ∧
              after.rootTree = plan.rootTree.mapAt last.id
                (fun _ => u))) := by
  have hSound := hOrderly.straight.sound
  refine (ensures_emitted hSound hReach).mono ?_
  intro done after hSwaps
  refine ⟨hSwaps.kept, fun hDone => ?_⟩
  rcases hSwaps.swapped hDone with
    ⟨last, u, hLast, hEmitted, hAfter, hTree⟩
  have hRegroups := hOrderly.regroups_of_emitted hLast hEmitted
  rcases hEmitted.shaped
      (hOrderly.straight.shaped_subtree hLast)
      (Tree.nodup_ids_of_subtree hSound.holds_rootTree.2.2
        hLast) with ⟨hRole, hShaped⟩
  have hLabels : after.rootTree.labels ⊆
      plan.rootTree.labels ∪ {l | ¬ l.Annotated ∧
        (l.id = join ∨ plan.size ≤ l.id)} :=
    hOrderly.labels_of_regroups hLast hRegroups hTree
      Set.subset_union_left (fun l hPlain hId =>
        .inr ⟨hPlain, hId⟩)
  refine ⟨hOrderly.of_mapAt hAfter hLast hRole hShaped hTree
    (fun l hL => ?_), hLabels, last, hLast, u, hRegroups,
      hTree⟩
  rcases hLabels hL with hL | hL
  · exact Tree.tidy_iff.mp hOrderly.tidy l hL
  · exact Label.tidy_of_not_annotated hL.1

theorem preserves_groupEmission_orderly :
    groupEmission.Preserves Orderly :=
  fun _ _ hOrderly hReach =>
    (ensures_regroups hOrderly hReach).mono
      (fun _ _ hAfter => ⟨hAfter.1,
        fun hDone => (hAfter.2 hDone).1⟩)

/- While plans are orderly, who waits is answered in the end. -/
theorem preserves_groupEmission
    (j : NodeId)
    (target source : String)
    (c : NodeId)
    (number : String) :
    groupEmission.Preserves (fun plan => plan.Orderly ∧
      plan.Answers j target source c number ∧
        plan.Reaches j) := by
  intro plan join ⟨hOrderly, hAnswers, hJoin⟩ hReach done
    after hRun
  rcases ensures_regroups hOrderly hReach done after hRun with
    ⟨hSame, hDone⟩
  refine ⟨hSame, fun hTrue => ?_⟩
  subst hTrue
  rcases hDone rfl with
    ⟨hAfter, hLabels, last, hLast, u, hRegroups, hTree⟩
  refine ⟨hAfter, ?_, hOrderly.reaches_of_mapAt
    hAfter.straight.sound hLast
    (hRegroups.ids_subset hOrderly hLast) hTree hJoin⟩
  rcases hAnswers with hAwaits | ⟨t, hT, hGroups⟩
  case inr =>
    refine .inr ?_
    rw [hTree]
    exact hGroups.exists_of_regroups hOrderly hT hLast
      hRegroups
  by_cases hEq : join = j
  · subst hEq
    refine .inr ⟨u, ?_, .of_awaits hOrderly hLast hRegroups
      hAwaits⟩
    rw [hTree]
    exact Tree.mem_subtrees_mapAt
      (Tree.mem_ids_iff.mpr ⟨last, hLast, rfl⟩)
  · have hLt : j < plan.size := hAwaits.lt
    refine .inl (hAwaits.of_retains (retains_groupEmission
      ⟨join, hReach, hRun⟩) (fun l hL hKind hId => ?_))
    rcases hLabels l hL with hL | ⟨_, hJoin | hNew⟩
    · exact hAwaits.only l hL hKind hId
    · exact (hEq (hJoin.symm.trans hId)).elim
    · rw [hId] at hNew
      exact (hNew.not_gt hLt).elim

end Pass

end Flwor
