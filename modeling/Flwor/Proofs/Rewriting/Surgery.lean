import Mathlib.Data.List.InsertIdx
import Flwor.Pass.Moves
import Flwor.Proofs.Rewriting.Edits
import Flwor.Proofs.Rewriting.Reach

/-
  Plans in the course of a rewrite.

  While nodes are moved some of them break their rules: the
  loose ones.  All others that are not left over from
  earlier rewrites keep theirs.  A node is loose from the
  step that takes a child from it to the step that mends it,
  or until it is cut off from the root.

  Key definitions include:
    * `Plan.Live`
    * `Plan.Surgery`
    * `Plan.Bypassed`

  Key theorems include:
    * `Plan.Surgery.step`
    * `Plan.Surgery.wellFormed`
    * `Plan.Surgery.achieves_putBack`
    * `Plan.Surgery.achieves_bypass`
    * `Plan.Surgery.achieves_interpose`
-/

------------------------------------------------------------
-- Frames of Rules
------------------------------------------------------------

namespace Flwor

namespace Plan

variable {before after : Plan}
variable {touched moved : Set NodeId}
variable {x p c old new : NodeId}
variable {index : Nat}

/- Kinds do not change, those of children included. -/
theorem Edited.map_kind
    (hEdited : before.Edited touched moved after)
    {cs : List NodeId}
    (hCs : ∀ c ∈ cs, c < before.size) :
    cs.map after.kind = cs.map before.kind :=
  List.map_congr_left (fun c hC =>
    hEdited.kind c (hCs c hC))

theorem Edited.childKinds_eq
    (hEdited : before.Edited touched moved after)
    (hLinked : before.Linked)
    (hX : x < before.size)
    (hNot : x ∉ touched) :
    after.childKinds x = before.childKinds x := by
  rw [childKinds, childKinds, hEdited.children x hX hNot]
  exact hEdited.map_kind (fun c hC => hLinked.lt_of_mem hC)

/- A node that is not touched keeps its rules. -/
theorem Edited.proper
    (hEdited : before.Edited touched moved after)
    (hLinked : before.Linked)
    (hX : x < before.size)
    (hNot : x ∉ touched)
    (hProper : before.Proper x) :
    after.Proper x := by
  rw [Proper, hEdited.kind x hX, hEdited.payload x hX,
    hEdited.childKinds_eq hLinked hX hNot]
  exact hProper

theorem forall₂_set
    {ks : List Kind}
    {k k' : Kind}
    (hHere : ks[index]? = some k)
    (hAlike : k.Alike k') :
    List.Forall₂ Kind.Alike ks (ks.set index k') := by
  induction ks generalizing index with
  | nil => exact .nil
  | cons a rest ih =>
      rcases index with _ | index
      · cases hHere
        exact .cons hAlike
          (List.forall₂_same.mpr (fun a _ => .same a))
      · exact .cons (.same a) (ih hHere)

/- One child alike in place of another one. -/
theorem Edited.proper_set
    (hEdited : before.Edited touched moved after)
    (hLinked : before.Linked)
    (hProper : before.Proper p)
    (hChild : before.child? p index = some old)
    (hAlike : (before.kind old).Alike (after.kind new))
    (hSet : after.children p =
      (before.children p).set index new) :
    after.Proper p := by
  have hP : p < before.size :=
    lt_size_of_mem_children (mem_children_of_child? hChild)
  have hKinds : after.childKinds p =
      (before.childKinds p).set index (after.kind new) := by
    rw [childKinds, hSet, List.map_set, hEdited.map_kind
      (fun c hC => hLinked.lt_of_mem hC), childKinds]
  have hHere : (before.childKinds p)[index]? =
      some (before.kind old) := by
    rw [childKinds, List.getElem?_map]
    exact congrArg (Option.map before.kind) hChild
  rw [Proper, hEdited.kind p hP, hEdited.payload p hP, hKinds]
  exact Kind.Proper.alike hProper
    (forall₂_set hHere hAlike)

end Plan

end Flwor

------------------------------------------------------------
-- Surgery
------------------------------------------------------------

namespace Flwor

namespace Plan

/- A node that is reached, or new. -/
def Live
    (start : Plan)
    (x : NodeId) : Prop :=
  x < start.size → start.Reaches x

/- A plan in the course of a rewrite. -/
structure Surgery
    (start : Plan)
    (loose : Set NodeId)
    (plan : Plan) : Prop where
  linked : plan.Linked
  root : plan.root = start.root
  inside : plan.root < plan.size
  size : start.size ≤ plan.size
  kind : ∀ x < start.size, plan.kind x = start.kind x
  payload :
    ∀ x < start.size, plan.payload x = start.payload x
  closed :
    ∀ p, start.Live p → ∀ c ∈ plan.children p,
      start.Live c
  proper :
    ∀ x < plan.size, start.Live x → x ∉ loose →
      plan.Proper x

variable {start plan after : Plan}
variable {loose loose' touched moved : Set NodeId}
variable {x p c old new id : NodeId}
variable {index : Nat}

theorem live_of_reaches
    (hReach : start.Reaches x) :
    start.Live x :=
  fun _ => hReach

theorem live_of_size_le
    (hSize : start.size ≤ x) :
    start.Live x :=
  fun hX => (Nat.not_lt.mpr hSize hX).elim

/- Before the first step nothing is loose. -/
theorem WellFormed.surgery
    (hFormed : start.WellFormed) :
    start.Surgery ∅ start := by
  refine ⟨hFormed.linked, rfl, hFormed.root_lt,
    Nat.le_refl _, fun _ _ => rfl, fun _ _ => rfl,
    fun p hP c hC => ?_,
    fun x hX hLive _ => hFormed.proper x (hLive hX)⟩
  have hReach := hP (lt_size_of_mem_children hC)
  exact live_of_reaches (hReach.child hC)

namespace Surgery

variable (hSurgery : start.Surgery loose plan)

include hSurgery

theorem mono
    (hSub : loose ⊆ loose') :
    start.Surgery loose' plan :=
  { hSurgery with
    proper := fun x hX hLive hNot =>
      hSurgery.proper x hX hLive
        (fun hLoose => hNot (hSub hLoose)) }

/-
  One step: only touched nodes and new ones have to be
  looked at, besides those that the step mends.
-/
theorem step
    (hEdited : plan.Edited touched moved after)
    (hLinked : after.Linked)
    (hClosed : ∀ p, p ∈ touched ∨ plan.size ≤ p →
      start.Live p → ∀ c ∈ after.children p, start.Live c)
    (hProper : ∀ x < after.size,
      x ∈ touched ∨ x ∈ loose ∨ plan.size ≤ x →
        start.Live x → x ∉ loose' → after.Proper x) :
    start.Surgery loose' after := by
  have hLt (x : NodeId) (hX : x < start.size) :
      x < plan.size :=
    Nat.lt_of_lt_of_le hX hSurgery.size
  refine ⟨hLinked, hEdited.root.trans hSurgery.root, ?_,
    Nat.le_trans hSurgery.size hEdited.size, ?_, ?_, ?_, ?_⟩
  · rw [hEdited.root]
    exact Nat.lt_of_lt_of_le hSurgery.inside hEdited.size
  · intro x hX
    rw [hEdited.kind x (hLt x hX), hSurgery.kind x hX]
  · intro x hX
    rw [hEdited.payload x (hLt x hX), hSurgery.payload x hX]
  · intro p hP c hC
    by_cases hTouched : p ∈ touched ∨ plan.size ≤ p
    · exact hClosed p hTouched hP c hC
    · rw [not_or, Nat.not_le] at hTouched
      rw [hEdited.children p hTouched.2 hTouched.1] at hC
      exact hSurgery.closed p hP c hC
  · intro x hX hLive hNot
    by_cases hTouched :
        x ∈ touched ∨ x ∈ loose ∨ plan.size ≤ x
    · exact hProper x hX hTouched hLive hNot
    · rw [not_or, not_or, Nat.not_le] at hTouched
      rcases hTouched with ⟨hOut, hTight, hOld⟩
      exact hEdited.proper hSurgery.linked hOld hOut
        (hSurgery.proper x hOld hLive hTight)

/- Annotations do not matter. -/
theorem sameLinks
    (hSame : plan.SameLinks after) :
    start.Surgery loose after := by
  refine hSurgery.step hSame.edited
    (hSame.linked hSurgery.linked) ?_ ?_
  · rintro p (hP | hP) _ c hC
    · exact hP.elim
    · rw [hSame.children] at hC
      exact (Nat.not_lt.mpr hP
        (lt_size_of_mem_children hC)).elim
  · rintro x hX (hP | hP | hP) _ hNot
    · exact hP.elim
    · exact (hNot hP).elim
    · rw [hSame.size] at hX
      exact (Nat.not_lt.mpr hP hX).elim

/- A node that keeps its rules again is no longer loose. -/
theorem mend
    (hProper : plan.Proper x) :
    start.Surgery (loose \ {x}) plan := by
  refine hSurgery.step (Edited.refl plan) hSurgery.linked
    ?_ ?_
  · rintro p (hP | hP) _ c hC
    · exact hP.elim
    · exact (Nat.not_lt.mpr hP
        (lt_size_of_mem_children hC)).elim
  · rintro y hY (hP | hP | hP) _ hNot
    · exact hP.elim
    · by_cases hEq : y = x
      · exact hEq ▸ hProper
      · exact (hNot ⟨hP, hEq⟩).elim
    · exact (Nat.not_lt.mpr hP hY).elim

theorem detach
    (hChild : plan.child? p index = some c) :
    start.Surgery (insert p loose)
      (plan.detach p index c) := by
  have hEdited :=
    edited_detach hSurgery.linked hChild
  refine hSurgery.step hEdited
    (hSurgery.linked.detach hChild) ?_ ?_
  · intro q _ hLive d hD
    rw [children_detach hChild] at hD
    split at hD
    · next hQ =>
        subst hQ
        exact hSurgery.closed q hLive d
          (List.mem_of_mem_eraseIdx hD)
    · exact hSurgery.closed q hLive d hD
  · rintro x hX (hP | hP | hP) _ hNot
    · exact (hNot (.inl hP)).elim
    · exact (hNot (.inr hP)).elim
    · simp only [Plan.detach, size_setParent,
        size_setChildren] at hX
      exact (Nat.not_lt.mpr hP hX).elim

theorem attach
    (hDetached : plan.Detached c)
    (hLive : start.Live c)
    (hP : p < plan.size)
    (hIndex : index ≤ (plan.children p).length) :
    start.Surgery (insert p loose)
      (plan.attach p index c) := by
  refine hSurgery.step
    (edited_attach hDetached hP)
    (hSurgery.linked.attach hDetached hP hIndex) ?_ ?_
  · intro q _ hQ d hD
    rw [children_attach hP] at hD
    split at hD
    · next hEq =>
        subst hEq
        rw [List.mem_insertIdx hIndex] at hD
        rcases hD with rfl | hD
        · exact hLive
        · exact hSurgery.closed q hQ d hD
    · exact hSurgery.closed q hQ d hD
  · rintro x hX (hIn | hIn | hIn) _ hNot
    · exact (hNot (.inl hIn)).elim
    · exact (hNot (.inr hIn)).elim
    · simp only [Plan.attach, size_setParent,
        size_setChildren] at hX
      exact (Nat.not_lt.mpr hIn hX).elim

/- Rules are kept where a child makes way for one alike. -/
theorem exchange
    (hChild : plan.child? p index = some old)
    (hDetached : plan.Detached new)
    (hLive : start.Live new)
    (hAlike : (plan.kind old).Alike (plan.kind new)) :
    start.Surgery loose
      (plan.exchange p index old new) := by
  have hEdited :=
    edited_exchange hSurgery.linked hChild hDetached
  refine hSurgery.step hEdited
    (hSurgery.linked.exchange hChild hDetached) ?_ ?_
  · intro q _ hQ d hD
    rw [children_exchange hChild] at hD
    split at hD
    · next hEq =>
        subst hEq
        rcases List.mem_or_eq_of_mem_set hD with hD | rfl
        · exact hSurgery.closed q hQ d hD
        · exact hLive
    · exact hSurgery.closed q hQ d hD
  · rintro x hX hIn hLiveX hNot
    simp only [Plan.exchange, size_setParent,
      size_setChildren] at hX
    rcases hIn with rfl | hIn | hIn
    · have hNew : (plan.kind old).Alike
          ((plan.exchange x index old new).kind new) := by
        rw [hEdited.kind new hDetached.lt]
        exact hAlike
      refine hEdited.proper_set hSurgery.linked
        (hSurgery.proper x hX hLiveX hNot) hChild hNew ?_
      rw [children_exchange hChild, if_pos rfl]
    · exact (hNot hIn).elim
    · exact (Nat.not_lt.mpr hIn hX).elim

/- A new node keeps its rules at once, or it is loose. -/
theorem grown
    {k : Kind}
    {payload : Payload}
    {cs : List NodeId}
    (hGrown : plan.Grown k payload cs id after)
    (hLive : ∀ c ∈ cs, start.Live c)
    (hSub : loose ⊆ loose')
    (hProper : id ∉ loose' →
      k.Proper payload (cs.map plan.kind)) :
    start.Surgery loose' after := by
  refine hSurgery.step hGrown.edited hGrown.linked ?_ ?_
  · rintro p (hP | hP) _ c hC
    · exact hP.elim
    · have hEq : p = id := by
        have hLt := lt_size_of_mem_children hC
        rw [hGrown.size] at hLt
        rw [hGrown.fresh]
        exact Nat.le_antisymm (Nat.le_of_lt_succ hLt) hP
      rw [hEq, hGrown.children] at hC
      exact hLive c hC
  · rintro x hX (hP | hP | hP) _ hNot
    · exact hP.elim
    · exact (hNot (hSub hP)).elim
    · have hEq : x = id := by
        rw [hGrown.size] at hX
        rw [hGrown.fresh]
        exact Nat.le_antisymm (Nat.le_of_lt_succ hX) hP
      subst hEq
      rw [Proper, hGrown.kind, hGrown.payload, childKinds,
        hGrown.children, hGrown.edited.map_kind]
      · exact hProper hNot
      · intro c hC
        have hNe : c ≠ x := by
          rintro rfl
          have hParent := hGrown.adopted c hC
          rw [hGrown.detached.parent] at hParent
          cases hParent
        have hLt :=
          lt_size_of_parent? (hGrown.adopted c hC)
        rw [hGrown.size] at hLt
        rw [hGrown.fresh] at hNe
        exact Nat.lt_of_le_of_ne (Nat.le_of_lt_succ hLt) hNe

/- What is reached was reached before, or is new. -/
theorem live
    (hReach : plan.Reaches x) :
    start.Live x := by
  rcases hReach with ⟨n, hAt⟩
  induction hAt with
  | root =>
      rw [hSurgery.root]
      exact live_of_reaches .root
  | child _ hMem ih => exact hSurgery.closed _ ih _ hMem

/- At the end the loose nodes are cut off. -/
theorem wellFormed
    (hFormed : start.WellFormed)
    (hLoose : ∀ x ∈ loose, ¬plan.Reaches x) :
    plan.WellFormed := by
  refine ⟨hSurgery.linked, ?_, ?_⟩
  · rw [hSurgery.root,
      hSurgery.kind _ hFormed.root_lt]
    exact hFormed.root
  · intro x hReach
    have hX : x < plan.size := by
      rcases hReach with ⟨n, hAt⟩
      exact hAt.lt_arena hSurgery.linked hSurgery.inside
    exact hSurgery.proper x hX (hSurgery.live hReach)
      (fun hIn => hLoose x hIn hReach)

theorem wellFormed_of_empty
    (hFormed : start.WellFormed)
    (hLoose : loose = ∅) :
    plan.WellFormed :=
  hSurgery.wellFormed hFormed (by simp [hLoose])

end Surgery

end Plan

end Flwor

------------------------------------------------------------
-- New Nodes
------------------------------------------------------------

namespace Flwor

namespace Plan

namespace Surgery

variable {start plan : Plan}
variable {loose : Set NodeId}
variable {k : Kind}
variable {payload : Payload}
variable {cs : List NodeId}
variable (hSurgery : start.Surgery loose plan)

include hSurgery

theorem live_of_new
    {x : NodeId}
    (hX : plan.size ≤ x) :
    start.Live x :=
  live_of_size_le (Nat.le_trans hSurgery.size hX)

/- A leaf that keeps its rules. -/
theorem achieves_add
    (properties : Properties)
    (hProper : k.Proper payload []) :
    (Edit.add k payload properties).Achieves plan
      (fun id after => start.Surgery loose after ∧
        plan.Grown k payload [] id after) := by
  refine (Edit.achieves_add k payload properties).mono ?_
  rintro _ _ ⟨rfl, rfl⟩
  have hGrown := grown_grow hSurgery.linked hSurgery.inside k
    payload properties
  exact ⟨hSurgery.grown hGrown (by simp) subset_rfl
    (fun _ => hProper), hGrown⟩

/- A node that keeps its rules with the children it takes. -/
theorem achieves_addWith
    (hLive : ∀ c ∈ cs, start.Live c)
    (hDetached : ∀ c ∈ cs, plan.Detached c)
    (hNodup : cs.Nodup)
    (hProper : k.Proper payload (cs.map plan.kind)) :
    (Edit.addWith k payload cs).Achieves plan
      (fun id after => start.Surgery loose after ∧
        plan.Grown k payload cs id after) := by
  refine (Edit.achieves_addWith hSurgery.linked
    hSurgery.inside k payload cs hDetached hNodup).mono ?_
  intro id after hGrown
  exact ⟨hSurgery.grown hGrown hLive subset_rfl
    (fun _ => hProper), hGrown⟩

/- A node that lacks children is loose for now. -/
theorem achieves_addWith_loose
    (hLive : ∀ c ∈ cs, start.Live c)
    (hDetached : ∀ c ∈ cs, plan.Detached c)
    (hNodup : cs.Nodup) :
    (Edit.addWith k payload cs).Achieves plan
      (fun id after =>
        start.Surgery (insert id loose) after ∧
          plan.Grown k payload cs id after) := by
  refine (Edit.achieves_addWith hSurgery.linked
    hSurgery.inside k payload cs hDetached hNodup).mono ?_
  intro id after hGrown
  refine ⟨hSurgery.grown hGrown hLive
    (Set.subset_insert _ _) (fun hNot => ?_), hGrown⟩
  exact (hNot (Set.mem_insert _ _)).elim

end Surgery

end Plan

end Flwor

------------------------------------------------------------
-- Moved Nodes
------------------------------------------------------------

namespace Flwor

namespace Plan

/- A child is taken from a node. -/
structure Severed
    (before : Plan)
    (p : NodeId)
    (index : Nat)
    (c : NodeId)
    (after : Plan) : Prop where
  edited : before.Edited {p} {c} after
  children :
    after.children p = (before.children p).eraseIdx index
  others : ∀ x ≠ p, after.children x = before.children x
  detached : after.Detached c

/- A child is given to a node. -/
structure Attached
    (before : Plan)
    (p : NodeId)
    (index : Nat)
    (c : NodeId)
    (after : Plan) : Prop where
  edited : before.Edited {p} {c} after
  children :
    after.children p = (before.children p).insertIdx index c

/- A child makes way for another one. -/
structure Replaced
    (before : Plan)
    (p old new : NodeId)
    (after : Plan) : Prop where
  edited : before.Edited {p} {old, new} after
  children :
    ∀ x, after.children x =
      (before.children x).map (fun c =>
        if c = old then new else c)
  detached : after.Detached old

variable {start plan after : Plan}
variable {loose : Set NodeId}
variable {p c old new x : NodeId}
variable {index : Nat}

/- Other children keep their places. -/
theorem Replaced.child?_eq
    (hReplaced : plan.Replaced p old new after)
    (hC : c ≠ old)
    (hChild : plan.child? x index = some c) :
    after.child? x index = some c := by
  rw [child?, hReplaced.children, List.getElem?_map]
  rw [child?] at hChild
  rw [hChild, Option.map_some, if_neg hC]

namespace Surgery

variable (hSurgery : start.Surgery loose plan)

include hSurgery

theorem achieves_remove
    (hChild : plan.child? p index = some c) :
    (Edit.remove p index).Achieves plan (fun removed after =>
      c = removed ∧ start.Surgery (insert p loose) after ∧
        plan.Severed p index c after) := by
  refine (Edit.achieves_remove hChild).mono ?_
  rintro _ _ ⟨rfl, rfl⟩
  refine ⟨rfl, hSurgery.detach hChild,
    edited_detach hSurgery.linked hChild, ?_,
    fun x hX => ?_,
    detached_detach hSurgery.linked hChild⟩
  · rw [children_detach hChild, if_pos rfl]
  · rw [children_detach hChild, if_neg hX]

theorem achieves_insert
    (hDetached : plan.Detached c)
    (hLive : start.Live c)
    (hP : p < plan.size)
    (hIndex : index ≤ (plan.children p).length) :
    (Edit.insert p index c).Achieves plan (fun _ after =>
      start.Surgery (insert p loose) after ∧
        plan.Attached p index c after) := by
  refine (Edit.achieves_insert hDetached hIndex).mono ?_
  rintro _ _ rfl
  refine ⟨hSurgery.attach hDetached hLive hP hIndex,
    edited_attach hDetached hP, ?_⟩
  rw [children_attach hP, if_pos rfl]

/-
  A node that lost a child to an earlier step gets one alike
  in its place, and keeps its rules as before.
-/
theorem achieves_putBack
    {before : Plan}
    {touched moved : Set NodeId}
    (hEdited : before.Edited touched moved plan)
    (hLinked : before.Linked)
    (hProper : before.Proper p)
    (hChild : before.child? p index = some old)
    (hCut : plan.children p =
      (before.children p).eraseIdx index)
    (hDetached : plan.Detached new)
    (hLive : start.Live new)
    (hAlike : (before.kind old).Alike (plan.kind new)) :
    (Edit.insert p index new).Achieves plan (fun _ after =>
      start.Surgery (loose \ {p}) after ∧
        plan.Attached p index new after) := by
  have hBound : index < (before.children p).length :=
    (List.getElem?_eq_some_iff.mp hChild).1
  have hP : p < plan.size := hEdited.lt
    (lt_size_of_mem_children (mem_children_of_child? hChild))
  have hIndex : index ≤ (plan.children p).length := by
    rw [hCut, List.length_eraseIdx_of_lt hBound]
    exact Nat.le_sub_one_of_lt hBound
  refine (hSurgery.achieves_insert hDetached hLive hP
    hIndex).mono ?_
  rintro _ after ⟨hAfter, hAttached⟩
  have hAll := hEdited.trans hAttached.edited
  have hMended : after.Proper p := by
    have hAlikeAfter :
        (before.kind old).Alike (after.kind new) := by
      rw [hAttached.edited.kind new hDetached.lt]
      exact hAlike
    refine hAll.proper_set hLinked hProper hChild
      hAlikeAfter ?_
    rw [hAttached.children, hCut]
    exact List.insertIdx_eraseIdx_self hBound.ne _
  refine ⟨(hAfter.mend hMended).mono ?_, hAttached⟩
  rintro x ⟨rfl | hX, hNe⟩
  · exact (hNe rfl).elim
  · exact ⟨hX, hNe⟩

theorem achieves_append
    (hDetached : plan.Detached c)
    (hLive : start.Live c)
    (hP : p < plan.size) :
    (Edit.append p c).Achieves plan (fun _ after =>
      start.Surgery (insert p loose) after ∧
        plan.Attached p (plan.children p).length c after) :=
  achieves_get_bind
    (hSurgery.achieves_insert hDetached hLive hP
      (Nat.le_refl _))

theorem achieves_replaceChild
    (hChild : plan.child? p index = some old)
    (hDetached : plan.Detached new)
    (hLive : start.Live new)
    (hAlike : (plan.kind old).Alike (plan.kind new)) :
    (Edit.replaceChild p index new).Achieves plan
      (fun _ after => start.Surgery loose after) := by
  refine (Edit.achieves_replaceChild hChild
    hDetached).mono ?_
  rintro _ _ ⟨_, rfl⟩
  exact hSurgery.exchange hChild hDetached hLive hAlike

/- One stage, for instance, in place of another one. -/
theorem achieves_replace
    (hParent : plan.parent? old = some p)
    (hDetached : plan.Detached new)
    (hLive : start.Live new)
    (hAlike : (plan.kind old).Alike (plan.kind new)) :
    (Edit.replace old new).Achieves plan (fun _ after =>
      start.Surgery loose after ∧
        plan.Replaced p old new after) := by
  have hLinked := hSurgery.linked
  rcases Edit.achieves_replace hLinked hParent hDetached with
    ⟨index, hChild, hReplace⟩
  refine hReplace.mono ?_
  rintro _ _ rfl
  have hEdited := edited_exchange hLinked hChild hDetached
  refine ⟨hSurgery.exchange hChild hDetached hLive hAlike,
    hEdited,
    fun x => children_exchange_eq_map hLinked hChild,
    Nat.lt_of_lt_of_le (lt_size_of_parent? hParent)
      hEdited.size, ?_, ?_⟩
  · rw [parent?_exchange hLinked hChild hDetached,
      if_pos rfl]
  · rw [hEdited.root]
    exact hLinked.ne_root_of_parent? hParent

end Surgery

end Plan

end Flwor

------------------------------------------------------------
-- Moved Stages
------------------------------------------------------------

namespace Flwor

namespace Plan

variable {start plan after : Plan}
variable {loose : Set NodeId}
variable {consumer stage feeder x : NodeId}

/- A stage is cut out, and its input takes its place. -/
structure Bypassed
    (before : Plan)
    (consumer stage feeder : NodeId)
    (after : Plan) : Prop where
  edited :
    before.Edited {consumer, stage} {stage, feeder} after
  children :
    ∀ x ≠ stage, after.children x =
      (before.children x).map (fun c =>
        if c = stage then feeder else c)
  rest : after.children stage = (before.children stage).tail
  detached : after.Detached stage

/- A child that is not cut out keeps its place. -/
theorem Bypassed.child?_eq
    (hBypassed : plan.Bypassed consumer stage feeder after)
    {p c : NodeId}
    {index : Nat}
    (hP : p ≠ stage)
    (hC : c ≠ stage)
    (hChild : plan.child? p index = some c) :
    after.child? p index = some c := by
  rw [child?, hBypassed.children p hP, List.getElem?_map]
  rw [child?] at hChild
  rw [hChild, Option.map_some, if_neg hC]

namespace Surgery

theorem achieves_bypass
    (hSurgery : start.Surgery loose plan)
    (hHead : plan.child? stage 0 = some feeder)
    (hParent : plan.parent? stage = some consumer)
    (hNe : consumer ≠ stage)
    (hLive : start.Live stage)
    (hAlike : (plan.kind stage).Alike (plan.kind feeder)) :
    (Edit.bypass stage).Achieves plan (fun _ after =>
      start.Surgery (insert stage loose) after ∧
        plan.Bypassed consumer stage feeder after) := by
  have hLinked := hSurgery.linked
  have hFeeder := hLinked.parent?_of_child? hHead
  have hStage : stage ≠ feeder := by
    rintro rfl
    rw [hParent] at hFeeder
    exact hNe (Option.some.inj hFeeder)
  have hStageLt := lt_size_of_parent? hParent
  refine (hSurgery.achieves_remove hHead).bind ?_
  rintro _ cut ⟨rfl, hSurgeryCut, hCut⟩
  have hParentCut : cut.parent? stage = some consumer := by
    rw [hCut.edited.parent stage hStageLt
      (by simpa using hStage)]
    exact hParent
  have hAlikeCut :
      (cut.kind stage).Alike (cut.kind feeder) := by
    rw [hCut.edited.kind stage hStageLt,
      hCut.edited.kind feeder (lt_size_of_parent? hFeeder)]
    exact hAlike
  have hFeederLive : start.Live feeder :=
    hSurgery.closed stage hLive feeder
      (mem_children_of_child? hHead)
  refine (hSurgeryCut.achieves_replace hParentCut
    hCut.detached hFeederLive hAlikeCut).mono ?_
  rintro _ after ⟨hSurgeryAfter, hReplaced⟩
  refine ⟨hSurgeryAfter, ?_, fun x hX => ?_, ?_,
    hReplaced.detached⟩
  · refine (hCut.edited.trans hReplaced.edited).mono ?_ ?_
    · rintro x (rfl | rfl)
      · exact .inr rfl
      · exact .inl rfl
    · rintro x (rfl | rfl | rfl)
      · exact .inr rfl
      · exact .inl rfl
      · exact .inr rfl
  · rw [hReplaced.children, hCut.others x hX]
  · rw [hReplaced.edited.children stage
        (Nat.lt_of_lt_of_le hStageLt hCut.edited.size)
        (by simpa using Ne.symm hNe),
      hCut.children, List.eraseIdx_zero]

/- A detached stage is put in front of another one. -/
theorem achieves_interpose
    (hSurgery : start.Surgery loose plan)
    (hHead : plan.child? consumer 0 = some feeder)
    (hDetached : plan.Detached stage)
    (hNe : consumer ≠ stage)
    (hConsumer : start.Live consumer)
    (hStage : start.Live stage)
    (hTight : consumer ∉ loose)
    (hAlike : (plan.kind feeder).Alike (plan.kind stage))
    (hProper : (plan.kind stage).Proper (plan.payload stage)
      (plan.kind feeder :: plan.childKinds stage)) :
    (Edit.interpose consumer stage).Achieves plan (fun _ after =>
      start.Surgery (loose \ {stage}) after) := by
  have hLinked := hSurgery.linked
  have hFeederParent := hLinked.parent?_of_child? hHead
  have hFeederLt := lt_size_of_parent? hFeederParent
  have hConsumerLt :=
    lt_size_of_mem_children (mem_children_of_child? hHead)
  have hFeeder : feeder ≠ stage := by
    rintro rfl
    rw [hDetached.parent] at hFeederParent
    cases hFeederParent
  have hFeederLive : start.Live feeder :=
    hSurgery.closed consumer hConsumer feeder
      (mem_children_of_child? hHead)
  refine (hSurgery.achieves_remove hHead).bind ?_
  rintro _ cut ⟨rfl, hSurgeryCut, hCut⟩
  have hStageCut : cut.Detached stage :=
    hCut.edited.detached hDetached
      (by simpa using Ne.symm hFeeder)
  refine (hSurgeryCut.achieves_insert hCut.detached
    hFeederLive hStageCut.lt (Nat.zero_le _)).bind ?_
  rintro _ fed ⟨hSurgeryFed, hFed⟩
  have hStageFed : fed.Detached stage :=
    hFed.edited.detached hStageCut
      (by simpa using Ne.symm hFeeder)
  have hEditedFed := hCut.edited.trans hFed.edited
  have hConsumerFed : fed.children consumer =
      (plan.children consumer).eraseIdx 0 := by
    rw [hFed.edited.children consumer
        (hCut.edited.lt hConsumerLt) (by simpa using hNe),
      hCut.children]
  have hAlikeFed :
      (plan.kind feeder).Alike (fed.kind stage) := by
    rw [hEditedFed.kind stage hDetached.lt]
    exact hAlike
  -- The consumer has the stage in place of what fed it.
  refine (hSurgeryFed.achieves_putBack hEditedFed hLinked
    (hSurgery.proper consumer hConsumerLt hConsumer hTight)
    hHead hConsumerFed hStageFed hStage hAlikeFed).mono ?_
  rintro _ after ⟨hSurgeryAfter, hAfter⟩
  have hEdited := hEditedFed.trans hAfter.edited
  have hStageChildren : after.children stage =
      feeder :: plan.children stage := by
    rw [hAfter.edited.children stage hStageFed.lt
        (by simpa using Ne.symm hNe),
      hFed.children, hCut.others stage (Ne.symm hNe),
      List.insertIdx_zero]
  have hStageProper : after.Proper stage := by
    rw [Plan.Proper, hEdited.kind stage hDetached.lt,
      hEdited.payload stage hDetached.lt, childKinds,
      hStageChildren, List.map_cons,
      hEdited.kind feeder hFeederLt,
      hEdited.map_kind (fun c hC => hLinked.lt_of_mem hC)]
    exact hProper
  refine (hSurgeryAfter.mend hStageProper).mono ?_
  rintro x ⟨⟨hIn, hNotConsumer⟩, hNotStage⟩
  rcases hIn with rfl | rfl | hIn
  · exact (hNotStage rfl).elim
  · exact (hNotConsumer rfl).elim
  · exact ⟨hIn, hNotStage⟩

end Surgery

end Plan

end Flwor
