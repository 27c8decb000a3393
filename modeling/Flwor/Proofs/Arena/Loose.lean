import Flwor.Pass.Moves
import Flwor.Proofs.Arena.Freshness
import Flwor.Proofs.Arena.Insertions

/-
  Edits that succeed because of what hangs nowhere.

  A node can be attached if it is detached.  So it suffices
  to keep a list of the detached nodes that an edit is still
  going to use: taking a child away adds it to the list, and
  attaching a node removes it.

  A stage hangs somewhere unless it is the root.

  Key definitions include:
    * `Plan.Loose`
    * `Plan.Straight`, `Plan.Anchored`, `Plan.Upright`
    * `Plan.Swaps`

  Key theorems include:
    * `Plan.Loose.achieves_remove`
    * `Plan.Loose.achieves_insert`
    * `Plan.Loose.achieves_addWith`
    * `Plan.Loose.achieves_replace`
    * `Plan.Loose.achieves_bypass`
-/

------------------------------------------------------------
-- Loose Nodes
------------------------------------------------------------

namespace Flwor

namespace Plan

/- Different nodes of an arena in order that hang nowhere. -/
structure Loose
    (plan : Plan)
    (xs : List NodeId) : Prop where
  sound : plan.Sound
  nodup : xs.Nodup
  detached : ∀ x ∈ xs, plan.Detached x

variable {plan after : Plan}
variable {xs ys : List NodeId}
variable {touched moved : Set NodeId}
variable {p c x : NodeId}
variable {index : Nat}

theorem Sound.loose
    (hSound : plan.Sound) :
    plan.Loose [] :=
  ⟨hSound, .nil, nofun⟩

namespace Loose

variable (hLoose : plan.Loose xs)

include hLoose

theorem subperm
    (hSub : ys.Subperm xs) :
    plan.Loose ys := by
  rcases hSub with ⟨zs, hPerm, hSublist⟩
  refine ⟨hLoose.sound,
    hPerm.nodup_iff.mp (hSublist.nodup hLoose.nodup),
    fun x hX => hLoose.detached x ?_⟩
  exact hSublist.subset (hPerm.mem_iff.mpr hX)

theorem perm
    (hPerm : ys.Perm xs) :
    plan.Loose ys :=
  hLoose.subperm hPerm.subperm

/- A child hangs somewhere. -/
theorem not_mem_of_child?
    (hChild : plan.child? p index = some c) :
    c ∉ xs := by
  intro hC
  have hNone := (hLoose.detached c hC).parent
  rw [hLoose.sound.linked.parent?_of_child? hChild] at hNone
  cases hNone

theorem not_mem_of_size_le
    (hX : plan.size ≤ x) :
    x ∉ xs :=
  fun hMem => hX.not_gt (hLoose.detached x hMem).lt

/- Nodes that are not moved stay loose. -/
theorem edited
    (hSound : after.Sound)
    (hEdited : plan.Edited touched moved after)
    (hMoved : ∀ x ∈ xs, x ∉ moved) :
    after.Loose xs :=
  ⟨hSound, hLoose.nodup, fun x hX =>
    hEdited.detached (hLoose.detached x hX) (hMoved x hX)⟩

theorem sameLinks
    (hSame : plan.SameLinks after) :
    after.Loose xs := by
  refine hLoose.edited ⟨hSame.linked hLoose.sound.linked, ?_⟩
    hSame.edited (fun _ _ => id)
  rw [hSame.root, hSame.size]
  exact hLoose.sound.root_lt

theorem cons
    (hNew : x ∉ xs)
    (hDetached : plan.Detached x) :
    plan.Loose (x :: xs) :=
  ⟨hLoose.sound, List.nodup_cons.mpr ⟨hNew, hLoose.nodup⟩,
    List.forall_mem_cons.mpr ⟨hDetached, hLoose.detached⟩⟩

end Loose

/- One loose node is attached. -/
theorem Loose.attach
    (hLoose : plan.Loose (c :: xs))
    (hP : p < plan.size)
    (hIndex : index ≤ (plan.children p).length) :
    (plan.attach p index c).Loose xs ∧
      plan.Alters {p} (plan.attach p index c) := by
  have hC := hLoose.detached c List.mem_cons_self
  have hAlters :=
    (hLoose.sound.alters_attach hC hP hIndex).1
  refine ⟨?_, hAlters⟩
  refine (hLoose.subperm
    (List.sublist_cons_self c xs).subperm).edited
      hAlters.sound (edited_attach hC hP) ?_
  rintro x hX rfl
  exact (List.nodup_cons.mp hLoose.nodup).1 hX

end Plan

end Flwor

------------------------------------------------------------
-- Edits of Loose Nodes
------------------------------------------------------------

namespace Flwor

namespace Plan

namespace Loose

open Edit

variable {plan : Plan}
variable {xs ys cs : List NodeId}
variable {p old new stage feeder consumer : NodeId}
variable {index : Nat}
variable {k : Kind}
variable {q : Payload}
variable {ps : Properties}
variable {ts : List Tree}
variable {t : Tree}

/- A new node is loose. -/
theorem achieves_add
    (hLoose : plan.Loose xs)
    (k : Kind)
    (q : Payload)
    (ps : Properties) :
    (add k q ps).Achieves plan (fun id after =>
      id = plan.size ∧ after.Loose (id :: xs) ∧
        plan.Alters ∅ after) := by
  have hAlters := (hLoose.sound.alters_grow k q ps).1
  refine (Edit.achieves_add k q ps).mono ?_
  rintro _ _ ⟨rfl, rfl⟩
  refine ⟨rfl, ?_, hAlters⟩
  refine (hLoose.edited hAlters.sound
    (edited_grow plan k q ps) (by simp)).cons
      (hLoose.not_mem_of_size_le le_rfl)
      (detached_grow hLoose.sound.root_lt k q ps)

theorem achieves_fresh
    (hLoose : plan.Loose xs)
    (hint : String) :
    (fresh hint).Achieves plan (fun _ after =>
      after.Loose xs ∧ plan.Alters ∅ after) := by
  refine ((Edit.achieves_fresh hint).ensuring
    (ensures_fresh hLoose.sound hint)).mono ?_
  rintro _ after ⟨hSame, hAlters, _⟩
  exact ⟨hLoose.sameLinks hSame, hAlters⟩

theorem achieves_setProperty
    (hLoose : plan.Loose xs)
    (id : NodeId)
    (key : String)
    (value : Property) :
    (Edit.setProperty id key value).Achieves plan (fun _ after =>
      after.Loose xs ∧ plan.SameLinks after) := by
  refine (Edit.achieves_setProperty id key value).mono ?_
  exact fun _ _ hSame => ⟨hLoose.sameLinks hSame, hSame⟩

/- A child that is taken away is loose. -/
theorem achieves_remove
    (hLoose : plan.Loose xs)
    (hStands : plan.Stands (.node p k q ps ts))
    (hChild : ts[index]? = some t) :
    (remove p index).Achieves plan (fun c after =>
      c = t.id ∧ after.Loose (t.id :: xs) ∧
        plan.Alters {p} after ∧
        after.Stands
          (.node p k q ps (ts.eraseIdx index))) := by
  have hPlace : plan.child? p index = some t.id := by
    rw [child?, hStands.links, List.getElem?_map, hChild]
    rfl
  refine ((Edit.achieves_remove hPlace).ensuring
    (ensures_remove hLoose.sound hStands hChild)).mono ?_
  rintro c _ ⟨⟨rfl, rfl⟩, _, hAlters, _, hHere⟩
  refine ⟨rfl, ?_, hAlters, hHere⟩
  have hLinked := hLoose.sound.linked
  refine (hLoose.edited hAlters.sound
    (edited_detach hLinked hPlace) ?_).cons
      (hLoose.not_mem_of_child? hPlace)
      (detached_detach hLinked hPlace)
  rintro x hX rfl
  exact hLoose.not_mem_of_child? hPlace hX

/- A loose node is put among the children of another one. -/
theorem achieves_insert
    (hLoose : plan.Loose (t.id :: xs))
    (hStands : plan.Stands (.node p k q ps ts))
    (hIndex : index ≤ ts.length) :
    (insert p index t.id).Achieves plan (fun _ after =>
      after.Loose xs ∧ plan.Alters {p} after ∧
        after.Stands
          (.node p k q ps (ts.insertIdx index t))) := by
  have hT := hLoose.detached t.id List.mem_cons_self
  have hPlace : index ≤ (plan.children p).length := by
    rw [hStands.links, List.length_map]
    exact hIndex
  refine ((Edit.achieves_insert hT hPlace).ensuring
    (ensures_insert hLoose.sound hStands hT.lt)).mono ?_
  rintro _ _ ⟨rfl, hAlters, _, hHere⟩
  exact ⟨(hLoose.attach hStands.lt hPlace).1, hAlters, hHere⟩

theorem achieves_append
    (hLoose : plan.Loose (t.id :: xs))
    (hStands : plan.Stands (.node p k q ps ts)) :
    (append p t.id).Achieves plan (fun _ after =>
      after.Loose xs ∧ plan.Alters {p} after ∧
        after.Stands (.node p k q ps (ts ++ [t]))) := by
  have hT := hLoose.detached t.id List.mem_cons_self
  refine ((Edit.achieves_append hT).ensuring
    (ensures_append hLoose.sound hStands hT.lt)).mono ?_
  rintro _ _ ⟨rfl, hAlters, _, hHere⟩
  exact ⟨(hLoose.attach hStands.lt le_rfl).1, hAlters, hHere⟩

/- The same, where the other children do not matter. -/
theorem achieves_hang
    (hLoose : plan.Loose (old :: xs))
    (hP : p < plan.size) :
    (append p old).Achieves plan (fun _ after =>
      after.Loose xs ∧ plan.Alters {p} after) := by
  have hOld := hLoose.detached old List.mem_cons_self
  refine (Edit.achieves_append hOld).mono ?_
  rintro _ _ rfl
  exact hLoose.attach hP le_rfl

theorem achieves_forM_append
    (hLoose : plan.Loose (cs ++ xs))
    (hP : p < plan.size) :
    (cs.forM (append p)).Achieves plan (fun _ after =>
      after.Loose xs ∧ plan.Alters {p} after) := by
  induction cs generalizing plan with
  | nil =>
      refine achieves_return ⟨hLoose, hLoose.sound, rfl,
        le_rfl, fun _ _ h => h⟩
  | cons c rest ih =>
      change (append p c >>= fun _ =>
        rest.forM (append p)).Achieves plan _
      refine (hLoose.achieves_hang hP).bind ?_
      rintro _ middle ⟨hMiddle, hFirst⟩
      refine (ih hMiddle (hP.trans_le hFirst.size)).mono ?_
      rintro _ after ⟨hRest, hAlters⟩
      exact ⟨hRest, (hFirst.trans hAlters).narrow
        (fun x hX _ => Set.union_self {p} ▸ hX)⟩

/- A new node takes loose ones as its children. -/
theorem achieves_addWith
    (hLoose : plan.Loose xs)
    (hPerm : (cs ++ ys).Perm xs)
    (k : Kind)
    (q : Payload) :
    (addWith k q cs).Achieves plan (fun id after =>
      id = plan.size ∧ after.Loose (id :: ys) ∧
        plan.Alters ∅ after) := by
  refine ((hLoose.perm hPerm).achieves_add k q []).bind ?_
  rintro _ middle ⟨rfl, hNew, hGrown⟩
  have hMiddle : plan.size < middle.size :=
    (hNew.detached _ List.mem_cons_self).lt
  refine ((hNew.perm List.perm_middle).achieves_forM_append
    hMiddle).bind ?_
  rintro _ after ⟨hAfter, hAlters⟩
  refine achieves_return ⟨rfl, hAfter,
    (hGrown.trans hAlters).narrow ?_⟩
  rintro x (hX | rfl) hLt
  · exact hX
  · exact (lt_irrefl _ hLt).elim

/- A loose node makes another one loose by replacing it. -/
theorem achieves_replace
    (hLoose : plan.Loose (new :: xs))
    (hParent : plan.parent? old = some p) :
    (replace old new).Achieves plan (fun _ after =>
      after.Loose (old :: xs) ∧ plan.Alters {p} after) := by
  have hSound := hLoose.sound
  have hNew := hLoose.detached new List.mem_cons_self
  rcases Edit.achieves_replace hSound.linked hParent hNew with
    ⟨index, hPlace, hReplace⟩
  refine hReplace.mono ?_
  rintro _ _ rfl
  have hAlters := hSound.alters_exchange hPlace hNew
  have hOld : old ∉ new :: xs :=
    hLoose.not_mem_of_child? hPlace
  have hRest := hLoose.subperm
    (List.sublist_cons_self new xs).subperm
  refine ⟨(hRest.edited hAlters.sound
    (edited_exchange hSound.linked hPlace hNew) ?_).cons
      (fun hX => hOld (List.mem_cons_of_mem _ hX)) ?_,
    hAlters⟩
  · rintro x hX (rfl | rfl)
    · exact hOld (List.mem_cons_of_mem _ hX)
    · exact (List.nodup_cons.mp hLoose.nodup).1 hX
  · refine ⟨(lt_size_of_parent? hParent).trans_le
      hAlters.size, ?_, ?_⟩
    · rw [parent?_exchange hSound.linked hPlace hNew,
        if_pos rfl]
    · rw [hAlters.root]
      exact hSound.linked.ne_root_of_parent? hParent

/- A stage that is cut out is loose. -/
theorem achieves_bypass
    (hLoose : plan.Loose xs)
    (hStands : plan.Stands (.node stage k q ps (t :: ts)))
    (hParent : plan.parent? stage = some consumer)
    (hNe : consumer ≠ stage) :
    (bypass stage).Achieves plan (fun _ after =>
      after.Loose (stage :: xs) ∧
        plan.Alters {stage, consumer} after ∧
        after.Stands (.node stage k q ps ts)) := by
  have hPlace : plan.child? stage 0 = some t.id := by
    rw [child?, hStands.links]
    rfl
  have hLinked := hLoose.sound.linked
  have hExact : (remove stage 0).Ensures plan
      (fun _ after => after = plan.detach stage 0 t.id) := by
    rcases Edit.achieves_remove hPlace with
      ⟨_, _, hRun, rfl, rfl⟩
    exact ensures_of_cases (.inr hRun) rfl
  refine ((hLoose.achieves_remove hStands rfl).ensuring
    hExact).bind ?_
  rintro _ middle ⟨⟨rfl, hMiddle, hCut, hHere⟩, rfl⟩
  have hUp : (plan.detach stage 0 t.id).parent? stage =
      some consumer := by
    rw [parent?_detach hLinked hPlace, if_neg]
    · exact hParent
    · intro hEq
      have hSelf := hLinked.parent?_of_child? hPlace
      rw [← hEq, hParent] at hSelf
      exact hNe (Option.some.inj hSelf)
  refine (hMiddle.achieves_replace hUp).mono ?_
  rintro _ after ⟨hAfter, hPut⟩
  exact ⟨hAfter, hCut.trans hPut,
    hPut.spared _ (Ne.symm hNe) hHere⟩

end Loose

end Plan

end Flwor

------------------------------------------------------------
-- Stages That Hang Somewhere
------------------------------------------------------------

namespace Flwor

namespace Plan

variable {plan after : Plan}
variable {s u : Tree}

/- A node other than the root is a child of a node around. -/
theorem Sound.exists_consumer
    (hSound : plan.Sound)
    (hS : s ∈ plan.rootTree.subtrees)
    (hNe : plan.rootTree.id ≠ s.id) :
    ∃ r ∈ plan.rootTree.around s.id, ∃ index,
      r.children[index]? = some s ∧
        plan.parent? s.id = some r.id ∧
        plan.indexInParent? s.id = some index := by
  rcases hSound.holds_rootTree with ⟨_, hHolds, hNodup⟩
  rcases Tree.exists_parent_around
      (Tree.mem_ids_iff.mpr ⟨s, hS, rfl⟩) hNe with
    ⟨r, hR, hChild⟩
  have hMem := Tree.around_subset hR
  have hUp : plan.parent? s.id = some r.id := by
    refine hSound.linked.parent?_of_mem ?_
    rw [(hHolds r hMem).children]
    exact hChild
  rcases hSound.linked.exists_indexInParent? hUp with
    ⟨index, hIndex, hPlace⟩
  refine ⟨r, hR, index, ?_, hUp, hIndex⟩
  rw [child?, (hHolds r hMem).children, List.getElem?_map,
    Option.map_eq_some_iff] at hPlace
  rcases hPlace with ⟨t, hT, hId⟩
  have hSame := Tree.eq_of_id_eq hNodup
    (Tree.mem_subtrees_trans
      (Tree.mem_subtrees_of_child (List.mem_of_getElem? hT)
        (Tree.mem_subtrees_self t)) hMem) hS hId
  rw [← hSame]
  exact hT

/- The first child of a stage is read by it. -/
theorem Sound.consumer_of_head
    {r : Tree}
    (hSound : plan.Sound)
    (hR : r ∈ plan.rootTree.subtrees)
    (hHead : r.children.head? = some s)
    (hStage : r.kind.isStage)
    (hJoin : r.kind ≠ .join) :
    plan.consumer s.id = .ok (.stage r.id) := by
  have hHere := hSound.holds_rootTree.2.1 r hR
  have hFirst : plan.child? r.id 0 = some s.id := by
    rw [child?, hHere.children, List.getElem?_map,
      ← List.head?_eq_getElem?, hHead]
    rfl
  have hFinish : r.kind ≠ .finish := by
    intro hKind
    rw [hKind] at hStage
    cases hStage
  rw [consumer, hSound.linked.parent?_of_child? hFirst]
  dsimp only
  rw [hHere.kind]
  split
  · next hKind => exact (hFinish hKind).elim
  · next hKind => exact (hJoin hKind).elim
  · exact if_pos ⟨hStage, hFirst⟩

/-
  An arena in order where all nodes obey the rules of their
  kinds.
-/
structure Straight
    (plan : Plan) : Prop where
  sound : plan.Sound
  shaped : plan.rootTree.Shaped

namespace Straight

variable (hStraight : plan.Straight)

include hStraight

theorem shaped_subtree
    (hS : s ∈ plan.rootTree.subtrees) :
    s.Shaped :=
  hStraight.shaped.subtree hS

/- A subtree that is replaced by one of its role. -/
theorem of_mapAt
    (hSound : after.Sound)
    (hS : s ∈ plan.rootTree.subtrees)
    (hRole : s.SameRole u)
    (hShaped : u.Shaped)
    (hTree : after.rootTree =
      plan.rootTree.mapAt s.id (fun _ => u)) :
    after.Straight := by
  refine ⟨hSound, ?_⟩
  rw [hTree]
  exact hStraight.shaped.exchange
    hStraight.sound.holds_rootTree.2.2 hS hRole hShaped

end Straight

/-
  What a visit of a pass leaves: the plan as it was, or one
  in which a subtree has given its place to another tree.
-/
structure Swaps
    (related : Tree → Tree → Prop)
    (plan : Plan)
    (done : Bool)
    (after : Plan) : Prop where
  kept : done = false → after = plan
  swapped : done = true → ∃ s u,
    s ∈ plan.rootTree.subtrees ∧ related s u ∧
      after.Sound ∧
      after.rootTree = plan.rootTree.mapAt s.id (fun _ => u)

namespace Swaps

variable {related : Tree → Tree → Prop}

theorem nothing :
    plan.Swaps related false plan :=
  ⟨fun _ => rfl, nofun⟩

theorem of_mapAt
    (hS : s ∈ plan.rootTree.subtrees)
    (hRelated : related s u)
    (hAfter : after.Sound)
    (hTree : after.rootTree =
      plan.rootTree.mapAt s.id (fun _ => u)) :
    plan.Swaps related true after :=
  ⟨nofun, fun _ => ⟨s, u, hS, hRelated, hAfter, hTree⟩⟩

/- A second edit is tried if the first one changes nothing. -/
theorem achieves_orElse
    {first second : Edit Bool}
    (hFirst : first.Achieves plan (plan.Swaps related))
    (hSecond : second.Achieves plan (plan.Swaps related)) :
    Edit.Achieves (do
      if ← first then return true
      else second) plan (plan.Swaps related) := by
  refine hFirst.bind ?_
  rintro (_ | _) middle hMiddle
  · cases hMiddle.kept rfl
    exact hSecond
  · exact achieves_return hMiddle

theorem ensures_orElse
    {first second : Edit Bool}
    (hFirst : first.Ensures plan (plan.Swaps related))
    (hSecond : second.Ensures plan (plan.Swaps related)) :
    Edit.Ensures (do
      if ← first then return true
      else second) plan (plan.Swaps related) := by
  refine hFirst.bind ?_
  rintro (_ | _) middle hMiddle
  · cases hMiddle.kept rfl
    exact hSecond
  · exact Edit.ensures_return hMiddle

/-
  All stays in shape if what takes the place of a tree has
  its role and is in shape.
-/
theorem straight
    (hSwaps : plan.Swaps related true after)
    (hStraight : plan.Straight)
    (hRelated : ∀ s u, related s u → s.Shaped →
      s.SameRole u ∧ u.Shaped) :
    after.Straight := by
  rcases hSwaps.swapped rfl with
    ⟨s, u, hS, hSU, hAfter, hTree⟩
  rcases hRelated s u hSU (hStraight.shaped_subtree hS) with
    ⟨hRole, hShaped⟩
  exact hStraight.of_mapAt hAfter hS hRole hShaped hTree

end Swaps

/- An arena in order whose root is no stage. -/
structure Anchored
    (plan : Plan) : Prop where
  sound : plan.Sound
  top : plan.rootTree.kind.isStage = false

namespace Anchored

variable (hAnchored : plan.Anchored)

include hAnchored

theorem ne_root
    (hStage : s.kind.isStage)
    (hS : s ∈ plan.rootTree.subtrees) :
    plan.rootTree.id ≠ s.id := by
  intro hEq
  have hSame := Tree.eq_of_id_eq
    hAnchored.sound.holds_rootTree.2.2
    (Tree.mem_subtrees_self _) hS hEq
  have hTop := hAnchored.top
  rw [hSame, hStage] at hTop
  cases hTop

/- A stage is a child of a node around it. -/
theorem exists_consumer
    (hStage : s.kind.isStage)
    (hS : s ∈ plan.rootTree.subtrees) :
    ∃ r ∈ plan.rootTree.around s.id, ∃ index,
      r.children[index]? = some s ∧
        plan.parent? s.id = some r.id ∧
        plan.indexInParent? s.id = some index :=
  hAnchored.sound.exists_consumer hS
    (hAnchored.ne_root hStage hS)

/- A subtree that is replaced by one of its role. -/
theorem of_mapAt
    (hSound : after.Sound)
    (hS : s ∈ plan.rootTree.subtrees)
    (hKind : u.kind.isStage = s.kind.isStage)
    (hTree : after.rootTree =
      plan.rootTree.mapAt s.id (fun _ => u)) :
    after.Anchored := by
  refine ⟨hSound, ?_⟩
  rw [hTree]
  by_cases hEq : plan.rootTree.id = s.id
  · have hSame := Tree.eq_of_id_eq
      hAnchored.sound.holds_rootTree.2.2
      (Tree.mem_subtrees_self _) hS hEq
    rw [← hEq, Tree.mapAt_id, hKind, ← hSame]
    exact hAnchored.top
  · have hTop := hAnchored.top
    rcases hRoot : plan.rootTree with ⟨i, k, p, ps, cs⟩
    rw [hRoot] at hEq hTop
    have hNe : i ≠ s.id := hEq
    rw [Tree.mapAt_of_ne hNe]
    exact hTop

end Anchored

/- The same, where all nodes obey the rules of their kinds. -/
structure Upright
    (plan : Plan) : Prop extends plan.Anchored where
  shaped : plan.rootTree.Shaped

namespace Upright

variable (hUpright : plan.Upright)

include hUpright

theorem straight :
    plan.Straight :=
  ⟨hUpright.sound, hUpright.shaped⟩

theorem shaped_subtree
    (hS : s ∈ plan.rootTree.subtrees) :
    s.Shaped :=
  hUpright.straight.shaped_subtree hS

/- What takes the place of a subtree has its role. -/
theorem of_mapAt
    (hSound : after.Sound)
    (hS : s ∈ plan.rootTree.subtrees)
    (hRole : s.SameRole u)
    (hShaped : u.Shaped)
    (hTree : after.rootTree =
      plan.rootTree.mapAt s.id (fun _ => u)) :
    after.Upright := by
  refine ⟨hUpright.toAnchored.of_mapAt hSound hS ?_ hTree,
    (hUpright.straight.of_mapAt hSound hS hRole hShaped
      hTree).shaped⟩
  rcases hRole with ⟨hStage, hStage'⟩ | hKind
  · rw [hStage, hStage']
  · rw [hKind]

end Upright

end Plan

end Flwor
