import Flwor.Proofs.Arena.Alterations

/-
  What an edit puts into the tree of a plan: a node that
  takes the place of a child that was detached before, and
  an annotation that is set or taken away.

  Key theorems include:
    * `Tree.mapAt_mapAt`
    * `Edit.ensures_insert_tree`
    * `Plan.Alters.rootTree_of_stands`
-/

------------------------------------------------------------
-- Two Places of a Tree
------------------------------------------------------------

namespace Flwor

namespace Tree

variable {a b : NodeId}
variable {t u : Tree}

theorem mem_subtrees_cases
    {s : Tree}
    (hS : s ∈ t.subtrees) :
    s = t ∨ ∃ c ∈ t.children, s ∈ c.subtrees := by
  rcases t with ⟨i, k, p, ps, cs⟩
  rwa [subtrees, List.mem_cons, mem_subtreesAll_iff] at hS

/- An id belongs to one subtree only. -/
theorem eq_of_id_eq
    {r s : Tree}
    (hNodup : t.ids.Nodup)
    (hR : r ∈ t.subtrees)
    (hS : s ∈ t.subtrees)
    (hId : r.id = s.id) :
    r = s := by
  induction t using Tree.induction with
  | node i k p ps cs ih =>
      rw [ids, List.nodup_cons, mem_idsAll_iff] at hNodup
      have hBelow {u c : Tree} (hC : c ∈ cs)
          (hU : u ∈ c.subtrees) : u.id ≠ i := by
        rintro rfl
        exact hNodup.1
          ⟨c, hC, mem_ids_iff.mpr ⟨u, hU, rfl⟩⟩
      rcases mem_subtrees_cases hR with rfl | ⟨c, hC, hR⟩ <;>
        rcases mem_subtrees_cases hS with rfl | ⟨d, hD, hS⟩
      · rfl
      · exact (hBelow hD hS hId.symm).elim
      · exact (hBelow hC hR hId).elim
      · cases eq_of_mem_ids hNodup.2 hC hD
          (mem_ids_iff.mpr ⟨r, hR, rfl⟩)
          (hId ▸ mem_ids_iff.mpr ⟨s, hS, rfl⟩)
        exact ih _ hC (nodup_ids_of_mem hNodup.2 hC) hR hS

theorem ids_mapAt
    {x : NodeId}
    (hX : x ∈ (t.mapAt a (fun _ => u)).ids) :
    x ∈ t.ids ∨ x ∈ u.ids := by
  induction t using Tree.induction with
  | node i k p ps cs ih =>
      by_cases hId : i = a
      · rw [hId, mapAt_self] at hX
        exact .inr hX
      · rw [mapAt_of_ne hId, ids, List.mem_cons,
          mem_idsAll_iff] at hX
        rw [ids, List.mem_cons, mem_idsAll_iff]
        rcases hX with rfl | ⟨c', hC', hX⟩
        · exact .inl (.inl rfl)
        · rcases List.mem_map.mp hC' with ⟨c, hC, rfl⟩
          exact (ih c hC hX).imp_left
            (fun h => .inr ⟨c, hC, h⟩)

theorem around_ne
    {r : Tree}
    (hR : r ∈ t.around a) :
    r.id ≠ a := by
  induction t using Tree.induction with
  | node i k p ps cs ih =>
      rcases mem_around_node.mp hR with
        ⟨hId, rfl | ⟨c, hC, hR⟩⟩
      · exact hId
      · exact ih c hC hR

/- A node around a subtree is apart from all its parts. -/
theorem around_apart
    {c r : Tree}
    (hNodup : t.ids.Nodup)
    (hS : s ∈ t.subtrees)
    (hR : r ∈ t.around s.id)
    (hC : c ∈ s.children) :
    r.id ≠ s.id ∧ r.id ∉ c.ids :=
  ⟨around_ne hR, fun hMem => not_mem_of_around hNodup hS hR
    (ids_subset (mem_subtrees_of_child hC
      (mem_subtrees_self _)) _ hMem)⟩

/- The node whose child another one is. -/
theorem exists_parent_around
    (hMem : a ∈ t.ids)
    (hNe : t.id ≠ a) :
    ∃ r ∈ t.around a, a ∈ r.children.map Tree.id := by
  induction t using Tree.induction with
  | node i k p ps cs ih =>
      rw [ids, List.mem_cons, mem_idsAll_iff] at hMem
      rcases hMem with rfl | ⟨c, hC, hMem⟩
      · exact (hNe rfl).elim
      by_cases hHere : c.id = a
      · exact ⟨_, mem_around_node.mpr ⟨hNe, .inl rfl⟩,
          List.mem_map.mpr ⟨c, hC, hHere⟩⟩
      · rcases ih c hC hMem hHere with ⟨r, hR, hChild⟩
        exact ⟨r, mem_around_node.mpr
          ⟨hNe, .inr ⟨c, hC, hR⟩⟩, hChild⟩

/-
  A change within the replacement of a subtree is one of the
  replacement.
-/
theorem mapAt_mapAt
    {f : Tree → Tree}
    (hAround : ∀ r ∈ t.around a, r.id ≠ b) :
    (t.mapAt a (fun _ => u)).mapAt b f =
      t.mapAt a (fun _ => u.mapAt b f) := by
  induction t using Tree.induction with
  | node i k p ps cs ih =>
      by_cases hId : i = a
      · rw [hId, mapAt_self, mapAt_self]
      · have hHere : i ≠ b :=
          hAround _ (mem_around_node.mpr ⟨hId, .inl rfl⟩)
        rw [mapAt_of_ne hId, mapAt_of_ne hId,
          mapAt_of_ne hHere, List.map_map]
        refine congrArg _ (List.map_congr_left ?_)
        intro c hC
        exact ih c hC (fun r hR => hAround r
          (mem_around_node.mpr ⟨hId, .inr ⟨c, hC, hR⟩⟩))

/- The replacement is part of the new tree. -/
theorem mem_subtrees_mapAt
    (hMem : a ∈ t.ids) :
    u ∈ (t.mapAt a (fun _ => u)).subtrees := by
  induction t using Tree.induction with
  | node i k p ps cs ih =>
      by_cases hId : i = a
      · rw [hId, mapAt_self]
        exact mem_subtrees_self u
      · rw [ids, List.mem_cons, mem_idsAll_iff] at hMem
        rcases hMem with rfl | ⟨c, hC, hMem⟩
        · exact (hId rfl).elim
        rw [mapAt_of_ne hId]
        exact mem_subtrees_of_child
          (List.mem_map_of_mem hC) (ih c hC hMem)

/-
  What is part of the new tree is part of the replacement,
  or a node around it, with other children.
-/
theorem mem_of_mem_mapAt
    {s : Tree}
    (hS : s ∈ (t.mapAt a (fun _ => u)).subtrees) :
    s ∈ u.subtrees ∨ ∃ r ∈ t.around a,
      s = r.mapAt a (fun _ => u) := by
  induction t using Tree.induction with
  | node i k p ps cs ih =>
      by_cases hId : i = a
      · rw [hId, mapAt_self] at hS
        exact .inl hS
      · rw [mapAt_of_ne hId, subtrees, List.mem_cons,
          mem_subtreesAll_iff] at hS
        rcases hS with rfl | ⟨c', hC', hS⟩
        · refine .inr ⟨_, mem_around_node.mpr
            ⟨hId, .inl rfl⟩, (mapAt_of_ne hId).symm⟩
        · rcases List.mem_map.mp hC' with ⟨c, hC, rfl⟩
          refine (ih c hC hS).imp_right ?_
          rintro ⟨r, hR, hEq⟩
          exact ⟨r, mem_around_node.mpr
            ⟨hId, .inr ⟨c, hC, hR⟩⟩, hEq⟩

theorem properties_mapAt
    (hNe : t.id ≠ a) :
    (t.mapAt a (fun _ => u)).properties =
      t.properties := by
  rcases t with ⟨i, k, p, ps, cs⟩
  rw [mapAt, if_neg (show ¬ i = a from hNe)]
  rfl

theorem mapAt_id
    {f : Tree → Tree} :
    t.mapAt t.id f = f t := by
  rcases t with ⟨i, k, p, ps, cs⟩
  exact mapAt_self

/- A change of a subtree is made below any tree above it. -/
theorem mapAt_of_below
    {f : Tree → Tree}
    (hNodup : t.ids.Nodup)
    (hU : u ∈ t.subtrees)
    (hB : b ∈ u.ids) :
    t.mapAt b f = t.mapAt u.id (fun _ => u.mapAt b f) := by
  induction t using Tree.induction with
  | node i k p ps cs ih =>
      by_cases hId : i = u.id
      · rw [hId, mapAt_self, ← hId]
        rw [subtrees, List.mem_cons, mem_subtreesAll_iff]
          at hU
        rcases hU with rfl | ⟨c, hC, hU⟩
        · rfl
        · rw [ids, List.nodup_cons, mem_idsAll_iff] at hNodup
          exact (hNodup.1 ⟨c, hC, hId ▸
            ids_subset hU _ u.id_mem_ids⟩).elim
      · rw [subtrees, List.mem_cons, mem_subtreesAll_iff]
          at hU
        rcases hU with rfl | ⟨d, hD, hU⟩
        · exact (hId rfl).elim
        rw [ids, List.nodup_cons, mem_idsAll_iff] at hNodup
        have hMem : b ∈ d.ids := ids_subset hU _ hB
        have hNe : i ≠ b := by
          rintro rfl
          exact hNodup.1 ⟨d, hD, hMem⟩
        rw [mapAt_of_ne hId, mapAt_of_ne hNe]
        refine congrArg _ (List.map_congr_left ?_)
        intro c hC
        by_cases hHere : u.id ∈ c.ids
        · cases eq_of_mem_ids hNodup.2 hC hD hHere
            (ids_subset hU _ u.id_mem_ids)
          exact ih _ hC (nodup_ids_of_mem hNodup.2 hC) hU
        · have hApart : b ∉ c.ids := by
            intro hB'
            exact hHere (eq_of_mem_ids hNodup.2 hC hD hB'
              hMem ▸ ids_subset hU _ u.id_mem_ids)
          rw [mapAt_of_not_mem hHere, mapAt_of_not_mem hApart]

variable {s : Tree}

/- What was below a replaced subtree is not there any more. -/
theorem mem_ids_of_mapAt
    {x : NodeId}
    (hNodup : t.ids.Nodup)
    (hS : s ∈ t.subtrees)
    (hOld : x ∈ s.ids)
    (hX : x ∈ (t.mapAt s.id (fun _ => u)).ids) :
    x ∈ u.ids := by
  rcases mem_ids_iff.mp hX with ⟨r, hR, rfl⟩
  rcases mem_of_mem_mapAt hR with hR | ⟨v, hV, rfl⟩
  · exact mem_ids_iff.mpr ⟨r, hR, rfl⟩
  · rw [id_mapAt, if_neg (around_ne hV)] at hOld
    exact (not_mem_of_around hNodup hS hV hOld).elim

/- A subtree gives its place to one of the same role. -/
theorem Shaped.exchange
    (hShaped : t.Shaped)
    (hNodup : t.ids.Nodup)
    (hS : s ∈ t.subtrees)
    (hRole : s.SameRole u)
    (hU : u.Shaped) :
    (t.mapAt s.id (fun _ => u)).Shaped := by
  refine shaped_mapAt hShaped ?_ (fun _ _ _ => hU)
  intro r hR hId
  cases eq_of_id_eq hNodup hR hS hId
  exact hRole

/- A node with another stage as its first child. -/
theorem Shaped.withInput
    {i : NodeId}
    {k : Kind}
    {p : Payload}
    {ps : Properties}
    {c d : Tree}
    {rest : List Tree}
    (hShaped : (Tree.node i k p ps (c :: rest)).Shaped)
    (hNodup : (Tree.node i k p ps (c :: rest)).ids.Nodup)
    (hC : c.kind.isStage)
    (hD : d.kind.isStage)
    (hNew : d.Shaped) :
    (Tree.node i k p ps (d :: rest)).Shaped := by
  have hMem : c ∈ (Tree.node i k p ps (c :: rest)).subtrees :=
    mem_subtrees_of_child List.mem_cons_self
      (mem_subtrees_self c)
  have hEq := hShaped.exchange hNodup hMem
    (.inl ⟨hC, hD⟩) hNew
  rw [mapAt_of_first hNodup c.id_mem_ids, mapAt_id] at hEq
  exact hEq

end Tree

end Flwor

------------------------------------------------------------
-- Insertions
------------------------------------------------------------

namespace Flwor

namespace Plan

/- Only the ids of the children matter to a node. -/
theorem Stands.withChildren
    {plan : Plan}
    {r : Tree}
    {cs : List Tree}
    (hStands : plan.Stands r)
    (hIds : cs.map Tree.id = r.children.map Tree.id) :
    plan.Stands
      (.node r.id r.kind r.payload r.properties cs) :=
  ⟨hStands.lt, hStands.kind, hStands.payload,
    hStands.properties, hStands.children.trans hIds.symm⟩

/- The only node that has a tree among its children. -/
theorem Sound.exists_parent
    {plan : Plan}
    {s : Tree}
    {p : NodeId}
    (hSound : plan.Sound)
    (hS : s ∈ plan.rootTree.subtrees)
    (hUp : plan.parent? s.id = some p) :
    ∃ r ∈ plan.rootTree.around s.id,
      r.id = p ∧ s ∈ r.children := by
  rcases hSound.holds_rootTree with ⟨hTop, hHolds, _⟩
  have hNe : plan.rootTree.id ≠ s.id := by
    rw [hTop]
    exact (hSound.linked.ne_root_of_parent? hUp).symm
  rcases Tree.exists_parent_around
      (Tree.mem_ids_iff.mpr ⟨s, hS, rfl⟩) hNe with
    ⟨r, hAround, hChild⟩
  have hStands := hHolds _ (Tree.around_subset hAround)
  rcases List.mem_map.mp hChild with ⟨t, hT, hId⟩
  have hMem := Tree.mem_subtrees_trans
    (Tree.mem_subtrees_of_child hT (Tree.mem_subtrees_self t))
    (Tree.around_subset hAround)
  have hTree := hHolds.tree_eq hSound.linked hTop hMem
  rw [hId, hHolds.tree_eq hSound.linked hTop hS] at hTree
  rw [← hStands.children] at hChild
  cases hUp.symm.trans
    (hSound.linked.parent?_of_mem hChild)
  exact ⟨r, hAround, rfl, hTree ▸ hT⟩

end Plan

namespace Edit

open Plan

variable {plan middle : Plan}
variable {p : NodeId}
variable {index : Nat}
variable {k : Kind}
variable {q : Payload}
variable {ps : Properties}
variable {cs : List Tree}
variable {t : Tree}

/- The ids of children of which one is replaced. -/
theorem map_id_mapAt
    (old : NodeId)
    (u : Tree) :
    (cs.map (Tree.mapAt old (fun _ => u))).map Tree.id =
      (cs.map Tree.id).map (fun c =>
        if c = old then u.id else c) := by
  rw [List.map_map, List.map_map]
  exact List.map_congr_left (fun c _ => Tree.id_mapAt u)

theorem ensures_insert
    (hSound : plan.Sound)
    (hStands : plan.Stands (.node p k q ps cs))
    (hT : t.id < plan.size) :
    (insert p index t.id).Ensures plan (fun _ after =>
      plan.Alters {p} after ∧ after.size = plan.size ∧
        after.Stands
          (.node p k q ps (cs.insertIdx index t))) := by
  intro x after hRun
  rcases insert_cases p index hT with
    ⟨e, hFailed⟩ | ⟨hDetached, hIndex, hDone⟩
  · rw [hFailed] at hRun
    cases hRun
  · rw [hDone] at hRun
    cases hRun
    have hAttach :=
      hSound.alters_attach hDetached hStands.lt hIndex
    exact ⟨hAttach.1, by simp [attach],
      hAttach.2 k q ps cs t rfl hStands⟩

/-
  A subtree is detached, and one that was made of it is put
  back in its place.  Nothing else has been touched.
-/
theorem ensures_insert_tree
    {s u : Tree}
    (hSound : plan.Sound)
    (hAround :
      .node p k q ps cs ∈ plan.rootTree.around s.id)
    (hChild : cs[index]? = some s)
    (hRoot : middle.root = plan.root)
    (hMiddle : middle.Sound)
    (hSpared : ∀ r ∈ plan.rootTree.around s.id,
      r.id ≠ p → middle.Stands r)
    (hParent :
      middle.Stands (.node p k q ps (cs.eraseIdx index)))
    (hNew : middle.Holds u)
    (hApart : p ∉ u.ids) :
    (insert p index u.id).Ensures middle (fun _ after =>
      after.Sound ∧ after.size = middle.size ∧
        after.Holds u ∧
        after.rootTree =
          plan.rootTree.mapAt s.id (fun _ => u)) := by
  rcases hSound.holds_rootTree with ⟨hTop, hHolds, _⟩
  refine (ensures_insert hMiddle hParent hNew.self.lt).mono ?_
  rintro _ after ⟨hAlters, hSize, hHere⟩
  have hKept : after.Holds u := by
    refine hAlters.holds hNew ?_
    rintro x hX rfl
    exact hApart hX
  have hStands := hHolds _ (Tree.around_subset hAround)
  have hPlace : plan.child? p index = some s.id := by
    rw [child?, hStands.links, List.getElem?_map, hChild]
    rfl
  have hUp := hSound.linked.parent?_of_child? hPlace
  have hLt : index < cs.length :=
    (List.getElem?_eq_some_iff.mp hChild).1
  rw [List.insertIdx_eraseIdx_self (Nat.ne_of_lt hLt)]
    at hHere
  have hTree : after.Holds
      (plan.rootTree.mapAt s.id (fun _ => u)) := by
    refine holds_mapAt (fun r hR => ?_) hKept
    have hMem := Tree.around_subset hR
    by_cases hP : r.id = p
    · have hSame := hHolds.tree_eq hSound.linked hTop hMem
      have hParentTree := hHolds.tree_eq hSound.linked hTop
        (Tree.around_subset hAround)
      cases hParentTree.symm.trans
        ((congrArg plan.tree hP.symm).trans hSame)
      refine hHere.withChildren ?_
      rw [map_id_mapAt, Tree.children_node,
        Tree.children_node, List.map_set, ← hStands.links]
      exact (set_eq_map hSound.linked hPlace).symm
    · refine (hAlters.spared r hP
        (hSpared r hR hP)).withChildren ?_
      rw [map_id_mapAt, ← List.map_id' (r.children.map _),
        List.map_map]
      refine List.map_congr_left (fun c hC => if_neg ?_)
      rintro rfl
      refine hP (Option.some.inj (Eq.trans ?_ hUp))
      refine (hSound.linked.parent?_of_mem ?_).symm
      rw [(hHolds r hMem).children]
      exact hC
  refine ⟨hAlters.sound, hSize, hKept, ?_⟩
  have hId : (plan.rootTree.mapAt s.id (fun _ => u)).id =
      after.root := by
    rw [Tree.id_mapAt, if_neg, hTop, hAlters.root, hRoot]
    rw [hTop]
    rintro hEq
    rw [← hEq, hSound.linked.root] at hUp
    cases hUp
  have hEq := hTree.tree_eq hAlters.sound.linked hId
    (Tree.mem_subtrees_self _)
  rw [hId] at hEq
  exact hEq

end Edit

namespace Plan

namespace Alters

/- The tree of a plan of which one node has changed. -/
theorem rootTree_of_stands
    {plan after : Plan}
    {p : NodeId}
    {k k' : Kind}
    {q q' : Payload}
    {ps ps' : Properties}
    {cs : List Tree}
    (hSound : plan.Sound)
    (hS : .node p k q ps cs ∈ plan.rootTree.subtrees)
    (hAlters : plan.Alters {p} after)
    (hHere : after.Stands (.node p k' q' ps' cs)) :
    after.rootTree = plan.rootTree.mapAt p (fun _ =>
      .node p k' q' ps' cs) := by
  rcases hSound.holds_rootTree with ⟨hTop, hHolds, hNodup⟩
  have hBelow := Tree.nodup_ids_of_subtree hNodup hS
  have hNew : after.Holds (.node p k' q' ps' cs) := by
    refine holds_node hHere (fun c hC => ?_)
    refine hAlters.holds ((hHolds.subtree hS).child hC) ?_
    rintro x hX rfl
    rw [Tree.ids, List.nodup_cons, Tree.mem_idsAll_iff]
      at hBelow
    exact hBelow.1 ⟨c, hC, hX⟩
  have hTree : after.Holds (plan.rootTree.mapAt p
      (fun _ => .node p k' q' ps' cs)) := by
    refine holds_mapAt (fun r hR => ?_) hNew
    refine (hAlters.spared r (Tree.around_ne hR)
      (hHolds r (Tree.around_subset hR))).withChildren ?_
    rw [Edit.map_id_mapAt]
    refine (List.map_congr_left (fun c _ => ?_)).trans
      (List.map_id' _)
    exact ite_eq_right_iff.mpr Eq.symm
  have hId : (plan.rootTree.mapAt p (fun _ =>
      .node p k' q' ps' cs)).id = after.root := by
    rw [Tree.id_mapAt, hAlters.root, ← hTop]
    split
    next hEq => exact hEq.symm
    next => rfl
  have hEq := hTree.tree_eq hAlters.sound.linked hId
    (Tree.mem_subtrees_self _)
  rw [hId] at hEq
  exact hEq

end Alters

end Plan

namespace Edit

open Plan

variable {plan : Plan}
variable {p : NodeId}
variable {k : Kind}
variable {q : Payload}
variable {ps : Properties}
variable {cs : List Tree}

/- The tree below one that loses an annotation. -/
theorem ensures_eraseProperty_tree
    (hSound : plan.Sound)
    (hS : .node p k q ps cs ∈ plan.rootTree.subtrees)
    (key : String) :
    (eraseProperty p key).Ensures plan (fun _ after =>
      after.Sound ∧ after.size = plan.size ∧
        after.rootTree = plan.rootTree.mapAt p (fun _ =>
          .node p k q (ps.erase key) cs)) := by
  refine (ensures_eraseProperty hSound
    (hSound.holds_rootTree.2.1 _ hS) key).mono ?_
  rintro _ after ⟨hAlters, hSize, hHere⟩
  exact ⟨hAlters.sound, hSize,
    hAlters.rootTree_of_stands hSound hS hHere⟩

/- The tree below one that is given an annotation. -/
theorem ensures_setProperty_tree
    (hSound : plan.Sound)
    (hS : .node p k q ps cs ∈ plan.rootTree.subtrees)
    (key : String)
    (value : Property) :
    (setProperty p key value).Ensures plan (fun _ after =>
      after.Sound ∧ after.size = plan.size ∧
        after.rootTree = plan.rootTree.mapAt p (fun _ =>
          .node p k q (Properties.put key value ps) cs)) := by
  refine (ensures_setProperty hSound
    (hSound.holds_rootTree.2.1 _ hS) key value).mono ?_
  rintro _ after ⟨hAlters, hSize, hHere⟩
  exact ⟨hAlters.sound, hSize,
    hAlters.rootTree_of_stands hSound hS hHere⟩

end Edit

end Flwor
