import Flwor.Proofs.Arena.Descent
import Flwor.Proofs.Replacement

/-
  Trees that stand in an arena.

  Below a node that is reached stands exactly one tree, with
  each node in one place.  What is around a node is apart
  from what is below it.  If another tree takes the node's
  place and all is kept around, the tree is replaced.

  Key definitions include:
    * `Plan.Stands`, `Plan.Holds`
    * `Tree.around`

  Key theorems include:
    * `Plan.Sound.holds_tree`
    * `Plan.Holds.tree_eq`
    * `Plan.holds_mapAt`
-/

------------------------------------------------------------
-- Standing Trees
------------------------------------------------------------

namespace Flwor

namespace Tree

theorem id_mem_ids
    (t : Tree) :
    t.id ∈ t.ids := by
  rcases t with ⟨i, k, p, ps, cs⟩
  simp [Tree.id, ids]

theorem mem_ids_iff
    {x : NodeId}
    {t : Tree} :
    x ∈ t.ids ↔ ∃ s ∈ t.subtrees, s.id = x := by
  induction t using Tree.induction with
  | node i k p ps cs ih =>
      simp only [ids, subtrees, List.mem_cons, mem_idsAll_iff,
        mem_subtreesAll_iff, exists_eq_or_imp]
      refine or_congr eq_comm ?_
      constructor
      · rintro ⟨c, hC, hX⟩
        rcases (ih c hC).mp hX with ⟨s, hS, hId⟩
        exact ⟨s, ⟨c, hC, hS⟩, hId⟩
      · rintro ⟨s, ⟨c, hC, hS⟩, hId⟩
        exact ⟨c, hC, (ih c hC).mpr ⟨s, hS, hId⟩⟩

theorem ids_subset
    {s t : Tree}
    (hS : s ∈ t.subtrees) :
    ∀ x ∈ s.ids, x ∈ t.ids := by
  intro x hX
  rcases mem_ids_iff.mp hX with ⟨r, hR, hId⟩
  exact mem_ids_iff.mpr ⟨r, mem_subtrees_trans hR hS, hId⟩

end Tree

namespace Plan

/- A node of the arena is as it is at the top of a tree. -/
structure Stands
    (plan : Plan)
    (t : Tree) : Prop where
  lt : t.id < plan.size
  kind : plan.kind t.id = t.kind
  payload : plan.payload t.id = t.payload
  properties : plan.properties t.id = t.properties
  children : plan.children t.id = t.children.map Tree.id

/- All nodes of a tree are in the arena as in the tree. -/
def Holds
    (plan : Plan)
    (t : Tree) : Prop :=
  ∀ s ∈ t.subtrees, plan.Stands s

variable {plan : Plan}
variable {x : NodeId}
variable {s t : Tree}

namespace Holds

theorem self
    (hHolds : plan.Holds t) :
    plan.Stands t :=
  hHolds t (Tree.mem_subtrees_self t)

theorem subtree
    (hHolds : plan.Holds t)
    (hS : s ∈ t.subtrees) :
    plan.Holds s :=
  fun r hR => hHolds r (Tree.mem_subtrees_trans hR hS)

theorem child
    (hHolds : plan.Holds t)
    (hS : s ∈ t.children) :
    plan.Holds s :=
  hHolds.subtree (Tree.mem_subtrees_of_child hS
    (Tree.mem_subtrees_self s))

theorem lt_of_mem
    (hHolds : plan.Holds t)
    (hX : x ∈ t.ids) :
    x < plan.size := by
  rcases Tree.mem_ids_iff.mp hX with ⟨s, hS, rfl⟩
  exact (hHolds s hS).lt

/- All nodes of a tree lie under its topmost one. -/
theorem under
    (hLinked : plan.Linked)
    (hHolds : plan.Holds t)
    (hX : x ∈ t.ids) :
    plan.Under x t.id := by
  induction t using Tree.induction with
  | node i k p ps cs ih =>
      rw [Tree.ids, List.mem_cons, Tree.mem_idsAll_iff] at hX
      rcases hX with rfl | ⟨c, hC, hX⟩
      · exact .refl
      · refine (ih c hC (hHolds.child hC) hX).tail ?_
        rw [hLinked.up_iff, hHolds.self.children]
        exact List.mem_map_of_mem hC

end Holds

theorem holds_node
    {i : NodeId}
    {k : Kind}
    {p : Payload}
    {ps : Properties}
    {cs : List Tree}
    (hHere : plan.Stands (.node i k p ps cs))
    (hParts : ∀ c ∈ cs, plan.Holds c) :
    plan.Holds (.node i k p ps cs) := by
  intro s hS
  rw [Tree.subtrees, List.mem_cons, Tree.mem_subtreesAll_iff]
    at hS
  rcases hS with rfl | ⟨c, hC, hS⟩
  · exact hHere
  · exact hParts c hC s hS

theorem holds_leaf
    {i : NodeId}
    {k : Kind}
    {p : Payload}
    {ps : Properties}
    (hHere : plan.Stands (.node i k p ps [])) :
    plan.Holds (.node i k p ps []) :=
  holds_node hHere (List.forall_mem_nil _)

theorem Unfolds.id_eq
    (hUnfolds : plan.Unfolds x t) :
    t.id = x := by
  cases hUnfolds
  rfl

/- What the recursion gives stands in the arena. -/
theorem Unfolds.holds
    (hLinked : plan.Linked)
    (hUnfolds : plan.Unfolds x t)
    (hX : x < plan.size) :
    plan.Holds t := by
  induction hUnfolds with
  | node id below hBelow ih =>
      refine holds_node ⟨hX, rfl, rfl, rfl, ?_⟩ ?_
      · have hIds (c : NodeId) (hC : c ∈ plan.children id) :
            (below c).id = c :=
          (hBelow c hC).id_eq
        change plan.children id =
          ((plan.children id).map below).map Tree.id
        rw [List.map_map]
        exact ((List.map_congr_left hIds).trans
          (List.map_id' _)).symm
      · intro c hC
        rcases List.mem_map.mp hC with ⟨y, hY, rfl⟩
        exact ih y hY (hLinked.lt_of_mem hY)

/- The recursion gives what stands in the arena. -/
theorem Unfolds.eq_of_holds
    (hUnfolds : plan.Unfolds x s)
    (hHolds : plan.Holds t)
    (hId : t.id = x) :
    s = t := by
  induction hUnfolds generalizing t with
  | node id below hBelow ih =>
      rcases t with ⟨i, k, p, ps, cs⟩
      cases hId
      have hHere := hHolds.self
      have hSame (c : Tree) (hC : c ∈ cs) :
          below c.id = c := by
        refine ih c.id ?_ (hHolds.child hC) rfl
        rw [hHere.children]
        exact List.mem_map_of_mem hC
      rw [hHere.kind, hHere.payload, hHere.properties,
        hHere.children, List.map_map]
      exact congrArg (Tree.node i k p ps)
        ((List.map_congr_left hSame).trans (List.map_id' _))

/- Nothing that lies under a node is below itself. -/
theorem Linked.free
    (hLinked : plan.Linked)
    (hX : plan.Under x plan.root) :
    ∀ y, plan.Under y x → ¬ plan.Beneath y y :=
  fun _ hY => hLinked.not_below_self (hY.trans hX)

/- The tree of a node that is reached stands in the arena. -/
theorem Sound.holds_tree
    (hSound : plan.Sound)
    (hX : plan.Under x plan.root) :
    (plan.tree x).id = x ∧ plan.Holds (plan.tree x) ∧
      (plan.tree x).ids.Nodup := by
  have hFree := hSound.linked.free hX
  have hUnfolds := unfolds_tree hSound.linked hFree
  refine ⟨hUnfolds.id_eq, hUnfolds.holds hSound.linked ?_,
    hUnfolds.nodup_ids hSound.linked hFree⟩
  rcases Relation.ReflTransGen.cases_head hX with
    rfl | ⟨p, hUp, _⟩
  · exact hSound.root_lt
  · exact lt_size_of_parent? hUp

/- The whole tree stands in the arena. -/
theorem Sound.holds_rootTree
    (hSound : plan.Sound) :
    plan.rootTree.id = plan.root ∧
      plan.Holds plan.rootTree ∧ plan.rootTree.ids.Nodup :=
  hSound.holds_tree .refl

/- A node that is reached is one of the whole tree. -/
theorem Sound.exists_of_reaches
    (hSound : plan.Sound)
    (hReach : plan.Reaches x) :
    ∃ s ∈ plan.rootTree.subtrees, s.id = x := by
  have hUnfolds : plan.Unfolds plan.root plan.rootTree :=
    unfolds_tree hSound.linked (hSound.linked.free .refl)
  rw [hSound.linked.reaches_iff_under,
    ← hUnfolds.mem_ids_iff hSound.linked] at hReach
  exact Tree.mem_ids_iff.mp hReach

/- What stands below the root is the tree of its node. -/
theorem Holds.tree_eq
    (hLinked : plan.Linked)
    (hHolds : plan.Holds t)
    (hRoot : t.id = plan.root)
    (hS : s ∈ t.subtrees) :
    plan.tree s.id = s := by
  have hUnder : plan.Under s.id plan.root := by
    rw [← hRoot]
    exact hHolds.under hLinked (Tree.mem_ids_iff.mpr
      ⟨s, hS, rfl⟩)
  exact (unfolds_tree hLinked
    (hLinked.free hUnder)).eq_of_holds (hHolds.subtree hS) rfl

end Plan

end Flwor

------------------------------------------------------------
-- Around a Node
------------------------------------------------------------

namespace Flwor

namespace Tree

mutual

/- The subtrees that are not under a node. -/
def around
    (id : NodeId) : Tree → List Tree
  | .node i k p ps cs =>
      if i = id then []
      else .node i k p ps cs :: aroundAll id cs

/- The subtrees of several trees that are not under a node. -/
def aroundAll
    (id : NodeId) : List Tree → List Tree
  | [] => []
  | t :: ts => around id t ++ aroundAll id ts

end

variable {id : NodeId}
variable {r s t : Tree}

theorem mem_aroundAll_iff
    {ts : List Tree} :
    r ∈ aroundAll id ts ↔ ∃ t ∈ ts, r ∈ t.around id := by
  induction ts with
  | nil => simp [aroundAll]
  | cons t rest ih => simp [aroundAll, ih]

theorem mem_around_node
    {i : NodeId}
    {k : Kind}
    {p : Payload}
    {ps : Properties}
    {cs : List Tree} :
    r ∈ around id (.node i k p ps cs) ↔
      i ≠ id ∧ (r = .node i k p ps cs ∨
        ∃ c ∈ cs, r ∈ c.around id) := by
  rw [around]
  split
  next hId => simp [hId]
  next hId => simp [hId, mem_aroundAll_iff]

theorem around_subset
    (hR : r ∈ t.around id) :
    r ∈ t.subtrees := by
  induction t using Tree.induction with
  | node i k p ps cs ih =>
      rcases (mem_around_node.mp hR).2 with rfl | ⟨c, hC, hR⟩
      · exact mem_subtrees_self _
      · exact mem_subtrees_of_child hC (ih c hC hR)

theorem nodup_ids_of_mem
    {c : Tree}
    {cs : List Tree}
    (hNodup : (idsAll cs).Nodup)
    (hC : c ∈ cs) :
    c.ids.Nodup := by
  induction cs with
  | nil => cases hC
  | cons d rest ih =>
      rw [idsAll, List.nodup_append'] at hNodup
      rcases List.mem_cons.mp hC with rfl | hC
      · exact hNodup.1
      · exact ih hNodup.2.1 hC

theorem nodup_ids_of_subtree
    (hNodup : t.ids.Nodup)
    (hS : s ∈ t.subtrees) :
    s.ids.Nodup := by
  induction t using Tree.induction with
  | node i k p ps cs ih =>
      rw [subtrees, List.mem_cons, mem_subtreesAll_iff] at hS
      rcases hS with rfl | ⟨c, hC, hS⟩
      · exact hNodup
      · rw [ids, List.nodup_cons] at hNodup
        exact ih c hC (nodup_ids_of_mem hNodup.2 hC) hS

/- Where no index occurs twice, two parts share none. -/
theorem eq_of_mem_ids
    {cs : List Tree}
    (hNodup : (idsAll cs).Nodup)
    {c d : Tree}
    (hC : c ∈ cs)
    (hD : d ∈ cs)
    {x : NodeId}
    (hX : x ∈ c.ids)
    (hX' : x ∈ d.ids) :
    c = d := by
  induction cs with
  | nil => cases hC
  | cons e rest ih =>
      rw [idsAll, List.nodup_append'] at hNodup
      have hApart (d : Tree) (hD : d ∈ rest)
          (hE : x ∈ e.ids) (hX : x ∈ d.ids) : False :=
        hNodup.2.2 hE (mem_idsAll_iff.mpr ⟨d, hD, hX⟩)
      rcases List.mem_cons.mp hC with rfl | hRest <;>
        rcases List.mem_cons.mp hD with rfl | hRest'
      · rfl
      · exact (hApart d hRest' hX hX').elim
      · exact (hApart c hRest hX' hX).elim
      · exact ih hNodup.2.1 hRest hRest'

/- What is around a node is not in the tree below it. -/
theorem not_mem_of_around
    (hNodup : t.ids.Nodup)
    (hS : s ∈ t.subtrees)
    (hR : r ∈ t.around s.id) :
    r.id ∉ s.ids := by
  induction t using Tree.induction with
  | node i k p ps cs ih =>
      rw [ids, List.nodup_cons, mem_idsAll_iff] at hNodup
      rw [subtrees, List.mem_cons, mem_subtreesAll_iff] at hS
      rcases mem_around_node.mp hR with ⟨hId, hR⟩
      rcases hS with rfl | ⟨d, hD, hS⟩
      · exact (hId rfl).elim
      intro hBelow
      have hMem := ids_subset hS _ hBelow
      rcases hR with rfl | ⟨c, hC, hR⟩
      · exact hNodup.1 ⟨d, hD, hMem⟩
      · have hHere := mem_ids_iff.mpr
          ⟨r, around_subset hR, rfl⟩
        cases eq_of_mem_ids hNodup.2 hC hD hHere hMem
        exact ih _ hC (nodup_ids_of_mem hNodup.2 hC) hS hR
          hBelow

/- The input of a stage is apart from its other trees. -/
theorem apart_of_nodup
    {i : NodeId}
    {k : Kind}
    {p : Payload}
    {ps : Properties}
    {feeder c : Tree}
    {rest : List Tree}
    (hNodup :
      (Tree.node i k p ps (feeder :: rest)).ids.Nodup)
    (hC : c ∈ rest) :
    i ∉ feeder.ids ∧ i ∉ c.ids ∧
      List.Disjoint feeder.ids c.ids ∧ c.ids.Nodup := by
  rw [ids, idsAll, List.nodup_cons, List.mem_append, not_or,
    mem_idsAll_iff, List.nodup_append'] at hNodup
  exact ⟨hNodup.1.1, fun hMem => hNodup.1.2 ⟨c, hC, hMem⟩,
    fun x hX hX' => hNodup.2.2.2 hX
      (mem_idsAll_iff.mpr ⟨c, hC, hX'⟩),
    nodup_ids_of_mem hNodup.2.2.1 hC⟩

theorem id_mapAt
    (u : Tree) :
    (t.mapAt id (fun _ => u)).id =
      if t.id = id then u.id else t.id := by
  rcases t with ⟨i, k, p, ps, cs⟩
  rw [mapAt]
  split
  next hId => simp [Tree.id, hId]
  next hId => simp [Tree.id, hId]

/- Replacing one of several trees leaves the others alone. -/
theorem map_mapAt_of_nodup
    {id : NodeId}
    {f : Tree → Tree}
    {before after : List Tree}
    {c : Tree}
    (hNodup : (idsAll (before ++ c :: after)).Nodup)
    (hId : id ∈ c.ids) :
    (before ++ c :: after).map (mapAt id f) =
      before ++ c.mapAt id f :: after := by
  induction before with
  | nil =>
      rw [List.nil_append, idsAll, List.nodup_append']
        at hNodup
      have hSame (d : Tree) (hD : d ∈ after) :
          mapAt id f d = d :=
        mapAt_of_not_mem (fun hMem => hNodup.2.2 hId
          (mem_idsAll_iff.mpr ⟨d, hD, hMem⟩))
      rw [List.nil_append, List.map_cons,
        List.map_congr_left hSame, List.map_id',
        List.nil_append]
  | cons d rest ih =>
      rw [List.cons_append, idsAll, List.nodup_append']
        at hNodup
      have hSame : mapAt id f d = d :=
        mapAt_of_not_mem (fun hMem => hNodup.2.2 hMem
          (mem_idsAll_iff.mpr ⟨c, by simp, hId⟩))
      rw [List.cons_append, List.map_cons, hSame,
        ih hNodup.2.1, List.cons_append]

/- Replacing below one child leaves all others alone. -/
theorem mapAt_of_child
    {id i : NodeId}
    {k : Kind}
    {p : Payload}
    {ps : Properties}
    {f : Tree → Tree}
    {before after : List Tree}
    {c : Tree}
    (hNodup :
      (Tree.node i k p ps (before ++ c :: after)).ids.Nodup)
    (hId : id ∈ c.ids) :
    mapAt id f (.node i k p ps (before ++ c :: after)) =
      .node i k p ps (before ++ c.mapAt id f :: after) := by
  rw [ids, List.nodup_cons] at hNodup
  have hNe : i ≠ id := by
    rintro rfl
    exact hNodup.1 (mem_idsAll_iff.mpr ⟨c, by simp, hId⟩)
  rw [mapAt_of_ne hNe, map_mapAt_of_nodup hNodup.2 hId]

theorem mapAt_of_first
    {id i : NodeId}
    {k : Kind}
    {p : Payload}
    {ps : Properties}
    {f : Tree → Tree}
    {rest : List Tree}
    {c : Tree}
    (hNodup : (Tree.node i k p ps (c :: rest)).ids.Nodup)
    (hId : id ∈ c.ids) :
    mapAt id f (.node i k p ps (c :: rest)) =
      .node i k p ps (c.mapAt id f :: rest) :=
  @mapAt_of_child id i k p ps f [] rest c hNodup hId

theorem mapAt_of_third
    {id i : NodeId}
    {k : Kind}
    {p : Payload}
    {ps : Properties}
    {f : Tree → Tree}
    {a b c : Tree}
    (hNodup : (Tree.node i k p ps [a, b, c]).ids.Nodup)
    (hId : id ∈ c.ids) :
    mapAt id f (.node i k p ps [a, b, c]) =
      .node i k p ps [a, b, c.mapAt id f] :=
  @mapAt_of_child id i k p ps f [a, b] [] c hNodup hId

theorem mapAt_of_last
    {id i : NodeId}
    {k : Kind}
    {p : Payload}
    {ps : Properties}
    {f : Tree → Tree}
    {a c : Tree}
    {mid : List Tree}
    (hNodup :
      (Tree.node i k p ps (a :: (mid ++ [c]))).ids.Nodup)
    (hId : id ∈ c.ids) :
    mapAt id f (.node i k p ps (a :: (mid ++ [c]))) =
      .node i k p ps (a :: (mid ++ [c.mapAt id f])) :=
  @mapAt_of_child id i k p ps f (a :: mid) [] c hNodup hId

end Tree

namespace Plan

/-
  A tree with another one in the place of a node stands in
  the arena if this is so of the other one and of the nodes
  around.
-/
theorem holds_mapAt
    {plan : Plan}
    {old : NodeId}
    {t u : Tree}
    (hAround : ∀ r ∈ t.around old, plan.Stands
      (.node r.id r.kind r.payload r.properties
        (r.children.map (Tree.mapAt old (fun _ => u)))))
    (hNew : plan.Holds u) :
    plan.Holds (t.mapAt old (fun _ => u)) := by
  induction t using Tree.induction with
  | node i k p ps cs ih =>
      by_cases hId : i = old
      · subst hId
        rw [Tree.mapAt_self]
        exact hNew
      · rw [Tree.mapAt_of_ne hId]
        refine holds_node (hAround _
          (Tree.mem_around_node.mpr ⟨hId, .inl rfl⟩)) ?_
        intro c' hC'
        rcases List.mem_map.mp hC' with ⟨c, hC, rfl⟩
        exact ih c hC (fun r hR => hAround r
          (Tree.mem_around_node.mpr ⟨hId, .inr ⟨c, hC, hR⟩⟩))

end Plan

end Flwor
