import Flwor.Proofs.Lifting.Releases

/-
  Where names are bound in a plan.

  A binding may leave its pipeline if it stands in an
  expression of a stage.  That is safe if nothing else binds
  the name, if the name is no external, and if no left join
  may have to pad the rows of the binding.  Moving a binding
  brings no name to a worse place, so all of this still holds
  after it.

  Key definitions include:
    * `Place`, `Placed`
    * `Tree.placed`
    * `Tree.Liftable`
    * `Tree.Settles`

  Key theorems include:
    * `Tree.Settles.liftable`
    * `Tree.settles_mapAt`
    * `Tree.Liftable.soleBinder`
-/

------------------------------------------------------------
-- Places
------------------------------------------------------------

namespace Flwor

/-
  What is around a node: whether it is part of an expression
  that a stage or an end evaluates, and whether a left join
  may pad the rows that it makes.
-/
structure Place where
  inner : Bool
  padded : Bool
  deriving DecidableEq, Repr

namespace Place

/- The place of the root. -/
def top : Place :=
  ⟨false, false⟩

/- The place of a child of a node. -/
def child
    (place : Place)
    (k : Kind)
    (ps : Properties)
    (index : Nat)
    (childKind : Kind) : Place where
  inner := place.inner
    || (k = .finish || k.isStage) && !childKind.isStage
  padded := place.padded
    || k = .join && ps.flag Properties.leftJoin && 0 < index

/- One place is in no more than another one. -/
structure Within
    (here there : Place) : Prop where
  inner : here.inner → there.inner
  padded : here.padded → there.padded

variable {here there further : Place}

theorem Within.refl
    (here : Place) :
    here.Within here :=
  ⟨id, id⟩

theorem Within.trans
    (hFirst : here.Within there)
    (hSecond : there.Within further) :
    here.Within further :=
  ⟨hSecond.inner ∘ hFirst.inner,
    hSecond.padded ∘ hFirst.padded⟩

theorem within_child
    (k : Kind)
    (ps : Properties)
    (index : Nat)
    (childKind : Kind) :
    here.Within (here.child k ps index childKind) :=
  ⟨fun h => by simp [child, h], fun h => by simp [child, h]⟩

/- What feeds a stage is at the same place. -/
theorem child_first
    {childKind : Kind}
    (k : Kind)
    (ps : Properties)
    (hStage : childKind.isStage) :
    here.child k ps 0 childKind = here := by
  simp [child, hStage]

theorem Within.child
    (hWithin : here.Within there)
    (k : Kind)
    (ps : Properties)
    (index : Nat)
    (childKind : Kind) :
    (here.child k ps index childKind).Within
      (there.child k ps index childKind) := by
  refine ⟨fun h => ?_, fun h => ?_⟩
  · simp only [Place.child, Bool.or_eq_true] at h ⊢
    exact h.imp_left hWithin.inner
  · simp only [Place.child, Bool.or_eq_true] at h ⊢
    exact h.imp_left hWithin.padded

end Place

/- A name that a node of some kind binds at a place. -/
structure Placed where
  node : NodeId
  kind : Kind
  name : String
  place : Place
  deriving DecidableEq

namespace Tree

mutual

/- The names that are bound in a tree at a place. -/
def placed
    (place : Place) : Tree → List Placed
  | .node i k p ps cs =>
      (bound (.node i k p ps cs)).map
          (fun name => ⟨i, k, name, place⟩)
        ++ placedAll place k ps 0 cs

/- The same, for the children of a node from an index on. -/
def placedAll
    (place : Place)
    (k : Kind)
    (ps : Properties)
    (index : Nat) : List Tree → List Placed
  | [] => []
  | t :: ts =>
      placed (place.child k ps index t.kind) t
        ++ placedAll place k ps (index + 1) ts

end

/-
  Bindings that may leave their pipelines have names of
  their own, and no left join pads their rows.
-/
def Liftable
    (externals : List String)
    (t : Tree) : Prop :=
  ∀ x ∈ t.placed .top, x.kind = .letBind → x.place.inner →
    x.place.padded = false ∧ x.name ∉ externals ∧
      ∀ y ∈ t.placed .top, y.name = x.name → y.node = x.node

instance
    (externals : List String)
    (t : Tree) :
    Decidable (t.Liftable externals) :=
  inferInstanceAs (Decidable (∀ x ∈ t.placed .top,
    x.kind = .letBind → x.place.inner →
      x.place.padded = false ∧ x.name ∉ externals ∧
        ∀ y ∈ t.placed .top, y.name = x.name →
          y.node = x.node))

variable {place here there : Place}
variable {i : NodeId}
variable {k : Kind}
variable {p : Payload}
variable {ps : Properties}
variable {cs : List Tree}
variable {s t u : Tree}
variable {x y : Placed}

theorem mem_placedAll_iff
    {first : Nat}
    {ts : List Tree} :
    x ∈ placedAll place k ps first ts ↔
      ∃ (index : Nat) (t : Tree), ts[index]? = some t ∧
        x ∈ t.placed
          (place.child k ps (first + index) t.kind) := by
  induction ts generalizing first with
  | nil => simp [placedAll]
  | cons t rest ih =>
      rw [placedAll, List.mem_append, ih]
      constructor
      · rintro (hX | ⟨index, u, hU, hX⟩)
        · exact ⟨0, t, rfl, hX⟩
        · refine ⟨index + 1, u, hU, ?_⟩
          rwa [Nat.add_right_comm] at hX
      · rintro ⟨_ | index, u, hU, hX⟩
        · cases hU
          exact .inl hX
        · refine .inr ⟨index, u, hU, ?_⟩
          rwa [Nat.add_right_comm]

/- What is bound in a tree, at its top or in a child. -/
theorem mem_placed_iff :
    x ∈ placed place (.node i k p ps cs) ↔
      (∃ name ∈ bound (.node i k p ps cs),
        x = ⟨i, k, name, place⟩) ∨
      ∃ (index : Nat) (c : Tree), cs[index]? = some c ∧
        x ∈ c.placed (place.child k ps index c.kind) := by
  rw [placed, List.mem_append, mem_placedAll_iff,
    List.mem_map]
  simp only [Nat.zero_add, eq_comm (a := x)]

/- A part of a tree has its names at one place of it. -/
theorem exists_place
    (hS : s ∈ t.subtrees)
    (place : Place) :
    ∃ there, place.Within there ∧
      ∀ x ∈ s.placed there, x ∈ t.placed place := by
  induction t using Tree.induction generalizing place with
  | node i k p ps cs ih =>
      rw [subtrees, List.mem_cons, mem_subtreesAll_iff] at hS
      rcases hS with rfl | ⟨c, hC, hS⟩
      · exact ⟨place, .refl place, fun _ h => h⟩
      rcases List.mem_iff_getElem?.mp hC with ⟨index, hIndex⟩
      rcases ih c hC hS (place.child k ps index c.kind) with
        ⟨there, hWithin, hPlaced⟩
      exact ⟨there,
        (Place.within_child k ps index c.kind).trans hWithin,
        fun x hX => mem_placed_iff.mpr
          (.inr ⟨index, c, hIndex, hPlaced x hX⟩)⟩

theorem exists_of_mem_placed
    (hX : x ∈ t.placed place) :
    ∃ s ∈ t.subtrees, s.id = x.node ∧ s.kind = x.kind ∧
      x.name ∈ s.bound := by
  induction t using Tree.induction generalizing place with
  | node i k p ps cs ih =>
      rcases mem_placed_iff.mp hX with
        ⟨name, hName, rfl⟩ | ⟨index, c, hC, hX⟩
      · exact ⟨_, mem_subtrees_self _, rfl, rfl, hName⟩
      · have hChild := List.mem_of_getElem? hC
        rcases ih c hChild hX with ⟨s, hS, hRest⟩
        exact ⟨s, mem_subtrees_of_child hChild hS, hRest⟩

/- Where no index occurs twice, each is in one part. -/
theorem index_eq_of_mem_ids
    {x : NodeId}
    {n m : Nat}
    {c d : Tree}
    (hNodup : (idsAll cs).Nodup)
    (hC : cs[n]? = some c)
    (hD : cs[m]? = some d)
    (hX : x ∈ c.ids)
    (hX' : x ∈ d.ids) :
    n = m := by
  induction cs generalizing n m with
  | nil => cases hC
  | cons e rest ih =>
      rw [idsAll, List.nodup_append'] at hNodup
      have hRest {index : Nat} {u : Tree}
          (hU : rest[index]? = some u)
          (hX : x ∈ u.ids) : x ∉ e.ids :=
        fun hE => hNodup.2.2 hE (mem_idsAll_iff.mpr
          ⟨u, List.mem_of_getElem? hU, hX⟩)
      rcases n with _ | n <;> rcases m with _ | m
      · rfl
      · cases hC
        exact (hRest hD hX' hX).elim
      · cases hD
        exact (hRest hC hX hX').elim
      · exact congrArg (· + 1) (ih hNodup.2.1 hC hD)

/- A node has one place. -/
theorem place_eq_of_node_eq
    (hNodup : t.ids.Nodup)
    (hX : x ∈ t.placed place)
    (hY : y ∈ t.placed place)
    (hNode : x.node = y.node) :
    x.place = y.place := by
  induction t using Tree.induction generalizing place with
  | node i k p ps cs ih =>
      have hParts := List.nodup_cons.mp hNodup
      have hBelow {index : Nat} {c : Tree} {z : Placed}
          (hC : cs[index]? = some c)
          (hZ : z ∈ c.placed (place.child k ps index c.kind)) :
          z.node ∈ c.ids := by
        rcases exists_of_mem_placed hZ with ⟨s, hS, hId, _⟩
        exact mem_ids_iff.mpr ⟨s, hS, hId⟩
      have hNot {index : Nat} {c : Tree} {z : Placed}
          (hC : cs[index]? = some c)
          (hZ : z ∈ c.placed (place.child k ps index c.kind)) :
          z.node ≠ i := by
        rintro rfl
        exact hParts.1 (mem_idsAll_iff.mpr
          ⟨c, List.mem_of_getElem? hC, hBelow hC hZ⟩)
      rcases mem_placed_iff.mp hX with
          ⟨_, _, rfl⟩ | ⟨index, c, hC, hX⟩ <;>
        rcases mem_placed_iff.mp hY with
          ⟨_, _, rfl⟩ | ⟨index', d, hD, hY⟩
      · rfl
      · exact (hNot hD hY hNode.symm).elim
      · exact (hNot hC hX hNode).elim
      · cases index_eq_of_mem_ids hParts.2 hC hD
          (hBelow hC hX) (hNode ▸ hBelow hD hY)
        cases hC.symm.trans hD
        exact ih c (List.mem_of_getElem? hC)
          (nodup_ids_of_mem hParts.2 (List.mem_of_getElem? hC))
          hX hY

end Tree

end Flwor

------------------------------------------------------------
-- Better Places
------------------------------------------------------------

namespace Flwor

/- A binding that was there before, at a place as bad. -/
structure Placed.ComesFrom
    (x y : Placed) : Prop where
  node : y.node = x.node
  kind : y.kind = x.kind
  name : y.name = x.name
  place : x.place.Within y.place

variable {x y z : Placed}

theorem Placed.ComesFrom.refl
    (x : Placed) :
    x.ComesFrom x :=
  ⟨rfl, rfl, rfl, .refl _⟩

theorem Placed.ComesFrom.trans
    (hFirst : x.ComesFrom y)
    (hSecond : y.ComesFrom z) :
    x.ComesFrom z :=
  ⟨hSecond.node.trans hFirst.node,
    hSecond.kind.trans hFirst.kind,
    hSecond.name.trans hFirst.name,
    hFirst.place.trans hSecond.place⟩

namespace Tree

/- One tree binds what another one does, at no worse places. -/
def Settles
    (t u : Tree) : Prop :=
  ∀ place, ∀ x ∈ u.placed place,
    ∃ y ∈ t.placed place, x.ComesFrom y

variable {place here there : Place}
variable {i : NodeId}
variable {k : Kind}
variable {p : Payload}
variable {ps : Properties}
variable {cs ds : List Tree}
variable {s t u w : Tree}
variable {externals : List String}

theorem Settles.refl
    (t : Tree) :
    t.Settles t :=
  fun _ x hX => ⟨x, hX, .refl x⟩

theorem Settles.trans
    (hFirst : t.Settles u)
    (hSecond : u.Settles w) :
    t.Settles w := by
  intro place x hX
  rcases hSecond place x hX with ⟨y, hY, hXY⟩
  rcases hFirst place y hY with ⟨z, hZ, hYZ⟩
  exact ⟨z, hZ, hXY.trans hYZ⟩

/- The names of a tree at a place and at one in more. -/
theorem placed_mono
    (hWithin : here.Within there)
    {x : Placed}
    (hX : x ∈ t.placed here) :
    ∃ y ∈ t.placed there, x.ComesFrom y := by
  induction t using Tree.induction generalizing here there with
  | node i k p ps cs ih =>
      rcases mem_placed_iff.mp hX with
        ⟨name, hName, rfl⟩ | ⟨index, c, hC, hX⟩
      · exact ⟨⟨i, k, name, there⟩,
          mem_placed_iff.mpr (.inl ⟨name, hName, rfl⟩),
          rfl, rfl, rfl, hWithin⟩
      · rcases ih c (List.mem_of_getElem? hC)
            (hWithin.child k ps index c.kind) hX with
          ⟨y, hY, hXY⟩
        exact ⟨y, mem_placed_iff.mpr
          (.inr ⟨index, c, hC, hY⟩), hXY⟩

/- Nodes that bind the same, child by child. -/
theorem settles_node
    (hBound : bound (.node i k p ps ds) =
      bound (.node i k p ps cs))
    (hParts : ∀ (index : Nat) (d : Tree),
      ds[index]? = some d → ∃ c, cs[index]? = some c ∧
        c.kind.isStage = d.kind.isStage ∧ c.Settles d) :
    Settles (.node i k p ps cs) (.node i k p ps ds) := by
  intro place x hX
  rcases mem_placed_iff.mp hX with
    ⟨name, hName, rfl⟩ | ⟨index, d, hD, hX⟩
  · exact ⟨_, mem_placed_iff.mpr
      (.inl ⟨name, hBound ▸ hName, rfl⟩), .refl _⟩
  · rcases hParts index d hD with ⟨c, hC, hStage, hSettles⟩
    have hSame : place.child k ps index d.kind =
        place.child k ps index c.kind := by
      rw [Place.child, Place.child, hStage]
    rcases hSettles _ x (hSame ▸ hX) with ⟨y, hY, hXY⟩
    exact ⟨y, mem_placed_iff.mpr (.inr ⟨index, c, hC, hY⟩),
      hXY⟩

/- A subtree gives its place to one that settles it. -/
theorem settles_mapAt
    {id : NodeId}
    {f : Tree → Tree}
    (hShaped : t.Shaped)
    (hExchanges : Exchanges id f t)
    (hTarget : ∀ s ∈ t.subtrees, s.id = id →
      s.Settles (f s)) :
    t.Settles (t.mapAt id f) := by
  induction t using Tree.induction with
  | node i k p ps cs ih =>
      by_cases hId : i = id
      · subst hId
        rw [mapAt_self]
        exact hTarget _ (mem_subtrees_self _) rfl
      rw [mapAt_of_ne hId]
      refine settles_node (bound_mapAt hShaped
        (fun c hC => hExchanges.child hC)) ?_
      intro index d hD
      rw [List.getElem?_map, Option.map_eq_some_iff] at hD
      rcases hD with ⟨c, hC, rfl⟩
      have hChild : c ∈ cs := List.mem_of_getElem? hC
      refine ⟨c, hC, ?_, ih c hChild (hShaped.child hChild)
        (hExchanges.child hChild) (fun s hS =>
          hTarget s (mem_subtrees_of_child hChild hS))⟩
      rcases sameRole_mapAt (hExchanges.child hChild).role with
        ⟨hFirst, hSecond⟩ | hKind
      · rw [hFirst, hSecond]
      · rw [hKind]

/- What settles a tree is as safe. -/
theorem Settles.liftable
    (hSettles : t.Settles u)
    (hLiftable : t.Liftable externals) :
    u.Liftable externals := by
  intro x hX hKind hInner
  rcases hSettles .top x hX with ⟨y, hY, hXY⟩
  rcases hLiftable y hY (hXY.kind.trans hKind)
      (hXY.place.inner hInner) with
    ⟨hPadded, hExternal, hSingle⟩
  refine ⟨?_, hXY.name ▸ hExternal, fun x' hX' hName => ?_⟩
  · rw [← Bool.not_eq_true] at hPadded ⊢
    exact hPadded ∘ hXY.place.padded
  · rcases hSettles .top x' hX' with ⟨y', hY', hXY'⟩
    have hNode := hSingle y' hY'
      (hXY'.name.trans (hName.trans hXY.name.symm))
    exact hXY'.node.symm.trans (hNode.trans hXY.node)

/- What a part binds, it binds at some place. -/
theorem exists_placed
    {name : String}
    (hS : s ∈ t.subtrees)
    (hName : name ∈ s.bound)
    (place : Place) :
    ∃ there, place.Within there ∧
      ⟨s.id, s.kind, name, there⟩ ∈ t.placed place := by
  rcases exists_place hS place with ⟨there, hWithin, hPlaced⟩
  refine ⟨there, hWithin, hPlaced _ ?_⟩
  rcases s with ⟨i, k, p, ps, cs⟩
  exact mem_placed_iff.mpr (.inl ⟨name, hName, rfl⟩)

/- A left join may pad what is bound below its right input. -/
theorem padded_of_mem_right
    {x : Placed}
    {j : NodeId}
    {q : Payload}
    {qs : Properties}
    {left keys right : Tree}
    (hNodup : t.ids.Nodup)
    (hJoin : .node j .join q qs [left, keys, right] ∈
      t.subtrees)
    (hLeftJoin : qs.flag Properties.leftJoin = true)
    (hX : x ∈ t.placed .top)
    (hBelow : x.node ∈ right.ids) :
    x.place.padded := by
  rcases exists_of_mem_placed hX with ⟨s, hS, hId, _, hName⟩
  rcases mem_ids_iff.mp hBelow with ⟨r, hR, hSame⟩
  have hRight : right ∈ t.subtrees :=
    mem_subtrees_trans (mem_subtrees_of_child (by simp)
      (mem_subtrees_self right)) hJoin
  cases eq_of_id_eq hNodup (mem_subtrees_trans hR hRight) hS
    (hSame.trans hId.symm)
  rcases exists_place hJoin .top with ⟨outer, _, hOuter⟩
  rcases exists_placed hR hName
      (outer.child .join qs 2 right.kind) with
    ⟨there, hThere, hPlaced⟩
  have hEq : x.place = there := place_eq_of_node_eq hNodup hX
    (hOuter _ (mem_placed_iff.mpr
      (.inr ⟨2, right, rfl, hPlaced⟩))) hId.symm
  rw [hEq]
  exact hThere.padded (by simp [Place.child, hLeftJoin])

/-
  A binding in an expression of a stage is the only one of
  its name, which no external has.
-/
theorem Liftable.soleBinder
    {name : String}
    {slot bind : Tree}
    (hLiftable : t.Liftable externals)
    (hNodup : t.ids.Nodup)
    (hOwner : .node i k p ps cs ∈ t.subtrees)
    (hKind : k = .finish ∨ k.isStage)
    (hSlot : slot ∈ cs)
    (hPlain : slot.kind.isStage = false)
    (hBind : bind ∈ slot.subtrees)
    (hLet : bind.kind = .letBind)
    (hName : name ∈ bind.bound) :
    name ∉ externals ∧ SoleBinder name bind.id t := by
  rcases exists_place hOwner .top with ⟨above, _, hAbove⟩
  rcases List.mem_iff_getElem?.mp hSlot with ⟨index, hIndex⟩
  rcases exists_placed hBind hName
      (above.child k ps index slot.kind) with
    ⟨place, hWithin, hPlaced⟩
  have hHere := hAbove _
    (mem_placed_iff.mpr (.inr ⟨index, slot, hIndex, hPlaced⟩))
  have hInner : place.inner := by
    refine hWithin.inner ?_
    rw [Place.child, hPlain]
    rcases hKind with rfl | hKind
    · simp
    · simp [hKind]
  rcases hLiftable _ hHere hLet hInner with
    ⟨hPadded, hExternal, hSingle⟩
  refine ⟨hExternal, fun r hR hBound => ?_,
    fun j q qs left keys right hJoin hLeftJoin hBelow => ?_⟩
  · rcases exists_placed hR hBound .top with ⟨there, _, hThere⟩
    exact hSingle _ hThere rfl
  · have hPad :=
      padded_of_mem_right hNodup hJoin hLeftJoin hHere hBelow
    cases hPadded.symm.trans hPad

end Tree

end Flwor

------------------------------------------------------------
-- Moved Bindings
------------------------------------------------------------

namespace Flwor

namespace Tree

variable {place : Place}
variable {i b : NodeId}
variable {k : Kind}
variable {p q : Payload}
variable {ps qs : Properties}
variable {cs rest : List Tree}
variable {feeder c d t u s : Tree}

/- A child of a node with the children in another order. -/
theorem settles_hopped
    (hStage : k.isStage)
    (hFeeder : feeder.kind.isStage) :
    Settles (.node b .letBind q ps
        (.node i k p qs (feeder :: cs) :: rest))
      (.node i k p qs
        (.node b .letBind q ps (feeder :: rest) :: cs)) := by
  have hBound : bound (.node i k p qs
        (.node b .letBind q ps (feeder :: rest) :: cs)) =
      bound (.node i k p qs (feeder :: cs)) := by
    cases k <;> rfl
  intro place x hX
  -- Each of the stages is at the place of the one it feeds.
  have hBelow (x : Placed)
      (hX : x ∈ placed place (.node i k p qs (feeder :: cs))) :
      x ∈ placed place (.node b .letBind q ps
        (.node i k p qs (feeder :: cs) :: rest)) := by
    refine mem_placed_iff.mpr (.inr ⟨0, _, rfl, ?_⟩)
    rwa [kind_node, Place.child_first _ _ hStage]
  refine ⟨x, ?_, .refl x⟩
  rcases mem_placed_iff.mp hX with
    ⟨name, hName, rfl⟩ | ⟨_ | index, c, hC, hX⟩
  · exact hBelow _ (mem_placed_iff.mpr
      (.inl ⟨name, hBound ▸ hName, rfl⟩))
  · cases hC
    rw [kind_node, Place.child_first _ _ rfl] at hX
    rcases mem_placed_iff.mp hX with
      ⟨name, hName, rfl⟩ | ⟨_ | index, c, hC, hX⟩
    · exact mem_placed_iff.mpr (.inl ⟨name, hName, rfl⟩)
    · cases hC
      refine hBelow x (mem_placed_iff.mpr
        (.inr ⟨0, feeder, rfl, ?_⟩))
      rwa [Place.child_first _ _ hFeeder] at hX ⊢
    · exact mem_placed_iff.mpr (.inr ⟨index + 1, c, hC, hX⟩)
  · exact hBelow x (mem_placed_iff.mpr
      (.inr ⟨index + 1, c, hC, hX⟩))

variable {name : String}
variable {reads : List String}

/- What a moved binding is put behind is fed by a stage. -/
theorem Inserts.isStage_feeder
    (hInserts :
      Inserts name reads b q ps feeder rest t u)
    (hTree : t.Shaped) :
    feeder.kind.isStage := by
  induction hInserts with
  | here hPasses =>
      have hKind := (passable_of_letsPass hPasses).1
      rw [kind_node] at hKind
      exact hTree.isStage_first (by tauto)
  | hop _ _ ih => exact ih (hTree.child List.mem_cons_self)

/- Wherever a binding hops to, no name is at a worse place. -/
theorem Inserts.settles
    (hInserts :
      Inserts name reads b q ps feeder rest t u)
    (hTree : t.Shaped) :
    Settles (.node b .letBind q ps (t :: rest)) u := by
  have hFeeder := hInserts.isStage_feeder hTree
  induction hInserts with
  | here hPasses =>
      refine settles_hopped ?_ hFeeder
      rcases (passable_of_letsPass hPasses).1 with hKind | hKind
      all_goals
        rw [kind_node] at hKind
        rw [hKind]
        rfl
  | @hop i k p qs c d cs hPasses hInserts ih =>
      have hKind : k = .forBind ∨ k = .letBind :=
        (passable_of_letsPass hPasses).1
      have hC : c.kind.isStage :=
        hTree.isStage_first (by tauto)
      refine (settles_hopped (by rcases hKind with rfl | rfl <;>
        rfl) hC).trans (settles_node ?_ ?_)
      · cases k <;> rfl
      · rintro (_ | index) e hE
        · cases hE
          refine ⟨_, rfl, ?_, ih (hTree.child (by simp))⟩
          rw [kind_node, hInserts.kind_eq, hC]
          rfl
        · exact ⟨e, hE, rfl, .refl e⟩

/- A binding is cut out, and its input takes its place. -/
theorem settles_cut
    (hShaped : t.Shaped)
    (hNodup : t.ids.Nodup)
    (hBind : .node b .letBind q ps (feeder :: rest) ∈
      t.subtrees)
    (hFeeder : feeder.kind.isStage) :
    t.Settles (t.mapAt b (fun _ => feeder)) := by
  have hSame {r : Tree} (hR : r ∈ t.subtrees)
      (hId : r.id = b) :
      r = .node b .letBind q ps (feeder :: rest) :=
    eq_of_id_eq hNodup hR hBind hId
  refine settles_mapAt hShaped ⟨fun r hR hId => ?_,
    fun r hR hId => ?_⟩ (fun r hR hId => ?_)
  · exact .inl (hSame hR hId ▸ rfl)
  · exact .inl ⟨hSame hR hId ▸ rfl, hFeeder⟩
  · rw [hSame hR hId]
    intro place x hX
    refine ⟨x, mem_placed_iff.mpr
      (.inr ⟨0, feeder, rfl, ?_⟩), .refl x⟩
    rwa [Place.child_first _ _ hFeeder]

/- What a stage binds does not depend on its expression. -/
theorem bound_owner
    {mid : List Tree}
    {slot slot' : Tree}
    (hShaped :
      (node i k p qs (feeder :: (mid ++ [slot]))).Shaped)
    (hKind : k = .finish ∨ k = .selection ∨ k = .letBind ∨
      k = .forBind)
    (hSlot : slot.kind ≠ .posVariable)
    (hSlot' : slot'.kind ≠ .posVariable)
    (input : Tree) :
    bound (.node i k p qs (input :: (mid ++ [slot']))) =
      bound (.node i k p qs (feeder :: (mid ++ [slot]))) := by
  rcases hKind with rfl | rfl | hKind
  · simp [bound]
  · simp [bound]
  have hMid : 0 < mid.length := by
    rcases hShaped.self with ⟨place, hRule⟩
    rcases hKind with rfl | rfl <;>
      simp [brokenRule?] at hRule <;>
      omega
  obtain ⟨c, rest, rfl⟩ := List.exists_cons_of_length_pos hMid
  exact bound_slot feeder input hSlot hSlot' hKind rfl

/- A binding comes to stand before a stage or an end. -/
theorem settles_outward
    {mid : List Tree}
    {slot slot' start : Tree}
    (hShaped :
      (node i k p qs (feeder :: (mid ++ [slot]))).Shaped)
    (hKind : k = .finish ∨ k = .selection ∨ k = .letBind ∨
      k = .forBind)
    (hBind : .node b .letBind q ps (start :: rest) ∈
      slot.subtrees)
    (hSettles : slot.Settles slot')
    (hStage : slot.kind.isStage = slot'.kind.isStage)
    (hSlot : slot.kind ≠ .posVariable)
    (hSlot' : slot'.kind ≠ .posVariable) :
    Settles (.node i k p qs (feeder :: (mid ++ [slot])))
      (.node i k p qs
        (.node b .letBind q ps (feeder :: rest)
          :: (mid ++ [slot']))) := by
  have hFeeder := hShaped.isStage_first hKind
  have hLast : (feeder :: (mid ++ [slot]))[mid.length + 1]? =
      some slot := by
    simp
  intro place x hX
  rcases exists_place hBind
      (place.child k qs (mid.length + 1) slot.kind) with
    ⟨there, hThere, hInSlot⟩
  have hWithin : place.Within there :=
    (Place.within_child k qs (mid.length + 1)
      slot.kind).trans hThere
  have hOld {y : Placed}
      (hY : y ∈ placed there
        (.node b .letBind q ps (start :: rest))) :
      y ∈ placed place
        (.node i k p qs (feeder :: (mid ++ [slot]))) :=
    mem_placed_iff.mpr
      (.inr ⟨mid.length + 1, slot, hLast, hInSlot y hY⟩)
  rcases mem_placed_iff.mp hX with
    ⟨name, hName, rfl⟩ | ⟨_ | index, d, hD, hX⟩
  · rw [bound_owner hShaped hKind hSlot hSlot'] at hName
    exact ⟨_, mem_placed_iff.mpr (.inl ⟨name, hName, rfl⟩),
      .refl _⟩
  · cases hD
    rw [kind_node, Place.child_first _ _ rfl] at hX
    rcases mem_placed_iff.mp hX with
      ⟨name, hName, rfl⟩ | ⟨_ | index, c, hC, hX⟩
    · exact ⟨⟨b, .letBind, name, there⟩, hOld
        (mem_placed_iff.mpr (.inl ⟨name, hName, rfl⟩)),
        rfl, rfl, rfl, hWithin⟩
    · cases hC
      rw [Place.child_first _ _ hFeeder] at hX
      refine ⟨x, mem_placed_iff.mpr
        (.inr ⟨0, feeder, rfl, ?_⟩), .refl x⟩
      rwa [Place.child_first _ _ hFeeder]
    · rcases placed_mono
          (hWithin.child .letBind ps (index + 1) c.kind) hX with
        ⟨y, hY, hXY⟩
      exact ⟨y, hOld (mem_placed_iff.mpr
        (.inr ⟨index + 1, c, hC, hY⟩)), hXY⟩
  · rw [List.getElem?_cons_succ] at hD
    rcases lt_or_ge index mid.length with hLt | hGe
    · rw [List.getElem?_append_left hLt] at hD
      refine ⟨x, mem_placed_iff.mpr
        (.inr ⟨index + 1, d, ?_, hX⟩), .refl x⟩
      rw [List.getElem?_cons_succ,
        List.getElem?_append_left hLt, hD]
    · rw [List.getElem?_append_right hGe,
        List.getElem?_singleton] at hD
      split at hD
      case isFalse => cases hD
      next hZero =>
      cases hD
      obtain rfl : index = mid.length := by omega
      have hSame :
          place.child k qs (mid.length + 1) slot'.kind =
            place.child k qs (mid.length + 1) slot.kind := by
        rw [Place.child, Place.child, hStage]
      rcases hSettles _ x (hSame ▸ hX) with ⟨y, hY, hXY⟩
      exact ⟨y, mem_placed_iff.mpr
        (.inr ⟨mid.length + 1, slot, hLast, hY⟩), hXY⟩

end Tree

end Flwor
