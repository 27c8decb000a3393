import Mathlib.Data.Finset.Card
import Flwor.Proofs.Projection
import Flwor.Proofs.Rewriting.Links
import Flwor.Proofs.Rewriting.Rules
import Flwor.Stage.Bindings

/-
  The nodes that can be reached from the root of a plan, and
  what it means for them to be well formed.

  With links in order each reachable node has one depth, and
  no depth is as great as the number of nodes.  So the tree
  of a plan, whose depth is bounded by that number, shows
  all reachable nodes, and the check of a plan is a rule on
  each of them.

  Key definitions include:
    * `Plan.At`
    * `Plan.Reaches`
    * `Plan.WellFormed`
    * `Plan.Shows`
    * `Tree.ReturnsNoStage`

  Key theorems include:
    * `Plan.At.lt_size`
    * `Plan.wellFormed_of_validate`
    * `Plan.WellFormed.validate`
-/

------------------------------------------------------------
-- Reachable Nodes
------------------------------------------------------------

namespace Flwor

namespace Plan

/- A node is reached from the root in a number of steps. -/
inductive At
    (plan : Plan) : Nat → NodeId → Prop where
  | root : plan.At 0 plan.root
  | child
      {n : Nat}
      {p c : NodeId}
      (hAt : plan.At n p)
      (hMem : c ∈ plan.children p) :
      plan.At (n + 1) c

/- A node is reached from the root. -/
def Reaches
    (plan : Plan)
    (id : NodeId) : Prop :=
  ∃ n, plan.At n id

variable {plan : Plan}
variable {n m : Nat}
variable {x p c : NodeId}

theorem Reaches.root :
    plan.Reaches plan.root :=
  ⟨0, .root⟩

theorem Reaches.child
    (hReach : plan.Reaches p)
    (hMem : c ∈ plan.children p) :
    plan.Reaches c := by
  rcases hReach with ⟨n, hAt⟩
  exact ⟨n + 1, hAt.child hMem⟩

/- The parent of a reached node is reached. -/
theorem At.parent
    (hLinked : plan.Linked)
    (hAt : plan.At n c)
    (hParent : plan.parent? c = some p) :
    ∃ m, n = m + 1 ∧ plan.At m p := by
  cases hAt with
  | root =>
      rw [hLinked.root] at hParent
      cases hParent
  | @child m q _ hQ hMem =>
      rw [hLinked.parent?_of_mem hMem] at hParent
      cases hParent
      exact ⟨m, rfl, hQ⟩

theorem Reaches.parent
    (hLinked : plan.Linked)
    (hReach : plan.Reaches c)
    (hParent : plan.parent? c = some p) :
    plan.Reaches p := by
  rcases hReach with ⟨n, hAt⟩
  rcases hAt.parent hLinked hParent with ⟨m, _, hP⟩
  exact ⟨m, hP⟩

/- A reached node has a parent, unless it is the root. -/
theorem Reaches.exists_parent
    (hLinked : plan.Linked)
    (hReach : plan.Reaches c)
    (hRoot : c ≠ plan.root) :
    ∃ p, plan.parent? c = some p ∧ plan.Reaches p := by
  rcases hReach with ⟨n, hAt⟩
  cases hAt with
  | root => exact (hRoot rfl).elim
  | child hP hMem =>
      exact ⟨_, hLinked.parent?_of_mem hMem, _, hP⟩

/- Every node has one depth. -/
theorem At.unique
    (hLinked : plan.Linked)
    (hFirst : plan.At n x)
    (hSecond : plan.At m x) :
    n = m := by
  induction hFirst generalizing m with
  | root =>
      cases hSecond with
      | root => rfl
      | child _ hMem =>
          have hParent := hLinked.parent?_of_mem hMem
          rw [hLinked.root] at hParent
          cases hParent
  | child hP hMem ih =>
      rcases hSecond.parent hLinked
          (hLinked.parent?_of_mem hMem) with
        ⟨k, rfl, hK⟩
      rw [ih hK]

/- A reached node is not its own parent. -/
theorem Reaches.parent?_ne
    (hLinked : plan.Linked)
    (hReach : plan.Reaches c)
    (hParent : plan.parent? c = some p) :
    p ≠ c := by
  rintro rfl
  rcases hReach with ⟨n, hAt⟩
  rcases hAt.parent hLinked hParent with ⟨m, hN, hP⟩
  have hSame := hAt.unique hLinked hP
  omega

theorem At.lt_arena
    (hLinked : plan.Linked)
    (hRoot : plan.root < plan.size)
    (hAt : plan.At n x) :
    x < plan.size := by
  cases hAt with
  | root => exact hRoot
  | child _ hMem => exact hLinked.lt_of_mem hMem

/- There are nodes of all depths above a node. -/
theorem At.exists_above
    (hAt : plan.At n x) :
    ∀ k ≤ n, ∃ y, plan.At k y := by
  induction hAt with
  | root =>
      intro k hK
      exact ⟨plan.root, (Nat.le_zero.mp hK).symm ▸ .root⟩
  | @child n p c hP hMem ih =>
      intro k hK
      rcases Nat.lt_or_eq_of_le hK with hLess | rfl
      · exact ih k (Nat.le_of_lt_succ hLess)
      · exact ⟨c, hP.child hMem⟩

/-
  The depth of a node is less than the number of nodes: the
  nodes above it have distinct depths.
-/
theorem At.lt_size
    (hLinked : plan.Linked)
    (hRoot : plan.root < plan.size)
    (hAt : plan.At n x) :
    n < plan.size := by
  have hAbove (k : Nat) :
      ∃ y, k ≤ n → plan.At k y := by
    by_cases hK : k ≤ n
    · rcases hAt.exists_above k hK with ⟨y, hY⟩
      exact ⟨y, fun _ => hY⟩
    · exact ⟨0, fun h => (hK h).elim⟩
  choose above hAt' using hAbove
  have hMaps : Set.MapsTo above (Finset.range (n + 1))
      (Finset.range plan.size) := by
    intro k hK
    rw [Finset.mem_coe, Finset.mem_range] at hK ⊢
    exact (hAt' k (by omega)).lt_arena hLinked hRoot
  have hInjective :
      Set.InjOn above (Finset.range (n + 1)) := by
    intro k hK l hL hEq
    rw [Finset.mem_coe, Finset.mem_range] at hK hL
    have hThere := hAt' l (by omega)
    rw [← hEq] at hThere
    exact (hAt' k (by omega)).unique hLinked hThere
  have hCard :=
    Finset.card_le_card_of_injOn above hMaps hInjective
  rw [Finset.card_range, Finset.card_range] at hCard
  exact hCard

end Plan

end Flwor

------------------------------------------------------------
-- Trees of an Arena
------------------------------------------------------------

namespace Flwor

namespace Plan

variable (plan : Plan)

@[simp] theorem id_treeWithin
    (depth : Nat)
    (id : NodeId) :
    (plan.treeWithin depth id).id = id := by
  cases depth <;> rfl

@[simp] theorem kind_treeWithin
    (depth : Nat)
    (id : NodeId) :
    (plan.treeWithin depth id).kind = plan.kind id := by
  cases depth <;> rfl

@[simp] theorem payload_treeWithin
    (depth : Nat)
    (id : NodeId) :
    (plan.treeWithin depth id).payload =
      plan.payload id := by
  cases depth <;> rfl

theorem children_treeWithin
    (depth : Nat)
    (id : NodeId) :
    (plan.treeWithin (depth + 1) id).children =
      (plan.children id).map (plan.treeWithin depth) :=
  rfl

/- A tree that stands for a node, down to some depth. -/
def Shows
    (t : Tree) : Prop :=
  ∃ depth, t = plan.treeWithin depth t.id

theorem shows_tree
    (id : NodeId) :
    plan.Shows (plan.tree id) :=
  ⟨plan.size, by rw [tree, id_treeWithin]⟩

@[simp] theorem id_tree
    (id : NodeId) :
    (plan.tree id).id = id :=
  id_treeWithin ..

variable {plan : Plan}

namespace Shows

variable {t c : Tree}

theorem kind_eq
    (hShows : plan.Shows t) :
    t.kind = plan.kind t.id := by
  rcases hShows with ⟨depth, hT⟩
  rw [hT, kind_treeWithin, id_treeWithin]

/- A child of a tree shows the child of the node. -/
theorem child?_eq
    (hShows : plan.Shows t)
    {index : Nat}
    (hChild : t.children[index]? = some c) :
    plan.Shows c ∧
      plan.child? t.id index = some c.id := by
  rcases hShows with ⟨depth, hT⟩
  generalize t.id = id at hT ⊢
  subst hT
  rcases depth with _ | depth
  · cases hChild
  · rw [children_treeWithin, List.getElem?_map,
      Option.map_eq_some_iff] at hChild
    rcases hChild with ⟨d, hD, rfl⟩
    rw [id_treeWithin]
    exact ⟨⟨depth, by rw [id_treeWithin]⟩, hD⟩

theorem child
    (hShows : plan.Shows t)
    (hChild : c ∈ t.children) :
    plan.Shows c ∧ c.id ∈ plan.children t.id := by
  rcases List.mem_iff_getElem?.mp hChild with ⟨index, hC⟩
  rcases hShows.child?_eq hC with ⟨hShowsC, hHere⟩
  exact ⟨hShowsC, mem_children_of_child? hHere⟩

/- As many children as the node has, at most. -/
theorem length_children_le
    (hShows : plan.Shows t) :
    t.children.length ≤ (plan.children t.id).length := by
  rcases hShows with ⟨depth, hT⟩
  generalize t.id = id at hT ⊢
  subst hT
  rcases depth with _ | depth
  · exact Nat.zero_le _
  · rw [children_treeWithin, List.length_map]

/- The stages of a chain are reached, one below the other. -/
theorem stages
    (hShows : plan.Shows t)
    {n : Nat}
    (hAt : plan.At n t.id) :
    ∀ s ∈ t.stages, plan.Shows s ∧
      ∃ m, n ≤ m ∧ plan.At m s.id := by
  induction t using Tree.induction generalizing n with
  | node i k p ps cs ih =>
      intro s hS
      rw [Tree.stages, List.mem_cons] at hS
      rcases hS with rfl | hS
      · exact ⟨hShows, n, Nat.le_refl n, hAt⟩
      · split at hS
        · cases hS
        · rcases cs with _ | ⟨c, rest⟩
          · cases hS
          · have hC := hShows.child
              (c := c) List.mem_cons_self
            rcases ih c List.mem_cons_self hC.1
                (hAt.child hC.2) s hS with
              ⟨hShowsS, m, hDepth, hAtS⟩
            exact ⟨hShowsS, m, by omega, hAtS⟩

/- All stages but the last lie below it. -/
theorem stages_drop
    (hShows : plan.Shows t)
    {n : Nat}
    (hAt : plan.At n t.id) :
    ∀ s ∈ t.stages.drop 1, plan.Shows s ∧
      ∃ m, n < m ∧ plan.At m s.id := by
  rcases t with ⟨i, k, p, ps, cs⟩
  intro s hS
  rw [Tree.stages, List.drop_one, List.tail_cons] at hS
  split at hS
  · cases hS
  · rcases cs with _ | ⟨c, rest⟩
    · cases hS
    · have hC := hShows.child (c := c) List.mem_cons_self
      rcases hC.1.stages (hAt.child hC.2) s hS with
        ⟨hShowsS, m, hDepth, hAtS⟩
      exact ⟨hShowsS, m, hDepth, hAtS⟩

end Shows

end Plan

end Flwor

------------------------------------------------------------
-- Well-Formed Plans
------------------------------------------------------------

namespace Flwor

namespace Plan

/- The kinds of the children of a node. -/
def childKinds
    (plan : Plan)
    (id : NodeId) : List Kind :=
  (plan.children id).map plan.kind

/- The rules of a node in its arena. -/
def Proper
    (plan : Plan)
    (id : NodeId) : Prop :=
  (plan.kind id).Proper (plan.payload id)
    (plan.childKinds id)

/-
  A plan whose links are in order and whose reachable nodes
  keep their rules; its root is an expression.
-/
structure WellFormed
    (plan : Plan) : Prop where
  linked : plan.Linked
  root : (plan.kind plan.root).isPlain
  proper : ∀ id, plan.Reaches id → plan.Proper id

variable {plan : Plan}

/- A root that keeps its rules lies in the arena. -/
theorem root_lt_size
    (hProper : plan.Proper plan.root) :
    plan.root < plan.size := by
  by_contra hSize
  have hNode := node_of_size_le (Nat.le_of_not_lt hSize)
  have hAdmits := hProper.admits
  have hKind : plan.kind plan.root = .pipeExpr := by
    rw [kind, hNode]
    rfl
  have hChildren : plan.childKinds plan.root = [] := by
    rw [childKinds, children, hNode]
    rfl
  rw [hKind, hChildren] at hAdmits
  cases hAdmits

theorem WellFormed.root_lt
    (hFormed : plan.WellFormed) :
    plan.root < plan.size :=
  root_lt_size (hFormed.proper _ .root)

theorem WellFormed.lt_of_reaches
    (hFormed : plan.WellFormed)
    {id : NodeId}
    (hReach : plan.Reaches id) :
    id < plan.size := by
  rcases hReach with ⟨n, hAt⟩
  exact hAt.lt_arena hFormed.linked hFormed.root_lt

theorem SameLinks.at_iff
    {before after : Plan}
    (hSame : before.SameLinks after)
    {n : Nat}
    {id : NodeId} :
    after.At n id ↔ before.At n id := by
  constructor
  · intro hAt
    induction hAt with
    | root =>
        rw [hSame.root]
        exact .root
    | child _ hMem ih =>
        rw [hSame.children] at hMem
        exact ih.child hMem
  · intro hAt
    induction hAt with
    | root =>
        rw [← hSame.root]
        exact .root
    | child _ hMem ih =>
        rw [← hSame.children] at hMem
        exact ih.child hMem

theorem SameLinks.reaches_iff
    {before after : Plan}
    (hSame : before.SameLinks after)
    {id : NodeId} :
    after.Reaches id ↔ before.Reaches id := by
  simp only [Reaches, hSame.at_iff]

theorem SameLinks.childKinds_eq
    {before after : Plan}
    (hSame : before.SameLinks after)
    (id : NodeId) :
    after.childKinds id = before.childKinds id := by
  rw [childKinds, childKinds, hSame.children]
  exact List.map_congr_left (fun c _ => hSame.kind c)

theorem SameLinks.proper_iff
    {before after : Plan}
    (hSame : before.SameLinks after)
    {id : NodeId} :
    after.Proper id ↔ before.Proper id := by
  rw [Proper, Proper, hSame.kind, hSame.payload,
    hSame.childKinds_eq]

theorem SameLinks.wellFormed
    {before after : Plan}
    (hSame : before.SameLinks after)
    (hFormed : before.WellFormed) :
    after.WellFormed := by
  refine ⟨hSame.linked hFormed.linked, ?_, fun id hId => ?_⟩
  · rw [hSame.root, hSame.kind]
    exact hFormed.root
  · rw [hSame.proper_iff]
    exact hFormed.proper id (hSame.reaches_iff.mp hId)

end Plan

end Flwor

------------------------------------------------------------
-- The Check of a Plan
------------------------------------------------------------

namespace Flwor

namespace Tree

/- The check of several trees goes through their places. -/
theorem firstDefectAll?_eq_none_iff
    {site : Site}
    {ts : List Tree} :
    firstDefectAll? site ts = none ↔
      ∀ (j : Nat) (t : Tree), ts[j]? = some t →
        t.firstDefect?
          (some { site with index := site.index + j }) =
            none := by
  induction ts generalizing site with
  | nil => simp [firstDefectAll?]
  | cons t rest ih =>
      rw [firstDefectAll?]
      constructor
      · intro hNone
        cases hFirst : t.firstDefect? (some site) with
        | some d =>
            rw [hFirst] at hNone
            cases hNone
        | none =>
            rw [hFirst] at hNone
            intro j s hS
            rcases j with _ | j
            · cases hS
              exact hFirst
            · have hRest := ih.mp hNone j s hS
              rw [Nat.add_assoc, Nat.add_comm 1 j] at hRest
              exact hRest
      · intro hAll
        have hFirst : t.firstDefect? (some site) = none :=
          hAll 0 t rfl
        rw [hFirst]
        refine ih.mpr (fun j s hS => ?_)
        have hRest := hAll (j + 1) s hS
        rw [Nat.add_comm j 1, ← Nat.add_assoc] at hRest
        exact hRest

theorem firstDefect?_eq_none_iff
    {site : Option Site}
    {t : Tree} :
    t.firstDefect? site = none ↔
      t.ownDefect? site = none ∧
        ∀ (j : Nat) (c : Tree), t.children[j]? = some c →
          c.firstDefect? (some
            ⟨t.kind, t.id, j, t.children.length⟩) =
              none := by
  rcases t with ⟨i, k, p, ps, cs⟩
  rw [firstDefect?]
  cases hOwn : ownDefect? site (.node i k p ps cs) with
  | some d => simp
  | none =>
      simp only [true_and, firstDefectAll?_eq_none_iff,
        Nat.zero_add]
      rfl

/- The defects of one node, taken apart. -/
theorem ownDefect?_eq_none_iff
    {site : Option Site}
    {t : Tree} :
    t.ownDefect? site = none ↔
      t.brokenRule? site = none ∧
        ∀ s, site = some s → t.kind.isStage →
          s.readsRows := by
  unfold ownDefect?
  cases hRule : t.brokenRule? site with
  | some rule => simp
  | none =>
      cases site with
      | none => simp
      | some s =>
          simp only [true_and, Option.some.injEq,
            forall_eq']
          cases t.kind.isStage <;> cases s.readsRows <;> simp

/-
  No stage is the root of a tree, and none stands where a
  pipeline returns its result.
-/
def ReturnsNoStage
    (t : Tree) : Prop :=
  t.kind.isStage = false ∧
    ∀ s ∈ t.subtrees, s.kind = .finish →
      ∀ c ∈ s.children.drop 1, c.kind.isStage = false

instance
    (t : Tree) :
    Decidable t.ReturnsNoStage :=
  inferInstanceAs (Decidable (t.kind.isStage = false ∧
    ∀ s ∈ t.subtrees, s.kind = .finish →
      ∀ c ∈ s.children.drop 1, c.kind.isStage = false))

end Tree

namespace Plan

variable {plan : Plan}
variable {n depth : Nat}
variable {id : NodeId}

/-
  Each reached node is checked somewhere, with enough depth
  left to see its children.
-/
theorem checked_of_at
    (hLinked : plan.Linked)
    (hRoot : plan.root < plan.size)
    (hNone : plan.rootTree.firstDefect? none = none)
    (hAt : plan.At n id) :
    ∃ site depth, plan.size = n + (depth + 1) ∧
      plan.treeWithin (depth + 1) id ∈
        plan.rootTree.subtrees ∧
      (plan.treeWithin (depth + 1) id).firstDefect? site =
        none := by
  induction hAt with
  | root =>
      have hSize : plan.size - 1 + 1 = plan.size :=
        Nat.sub_add_cancel (Nat.zero_lt_of_lt hRoot)
      refine ⟨none, plan.size - 1,
        (hSize.symm.trans (Nat.zero_add _).symm), ?_⟩
      rw [hSize]
      exact ⟨Tree.mem_subtrees_self _, hNone⟩
  | @child n p c hP hMem ih =>
      rcases ih with ⟨site, depth, hSize, hSub, hTree⟩
      have hDepth := (hP.child hMem).lt_size hLinked hRoot
      rcases depth with _ | depth
      · omega
      · rw [Tree.firstDefect?_eq_none_iff] at hTree
        rcases List.mem_iff_getElem?.mp hMem with ⟨j, hJ⟩
        have hChild :
            (plan.treeWithin (depth + 2) p).children[j]? =
              some (plan.treeWithin (depth + 1) c) := by
          rw [children_treeWithin, List.getElem?_map, hJ]
          rfl
        refine ⟨_, depth, by omega, ?_, hTree.2 j _ hChild⟩
        refine Tree.mem_subtrees_trans ?_ hSub
        exact Tree.mem_subtrees_of_child
          (List.mem_of_getElem? hChild)
          (Tree.mem_subtrees_self _)

theorem map_kind_children
    (plan : Plan)
    (depth : Nat)
    (id : NodeId) :
    (plan.treeWithin (depth + 1) id).children.map
        Tree.kind =
      plan.childKinds id := by
  rw [children_treeWithin, childKinds, List.map_map]
  exact List.map_congr_left
    (fun c _ => kind_treeWithin plan depth c)

/- The check has found nothing. -/
theorem firstDefect?_of_validate
    (hValid : plan.validate = .ok ()) :
    plan.rootTree.firstDefect? none = none := by
  rw [validate] at hValid
  cases hDefect : plan.rootTree.firstDefect? none with
  | none => rfl
  | some d =>
      rw [hDefect] at hValid
      cases hValid

theorem root_lt_of_validate
    (hValid : plan.validate = .ok ()) :
    plan.root < plan.size := by
  have hNone := firstDefect?_of_validate hValid
  apply lt_size_of_shaped (Tree.shaped_of_valid hNone)
  rw [rootTree, tree]
  cases plan.size <;> simp [treeWithin, Tree.ids]

/- What the check of a node finds about its children. -/
theorem rules_of_checked
    {site : Option Site}
    (hTree : (plan.treeWithin (depth + 1) id).firstDefect?
      site = none) :
    (plan.kind id).Admits (plan.payload id)
        (plan.childKinds id) ∧
      (plan.kind id).Places id (plan.childKinds id) := by
  rw [Tree.firstDefect?_eq_none_iff,
    Tree.ownDefect?_eq_none_iff,
    Tree.brokenRule?_eq_none_iff, kind_treeWithin,
    payload_treeWithin, id_treeWithin,
    map_kind_children] at hTree
  rcases hTree with ⟨⟨⟨hAdmits, _⟩, _⟩, hChildren⟩
  refine ⟨hAdmits, ?_⟩
  intro j k hK
  rw [childKinds, List.getElem?_map,
    Option.map_eq_some_iff] at hK
  rcases hK with ⟨c, hC, rfl⟩
  have hChild := hChildren j (plan.treeWithin depth c)
    (by
      rw [children_treeWithin, List.getElem?_map, hC]
      rfl)
  rw [Tree.firstDefect?_eq_none_iff,
    Tree.ownDefect?_eq_none_iff,
    Tree.brokenRule?_eq_none_iff, kind_treeWithin,
    children_treeWithin, List.length_map] at hChild
  rcases hChild with ⟨⟨⟨_, hFinish⟩, hReads⟩, _⟩
  refine ⟨fun hKind => ?_, fun hStage => ?_⟩
  · simpa using hFinish hKind
  · rw [childKinds, List.length_map]
    exact hReads _ rfl hStage

/- What passes the check keeps the rules. -/
theorem wellFormed_of_validate
    (hLinked : plan.Linked)
    (hValid : plan.validate = .ok ())
    (hReturns : plan.rootTree.ReturnsNoStage) :
    plan.WellFormed := by
  have hNone := firstDefect?_of_validate hValid
  have hRoot := root_lt_of_validate hValid
  have hRootKind : plan.rootTree.kind =
      plan.kind plan.root := by
    rw [rootTree, tree, kind_treeWithin]
  refine ⟨hLinked, ?_, ?_⟩
  · rw [Kind.isPlain_iff, ← hRootKind]
    refine ⟨hReturns.1, fun hFinish => ?_⟩
    rw [Tree.firstDefect?_eq_none_iff,
      Tree.ownDefect?_eq_none_iff,
      Tree.brokenRule?_eq_none_iff] at hNone
    cases hNone.1.1.2 hFinish
  · rintro id ⟨n, hAt⟩
    rcases checked_of_at hLinked hRoot hNone hAt with
      ⟨site, depth, _, hSub, hTree⟩
    rcases rules_of_checked hTree with ⟨hAdmits, hPlaces⟩
    refine .of_places hAdmits hPlaces ?_
    intro hFinish k hK
    have hKinds := hReturns.2 _ hSub
    rw [kind_treeWithin] at hKinds
    rw [← map_kind_children plan depth, ← List.map_drop]
      at hK
    rcases List.mem_map.mp hK with ⟨c, hC, rfl⟩
    exact hKinds hFinish c hC

/- A node that keeps the rules passes the check. -/
theorem WellFormed.firstDefect?_eq_none
    (hFormed : plan.WellFormed)
    (hAt : plan.At n id)
    (hDepth : plan.size ≤ n + depth)
    {site : Option Site}
    (hFinish : plan.kind id = .finish →
      site.map Site.kind = some .pipeExpr)
    (hStage : ∀ s, site = some s →
      (plan.kind id).isStage → s.readsRows) :
    (plan.treeWithin depth id).firstDefect? site = none := by
  have hBound := hAt.lt_size hFormed.linked hFormed.root_lt
  induction depth generalizing n id site with
  | zero => omega
  | succ depth ih =>
      have hProper := hFormed.proper id ⟨n, hAt⟩
      rw [Tree.firstDefect?_eq_none_iff,
        Tree.ownDefect?_eq_none_iff,
        Tree.brokenRule?_eq_none_iff, kind_treeWithin,
        payload_treeWithin, map_kind_children]
      refine ⟨⟨⟨hProper.admits, hFinish⟩, hStage⟩, ?_⟩
      intro j t hT
      rw [children_treeWithin, List.getElem?_map,
        Option.map_eq_some_iff] at hT
      rcases hT with ⟨c, hC, rfl⟩
      have hMem := List.mem_of_getElem? hC
      have hPlaces := hProper.places id j (plan.kind c)
        (by
          rw [childKinds, List.getElem?_map, hC]
          rfl)
      rw [childKinds, List.length_map] at hPlaces
      have hAtC := hAt.child hMem
      refine ih hAtC (by omega) (fun hKind => ?_) ?_
        (hAtC.lt_size hFormed.linked hFormed.root_lt)
      · rw [Option.map_some, hPlaces.1 hKind]
      · rintro s ⟨⟩ hKind
        rw [children_treeWithin, List.length_map,
          id_treeWithin]
        exact hPlaces.2 hKind

/- A well-formed plan passes the check. -/
theorem WellFormed.validate
    (hFormed : plan.WellFormed) :
    plan.validate = .ok () := by
  have hNone : plan.rootTree.firstDefect? none = none := by
    refine hFormed.firstDefect?_eq_none .root (by omega)
      (fun hFinish => ?_) (by simp)
    have hRoot := (Kind.isPlain_iff _).mp hFormed.root
    exact (hRoot.2 hFinish).elim
  rw [Plan.validate, hNone]

end Plan

end Flwor

------------------------------------------------------------
-- Pipelines of a Plan
------------------------------------------------------------

namespace Flwor

namespace Plan

variable {plan : Plan}
variable {id : NodeId}

/- A stage that is reached has a consumer. -/
theorem WellFormed.exists_consumer
    (hFormed : plan.WellFormed)
    (hReach : plan.Reaches id)
    (hStage : (plan.kind id).isStage) :
    ∃ consumer, plan.parent? id = some consumer ∧
      plan.Reaches consumer ∧ consumer ≠ id := by
  have hRoot : id ≠ plan.root := by
    rintro rfl
    have hPlain := (Kind.isPlain_iff _).mp hFormed.root
    rw [hPlain.1] at hStage
    cases hStage
  rcases hReach.exists_parent hFormed.linked hRoot with
    ⟨consumer, hParent, hConsumer⟩
  exact ⟨consumer, hParent, hConsumer,
    hReach.parent?_ne hFormed.linked hParent⟩

/- What reads rows is fed by a stage. -/
theorem WellFormed.exists_feeder
    (hFormed : plan.WellFormed)
    (hReach : plan.Reaches id)
    (hReads : plan.kind id = .finish ∨
      (plan.kind id).isStage)
    (hStart : plan.kind id ≠ .start) :
    ∃ feeder, plan.child? id 0 = some feeder ∧
      (plan.kind feeder).isStage := by
  rcases (hFormed.proper id hReach).admits.head hReads
      hStart with
    ⟨s, rest, hKinds, hStage⟩
  rw [childKinds, List.map_eq_cons_iff] at hKinds
  rcases hKinds with ⟨feeder, cs, hChildren, rfl, _⟩
  exact ⟨feeder, by rw [child?, hChildren]; rfl, hStage⟩

theorem WellFormed.isStage_feeder
    (hFormed : plan.WellFormed)
    (hReach : plan.Reaches id)
    (hReads : plan.kind id = .finish ∨
      (plan.kind id).isStage)
    (hStart : plan.kind id ≠ .start)
    {feeder : NodeId}
    (hFeeder : plan.child? id 0 = some feeder) :
    (plan.kind feeder).isStage := by
  rcases hFormed.exists_feeder hReach hReads hStart with
    ⟨first, hFirst, hStage⟩
  rw [hFeeder] at hFirst
  cases hFirst
  exact hStage

/- Stages are told from other nodes by their kind. -/
theorem ne_of_isStage
    {x y : NodeId}
    (hX : (plan.kind x).isStage)
    (hY : (plan.kind y).isStage = false) :
    x ≠ y := by
  rintro rfl
  rw [hX] at hY
  cases hY

end Plan

end Flwor
