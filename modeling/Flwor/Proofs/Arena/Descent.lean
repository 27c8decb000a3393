import Mathlib.Data.Finset.Card
import Mathlib.Data.List.Nodup
import Flwor.Proofs.Arena.Calls

/-
  Going down from a node of an arena.

  A list of the nodes below a node is made with a stack, and
  its tree by recursion.  Neither bounds the depth, so both
  come to an end only if no node that they meet lies below
  itself; then they are the list and the tree that the
  bounded recursion gives.

  This is so below the root of every plan that calls lead
  to: the way up from a node that is reached is the only one
  and ends at the root, which has no parent.

  Key definitions include:
    * `Plan.Under`, `Plan.Beneath`
    * `Plan.Unfolds`
    * `Plan.Lists`

  Key theorems include:
    * `Plan.unfolds_tree`
    * `Plan.Unfolds.lists`
    * `Plan.Unfolds.nodup_ids`
    * `Plan.Built.tree_below_root`
-/

------------------------------------------------------------
-- Ways Up
------------------------------------------------------------

namespace Flwor

namespace Plan

/- From a node to its parent. -/
def Up
    (plan : Plan)
    (c p : NodeId) : Prop :=
  plan.parent? c = some p

/- A node is another one or lies somewhere below it. -/
def Under
    (plan : Plan) : NodeId → NodeId → Prop :=
  Relation.ReflTransGen plan.Up

/- A node lies below another one. -/
def Beneath
    (plan : Plan) : NodeId → NodeId → Prop :=
  Relation.TransGen plan.Up

variable {plan : Plan}
variable {x y z p c d : NodeId}

theorem Linked.up_iff
    (hLinked : plan.Linked) :
    plan.Up c p ↔ c ∈ plan.children p :=
  (hLinked.mem_children_iff p c).symm

/- There is one way up. -/
theorem up_unique :
    Relator.RightUnique plan.Up := by
  intro c p q hP hQ
  exact Option.some.inj (hP.symm.trans hQ)

/- Only nodes of the arena have others below them. -/
theorem Linked.lt_of_below
    (hLinked : plan.Linked)
    (hBelow : plan.Beneath y x) :
    x < plan.size := by
  rcases Relation.TransGen.tail'_iff.mp hBelow with
    ⟨c, _, hUp⟩
  exact lt_size_of_mem_children (hLinked.up_iff.mp hUp)

/-
  Of two children of a node none lies below the other one,
  unless their parent lies below itself.
-/
theorem below_self_of_siblings
    (hC : plan.Up c p)
    (hD : plan.Up d p)
    (hNe : c ≠ d)
    (hUnder : plan.Under c d) :
    plan.Beneath p p := by
  rcases Relation.ReflTransGen.cases_head hUnder with
    rfl | ⟨q, hUp, hQ⟩
  · exact (hNe rfl).elim
  · rw [up_unique hUp hC] at hQ
    exact Relation.TransGen.tail' hQ hD

/- What lies under two nodes puts one under the other. -/
theorem under_total
    (hX : plan.Under z x)
    (hY : plan.Under z y) :
    plan.Under x y ∨ plan.Under y x :=
  Relation.ReflTransGen.total_of_right_unique up_unique hX hY

/- Nothing that lies under the root lies below itself. -/
theorem Linked.not_below_self
    (hLinked : plan.Linked)
    (hUnder : plan.Under x plan.root) :
    ¬ plan.Beneath x x := by
  induction hUnder using
      Relation.ReflTransGen.head_induction_on with
  | refl =>
      intro hBelow
      rcases Relation.TransGen.head'_iff.mp hBelow with
        ⟨p, hUp, _⟩
      rw [Up, hLinked.root] at hUp
      cases hUp
  | head hUp _ ih =>
      intro hBelow
      rcases Relation.TransGen.head'_iff.mp hBelow with
        ⟨p, hUp', hUnder'⟩
      rw [up_unique hUp' hUp] at hUnder'
      exact ih (Relation.TransGen.tail' hUnder' hUp)

/- To be reached is to lie under the root. -/
theorem Linked.reaches_iff_under
    (hLinked : plan.Linked) :
    plan.Reaches x ↔ plan.Under x plan.root := by
  constructor
  · rintro ⟨n, hAt⟩
    induction hAt with
    | root => exact .refl
    | child _ hMem ih =>
        exact .head (hLinked.up_iff.mpr hMem) ih
  · intro hUnder
    induction hUnder using
        Relation.ReflTransGen.head_induction_on with
    | refl => exact .root
    | head hUp _ ih =>
        exact ih.child (hLinked.up_iff.mp hUp)

end Plan

end Flwor

------------------------------------------------------------
-- Recursion and Stack
------------------------------------------------------------

namespace Flwor

namespace Plan

/-
  The tree of a node by recursion.  It exists only if the
  recursion comes to an end.
-/
inductive Unfolds
    (plan : Plan) : NodeId → Tree → Prop where
  | node
      (id : NodeId)
      (below : NodeId → Tree)
      (hBelow : ∀ c ∈ plan.children id,
        Unfolds plan c (below c)) :
      Unfolds plan id
        (.node id (plan.kind id) (plan.payload id)
          (plan.properties id)
          ((plan.children id).map below))

/-
  The nodes that are listed from a stack: the top of it, and
  then what is listed with its children on top instead.  The
  list exists only if the stack becomes empty.
-/
inductive Lists
    (plan : Plan) : List NodeId → List NodeId → Prop where
  | done : Lists plan [] []
  | visit
      {id : NodeId}
      {stack listed : List NodeId}
      (hRest :
        Lists plan (plan.children id ++ stack) listed) :
      Lists plan (id :: stack) (id :: listed)

variable {plan : Plan}
variable {x y : NodeId}
variable {t : Tree}

theorem ids_node_map
    (below : NodeId → Tree)
    (id : NodeId)
    (k : Kind)
    (p : Payload)
    (ps : Properties)
    (cs : List NodeId) :
    (Tree.node id k p ps (cs.map below)).ids =
      id :: cs.flatMap (fun c => (below c).ids) := by
  have hAll (cs : List NodeId) :
      Tree.idsAll (cs.map below) =
        cs.flatMap (fun c => (below c).ids) := by
    induction cs with
    | nil => rfl
    | cons c rest ih =>
        rw [List.map_cons, Tree.idsAll, ih,
          List.flatMap_cons]
  rw [Tree.ids, hAll]

/- The stack lists what the recursion meets, in its order. -/
theorem Unfolds.lists_append
    (hUnfolds : plan.Unfolds x t)
    {stack listed : List NodeId}
    (hRest : plan.Lists stack listed) :
    plan.Lists (x :: stack) (t.ids ++ listed) := by
  induction hUnfolds generalizing stack listed with
  | node id below hBelow ih =>
      have hAll
          (cs : List NodeId)
          (hCs : ∀ c ∈ cs, c ∈ plan.children id) :
          plan.Lists (cs ++ stack)
            (cs.flatMap (fun c => (below c).ids) ++
              listed) := by
        induction cs with
        | nil => exact hRest
        | cons c cs ihCs =>
            rw [List.forall_mem_cons] at hCs
            rw [List.flatMap_cons, List.append_assoc]
            exact ih c hCs.1 (ihCs hCs.2)
      rw [ids_node_map]
      exact .visit (hAll _ (fun _ hC => hC))

theorem Unfolds.lists
    (hUnfolds : plan.Unfolds x t) :
    plan.Lists [x] t.ids := by
  have hLists := hUnfolds.lists_append .done
  rwa [List.append_nil] at hLists

/- The recursion meets what lies under the node. -/
theorem Unfolds.mem_ids_iff
    (hLinked : plan.Linked)
    (hUnfolds : plan.Unfolds x t) :
    y ∈ t.ids ↔ plan.Under y x := by
  induction hUnfolds with
  | node id below hBelow ih =>
      rw [ids_node_map, List.mem_cons, List.mem_flatMap]
      constructor
      · rintro (rfl | ⟨c, hC, hMem⟩)
        · exact .refl
        · exact ((ih c hC).mp hMem).tail
            (hLinked.up_iff.mpr hC)
      · intro hUnder
        rcases Relation.ReflTransGen.cases_tail hUnder with
          hEq | ⟨c, hC, hUp⟩
        · exact .inl hEq.symm
        · have hMem := hLinked.up_iff.mp hUp
          exact .inr ⟨c, hMem, (ih c hMem).mpr hC⟩

/- It meets no node twice. -/
theorem Unfolds.nodup_ids
    (hLinked : plan.Linked)
    (hUnfolds : plan.Unfolds x t)
    (hFree : ∀ y, plan.Under y x → ¬ plan.Beneath y y) :
    t.ids.Nodup := by
  induction hUnfolds with
  | node id below hBelow ih =>
      have hUp (c : NodeId) (hC : c ∈ plan.children id) :
          plan.Up c id :=
        hLinked.up_iff.mpr hC
      have hHere := hFree id .refl
      have hUnder
          (c y : NodeId)
          (hC : c ∈ plan.children id)
          (hY : y ∈ (below c).ids) :
          plan.Under y c :=
        ((hBelow c hC).mem_ids_iff hLinked).mp hY
      rw [ids_node_map, List.nodup_cons, List.nodup_flatMap]
      refine ⟨?_, fun c hC => ih c hC ?_, ?_⟩
      · intro hMem
        rcases List.mem_flatMap.mp hMem with ⟨c, hC, hId⟩
        exact hHere (Relation.TransGen.tail'
          (hUnder c id hC hId) (hUp c hC))
      · intro y hY
        exact hFree y (hY.tail (hUp c hC))
      · apply (hLinked.nodup id).pairwise_of_forall_ne
        intro c hC d hD hNe y hYC hYD
        rcases under_total (hUnder c y hC hYC)
            (hUnder d y hD hYD) with hCD | hDC
        · exact hHere (below_self_of_siblings (hUp c hC)
            (hUp d hD) hNe hCD)
        · exact hHere (below_self_of_siblings (hUp d hD)
            (hUp c hC) hNe.symm hDC)

end Plan

end Flwor

------------------------------------------------------------
-- Bounded Depth
------------------------------------------------------------

namespace Flwor

namespace Plan

/- So many nodes lie above a node. -/
def Deep
    (plan : Plan)
    (n : Nat)
    (x : NodeId) : Prop :=
  ∃ above : Finset NodeId, above.card = n ∧
    ∀ y ∈ above, plan.Beneath x y

variable {plan : Plan}
variable {n depth : Nat}
variable {x p c : NodeId}

/- One more lies above a child. -/
theorem Deep.child
    (hDeep : plan.Deep n p)
    (hFree : ¬ plan.Beneath p p)
    (hUp : plan.Up c p) :
    plan.Deep (n + 1) c := by
  rcases hDeep with ⟨above, hCard, hAbove⟩
  have hNew : p ∉ above := by
    intro hMem
    exact hFree (hAbove p hMem)
  refine ⟨insert p above, ?_, ?_⟩
  · rw [Finset.card_insert_of_notMem hNew, hCard]
  · intro y hY
    rcases Finset.mem_insert.mp hY with rfl | hY
    · exact .single hUp
    · exact .head hUp (hAbove y hY)

/- Not all nodes of the arena lie above one of them. -/
theorem Deep.lt_size
    (hLinked : plan.Linked)
    (hDeep : plan.Deep n x)
    (hFree : ¬ plan.Beneath x x)
    (hX : x < plan.size) :
    n < plan.size := by
  rcases hDeep with ⟨above, hCard, hAbove⟩
  have hNew : x ∉ above := by
    intro hMem
    exact hFree (hAbove x hMem)
  have hSubset :
      insert x above ⊆ Finset.range plan.size := by
    intro y hY
    rw [Finset.mem_range]
    rcases Finset.mem_insert.mp hY with rfl | hY
    · exact hX
    · exact hLinked.lt_of_below (hAbove y hY)
  have hLe := Finset.card_le_card hSubset
  rw [Finset.card_insert_of_notMem hNew, hCard,
    Finset.card_range] at hLe
  exact hLe

/- A recursion as deep as the arena is large is complete. -/
theorem unfolds_treeWithin
    (hLinked : plan.Linked)
    (hFree : ∀ y, plan.Under y x → ¬ plan.Beneath y y)
    (hDeep : plan.Deep n x)
    (hDepth : plan.size ≤ n + depth) :
    plan.Unfolds x (plan.treeWithin depth x) := by
  induction depth generalizing n x with
  | zero =>
      have hSize : ¬ x < plan.size := by
        intro hX
        have hLt := hDeep.lt_size hLinked (hFree x .refl) hX
        omega
      have hNone : plan.children x = [] := by
        rw [children, node_of_size_le (Nat.not_lt.mp hSize)]
        rfl
      have hUnfolds : plan.Unfolds x _ :=
        .node x (plan.treeWithin 0) (by simp [hNone])
      rw [hNone] at hUnfolds
      exact hUnfolds
  | succ depth ih =>
      refine .node x (plan.treeWithin depth) ?_
      intro c hC
      have hUp := hLinked.up_iff.mpr hC
      refine ih (fun y hY => hFree y (hY.tail hUp))
        (hDeep.child (hFree x .refl) hUp) ?_
      omega

/- The tree of a node is what the recursion gives. -/
theorem unfolds_tree
    (hLinked : plan.Linked)
    (hFree : ∀ y, plan.Under y x → ¬ plan.Beneath y y) :
    plan.Unfolds x (plan.tree x) := by
  have hDeep : plan.Deep 0 x := ⟨∅, rfl, by simp⟩
  exact unfolds_treeWithin hLinked hFree hDeep
    (Nat.le_add_left _ _)

end Plan

end Flwor

------------------------------------------------------------
-- Below the Root
------------------------------------------------------------

namespace Flwor

namespace Plan

variable {plan : Plan}

/-
  Whatever calls are made: a node is listed once among the
  children of its parent and nowhere else, the root has no
  parent, going down from the root comes to an end and meets
  each reached node once, and a call that fails changes
  nothing, unless it added a node first.
-/
theorem Built.tree_below_root
    (hBuilt : plan.Built (fun _ _ => True)) :
    (∀ p c, (plan.children p).count c =
      if plan.parent? c = some p then 1 else 0) ∧
    plan.parent? plan.root = none ∧
    plan.Unfolds plan.root plan.rootTree ∧
    plan.Lists [plan.root] (plan.subtree plan.root) ∧
    (plan.subtree plan.root).Nodup ∧
    (∀ id, id ∈ plan.subtree plan.root ↔ plan.Reaches id) ∧
    ∀ call : PlanCall,
      (∀ id ∈ call.ids, id < plan.size) →
      call.isAddWith = false →
      (call.run plan).1 ≠ none →
        (call.run plan).2 = plan := by
  have hSound := hBuilt.sound
  have hLinked := hSound.linked
  have hFree (y : NodeId) (hY : plan.Under y plan.root) :
      ¬ plan.Beneath y y :=
    hLinked.not_below_self hY
  have hUnfolds : plan.Unfolds plan.root plan.rootTree :=
    unfolds_tree hLinked hFree
  refine ⟨?_, hLinked.root, hUnfolds, hUnfolds.lists,
    hUnfolds.nodup_ids hLinked hFree, ?_, ?_⟩
  · intro p c
    rw [(hLinked.nodup p).count]
    simp only [hLinked.mem_children_iff]
  · intro id
    rw [hLinked.reaches_iff_under]
    exact hUnfolds.mem_ids_iff hLinked
  · intro call hIds hNot hFailed
    exact PlanCall.run_eq_of_failed hSound hIds hNot hFailed

/-
  A root with a child is replaced by a copy, and then put
  below its own child: a cycle beside the root.
-/
def swapped : Plan :=
  PlanCall.runAll
    [.add .emptySequence .none, .append 0 1, .copy 0,
      .replace 0 2, .append 1 0]
    (ofNode .sequenceExpr .none)

theorem built_swapped :
    swapped.Built (fun _ _ => True) := by
  apply Built.call _ (.append 1 0) (by decide) (by simp)
  apply Built.call _ (.replace 0 2) (by decide) (by simp)
  apply Built.call _ (.copy 0) (by decide) (by simp)
  apply Built.call _ (.append 0 1) (by decide) (by simp)
  apply Built.call _ (.add .emptySequence .none) (by decide)
    (by simp)
  exact .ofNode .sequenceExpr .none

theorem tree_below_root_swapped :
    swapped.Built (fun _ _ => True) ∧
      swapped.Beneath 0 0 ∧
      swapped.Lists [2] [2, 3] := by
  have hCycle : swapped.Beneath 0 0 :=
    .head (show swapped.Up 0 1 by rfl)
      (.single (show swapped.Up 1 0 by rfl))
  have hTree := Built.tree_below_root built_swapped
  exact ⟨built_swapped, hCycle, hTree.2.2.2.1⟩

end Plan

end Flwor
