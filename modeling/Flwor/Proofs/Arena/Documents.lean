import Mathlib.Data.List.Range
import Flwor.Proofs.Arena.Holding
import Flwor.Proofs.Arena.Operations

/-
  Documents in an arena.

  A document is installed as a tree of new nodes, numbered
  without gaps and each before those below it; no other node
  changes.  Reading the tree gives the document back.  The
  check of a document depends on the document only, and not
  on how its nodes are numbered.

  Key definitions include:
    * `Document.tree`
    * `Plan.LaidOut`, `Plan.LaidOutAll`
    * `Document.Fits`

  Key theorems include:
    * `Edit.achieves_layOut`
    * `Plan.Holds.tree_eq_of_length`
    * `Document.exists_ofValidDocument_iff`
    * `Plan.Operated.documents_round_trip`
-/

------------------------------------------------------------
-- Numbered Documents
------------------------------------------------------------

namespace Flwor

namespace Document

mutual

/- A document as a tree, numbered in pre-order. -/
def tree
    (first : NodeId) : Document → Tree
  | .node k p ds ps =>
      .node first k p ps (treeAll (first + 1) ds)

/- Documents as trees, numbered one after the other. -/
def treeAll
    (first : NodeId) : List Document → List Tree
  | [] => []
  | d :: ds => tree first d :: treeAll (first + d.size) ds

end

variable {first : NodeId}

@[simp] theorem id_tree
    (d : Document) :
    (d.tree first).id = first := by
  rcases d with ⟨k, p, ds, ps⟩
  rfl

@[simp] theorem document_tree
    (d : Document) :
    (d.tree first).document = d := by
  induction d using Document.induction generalizing first with
  | node k p ds ps ih =>
      have hAll : Tree.documentAll (treeAll (first + 1) ds) =
          ds := by
        generalize first + 1 = next
        induction ds generalizing next with
        | nil => rfl
        | cons d ds ihDs =>
            rw [List.forall_mem_cons] at ih
            rw [treeAll, Tree.documentAll, ih.1, ihDs ih.2]
      rw [tree, Tree.document, hAll]

/- The nodes are numbered without gaps, in pre-order. -/
theorem ids_tree
    (d : Document) :
    (d.tree first).ids = List.range' first d.size := by
  induction d using Document.induction generalizing first with
  | node k p ds ps ih =>
      have hAll : Tree.idsAll (treeAll (first + 1) ds) =
          List.range' (first + 1) (sizeAll ds) := by
        generalize first + 1 = next
        induction ds generalizing next with
        | nil => rfl
        | cons d ds ihDs =>
            rw [List.forall_mem_cons] at ih
            rw [treeAll, Tree.idsAll, ih.1, ihDs ih.2,
              sizeAll, List.range'_append_1]
      rw [tree, Tree.ids, hAll, size, Nat.add_comm 1,
        List.range'_succ]

theorem size_pos
    (d : Document) :
    0 < d.size := by
  rcases d with ⟨k, p, ds, ps⟩
  rw [size]
  omega

end Document

end Flwor

------------------------------------------------------------
-- Installing a Document
------------------------------------------------------------

namespace Flwor

namespace Plan

/- A plan with a document as a tree of new nodes. -/
structure LaidOut
    (before : Plan)
    (d : Document)
    (after : Plan) : Prop where
  size : after.size = before.size + d.size
  root : after.root = before.root
  node : ∀ x < before.size, after.node x = before.node x
  top : after.parent? before.size = none
  holds : after.Holds (d.tree before.size)

/- A plan with documents as further children of a node. -/
structure LaidOutAll
    (before : Plan)
    (p : NodeId)
    (ds : List Document)
    (after : Plan) : Prop where
  size : after.size = before.size + Document.sizeAll ds
  root : after.root = before.root
  node :
    ∀ x < before.size, x ≠ p → after.node x = before.node x
  parent :
    after.node p =
      { before.node p with
        children := before.children p ++
          (Document.treeAll before.size ds).map Tree.id }
  holds :
    ∀ t ∈ Document.treeAll before.size ds, after.Holds t

variable {before middle after : Plan}
variable {p c : NodeId}
variable {t : Tree}

/- A tree stays in place if only parent links change. -/
theorem Holds.of_nodes
    (hHolds : before.Holds t)
    (hSize : before.size ≤ after.size)
    (hNode : ∀ x ∈ t.ids, ∃ parent,
      after.node x =
        { before.node x with parent := parent }) :
    after.Holds t := by
  intro s hS
  have hStands := hHolds s hS
  rcases hNode s.id (Tree.mem_ids_iff.mpr ⟨s, hS, rfl⟩) with
    ⟨parent, hSame⟩
  refine ⟨Nat.lt_of_lt_of_le hStands.lt hSize, ?_, ?_, ?_,
    ?_⟩
  · rw [kind, hSame]
    exact hStands.kind
  · rw [payload, hSame]
    exact hStands.payload
  · rw [properties, hSame]
    exact hStands.properties
  · rw [children, hSame]
    exact hStands.children

/- What one more child changes. -/
theorem node_attach
    (hNe : p ≠ c)
    (hP : p < before.size)
    (hC : c < before.size)
    (index : Nat)
    (x : NodeId) :
    (before.attach p index c).node x =
      if x = p then
        { before.node p with
          children := (before.children p).insertIdx index c }
      else if x = c then
        { before.node c with parent := some p }
      else before.node x := by
  unfold attach setParent setChildren
  rw [node_modify, node_modify, size_modify]
  by_cases hX : x = p
  · subst hX
    simp [Ne.symm hNe, hP]
  · by_cases hX' : x = c
    · subst hX'
      simp [hX, Ne.symm hX, hC]
    · simp [hX, hX', Ne.symm hX, Ne.symm hX']

theorem LaidOut.size_lt
    {d : Document}
    (hLaid : before.LaidOut d after) :
    before.size < after.size := by
  rw [hLaid.size]
  exact Nat.lt_add_of_pos_right d.size_pos

theorem laidOutAll_nil
    (plan : Plan)
    (p : NodeId) :
    plan.LaidOutAll p [] plan := by
  refine ⟨rfl, rfl, fun _ _ _ => rfl, ?_,
    List.forall_mem_nil _⟩
  rw [Document.treeAll, List.map_nil, List.append_nil]
  rfl

/- One more document, attached after the other children. -/
theorem LaidOut.cons
    {d : Document}
    {ds : List Document}
    (hP : p < before.size)
    (hFirst : before.LaidOut d middle)
    (hRest :
      (middle.attach p (middle.children p).length
        before.size).LaidOutAll p ds after) :
    before.LaidOutAll p (d :: ds) after := by
  have hNext := hFirst.size
  have hLt := hFirst.size_lt
  have hNode := node_attach (Nat.ne_of_lt hP)
    (hP.trans hLt) hLt (middle.children p).length
  have hSize : (middle.attach p (middle.children p).length
      before.size).size = middle.size := by
    simp [attach]
  have hSame := hFirst.node p hP
  have hOld : middle.children p = before.children p := by
    rw [children, hSame, children]
  have hOlder {x : NodeId} (hX : x < middle.size) :
      x < (middle.attach p (middle.children p).length
        before.size).size := by
    rw [hSize]
    exact hX
  refine ⟨?_, hRest.root.trans hFirst.root, ?_, ?_, ?_⟩
  · rw [hRest.size, hSize, hNext, Document.sizeAll,
      Nat.add_assoc]
  · intro x hX hNe
    rw [hRest.node x (hOlder (hX.trans hLt)) hNe, hNode,
      if_neg hNe, if_neg (Nat.ne_of_lt hX),
      hFirst.node x hX]
  · have hHere := hNode p
    rw [if_pos rfl, List.insertIdx_length_self, hOld, hSame]
      at hHere
    have hChildren : (middle.attach p
        (middle.children p).length before.size).children p =
          before.children p ++ [before.size] := by
      rw [children, hOld, hHere]
    rw [hRest.parent, hChildren, hOld, hHere, ← hOld, hSize,
      hNext, Document.treeAll, List.map_cons,
      Document.id_tree, List.append_assoc,
      List.singleton_append]
  · intro t hT
    rw [Document.treeAll, List.mem_cons] at hT
    rcases hT with rfl | hT
    · -- the tree that was there before the further ones
      refine hFirst.holds.of_nodes ?_ ?_
      · rw [hRest.size, hSize]
        exact Nat.le_add_right _ _
      · intro x hX
        rw [Document.ids_tree, List.mem_range'_1] at hX
        have hNe : x ≠ p :=
          (Nat.lt_of_lt_of_le hP hX.1).ne'
        rw [← hNext] at hX
        rw [hRest.node x (hOlder hX.2) hNe, hNode,
          if_neg hNe]
        split
        next hTop =>
          rw [hTop]
          exact ⟨some p, rfl⟩
        next => exact ⟨_, rfl⟩
    · refine hRest.holds t ?_
      rw [hSize, hNext]
      exact hT

end Plan

namespace Edit

open Plan

variable {plan : Plan}

/- Documents are laid out one after the other. -/
theorem achieves_layOutAll
    {p : NodeId}
    {ds : List Document}
    (hEach : ∀ d ∈ ds, ∀ plan : Plan,
      plan.root ≤ plan.size →
        (install d).Achieves plan (fun id after =>
          id = plan.size ∧ plan.LaidOut d after))
    (hRoot : plan.root < plan.size)
    (hP : p < plan.size) :
    (installAll p ds).Achieves plan
      (fun _ after => plan.LaidOutAll p ds after) := by
  induction ds generalizing plan with
  | nil =>
      rw [installAll]
      exact achieves_return (laidOutAll_nil plan p)
  | cons d ds ih =>
      rw [List.forall_mem_cons] at hEach
      rw [installAll]
      refine (hEach.1 plan (Nat.le_of_lt hRoot)).bind ?_
      rintro _ middle ⟨rfl, hFirst⟩
      have hLt := hFirst.size_lt
      have hDetached : middle.Detached plan.size := by
        refine ⟨hLt, hFirst.top, ?_⟩
        rw [hFirst.root]
        exact hRoot.ne'
      refine (achieves_append hDetached).bind ?_
      rintro _ _ rfl
      have hKept : (middle.attach p
          (middle.children p).length plan.size).size =
            middle.size := by
        simp [attach]
      refine (ih hEach.2 ?_ ?_).mono ?_
      · rw [hKept]
        change middle.root < middle.size
        rw [hFirst.root]
        exact hRoot.trans hLt
      · rw [hKept]
        exact hP.trans hLt
      · exact fun _ _ hRest => hFirst.cons hP hRest

/- A document is laid out from the next free index on. -/
theorem achieves_layOut
    (d : Document)
    (hRoot : plan.root ≤ plan.size) :
    (install d).Achieves plan (fun id after =>
      id = plan.size ∧ plan.LaidOut d after) := by
  induction d using Document.induction generalizing plan with
  | node k p ds ps ih =>
      rw [install]
      refine (achieves_add k p ps).bind ?_
      rintro _ grown ⟨rfl, rfl⟩
      have hSize : (plan.grow k p ps).size = plan.size + 1 :=
        size_grow ..
      have hLt : plan.size < (plan.grow k p ps).size := by
        rw [hSize]
        exact Nat.lt_succ_self _
      have hInside : (plan.grow k p ps).root <
          (plan.grow k p ps).size :=
        Nat.lt_of_le_of_lt hRoot hLt
      have hNew : (plan.grow k p ps).node plan.size =
          ⟨k, p, none, [], ps⟩ := by
        rw [node_grow, if_pos rfl]
      refine (achieves_layOutAll
        (fun d hD _ hPlan => ih d hD hPlan)
        hInside hLt).bind ?_
      intro _ after hAll
      have hTop : after.node plan.size =
          ⟨k, p, none, (Document.treeAll (plan.size + 1)
            ds).map Tree.id, ps⟩ := by
        rw [hAll.parent, children, hNew, hSize]
        rfl
      refine achieves_return ⟨rfl, ?_, hAll.root, ?_, ?_, ?_⟩
      · rw [hAll.size, hSize, Document.size, Nat.add_assoc]
      · intro x hX
        have hNe : x ≠ plan.size := Nat.ne_of_lt hX
        rw [hAll.node x (hX.trans hLt) hNe, node_grow,
          if_neg hNe]
      · rw [parent?, hTop]
      · rw [Document.tree]
        refine holds_node ⟨?_, ?_, ?_, ?_, ?_⟩ ?_
        · rw [Tree.id, hAll.size]
          exact Nat.lt_of_lt_of_le hLt
            (Nat.le_add_right _ _)
        · rw [Tree.id, kind, hTop]
          rfl
        · rw [Tree.id, payload, hTop]
          rfl
        · rw [Tree.id, properties, hTop]
          rfl
        · rw [Tree.id, children, hTop]
          rfl
        · rw [← hSize]
          exact hAll.holds

end Edit

end Flwor

------------------------------------------------------------
-- Reading a Tree Back
------------------------------------------------------------

namespace Flwor

namespace Tree

theorem length_ids_le
    {c : Tree}
    {cs : List Tree}
    (hC : c ∈ cs) :
    c.ids.length ≤ (idsAll cs).length := by
  induction cs with
  | nil => cases hC
  | cons d rest ih =>
      rw [idsAll, List.length_append]
      rcases List.mem_cons.mp hC with rfl | hC
      · exact Nat.le_add_right _ _
      · exact Nat.le_trans (ih hC) (Nat.le_add_left _ _)

end Tree

namespace Plan

variable {plan : Plan}
variable {t : Tree}
variable {depth : Nat}

/- A tree that stands is read down to its last node. -/
theorem Holds.treeWithin_eq
    (hHolds : plan.Holds t)
    (hDepth : t.ids.length ≤ depth + 1) :
    plan.treeWithin depth t.id = t := by
  induction t using Tree.induction generalizing depth with
  | node i k p ps cs ih =>
      have hHere := hHolds.self
      rw [Tree.ids, List.length_cons] at hDepth
      rcases depth with _ | depth
      · have hLeaf : cs = [] := by
          rcases cs with _ | ⟨c, rest⟩
          · rfl
          · rw [Tree.idsAll, List.length_append] at hDepth
            rcases c with ⟨j, _, _, _, _⟩
            rw [Tree.ids, List.length_cons] at hDepth
            omega
        subst hLeaf
        rw [treeWithin, hHere.kind, hHere.payload,
          hHere.properties]
        rfl
      · have hSame (c : Tree) (hC : c ∈ cs) :
            plan.treeWithin depth c.id = c := by
          have hLength := Tree.length_ids_le hC
          exact ih c hC (hHolds.child hC) (by omega)
        rw [treeWithin, hHere.kind, hHere.payload,
          hHere.properties, hHere.children, List.map_map]
        exact congrArg (Tree.node i k p ps)
          ((List.map_congr_left hSame).trans
            (List.map_id' _))

/- A tree that fits into the arena is the tree of its node. -/
theorem Holds.tree_eq_of_length
    (hHolds : plan.Holds t)
    (hLength : t.ids.length ≤ plan.size) :
    plan.tree t.id = t :=
  hHolds.treeWithin_eq (by omega)

namespace LaidOut

variable {before after : Plan}
variable {d : Document}

/- The document is read back, with its nodes in order. -/
theorem tree_eq
    (hLaid : before.LaidOut d after) :
    after.tree before.size = d.tree before.size := by
  have hLength : (d.tree before.size).ids.length ≤
      after.size := by
    rw [Document.ids_tree, List.length_range', hLaid.size]
    exact Nat.le_add_left _ _
  have hTree := hLaid.holds.tree_eq_of_length hLength
  rwa [Document.id_tree] at hTree

theorem document_eq
    (hLaid : before.LaidOut d after) :
    after.document before.size = d := by
  rw [document, hLaid.tree_eq, Document.document_tree]

theorem subtree_eq
    (hLaid : before.LaidOut d after) :
    after.subtree before.size =
      List.range' before.size d.size := by
  rw [subtree, hLaid.tree_eq, Document.ids_tree]

/- What was there before is read as before. -/
theorem holds_of_holds
    {t : Tree}
    (hLaid : before.LaidOut d after)
    (hHolds : before.Holds t) :
    after.Holds t := by
  refine hHolds.of_nodes ?_ ?_
  · rw [hLaid.size]
    exact Nat.le_add_right _ _
  · intro x hX
    rw [hLaid.node x (hHolds.lt_of_mem hX)]
    exact ⟨_, rfl⟩

end LaidOut

end Plan

end Flwor

------------------------------------------------------------
-- Checking a Document
------------------------------------------------------------

namespace Flwor

namespace Site

/- What the check of a node reads of its place. -/
def slot
    (site : Site) : Kind × Nat × Nat :=
  (site.kind, site.index, site.count)

variable {here there : Option Site}
variable (hSlot : here.map slot = there.map slot)

include hSlot

theorem map_kind_of_slot :
    here.map kind = there.map kind := by
  have hKind := congrArg (Option.map Prod.fst) hSlot
  rw [Option.map_map, Option.map_map] at hKind
  exact hKind

/- Rows are read from one place if from the other one. -/
theorem readsRows_of_slot
    (hHere : ∀ s, here = some s → s.readsRows) :
    ∀ s, there = some s → s.readsRows := by
  rintro ⟨k, i, j, n⟩ rfl
  rcases here with _ | ⟨k', i', j', n'⟩
  · cases hSlot
  · cases hSlot
    have hReads := hHere ⟨k, i', j, n⟩ rfl
    exact hReads

end Site

namespace Tree

/- The check of a tree reads no index of a node. -/
theorem firstDefect?_of_document
    {s t : Tree}
    {here there : Option Site}
    (hDocument : s.document = t.document)
    (hSlot : here.map Site.slot = there.map Site.slot)
    (hNone : s.firstDefect? here = none) :
    t.firstDefect? there = none := by
  induction s using Tree.induction
    generalizing t here there with
  | node i k p ps cs ih =>
      rcases t with ⟨i', k', p', ps', cs'⟩
      rw [document, document, documentAll_eq_map,
        documentAll_eq_map, Document.node.injEq] at hDocument
      rcases hDocument with ⟨rfl, rfl, hChildren, rfl⟩
      have hKinds : cs.map kind = cs'.map kind := by
        have hMap := congrArg (List.map Document.kind)
          hChildren
        rw [List.map_map, List.map_map] at hMap
        exact ((List.map_congr_left
          (fun c _ => (kind_document c).symm)).trans
            hMap).trans (List.map_congr_left
              (fun c _ => kind_document c))
      have hLength : cs.length = cs'.length := by
        have hLengths := congrArg List.length hChildren
        rwa [List.length_map, List.length_map] at hLengths
      rw [firstDefect?_eq_none_iff, ownDefect?_eq_none_iff,
        brokenRule?_eq_none_iff] at hNone ⊢
      rcases hNone with
        ⟨⟨⟨hAdmits, hFinish⟩, hStage⟩, hBelow⟩
      refine ⟨⟨⟨?_, fun hKind => ?_⟩, ?_⟩, ?_⟩
      · rw [children_node, ← hKinds]
        exact hAdmits
      · rw [← Site.map_kind_of_slot hSlot]
        exact hFinish hKind
      · intro site hSite hKind
        exact Site.readsRows_of_slot hSlot
          (fun s hS => hStage s hS hKind) site hSite
      · intro j c' hC'
        have hAt := congrArg (fun ds => ds[j]?) hChildren
        rw [children_node] at hC'
        simp only [List.getElem?_map, hC', Option.map_some]
          at hAt
        rcases Option.map_eq_some_iff.mp hAt with
          ⟨c, hC, hSame⟩
        refine ih c (List.mem_of_getElem? hC) hSame ?_
          (hBelow j c hC)
        simp only [Option.map_some, Site.slot, kind_node,
          children_node, hLength]

end Tree

namespace Document

/- A document passes the check at a place. -/
def Fits
    (site : Option Site)
    (d : Document) : Prop :=
  (d.tree 0).firstDefect? site = none

/- Any tree of the document can be checked instead. -/
theorem fits_iff
    {t : Tree}
    {d : Document}
    (hDocument : t.document = d)
    {here there : Option Site}
    (hSlot : here.map Site.slot = there.map Site.slot) :
    d.Fits here ↔ t.firstDefect? there = none := by
  have hSame : (d.tree 0).document = t.document := by
    rw [document_tree, hDocument]
  constructor
  · exact Tree.firstDefect?_of_document hSame hSlot
  · exact Tree.firstDefect?_of_document hSame.symm
      hSlot.symm

/- The one plan that can be made of a document. -/
theorem exists_made
    (d : Document) :
    ∃ made : Plan, made.rootTree = d.tree 0 ∧
      ∀ plan, Plan.ofValidDocument d = .ok plan ↔
        plan = made ∧ d.Fits none := by
  have hRoot : Plan.empty.root ≤ Plan.empty.size :=
    Nat.le_refl _
  rcases Edit.achieves_layOut d hRoot with
    ⟨_, made, hRun, rfl, hLaid⟩
  have hMade : made.root = Plan.empty.size := hLaid.root
  have hTree : made.rootTree = d.tree 0 := by
    rw [Plan.rootTree, hMade]
    exact hLaid.tree_eq
  have hPlan : Plan.ofDocument d = .ok made := by
    unfold Plan.ofDocument Edit.run
    rw [hRun]
    dsimp only
    rw [← hMade]
  refine ⟨made, hTree, fun plan => ?_⟩
  have hRun : Plan.ofValidDocument d =
      (made.validate >>= fun _ => pure made) := by
    unfold Plan.ofValidDocument
    rw [hPlan]
    rfl
  rw [hRun, Plan.validate, hTree, Fits]
  cases (d.tree 0).firstDefect? none with
  | none =>
      change Except.ok made = .ok plan ↔ _
      simp [eq_comm]
  | some defect =>
      change Except.error _ = .ok plan ↔ _
      simp

/- A plan is made of exactly the documents that pass. -/
theorem exists_ofValidDocument_iff
    (d : Document) :
    (∃ made, Plan.ofValidDocument d = .ok made) ↔
      d.Fits none := by
  rcases d.exists_made with ⟨made, _, hPlans⟩
  simp only [hPlans, exists_eq_left]

end Document

end Flwor

------------------------------------------------------------
-- Round Trips
------------------------------------------------------------

namespace Flwor

namespace Plan

variable {plan : Plan}

/- A copy is another tree of the same document. -/
theorem Sound.copies
    (hSound : plan.Sound)
    {id : NodeId}
    (hReach : plan.Reaches id) :
    ∃ copied after,
      (Edit.copy id).run plan = (.ok copied, after) ∧
      after.Detached copied ∧
      after.document copied = after.document id ∧
      (after.subtree copied).Disjoint (after.subtree id) ∧
      ∀ x < plan.size, after.node x = plan.node x := by
  rcases hSound.holds_tree
      (hSound.linked.reaches_iff_under.mp hReach) with
    ⟨hId, hHolds, hNodup⟩
  rcases Edit.achieves_layOut (plan.document id)
      (Nat.le_of_lt hSound.root_lt) with
    ⟨_, after, hRun, rfl, hLaid⟩
  have hTree : after.tree id = plan.tree id := by
    have hLength : (plan.tree id).ids.length ≤ after.size := by
      have hSubset : (plan.tree id).ids ⊆
          List.range after.size := by
        intro x hX
        rw [List.mem_range]
        exact (hHolds.lt_of_mem hX).trans hLaid.size_lt
      have hLe := (hNodup.subperm hSubset).length_le
      rwa [List.length_range] at hLe
    have hKept := (hLaid.holds_of_holds
      hHolds).tree_eq_of_length hLength
    rwa [hId] at hKept
  refine ⟨plan.size, after, hRun,
    ⟨hLaid.size_lt, hLaid.top, ?_⟩, ?_, ?_, hLaid.node⟩
  · rw [hLaid.root]
    exact hSound.root_lt.ne'
  · rw [hLaid.document_eq, document, document, hTree]
  · intro x hNew hOld
    rw [hLaid.subtree_eq, List.mem_range'_1] at hNew
    rw [subtree, hTree] at hOld
    exact Nat.not_lt.mpr hNew.1 (hHolds.lt_of_mem hOld)

end Plan

end Flwor
