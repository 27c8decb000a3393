import Flwor.Proofs.Rewriting.Surgery

/-
  Documents that are installed in a plan, and copies of
  subtrees.

  An installed document consists of new nodes only, and its
  nodes keep the rules that the document keeps.  So a copy
  of a part of a well-formed plan is well formed as well,
  and the plan of a document has its links in order.

  Key definitions include:
    * `Document.Proper`
    * `Plan.Installed`, `Plan.InstalledAll`

  Key theorems include:
    * `Edit.achieves_install`
    * `Plan.linked_of_ofDocument`
    * `Plan.WellFormed.document_proper`
    * `Plan.Surgery.achieves_copy`
-/

------------------------------------------------------------
-- Documents
------------------------------------------------------------

namespace Flwor

namespace Document

/- All nodes of a document keep their rules. -/
inductive Proper : Document → Prop where
  | node
      {k : Kind}
      {p : Payload}
      {ds : List Document}
      {ps : Properties}
      (hProper : k.Proper p (ds.map kind))
      (hChildren : ∀ d ∈ ds, Proper d) :
      Proper (.node k p ds ps)

/- What holds of a document if it holds of its parts. -/
theorem induction
    {motive : Document → Prop}
    (node :
      ∀ k p ds ps, (∀ d ∈ ds, motive d) →
        motive (.node k p ds ps))
    (d : Document) :
    motive d := by
  cases d with
  | node k p ds ps =>
      exact node k p ds ps (fun d _ => induction node d)

end Document

end Flwor

------------------------------------------------------------
-- Installed Documents
------------------------------------------------------------

namespace Flwor

namespace Plan

/- A plan with a document as a new subtree. -/
structure Installed
    (before : Plan)
    (d : Document)
    (id : NodeId)
    (after : Plan) : Prop where
  linked : after.Linked
  edited : before.Edited ∅ ∅ after
  fresh : id = before.size
  lt : id < after.size
  kind : after.kind id = d.kind
  parent : after.parent? id = none
  within :
    ∀ x, before.size ≤ x →
      ∀ c ∈ after.children x, before.size ≤ c
  proper :
    d.Proper → ∀ x, before.size ≤ x → x < after.size →
      after.Proper x

/- A plan with documents as further children of a node. -/
structure InstalledAll
    (before : Plan)
    (parent : NodeId)
    (ds : List Document)
    (after : Plan) : Prop where
  linked : after.Linked
  edited : before.Edited {parent} ∅ after
  kinds :
    after.childKinds parent =
      before.childKinds parent ++ ds.map Document.kind
  added :
    ∀ c ∈ after.children parent,
      c ∈ before.children parent ∨ before.size ≤ c
  within :
    ∀ x, before.size ≤ x →
      ∀ c ∈ after.children x, before.size ≤ c
  proper :
    (∀ d ∈ ds, d.Proper) →
      ∀ x, before.size ≤ x → x < after.size →
        after.Proper x

theorem installedAll_nil
    {plan : Plan}
    (hLinked : plan.Linked)
    (parent : NodeId) :
    plan.InstalledAll parent [] plan := by
  refine ⟨hLinked,
    (Edited.refl plan).mono (by simp) (by simp), by simp,
    fun c hC => .inl hC, fun x hX c hC => ?_,
    fun _ x hX hLt => (Nat.not_lt.mpr hX hLt).elim⟩
  exact (Nat.not_lt.mpr hX
    (lt_size_of_mem_children hC)).elim

/- One more document, attached after the other children. -/
theorem InstalledAll.cons
    {before middle after : Plan}
    {parent c : NodeId}
    {d : Document}
    {ds : List Document}
    (hLinked : before.Linked)
    (hParent : parent < before.size)
    (hFirst : before.Installed d c middle)
    (hDetached : middle.Detached c)
    (hRest :
      (middle.attach parent
        (middle.children parent).length c).InstalledAll
          parent ds after) :
    before.InstalledAll parent (d :: ds) after := by
  have hParentLt : parent < middle.size :=
    Nat.lt_of_lt_of_le hParent hFirst.edited.size
  have hNew : before.size ≤ c := Nat.le_of_eq hFirst.fresh.symm
  have hAttached : middle.Edited {parent} {c}
      (middle.attach parent
        (middle.children parent).length c) :=
    edited_attach hDetached hParentLt
  have hSize := hAttached.size
  have hChildren (x : NodeId) :
      (middle.attach parent
        (middle.children parent).length c).children x =
        if x = parent then middle.children parent ++ [c]
        else middle.children x := by
    rw [children_attach hParentLt, List.insertIdx_length_self]
  have hSizeEq :
      (middle.attach parent
        (middle.children parent).length c).size =
          middle.size := by
    simp [attach]
  have hOld : middle.children parent =
      before.children parent :=
    hFirst.edited.children parent hParent (by simp)
  have hKinds : (middle.children parent).map
      (middle.attach parent
        (middle.children parent).length c).kind =
          before.childKinds parent := by
    rw [hAttached.map_kind
      (fun e hE => hFirst.linked.lt_of_mem hE), hOld,
      hFirst.edited.map_kind
        (fun e hE => hLinked.lt_of_mem hE), childKinds]
  refine ⟨hRest.linked, ?_, ?_, ?_, ?_, ?_⟩
  · refine ((hFirst.edited.trans hAttached).trans
      hRest.edited).narrow ?_ ?_
    · rintro x ((hX | hX) | hX) _
      · exact hX.elim
      · exact hX
      · exact hX
    · rintro x ((hX | rfl) | hX) hLt
      · exact hX
      · exact (Nat.not_lt.mpr hNew hLt).elim
      · exact hX
  · rw [hRest.kinds, childKinds, hChildren, if_pos rfl,
      List.map_append, hKinds, List.map_singleton,
      hAttached.kind c hFirst.lt, hFirst.kind, List.map_cons,
      List.append_assoc, List.singleton_append]
  · intro e hE
    rcases hRest.added e hE with hE | hE
    · rw [hChildren, if_pos rfl, List.mem_append, hOld,
        List.mem_singleton] at hE
      rcases hE with hE | rfl
      · exact .inl hE
      · exact .inr hNew
    · rw [hSizeEq] at hE
      exact .inr (Nat.le_trans hFirst.edited.size hE)
  · intro x hX e hE
    by_cases hLate : middle.size ≤ x
    · have hThere := hRest.within x
        (by rw [hSizeEq]; exact hLate) e hE
      rw [hSizeEq] at hThere
      exact Nat.le_trans hFirst.edited.size hThere
    · have hNe : x ≠ parent :=
        (Nat.lt_of_lt_of_le hParent hX).ne'
      rw [hRest.edited.children x
          (by rw [hSizeEq]; exact Nat.not_le.mp hLate)
          (by simpa using hNe),
        hChildren, if_neg hNe] at hE
      exact hFirst.within x hX e hE
  · intro hProper x hX hLt
    rw [List.forall_mem_cons] at hProper
    by_cases hLate : middle.size ≤ x
    · exact hRest.proper hProper.2 x
        (by rw [hSizeEq]; exact hLate) hLt
    · rw [Nat.not_le] at hLate
      have hNe : x ≠ parent :=
        (Nat.lt_of_lt_of_le hParent hX).ne'
      have hHere := hFirst.proper hProper.1 x hX hLate
      have hThere := hAttached.proper hFirst.linked hLate
        (by simpa using hNe) hHere
      exact hRest.edited.proper
        (hFirst.linked.attach hDetached hParentLt
          (Nat.le_refl _))
        (by rw [hSizeEq]; exact hLate) (by simpa using hNe)
        hThere

end Plan

namespace Edit

open Plan

variable {plan : Plan}

/- Documents are installed one after the other. -/
theorem achieves_installAll
    {parent : NodeId}
    {ds : List Document}
    (hEach : ∀ d ∈ ds, ∀ plan : Plan, plan.Linked →
      plan.root ≤ plan.size →
        (install d).Achieves plan (plan.Installed d))
    (hLinked : plan.Linked)
    (hRoot : plan.root < plan.size)
    (hParent : parent < plan.size) :
    (installAll parent ds).Achieves plan
      (fun _ after => plan.InstalledAll parent ds after) := by
  induction ds generalizing plan with
  | nil =>
      rw [installAll]
      exact achieves_return (installedAll_nil hLinked parent)
  | cons d ds ih =>
      rw [installAll]
      rw [List.forall_mem_cons] at hEach
      refine (hEach.1 plan hLinked
        (Nat.le_of_lt hRoot)).bind ?_
      intro c middle hFirst
      have hParentLt : parent < middle.size :=
        Nat.lt_of_lt_of_le hParent hFirst.edited.size
      have hDetached : middle.Detached c := by
        refine ⟨hFirst.lt, hFirst.parent, ?_⟩
        rw [hFirst.fresh, hFirst.edited.root]
        exact hRoot.ne'
      refine (achieves_append hDetached).bind ?_
      rintro _ _ rfl
      have hAttached : middle.Edited {parent} {c}
          (middle.attach parent
            (middle.children parent).length c) :=
        edited_attach hDetached hParentLt
      refine (ih hEach.2
        (hFirst.linked.attach hDetached hParentLt
          (Nat.le_refl _)) ?_ ?_).mono ?_
      · rw [hAttached.root, hFirst.edited.root]
        exact Nat.lt_of_lt_of_le hRoot
          (Nat.le_trans hFirst.edited.size hAttached.size)
      · exact Nat.lt_of_lt_of_le hParentLt hAttached.size
      · exact fun _ after hRest =>
          .cons hLinked hParent hFirst hDetached hRest

/- A document is installed as a subtree of new nodes. -/
theorem achieves_install
    (d : Document)
    (hLinked : plan.Linked)
    (hRoot : plan.root ≤ plan.size) :
    (install d).Achieves plan (plan.Installed d) := by
  induction d using Document.induction generalizing plan with
  | node k p ds ps ih =>
      rw [install]
      refine (achieves_add k p ps).bind ?_
      rintro _ grown ⟨rfl, rfl⟩
      have hGrown := edited_grow plan k p ps
      have hSize : (plan.grow k p ps).size = plan.size + 1 :=
        size_grow ..
      have hLt : plan.size < (plan.grow k p ps).size := by
        rw [hSize]
        exact Nat.lt_succ_self _
      have hNone (x : NodeId) (hX : plan.size ≤ x) :
          (plan.grow k p ps).children x = [] := by
        rw [children_grow, children, node_of_size_le hX]
        rfl
      refine (achieves_installAll
        (fun d hD plan hPlan hRoot =>
          ih d hD hPlan hRoot)
        (hLinked.grow k p ps)
        (Nat.lt_of_le_of_lt hRoot hLt) hLt).bind ?_
      intro _ after hAll
      refine achieves_return ⟨hAll.linked, ?_, rfl,
        Nat.lt_of_lt_of_le hLt hAll.edited.size, ?_, ?_, ?_,
        ?_⟩
      · refine (hGrown.trans hAll.edited).narrow ?_ ?_
        · rintro x (hX | rfl) hOld
          · exact hX
          · exact (Nat.lt_irrefl _ hOld).elim
        · rintro x (hX | hX) _
          · exact hX
          · exact hX
      · rw [hAll.edited.kind _ hLt, kind_grow]
        rfl
      · rw [hAll.edited.parent _ hLt (by simp),
          parent?_grow, parent?,
          node_of_size_le (Nat.le_refl _)]
        rfl
      · intro x hX c hC
        by_cases hEq : x = plan.size
        · subst hEq
          rcases hAll.added c hC with hC | hC
          · rw [hNone _ (Nat.le_refl _)] at hC
            cases hC
          · exact Nat.le_trans (Nat.le_of_lt hLt) hC
        · have hLate : (plan.grow k p ps).size ≤ x := by
            rw [hSize]
            exact Nat.lt_of_le_of_ne hX (Ne.symm hEq)
          exact Nat.le_trans (Nat.le_of_lt hLt)
            (hAll.within x hLate c hC)
      · rintro (⟨hProper, hChildren⟩) x hX hOld
        by_cases hEq : x = plan.size
        · subst hEq
          rw [Plan.Proper, hAll.edited.kind _ hLt,
            hAll.edited.payload _ hLt, kind_grow,
            payload_grow, hAll.kinds, childKinds,
            hNone _ (Nat.le_refl _)]
          exact hProper
        · have hLate : (plan.grow k p ps).size ≤ x := by
            rw [hSize]
            exact Nat.lt_of_le_of_ne hX (Ne.symm hEq)
          exact hAll.proper hChildren x hLate hOld

end Edit

namespace Plan

theorem linked_empty :
    empty.Linked := by
  have hNode (x : NodeId) : empty.node x = default :=
    node_of_size_le (Nat.zero_le x)
  refine ⟨fun p c => ?_, fun p => ?_, rfl⟩
  · rw [children, parent?, hNode, hNode]
    exact ⟨fun hC => (List.not_mem_nil hC).elim,
      fun hC => by cases hC⟩
  · rw [children, hNode]
    exact List.nodup_nil

/- The plan of a document is what installing it leaves. -/
theorem ofDocument_of_installed
    {d : Document}
    {root : NodeId}
    {after : Plan}
    (hRun : (Edit.install d).run empty = (.ok root, after))
    (hInstalled : empty.Installed d root after) :
    ofDocument d = .ok after := by
  have hRoot : root = after.root :=
    hInstalled.fresh.trans hInstalled.edited.root.symm
  rw [ofDocument, hRun]
  dsimp only
  rw [hRoot]

/- The links of a document's plan are in order. -/
theorem linked_of_ofDocument
    {d : Document}
    {plan : Plan}
    (hPlan : ofDocument d = .ok plan) :
    plan.Linked := by
  rcases Edit.achieves_install d linked_empty
      (Nat.le_refl _) with ⟨root, after, hRun, hInstalled⟩
  rw [ofDocument_of_installed hRun hInstalled] at hPlan
  cases hPlan
  exact hInstalled.linked

end Plan

end Flwor

------------------------------------------------------------
-- Copies
------------------------------------------------------------

namespace Flwor

namespace Tree

theorem kind_document
    (t : Tree) :
    t.document.kind = t.kind := by
  rcases t with ⟨i, k, p, ps, cs⟩
  rfl

theorem documentAll_eq_map
    (ts : List Tree) :
    documentAll ts = ts.map document := by
  induction ts with
  | nil => rfl
  | cons t ts ih => rw [documentAll, ih, List.map_cons]

end Tree

namespace Plan

variable {start plan : Plan}
variable {loose : Set NodeId}
variable {n depth : Nat}
variable {id : NodeId}

/- The document of a reached node keeps all rules. -/
theorem WellFormed.document_proper
    (hFormed : plan.WellFormed)
    (hAt : plan.At n id)
    (hDepth : plan.size ≤ n + depth) :
    (plan.treeWithin depth id).document.Proper := by
  have hBound := hAt.lt_size hFormed.linked hFormed.root_lt
  induction depth generalizing n id with
  | zero => exact (Nat.not_lt.mpr hDepth hBound).elim
  | succ depth ih =>
      rw [treeWithin, Tree.document, Tree.documentAll_eq_map,
        List.map_map]
      refine .node ?_ ?_
      · have hProper := hFormed.proper id ⟨n, hAt⟩
        rw [Plan.Proper, childKinds] at hProper
        rw [List.map_map]
        have hKinds : (plan.children id).map
            (Document.kind ∘
              (Tree.document ∘ plan.treeWithin depth)) =
            (plan.children id).map plan.kind := by
          refine List.map_congr_left (fun c _ => ?_)
          rw [Function.comp, Function.comp,
            Tree.kind_document, kind_treeWithin]
        rw [hKinds]
        exact hProper
      · intro d hD
        rcases List.mem_map.mp hD with ⟨c, hC, rfl⟩
        have hAtC := hAt.child hC
        exact ih hAtC (by omega)
          (hAtC.lt_size hFormed.linked hFormed.root_lt)

namespace Surgery

/- A copy of a part of the plan before the rewrite. -/
theorem achieves_copy
    (hSurgery : start.Surgery loose start)
    (hFormed : start.WellFormed)
    (hReach : start.Reaches id) :
    (Edit.copy id).Achieves start (fun copied after =>
      start.Surgery loose after ∧
        start.Edited ∅ ∅ after ∧
        after.Detached copied ∧
        start.size ≤ copied ∧
        after.kind copied = start.kind id) := by
  rcases hReach with ⟨n, hAt⟩
  refine achieves_get_bind ?_
  refine (Edit.achieves_install _ hFormed.linked
    (Nat.le_of_lt hFormed.root_lt)).mono ?_
  intro copied after hInstalled
  have hNew : start.size ≤ copied :=
    Nat.le_of_eq hInstalled.fresh.symm
  refine ⟨?_, hInstalled.edited,
    ⟨hInstalled.lt, hInstalled.parent, ?_⟩, hNew, ?_⟩
  · refine hSurgery.step hInstalled.edited hInstalled.linked
      ?_ ?_
    · rintro p (hP | hP) _ c hC
      · exact hP.elim
      · exact live_of_size_le (hInstalled.within p hP c hC)
    · rintro x hX (hP | hP | hP) _ hNot
      · exact hP.elim
      · exact (hNot hP).elim
      · refine hInstalled.proper ?_ x hP hX
        exact hFormed.document_proper hAt (by omega)
  · rw [hInstalled.fresh, hInstalled.edited.root]
    exact hFormed.root_lt.ne'
  · rw [hInstalled.kind, document, Tree.kind_document, tree,
      kind_treeWithin]

end Surgery

end Plan

end Flwor
