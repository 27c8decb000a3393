import Flwor.Proofs.Convergence.Grouping
import Flwor.Proofs.Convergence.Lifting
import Flwor.Proofs.Convergence.Unnesting

/-
  Where regroupings are handed on.

  A join on which a regrouping is pending is a left join of
  numbered rows, and a check stands on a binding right above
  a join.  The labels of a tree say so: the annotations of
  its joins and annotated nodes, and what feeds these.  A
  subtree can be replaced without changing any label around
  it unless it feeds an annotated node.

  Key definitions include:
    * `Label`, `Label.Tidy`
    * `Tree.label`, `Tree.labels`
    * `Tree.Tidy`

  Key theorems include:
    * `Tree.labels_node_subset`
    * `Tree.tidy_iff`
    * `Tree.label_mapAt`
    * `Tree.labels_mapAt`
-/

------------------------------------------------------------
-- Labels
------------------------------------------------------------

namespace Flwor

/-
  What is seen of a node: its kind and its annotations, and
  what feeds it if a check or a regrouping is among them.
-/
@[ext] structure Label where
  id : NodeId
  kind : Kind
  properties : Properties
  input : Option (NodeId × Kind × Option String)

namespace Label

/- Whether a node has a check or a pending regrouping. -/
def Annotated
    (l : Label) : Prop :=
  l.properties.get? Properties.check ≠ none ∨
    l.properties.get? Properties.regroup ≠ none

/- The nodes whose labels count. -/
def Marked
    (l : Label) : Prop :=
  l.kind = .join ∨ l.Annotated

/-
  A regrouping is pending on a left join of numbered rows
  only, and a check stands right above a join.
-/
structure Tidy
    (l : Label) : Prop where
  join : l.properties.get? Properties.regroup ≠ none →
    l.kind = .join
  left : l.properties.get? Properties.regroup ≠ none →
    l.properties.flag Properties.leftJoin
  named : l.properties.get? Properties.regroup ≠ none →
    ∃ target source, l.properties.vars? Properties.regroup =
      some [target, source]
  numbered : l.properties.get? Properties.regroup ≠ none →
    ∃ c number, l.input = some (c, .count, some number)
  checked : l.properties.get? Properties.check ≠ none →
    l.kind = .letBind
  above : l.properties.get? Properties.check ≠ none →
    ∃ j, l.input = some (j, .join, none)

variable {l : Label}

theorem tidy_of_not_annotated
    (hPlain : ¬ l.Annotated) :
    l.Tidy := by
  have hCheck : l.properties.get? Properties.check = none :=
    not_not.mp (fun h => hPlain (.inl h))
  have hRegroup :
      l.properties.get? Properties.regroup = none :=
    not_not.mp (fun h => hPlain (.inr h))
  constructor <;> intro h
  · exact absurd hRegroup h
  · exact absurd hRegroup h
  · exact absurd hRegroup h
  · exact absurd hRegroup h
  · exact absurd hCheck h
  · exact absurd hCheck h

/- What feeds an annotated node is a join, or numbers rows. -/
theorem Tidy.exists_input
    (hTidy : l.Tidy)
    (hAnnotated : l.Annotated) :
    ∃ x k name, l.input = some (x, k, name) ∧
      (k = .join ∨ k = .count) := by
  rcases hAnnotated with hCheck | hRegroup
  · rcases hTidy.above hCheck with ⟨j, hInput⟩
    exact ⟨_, _, _, hInput, .inl rfl⟩
  · rcases hTidy.numbered hRegroup with ⟨c, number, hInput⟩
    exact ⟨_, _, _, hInput, .inr rfl⟩

end Label

namespace Tree

/- The label of the topmost node. -/
def label
    (t : Tree) : Label where
  id := t.id
  kind := t.kind
  properties := t.properties
  input :=
    if t.properties.get? Properties.check ≠ none ∨
        t.properties.get? Properties.regroup ≠ none then
      t.children.head?.map (fun c => (c.id, c.kind, c.binding?))
    else none

/- The labels of all joins and annotated nodes. -/
def labels
    (t : Tree) : Set Label :=
  {l | l.Marked ∧ ∃ s ∈ t.subtrees, s.label = l}

/- All regroupings and checks are in their places. -/
def Tidy
    (t : Tree) : Prop :=
  ∀ s ∈ t.subtrees, s.label.Tidy

variable {i : NodeId}
variable {k : Kind}
variable {p : Payload}
variable {ps : Properties}
variable {cs : List Tree}
variable {l : Label}
variable {known : Set Label}
variable {s t u : Tree}

theorem input_of_annotated
    (hAnnotated : t.label.Annotated) :
    t.label.input = t.children.head?.map
      (fun c => (c.id, c.kind, c.binding?)) :=
  if_pos hAnnotated

theorem input_of_not_annotated
    (hPlain : ¬ t.label.Annotated) :
    t.label.input = none :=
  if_neg hPlain

theorem labels_subset_of_mem
    (hS : s ∈ t.subtrees) :
    s.labels ⊆ t.labels := by
  rintro l ⟨hMarked, r, hR, hEq⟩
  exact ⟨hMarked, r, mem_subtrees_trans hR hS, hEq⟩

/- A node has the labels of its parts, and its own. -/
theorem labels_node_subset
    (hSelf : (Tree.node i k p ps cs).label.Marked →
      (Tree.node i k p ps cs).label ∈ known)
    (hParts : ∀ c ∈ cs, c.labels ⊆ known) :
    (Tree.node i k p ps cs).labels ⊆ known := by
  rintro l ⟨hMarked, s, hS, rfl⟩
  rcases mem_subtrees_cases hS with rfl | ⟨c, hC, hPart⟩
  · exact hSelf hMarked
  · exact hParts c hC ⟨hMarked, s, hPart, rfl⟩

/- A node that is not marked has the labels of its parts. -/
theorem labels_plain_subset
    (hPlain : ¬ (Tree.node i k p ps cs).label.Marked)
    (hParts : ∀ c ∈ cs, c.labels ⊆ known) :
    (Tree.node i k p ps cs).labels ⊆ known :=
  labels_node_subset (fun h => (hPlain h).elim) hParts

theorem labels_child_subset
    (hC : s ∈ t.children) :
    s.labels ⊆ t.labels :=
  labels_subset_of_mem
    (mem_subtrees_of_child hC (mem_subtrees_self s))

/- New nodes other than joins add no label. -/
theorem labels_new_subset
    (hKind : k ≠ .join)
    (hParts : ∀ c ∈ cs, c.labels ⊆ known) :
    (Tree.node i k p [] cs).labels ⊆ known := by
  refine labels_plain_subset ?_ hParts
  rintro (hJoin | hCheck | hRegroup)
  · exact hKind hJoin
  · exact hCheck rfl
  · exact hRegroup rfl

theorem labels_leaf_subset
    (hKind : k ≠ .join) :
    (Tree.node i k p [] []).labels ⊆ known :=
  labels_new_subset hKind nofun

theorem tidy_iff :
    t.Tidy ↔ ∀ l ∈ t.labels, l.Tidy := by
  constructor
  · rintro hTidy l ⟨_, s, hS, rfl⟩
    exact hTidy s hS
  · intro hLabels s hS
    by_cases hMarked : s.label.Annotated
    · exact hLabels _ ⟨.inr hMarked, s, hS, rfl⟩
    · exact Label.tidy_of_not_annotated hMarked

/- Without annotations everything is in its place. -/
theorem tidy_of_lacks
    (hCheck : t.Lacks Properties.check)
    (hRegroup : t.Lacks Properties.regroup) :
    t.Tidy := by
  intro s hS
  refine Label.tidy_of_not_annotated ?_
  rintro (h | h)
  · exact h (hCheck s hS)
  · exact h (hRegroup s hS)

namespace Tidy

variable (hTidy : t.Tidy)

include hTidy

theorem subtree
    (hS : s ∈ t.subtrees) :
    s.Tidy :=
  fun r hR => hTidy r (mem_subtrees_trans hR hS)

theorem child
    (hC : s ∈ t.children) :
    s.Tidy :=
  hTidy.subtree
    (mem_subtrees_of_child hC (mem_subtrees_self s))

theorem self :
    t.label.Tidy :=
  hTidy t (mem_subtrees_self t)

/- Only joins and checked bindings are marked. -/
theorem not_marked
    (hJoin : t.kind ≠ .join)
    (hOpen : t.kind = .letBind →
      t.properties.get? Properties.check = none) :
    ¬ t.label.Marked := by
  rintro (hKind | hCheck | hRegroup)
  · exact hJoin hKind
  · exact hCheck (hOpen (hTidy.self.checked hCheck))
  · exact hJoin (hTidy.self.join hRegroup)

end Tidy

end Tree

end Flwor

------------------------------------------------------------
-- Replaced Subtrees
------------------------------------------------------------

namespace Flwor

namespace Tree

variable {a : NodeId}
variable {l : Label}
variable {r s t u : Tree}

/- A subtree is above another one, apart from it or below. -/
theorem mem_around_or
    (hNodup : t.ids.Nodup)
    (hS : s ∈ t.subtrees)
    (hR : r ∈ t.subtrees) :
    r ∈ t.around s.id ∨ r ∈ s.subtrees := by
  have hPlaces : r ∈ t.around s.id ∨ ∃ s' ∈ t.subtrees,
      s'.id = s.id ∧ r ∈ s'.subtrees := by
    clear hNodup hS
    induction t using Tree.induction with
    | node i k p ps cs ih =>
        by_cases hEq : i = s.id
        · exact .inr ⟨_, mem_subtrees_self _, hEq, hR⟩
        rcases mem_subtrees_cases hR with rfl | ⟨c, hC, hR⟩
        · exact .inl (mem_around_node.mpr ⟨hEq, .inl rfl⟩)
        rcases ih c hC hR with hR | ⟨s', hS', hId, hR⟩
        · exact .inl (mem_around_node.mpr
            ⟨hEq, .inr ⟨c, hC, hR⟩⟩)
        · exact .inr
            ⟨s', mem_subtrees_of_child hC hS', hId, hR⟩
  refine hPlaces.imp_right ?_
  rintro ⟨s', hS', hId, hR⟩
  exact eq_of_id_eq hNodup hS' hS hId ▸ hR

/- What is around a subtree that is replaced is still there. -/
theorem mapAt_mem_subtrees
    {f : Tree → Tree}
    (hR : r ∈ t.around a) :
    r.mapAt a f ∈ (t.mapAt a f).subtrees := by
  induction t using Tree.induction with
  | node i k p ps cs ih =>
      rcases mem_around_node.mp hR with
        ⟨hNe, rfl | ⟨c, hC, hR⟩⟩
      · exact mem_subtrees_self _
      · rw [mapAt_of_ne hNe]
        exact mem_subtrees_of_child
          (List.mem_map.mpr ⟨c, hC, rfl⟩) (ih c hC hR)

/- So a node stays unless it is below that subtree. -/
theorem mem_ids_mapAt
    {x : NodeId}
    (hNodup : t.ids.Nodup)
    (hS : s ∈ t.subtrees)
    (hX : x ∈ t.ids) :
    x ∈ (t.mapAt s.id (fun _ => u)).ids ∨ x ∈ s.ids := by
  rcases mem_ids_iff.mp hX with ⟨r, hR, rfl⟩
  refine (mem_around_or hNodup hS hR).imp (fun hR => ?_)
    (fun hR => mem_ids_iff.mpr ⟨r, hR, rfl⟩)
  refine mem_ids_iff.mpr ⟨_, mapAt_mem_subtrees hR, ?_⟩
  rw [id_mapAt, if_neg (around_ne hR)]

/- What is labelled after a replacement was so before. -/
theorem labels_mapAt
    (hAround : ∀ r ∈ t.around a,
      (r.mapAt a (fun _ => u)).label = r.label)
    (hL : l ∈ (t.mapAt a (fun _ => u)).labels) :
    l ∈ t.labels ∨ l ∈ u.labels := by
  rcases hL with ⟨hMarked, s, hS, rfl⟩
  rcases mem_of_mem_mapAt hS with hS | ⟨r, hR, rfl⟩
  · exact .inr ⟨hMarked, s, hS, rfl⟩
  · rw [hAround r hR] at hMarked ⊢
    exact .inl ⟨hMarked, r, around_subset hR, rfl⟩

variable (hShaped : t.Shaped)
variable (hNodup : t.ids.Nodup)
variable (hTidy : t.Tidy)
variable (hS : s ∈ t.subtrees)
variable (hVariable : s.kind ≠ .variable)

include hNodup hS

/- A child that is replaced is the subtree itself. -/
theorem eq_of_child
    {r c : Tree}
    (hR : r ∈ t.subtrees)
    (hC : c ∈ r.children)
    (hId : c.id = s.id) :
    c = s :=
  eq_of_id_eq hNodup (mem_subtrees_trans
    (mem_subtrees_of_child hC (mem_subtrees_self c)) hR) hS hId

include hShaped hVariable

/- The row number of a stage that numbers rows is kept. -/
theorem binding?_mapAt_count
    {c : Tree}
    (hC : c ∈ t.subtrees)
    (hKind : c.kind = .count)
    (hNe : c.id ≠ s.id) :
    (c.mapAt s.id (fun _ => u)).binding? = c.binding? := by
  rcases c with ⟨i, k, p, ps, cs⟩
  cases hKind
  have hId : i ≠ s.id := hNe
  have hHere : (Tree.node i .count p ps cs).Shaped :=
    hShaped.subtree hC
  rcases hHere.variable (.inr (.inr rfl)) with
    ⟨x, hX, hXKind⟩
  have hXNe : x.id ≠ s.id := by
    intro hEq
    have hSame := eq_of_child hNodup hS hC
      (List.mem_of_getElem? hX) hEq
    exact hVariable (hSame ▸ hXKind)
  rw [mapAt_of_ne hId]
  change ((cs.map _)[1]?).bind var? = cs[1]?.bind var?
  rw [List.getElem?_map, hX]
  rcases x with ⟨j, l, q, qs, ds⟩
  have hJ : j ≠ s.id := hXNe
  change var? (mapAt s.id _ (.node j l q qs ds)) = _
  rw [mapAt_of_ne hJ]
  rfl

/- A join or a stage that numbers rows is the same input. -/
theorem inputs_mapAt
    {c : Tree}
    (hC : c ∈ t.subtrees)
    (hKind : c.kind = .join ∨ c.kind = .count)
    (hNe : c.id ≠ s.id) :
    (c.mapAt s.id (fun _ => u)).id = c.id ∧
      (c.mapAt s.id (fun _ => u)).kind = c.kind ∧
      (c.mapAt s.id (fun _ => u)).binding? = c.binding? := by
  have hBinding : (c.mapAt s.id (fun _ => u)).binding? =
      c.binding? := by
    rcases hKind with hJoin | hCount
    · rcases c with ⟨j, l, q, qs, ds⟩
      cases hJoin
      have hJ : j ≠ s.id := hNe
      rw [mapAt_of_ne hJ]
      rfl
    · exact binding?_mapAt_count hShaped hNodup hS hVariable
        hC hCount hNe
  rcases c with ⟨j, l, q, qs, ds⟩
  have hJ : j ≠ s.id := hNe
  rw [mapAt_of_ne hJ] at hBinding ⊢
  exact ⟨rfl, rfl, hBinding⟩

include hTidy

/-
  No label around a subtree changes with it, unless it feeds
  an annotated node and is another input afterwards.
-/
theorem label_mapAt
    (hHead : ∀ r ∈ t.around s.id, r.label.Annotated →
      r.children.head? = some s →
        u.id = s.id ∧ u.kind = s.kind ∧
          u.binding? = s.binding?)
    {r : Tree}
    (hR : r ∈ t.around s.id) :
    (r.mapAt s.id (fun _ => u)).label = r.label := by
  have hMem := around_subset hR
  have hNe := around_ne hR
  have hHere := hTidy r hMem
  have hFeeds := hHead r hR
  rcases r with ⟨i, k, p, ps, cs⟩
  have hId : i ≠ s.id := hNe
  rw [mapAt_of_ne hId]
  refine Label.ext rfl rfl rfl ?_
  by_cases hAnnotated : (Tree.node i k p ps cs).label.Annotated
  case neg =>
    rw [input_of_not_annotated hAnnotated]
    exact input_of_not_annotated hAnnotated
  rcases hHere.exists_input hAnnotated with
    ⟨x, k', name, hInput, hKinds⟩
  rcases cs with _ | ⟨c, cs⟩
  · rfl
  have hC : c ∈ (Tree.node i k p ps (c :: cs)).children :=
    List.mem_cons_self
  have hCMem : c ∈ t.subtrees := mem_subtrees_trans
    (mem_subtrees_of_child hC (mem_subtrees_self c)) hMem
  have hCKind : c.kind = .join ∨ c.kind = .count := by
    cases (input_of_annotated hAnnotated).symm.trans hInput
    exact hKinds
  have hSame : (c.mapAt s.id (fun _ => u)).id = c.id ∧
      (c.mapAt s.id (fun _ => u)).kind = c.kind ∧
      (c.mapAt s.id (fun _ => u)).binding? = c.binding? := by
    by_cases hEq : c.id = s.id
    · cases eq_of_child hNodup hS hMem hC hEq
      rw [mapAt_id]
      exact hFeeds hAnnotated rfl
    · exact inputs_mapAt hShaped hNodup hS hVariable hCMem
        hCKind hEq
  have hAfter : (Tree.node i k p ps ((c :: cs).map
      (mapAt s.id (fun _ => u)))).label.Annotated := hAnnotated
  rw [input_of_annotated hAnnotated, input_of_annotated hAfter]
  change some (_, _, _) = some (_, _, _)
  rw [hSame.1, hSame.2.1, hSame.2.2]

omit hShaped hNodup hS hVariable in
/- Most subtrees never feed an annotated node. -/
theorem head_ne_of_kind
    (hJoin : s.kind ≠ .join)
    (hCount : s.kind ≠ .count)
    {r : Tree}
    (hR : r ∈ t.around s.id)
    (hAnnotated : r.label.Annotated) :
    r.children.head? ≠ some s := by
  intro hHead
  rcases (hTidy r (around_subset hR)).exists_input hAnnotated
    with ⟨x, k, name, hInput, hKinds⟩
  rw [input_of_annotated hAnnotated, hHead] at hInput
  cases hInput
  exact hKinds.elim hJoin hCount

end Tree

end Flwor
