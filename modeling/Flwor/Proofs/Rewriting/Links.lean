import Mathlib.Data.List.Nodup
import Mathlib.Data.Set.Insert
import Flwor.Plan.Arena

/-
  The links of an arena, and what an edit may change of them.

  Links are in order if each child link has its parent link,
  and the other way round, no child is listed twice, and the
  root has no parent.  An edit never changes the kind or the
  payload of a node that exists; which nodes lose or gain
  children, and which nodes lose or gain a parent, is stated
  as two sets.

  Key definitions include:
    * `Plan.Linked`
    * `Plan.Detached`
    * `Plan.Edited`
    * `Plan.SameLinks`

  Key theorems include:
    * `Plan.Linked.detach`
    * `Plan.Linked.attach`
    * `Plan.Linked.exchange`
    * `Plan.Edited.trans`
-/

namespace Flwor

/- Statements about the few children of a new node. -/
theorem forall_mem_pair
    {α : Type}
    {p : α → Prop}
    {a b : α}
    (hA : p a)
    (hB : p b) :
    ∀ x ∈ [a, b], p x :=
  List.forall_mem_cons.mpr
    ⟨hA, List.forall_mem_singleton.mpr hB⟩

theorem forall_mem_triple
    {α : Type}
    {p : α → Prop}
    {a b c : α}
    (hA : p a)
    (hB : p b)
    (hC : p c) :
    ∀ x ∈ [a, b, c], p x :=
  List.forall_mem_cons.mpr ⟨hA, forall_mem_pair hB hC⟩

end Flwor

------------------------------------------------------------
-- Changing One Node
------------------------------------------------------------

namespace Flwor

namespace Plan

theorem node_modify
    (plan : Plan)
    (id : NodeId)
    (change : Node → Node)
    (x : NodeId) :
    (plan.modify id change).node x =
      if id = x ∧ x < plan.size then change (plan.node x)
      else plan.node x := by
  unfold modify node size
  simp only [Array.getD_eq_getD_getElem?,
    Array.getElem?_modify]
  by_cases hId : id = x
  · subst hId
    by_cases hSize : id < plan.nodes.size
    · simp [hSize]
    · simp [hSize]
  · simp [hId]

@[simp] theorem size_modify
    (plan : Plan)
    (id : NodeId)
    (change : Node → Node) :
    (plan.modify id change).size = plan.size := by
  simp [modify, size]

/- A node outside of the arena has no links. -/
theorem node_of_size_le
    {plan : Plan}
    {x : NodeId}
    (hSize : plan.size ≤ x) :
    plan.node x = default := by
  unfold node
  rw [Array.getD_eq_getD_getElem?, Array.getElem?_eq_none]
  · rfl
  · exact hSize

variable (plan : Plan)
variable (id x : NodeId)

@[simp] theorem size_setParent
    (parent : Option NodeId) :
    (plan.setParent id parent).size = plan.size :=
  size_modify ..

@[simp] theorem kind_setParent
    (parent : Option NodeId) :
    (plan.setParent id parent).kind x = plan.kind x := by
  unfold kind setParent
  rw [node_modify]
  split <;> rfl

@[simp] theorem payload_setParent
    (parent : Option NodeId) :
    (plan.setParent id parent).payload x =
      plan.payload x := by
  unfold payload setParent
  rw [node_modify]
  split <;> rfl

@[simp] theorem children_setParent
    (parent : Option NodeId) :
    (plan.setParent id parent).children x =
      plan.children x := by
  unfold children setParent
  rw [node_modify]
  split <;> rfl

theorem parent?_setParent
    {id : NodeId}
    (hSize : id < plan.size)
    (parent : Option NodeId) :
    (plan.setParent id parent).parent? x =
      if x = id then parent else plan.parent? x := by
  unfold parent? setParent
  rw [node_modify]
  by_cases hId : x = id
  · subst hId
    simp [hSize]
  · simp [hId, Ne.symm hId]

@[simp] theorem size_setChildren
    (children : List NodeId) :
    (plan.setChildren id children).size = plan.size :=
  size_modify ..

@[simp] theorem kind_setChildren
    (children : List NodeId) :
    (plan.setChildren id children).kind x =
      plan.kind x := by
  unfold kind setChildren
  rw [node_modify]
  split <;> rfl

@[simp] theorem payload_setChildren
    (children : List NodeId) :
    (plan.setChildren id children).payload x =
      plan.payload x := by
  unfold payload setChildren
  rw [node_modify]
  split <;> rfl

@[simp] theorem parent?_setChildren
    (children : List NodeId) :
    (plan.setChildren id children).parent? x =
      plan.parent? x := by
  unfold parent? setChildren
  rw [node_modify]
  split <;> rfl

theorem children_setChildren
    {id : NodeId}
    (hSize : id < plan.size)
    (children : List NodeId) :
    (plan.setChildren id children).children x =
      if x = id then children else plan.children x := by
  unfold Plan.children setChildren
  rw [node_modify]
  by_cases hId : x = id
  · subst hId
    simp [hSize]
  · simp [hId, Ne.symm hId]

end Plan

end Flwor

------------------------------------------------------------
-- Links
------------------------------------------------------------

namespace Flwor

namespace Plan

/- The links of an arena are in order. -/
structure Linked
    (plan : Plan) : Prop where
  mem_children_iff :
    ∀ p c, c ∈ plan.children p ↔ plan.parent? c = some p
  nodup : ∀ p, (plan.children p).Nodup
  root : plan.parent? plan.root = none

/- A node that has no parent and is not the root. -/
structure Detached
    (plan : Plan)
    (id : NodeId) : Prop where
  lt : id < plan.size
  parent : plan.parent? id = none
  root : id ≠ plan.root

variable {plan : Plan}
variable {p c : NodeId}
variable {index : Nat}

theorem lt_size_of_parent?
    (hParent : plan.parent? c = some p) :
    c < plan.size := by
  by_contra hSize
  rw [parent?, node_of_size_le (Nat.le_of_not_lt hSize)]
    at hParent
  cases hParent

theorem lt_size_of_mem_children
    (hMem : c ∈ plan.children p) :
    p < plan.size := by
  by_contra hSize
  rw [children, node_of_size_le (Nat.le_of_not_lt hSize)]
    at hMem
  cases hMem

theorem mem_children_of_child?
    (hChild : plan.child? p index = some c) :
    c ∈ plan.children p :=
  List.mem_of_getElem? hChild

namespace Linked

variable (hLinked : plan.Linked)

include hLinked

theorem parent?_of_mem
    (hMem : c ∈ plan.children p) :
    plan.parent? c = some p :=
  (hLinked.mem_children_iff p c).mp hMem

theorem parent?_of_child?
    (hChild : plan.child? p index = some c) :
    plan.parent? c = some p :=
  hLinked.parent?_of_mem (mem_children_of_child? hChild)

theorem lt_of_mem
    (hMem : c ∈ plan.children p) :
    c < plan.size :=
  lt_size_of_parent? (hLinked.parent?_of_mem hMem)

/- A child is not the root. -/
theorem ne_root_of_parent?
    (hParent : plan.parent? c = some p) :
    c ≠ plan.root := by
  rintro rfl
  rw [hLinked.root] at hParent
  cases hParent

/- A node finds its place among its siblings. -/
theorem exists_indexInParent?
    (hParent : plan.parent? c = some p) :
    ∃ index, plan.indexInParent? c = some index ∧
      plan.child? p index = some c := by
  have hMem := (hLinked.mem_children_iff p c).mpr hParent
  rw [indexInParent?, hParent]
  dsimp only
  have hSome : ((plan.children p).findIdx?
      (fun d => d == c)).isSome := by
    rw [List.findIdx?_isSome, List.any_eq_true]
    exact ⟨c, hMem, beq_self_eq_true c⟩
  rcases Option.isSome_iff_exists.mp hSome with
    ⟨index, hFind⟩
  refine ⟨index, hFind, ?_⟩
  rw [List.findIdx?_eq_some_iff_getElem] at hFind
  rcases hFind with ⟨hBound, hHere, _⟩
  rw [child?, List.getElem?_eq_getElem hBound]
  simpa using hHere

end Linked

end Plan

end Flwor

------------------------------------------------------------
-- Frames
------------------------------------------------------------

namespace Flwor

namespace Plan

/-
  What is left alone by edits: the nodes that existed keep
  their kinds and payloads, all but the touched ones their
  children, and all but the moved ones their parent.
-/
structure Edited
    (before : Plan)
    (touched moved : Set NodeId)
    (after : Plan) : Prop where
  root : after.root = before.root
  size : before.size ≤ after.size
  kind : ∀ x < before.size, after.kind x = before.kind x
  payload :
    ∀ x < before.size, after.payload x = before.payload x
  children :
    ∀ x < before.size, x ∉ touched →
      after.children x = before.children x
  parent :
    ∀ x < before.size, x ∉ moved →
      after.parent? x = before.parent? x

variable {before middle after : Plan}
variable {touched moved touched' moved' : Set NodeId}

theorem Edited.refl
    (plan : Plan) :
    plan.Edited ∅ ∅ plan :=
  ⟨rfl, Nat.le_refl _, fun _ _ => rfl, fun _ _ => rfl,
    fun _ _ _ => rfl, fun _ _ _ => rfl⟩

theorem Edited.trans
    (hFirst : before.Edited touched moved middle)
    (hSecond : middle.Edited touched' moved' after) :
    before.Edited (touched ∪ touched') (moved ∪ moved')
      after := by
  have hLt (x : NodeId) (hX : x < before.size) :
      x < middle.size :=
    Nat.lt_of_lt_of_le hX hFirst.size
  refine ⟨hSecond.root.trans hFirst.root,
    Nat.le_trans hFirst.size hSecond.size, ?_, ?_, ?_, ?_⟩
  · intro x hX
    rw [hSecond.kind x (hLt x hX), hFirst.kind x hX]
  · intro x hX
    rw [hSecond.payload x (hLt x hX), hFirst.payload x hX]
  · intro x hX hNot
    rw [Set.mem_union, not_or] at hNot
    rw [hSecond.children x (hLt x hX) hNot.2,
      hFirst.children x hX hNot.1]
  · intro x hX hNot
    rw [Set.mem_union, not_or] at hNot
    rw [hSecond.parent x (hLt x hX) hNot.2,
      hFirst.parent x hX hNot.1]

/- Of touched and moved nodes only those from before count. -/
theorem Edited.narrow
    (hEdited : before.Edited touched moved after)
    (hTouched :
      ∀ x ∈ touched, x < before.size → x ∈ touched')
    (hMoved : ∀ x ∈ moved, x < before.size → x ∈ moved') :
    before.Edited touched' moved' after :=
  ⟨hEdited.root, hEdited.size, hEdited.kind,
    hEdited.payload,
    fun x hX hNot => hEdited.children x hX
      (fun hMem => hNot (hTouched x hMem hX)),
    fun x hX hNot => hEdited.parent x hX
      (fun hMem => hNot (hMoved x hMem hX))⟩

theorem Edited.mono
    (hEdited : before.Edited touched moved after)
    (hTouched : touched ⊆ touched')
    (hMoved : moved ⊆ moved') :
    before.Edited touched' moved' after :=
  hEdited.narrow (fun _ hX _ => hTouched hX)
    (fun _ hX _ => hMoved hX)

theorem Edited.lt
    (hEdited : before.Edited touched moved after)
    {x : NodeId}
    (hX : x < before.size) :
    x < after.size :=
  Nat.lt_of_lt_of_le hX hEdited.size

/- A node that is not moved stays detached. -/
theorem Edited.detached
    (hEdited : before.Edited touched moved after)
    {x : NodeId}
    (hDetached : before.Detached x)
    (hNot : x ∉ moved) :
    after.Detached x := by
  refine ⟨hEdited.lt hDetached.lt, ?_, ?_⟩
  · rw [hEdited.parent x hDetached.lt hNot]
    exact hDetached.parent
  · rw [hEdited.root]
    exact hDetached.root

/- The places among the children of an untouched node. -/
theorem Edited.child?_eq
    (hEdited : before.Edited touched moved after)
    {p : NodeId}
    (hP : p < before.size)
    (hNot : p ∉ touched)
    (index : Nat) :
    after.child? p index = before.child? p index := by
  rw [child?, child?, hEdited.children p hP hNot]

/- Plans that differ in annotations and counters only. -/
structure SameLinks
    (before after : Plan) : Prop where
  root : after.root = before.root
  size : after.size = before.size
  kind : ∀ x, after.kind x = before.kind x
  payload : ∀ x, after.payload x = before.payload x
  children : ∀ x, after.children x = before.children x
  parent : ∀ x, after.parent? x = before.parent? x

theorem SameLinks.refl
    (plan : Plan) :
    plan.SameLinks plan :=
  ⟨rfl, rfl, fun _ => rfl, fun _ => rfl, fun _ => rfl,
    fun _ => rfl⟩

theorem SameLinks.trans
    (hFirst : before.SameLinks middle)
    (hSecond : middle.SameLinks after) :
    before.SameLinks after :=
  ⟨hSecond.root.trans hFirst.root,
    hSecond.size.trans hFirst.size,
    fun x => (hSecond.kind x).trans (hFirst.kind x),
    fun x => (hSecond.payload x).trans (hFirst.payload x),
    fun x => (hSecond.children x).trans (hFirst.children x),
    fun x => (hSecond.parent x).trans (hFirst.parent x)⟩

theorem SameLinks.edited
    (hSame : before.SameLinks after) :
    before.Edited ∅ ∅ after :=
  ⟨hSame.root, hSame.size.ge, fun x _ => hSame.kind x,
    fun x _ => hSame.payload x,
    fun x _ _ => hSame.children x,
    fun x _ _ => hSame.parent x⟩

theorem SameLinks.linked
    (hSame : before.SameLinks after)
    (hLinked : before.Linked) :
    after.Linked := by
  refine ⟨fun p c => ?_, fun p => ?_, ?_⟩
  · rw [hSame.children, hSame.parent]
    exact hLinked.mem_children_iff p c
  · rw [hSame.children]
    exact hLinked.nodup p
  · rw [hSame.root, hSame.parent]
    exact hLinked.root

end Plan

end Flwor

------------------------------------------------------------
-- Moving Nodes
------------------------------------------------------------

namespace Flwor

namespace Plan

/- The plan without the link to a child. -/
def detach
    (plan : Plan)
    (p : NodeId)
    (index : Nat)
    (c : NodeId) : Plan :=
  (plan.setChildren p
    ((plan.children p).eraseIdx index)).setParent c none

/- The plan with a link to a further child. -/
def attach
    (plan : Plan)
    (p : NodeId)
    (index : Nat)
    (c : NodeId) : Plan :=
  (plan.setChildren p
    ((plan.children p).insertIdx index c)).setParent
      c (some p)

/- The plan with one child in place of another. -/
def exchange
    (plan : Plan)
    (p : NodeId)
    (index : Nat)
    (old new : NodeId) : Plan :=
  ((plan.setChildren p
    ((plan.children p).set index new)).setParent
      new (some p)).setParent old none

/- The plan with one more node, which is detached. -/
def grow
    (plan : Plan)
    (kind : Kind)
    (payload : Payload)
    (properties : Properties) : Plan :=
  { plan with
    nodes := plan.nodes.push
      ⟨kind, payload, none, [], properties⟩ }

variable {plan : Plan}
variable {p c old new x : NodeId}
variable {index : Nat}

section Grow

variable (plan : Plan)
variable (k : Kind)
variable (payload : Payload)
variable (properties : Properties)

theorem node_grow
    (x : NodeId) :
    (plan.grow k payload properties).node x =
      if x = plan.size then
        ⟨k, payload, none, [], properties⟩
      else plan.node x := by
  unfold grow node size
  simp only [Array.getD_eq_getD_getElem?,
    Array.getElem?_push]
  by_cases hX : x = plan.nodes.size
  · simp [hX]
  · simp [hX]

@[simp] theorem size_grow :
    (plan.grow k payload properties).size =
      plan.size + 1 := by
  simp [grow, size]

theorem kind_grow :
    (plan.grow k payload properties).kind plan.size = k := by
  rw [kind, node_grow, if_pos rfl]

theorem payload_grow :
    (plan.grow k payload properties).payload plan.size =
      payload := by
  rw [Plan.payload, node_grow, if_pos rfl]

theorem children_grow
    (x : NodeId) :
    (plan.grow k payload properties).children x =
      plan.children x := by
  unfold children
  rw [node_grow]
  split
  · next hX =>
      rw [hX, node_of_size_le (Nat.le_refl _)]
      rfl
  · rfl

theorem parent?_grow
    (x : NodeId) :
    (plan.grow k payload properties).parent? x =
      plan.parent? x := by
  unfold parent?
  rw [node_grow]
  split
  · next hX =>
      rw [hX, node_of_size_le (Nat.le_refl _)]
      rfl
  · rfl

theorem edited_grow :
    plan.Edited ∅ ∅ (plan.grow k payload properties) := by
  refine ⟨rfl, by simp, fun x hX => ?_, fun x hX => ?_,
    fun x _ _ => children_grow plan k payload properties x,
    fun x _ _ => parent?_grow plan k payload properties x⟩
  · rw [kind, node_grow, if_neg (Nat.ne_of_lt hX), kind]
  · rw [Plan.payload, node_grow, if_neg (Nat.ne_of_lt hX),
      Plan.payload]

end Grow

theorem Linked.grow
    (hLinked : plan.Linked)
    (k : Kind)
    (payload : Payload)
    (properties : Properties) :
    (plan.grow k payload properties).Linked := by
  refine ⟨fun p c => ?_, fun p => ?_, ?_⟩
  · rw [children_grow, parent?_grow]
    exact hLinked.mem_children_iff p c
  · rw [children_grow]
    exact hLinked.nodup p
  · rw [parent?_grow]
    exact hLinked.root

/- The new node has no links and is not the root. -/
theorem detached_grow
    (hRoot : plan.root < plan.size)
    (k : Kind)
    (payload : Payload)
    (properties : Properties) :
    (plan.grow k payload properties).Detached plan.size := by
  refine ⟨by simp, ?_, Nat.ne_of_gt hRoot⟩
  rw [parent?_grow, parent?,
    node_of_size_le (Nat.le_refl _)]
  rfl

section Detach

variable (hLinked : plan.Linked)
variable (hChild : plan.child? p index = some c)

omit hLinked in
include hChild in
theorem children_detach :
    (plan.detach p index c).children x =
      if x = p then (plan.children p).eraseIdx index
      else plan.children x := by
  have hSize :=
    lt_size_of_mem_children (mem_children_of_child? hChild)
  rw [detach, children_setParent,
    children_setChildren plan x hSize]

include hLinked hChild

theorem parent?_detach :
    (plan.detach p index c).parent? x =
      if x = c then none else plan.parent? x := by
  have hSize :=
    lt_size_of_parent? (hLinked.parent?_of_child? hChild)
  rw [detach, parent?_setParent _ x (by simpa using hSize),
    parent?_setChildren]

theorem edited_detach :
    plan.Edited {p} {c} (plan.detach p index c) := by
  refine ⟨rfl, by simp [detach], fun x _ => by simp [detach],
    fun x _ => by simp [detach], fun x _ hNot => ?_,
    fun x _ hNot => ?_⟩
  · rw [children_detach hChild,
      if_neg (by simpa using hNot)]
  · rw [parent?_detach hLinked hChild,
      if_neg (by simpa using hNot)]

/- The removed child was listed once. -/
theorem mem_eraseIdx_iff :
    x ∈ (plan.children p).eraseIdx index ↔
      x ≠ c ∧ x ∈ plan.children p := by
  have hBound : index < (plan.children p).length :=
    (List.getElem?_eq_some_iff.mp hChild).1
  have hHere : (plan.children p)[index] = c :=
    (List.getElem?_eq_some_iff.mp hChild).2
  have hErase : (plan.children p).eraseIdx index =
      (plan.children p).erase c := by
    rw [← hHere]
    exact (List.Nodup.erase_getElem (hLinked.nodup p) index
      hBound).symm
  rw [hErase, (hLinked.nodup p).mem_erase_iff]

theorem Linked.detach :
    (plan.detach p index c).Linked := by
  have hParent := hLinked.parent?_of_child? hChild
  refine ⟨fun q d => ?_, fun q => ?_, ?_⟩
  · rw [children_detach hChild,
      parent?_detach hLinked hChild]
    by_cases hQ : q = p
    · subst hQ
      rw [if_pos rfl, mem_eraseIdx_iff hLinked hChild,
        hLinked.mem_children_iff]
      by_cases hD : d = c
      · simp [hD]
      · simp [hD]
    · rw [if_neg hQ, hLinked.mem_children_iff]
      by_cases hD : d = c
      · rw [if_pos hD, hD, hParent]
        simp [Ne.symm hQ]
      · rw [if_neg hD]
  · rw [children_detach hChild]
    split
    · exact (hLinked.nodup p).sublist
        (List.eraseIdx_sublist _ _)
    · exact hLinked.nodup q
  · rw [parent?_detach hLinked hChild]
    split
    · rfl
    · exact hLinked.root

/- The removed child can be attached again. -/
theorem detached_detach :
    (plan.detach p index c).Detached c := by
  have hParent := hLinked.parent?_of_child? hChild
  refine ⟨?_, ?_, hLinked.ne_root_of_parent? hParent⟩
  · simpa [Plan.detach] using lt_size_of_parent? hParent
  · rw [parent?_detach hLinked hChild, if_pos rfl]

end Detach

section Attach

variable (hLinked : plan.Linked)
variable (hDetached : plan.Detached c)
variable (hP : p < plan.size)
variable (hIndex : index ≤ (plan.children p).length)

include hP in
theorem children_attach :
    (plan.attach p index c).children x =
      if x = p then (plan.children p).insertIdx index c
      else plan.children x := by
  rw [attach, children_setParent,
    children_setChildren plan x hP]

include hDetached in
theorem parent?_attach :
    (plan.attach p index c).parent? x =
      if x = c then some p else plan.parent? x := by
  rw [attach, parent?_setParent _ x
    (by simpa using hDetached.lt), parent?_setChildren]

include hDetached hP in
theorem edited_attach :
    plan.Edited {p} {c} (plan.attach p index c) := by
  refine ⟨rfl, by simp [attach], fun x _ => by simp [attach],
    fun x _ => by simp [attach], fun x _ hNot => ?_,
    fun x _ hNot => ?_⟩
  · rw [children_attach hP, if_neg (by simpa using hNot)]
  · rw [parent?_attach hDetached,
      if_neg (by simpa using hNot)]

include hLinked hDetached in
/- A detached node is the child of no node. -/
theorem Detached.not_mem_children :
    c ∉ plan.children p := by
  rw [hLinked.mem_children_iff, hDetached.parent]
  simp

include hLinked hDetached hP hIndex in
theorem Linked.attach :
    (plan.attach p index c).Linked := by
  have hNot (q : NodeId) : c ∉ plan.children q :=
    hDetached.not_mem_children hLinked
  refine ⟨fun q d => ?_, fun q => ?_, ?_⟩
  · rw [children_attach hP, parent?_attach hDetached]
    by_cases hQ : q = p
    · subst hQ
      rw [if_pos rfl, List.mem_insertIdx hIndex,
        hLinked.mem_children_iff]
      by_cases hD : d = c
      · simp [hD]
      · simp [hD]
    · rw [if_neg hQ, hLinked.mem_children_iff]
      by_cases hD : d = c
      · rw [if_pos hD, hD, hDetached.parent]
        simp [Ne.symm hQ]
      · rw [if_neg hD]
  · rw [children_attach hP]
    split
    · have hPerm := List.perm_insertIdx c
        (plan.children p) hIndex
      rw [hPerm.nodup_iff]
      exact List.nodup_cons.mpr
        ⟨hNot p, hLinked.nodup p⟩
    · exact hLinked.nodup q
  · rw [parent?_attach hDetached]
    split
    · next hRoot => exact (hDetached.root hRoot.symm).elim
    · exact hLinked.root

end Attach

section Exchange

variable (hLinked : plan.Linked)
variable (hChild : plan.child? p index = some old)
variable (hDetached : plan.Detached new)

include hChild in
theorem children_exchange :
    (plan.exchange p index old new).children x =
      if x = p then (plan.children p).set index new
      else plan.children x := by
  have hSize :=
    lt_size_of_mem_children (mem_children_of_child? hChild)
  rw [exchange, children_setParent, children_setParent,
    children_setChildren plan x hSize]

include hLinked hChild hDetached in
theorem parent?_exchange :
    (plan.exchange p index old new).parent? x =
      if x = old then none
      else if x = new then some p
      else plan.parent? x := by
  have hOld :=
    lt_size_of_parent? (hLinked.parent?_of_child? hChild)
  rw [exchange, parent?_setParent _ x (by simpa using hOld),
    parent?_setParent _ x (by simpa using hDetached.lt),
    parent?_setChildren]

include hLinked hChild hDetached in
theorem edited_exchange :
    plan.Edited {p} {old, new}
      (plan.exchange p index old new) := by
  refine ⟨rfl, by simp [exchange],
    fun x _ => by simp [exchange],
    fun x _ => by simp [exchange], fun x _ hNot => ?_,
    fun x _ hNot => ?_⟩
  · rw [children_exchange hChild,
      if_neg (by simpa using hNot)]
  · rw [Set.mem_insert_iff, Set.mem_singleton_iff, not_or]
      at hNot
    rw [parent?_exchange hLinked hChild hDetached,
      if_neg hNot.1, if_neg hNot.2]

include hLinked hChild in
/- The old child is listed once, and so is the new one. -/
theorem set_eq_map :
    (plan.children p).set index new =
      (plan.children p).map (fun c =>
        if c = old then new else c) := by
  have hBound : index < (plan.children p).length :=
    (List.getElem?_eq_some_iff.mp hChild).1
  have hHere : (plan.children p)[index] = old :=
    (List.getElem?_eq_some_iff.mp hChild).2
  refine List.ext_getElem (by simp) (fun i h₁ h₂ => ?_)
  rw [List.getElem_set, List.getElem_map]
  by_cases hI : index = i
  · subst hI
    rw [if_pos rfl, if_pos hHere]
  · rw [if_neg hI, if_neg]
    intro hEq
    exact hI (((hLinked.nodup p).getElem_inj_iff).mp
      (hHere.trans hEq.symm))

include hLinked hChild in
/- Every list of children has the new child for the old one. -/
theorem children_exchange_eq_map :
    (plan.exchange p index old new).children x =
      (plan.children x).map (fun c =>
        if c = old then new else c) := by
  rw [children_exchange hChild]
  by_cases hX : x = p
  · rw [if_pos hX, hX, set_eq_map hLinked hChild]
  · rw [if_neg hX]
    refine (List.map_id _).symm.trans ?_
    refine List.map_congr_left (fun c hC => ?_)
    rw [if_neg, id]
    rintro rfl
    have hOld := hLinked.parent?_of_child? hChild
    rw [hLinked.parent?_of_mem hC] at hOld
    exact hX (Option.some.inj hOld)

include hLinked hChild hDetached in
theorem Linked.exchange :
    (plan.exchange p index old new).Linked := by
  have hParent := hLinked.parent?_of_child? hChild
  have hNe : new ≠ old := by
    rintro rfl
    rw [hDetached.parent] at hParent
    cases hParent
  have hNot (q : NodeId) : new ∉ plan.children q :=
    hDetached.not_mem_children hLinked
  refine ⟨fun q d => ?_, fun q => ?_, ?_⟩
  · rw [children_exchange_eq_map hLinked hChild,
      parent?_exchange hLinked hChild hDetached,
      List.mem_map]
    by_cases hOld : d = old
    · subst hOld
      rw [if_pos rfl]
      simp only [reduceCtorEq, iff_false, not_exists,
        not_and]
      intro c _ hEq
      split at hEq
      · exact hNe hEq
      · next hC => exact hC hEq
    · rw [if_neg hOld]
      by_cases hNew : d = new
      · subst hNew
        rw [if_pos rfl, Option.some.injEq]
        constructor
        · rintro ⟨c, hC, hEq⟩
          split at hEq
          · next hHere =>
              subst hHere
              rw [hLinked.mem_children_iff, hParent] at hC
              exact Option.some.inj hC
          · subst hEq
            exact (hNot q hC).elim
        · rintro rfl
          exact ⟨old, mem_children_of_child? hChild,
            if_pos rfl⟩
      · rw [if_neg hNew, ← hLinked.mem_children_iff]
        constructor
        · rintro ⟨c, hC, hEq⟩
          split at hEq
          · exact (hNew hEq.symm).elim
          · subst hEq
            exact hC
        · exact fun hD => ⟨d, hD, if_neg hOld⟩
  · rw [children_exchange hChild]
    split
    · exact (hLinked.nodup p).set (hNot p)
    · exact hLinked.nodup q
  · rw [parent?_exchange hLinked hChild hDetached]
    split
    · rfl
    · split
      · next hRoot => exact (hDetached.root hRoot.symm).elim
      · exact hLinked.root

end Exchange

end Plan

end Flwor
