import Mathlib.Data.List.Basic
import Flwor.Proofs.Collecting
import Flwor.Proofs.RowMeaning

/-
  Grouping rows is partitioning them.

  Rows belong together if their keys are as long as each
  other and equal item by item, where items that are no
  number count as equal.  Each class yields one row, in the
  order of the first rows, and no row is lost, counted twice
  or put into another class.

  Key definitions include:
    * `Item.groupsWith`, `Sequence.groupsWith`
    * `Row.groupsWith`
    * `Row.representatives`

  Key theorems include:
    * `perm_flatMap_filter`
    * `Row.equivalence_groupsWith`
    * `groupRows_eq`
    * `Operator.groupBy_partitions`
-/

------------------------------------------------------------
-- First Elements of Classes
------------------------------------------------------------

namespace Flwor

variable {α κ : Type}

/-
  Only the first of related elements is kept, so what
  follows an element is treated without those related to it.
-/
theorem eraseDupsBy_induct
    {r : α → α → Bool}
    {motive : List α → Prop}
    (nil : motive [])
    (cons : ∀ a as,
      motive (as.filter (fun b => r b a = false)) →
        motive (a :: as)) :
    ∀ as, motive as
  | [] => nil
  | a :: as =>
      cons a as (eraseDupsBy_induct nil cons
        (as.filter (fun b => r b a = false)))
termination_by as => as.length
decreasing_by
  exact Nat.lt_succ_of_le (List.length_filter_le _ as)

theorem mem_of_mem_eraseDupsBy
    {r : α → α → Bool}
    {a : α}
    {as : List α}
    (hMem : a ∈ as.eraseDupsBy r) :
    a ∈ as := by
  induction as using eraseDupsBy_induct (r := r) with
  | nil => exact hMem
  | cons b rest ih =>
      rw [List.eraseDupsBy_cons, List.mem_cons] at hMem
      rcases hMem with rfl | hMem
      · exact List.mem_cons_self
      · exact List.mem_cons_of_mem _
          (List.mem_of_mem_filter (ih hMem))

/- No two of the elements that are kept are related. -/
theorem pairwise_eraseDupsBy
    (r : α → α → Bool)
    (as : List α) :
    (as.eraseDupsBy r).Pairwise (fun a b =>
      r b a = false) := by
  induction as using eraseDupsBy_induct (r := r) with
  | nil => exact .nil
  | cons a rest ih =>
      rw [List.eraseDupsBy_cons, List.pairwise_cons]
      refine ⟨fun b hB => ?_, ih⟩
      simpa using (List.mem_filter.mp
        (mem_of_mem_eraseDupsBy hB)).2

/- The duplicates among images are those of a relation. -/
theorem eraseDups_map
    [BEq κ]
    (f : α → κ)
    (as : List α) :
    (as.map f).eraseDups =
      (as.eraseDupsBy (fun b a => f b == f a)).map f := by
  induction as using eraseDupsBy_induct
    (r := fun b a => f b == f a) with
  | nil => rfl
  | cons a rest ih =>
      rw [List.map_cons, List.eraseDups_cons,
        List.eraseDupsBy_cons, List.map_cons, ← ih,
        List.filter_map]
      simp [Function.comp_def]

section Equivalent

variable {r : α → α → Bool}
variable (hEquivalence : Equivalence (fun a b => r a b = true))
include hEquivalence

/- Related elements are related to the same ones. -/
theorem related_congr
    {a b : α}
    (hRelated : r a b = true)
    (c : α) :
    r a c = r b c := by
  rw [Bool.eq_iff_iff]
  exact ⟨hEquivalence.trans (hEquivalence.symm hRelated),
    hEquivalence.trans hRelated⟩

/-
  What is related to a later element that was kept is not
  related to the first one.
-/
theorem filter_apart
    {a b : α}
    (hApart : r b a = false)
    (rest : List α) :
    (a :: rest).filter (r b) =
      (rest.filter (fun c => r c a = false)).filter
        (r b) := by
  rw [List.filter_cons_of_neg (by simp [hApart]),
    List.filter_filter]
  refine List.filter_congr (fun c _ => ?_)
  cases hC : r b c with
  | false => rfl
  | true =>
      rw [related_congr hEquivalence hC a] at hApart
      simp [hApart]

/- An element that is kept is the first of its class. -/
theorem find?_of_mem_eraseDupsBy
    {b : α}
    {as : List α}
    (hMem : b ∈ as.eraseDupsBy r) :
    as.find? (r b) = some b := by
  induction as using eraseDupsBy_induct (r := r) with
  | nil => cases hMem
  | cons a rest ih =>
      rw [List.eraseDupsBy_cons, List.mem_cons] at hMem
      rcases hMem with rfl | hMem
      · rw [List.find?_cons, hEquivalence.refl b]
      · have hApart : r b a = false := by
          simpa using (List.mem_filter.mp
            (mem_of_mem_eraseDupsBy hMem)).2
        rw [← List.head?_filter,
          filter_apart hEquivalence hApart,
          List.head?_filter]
        exact ih hMem

/- The classes of the elements that are kept hold them all. -/
theorem perm_flatMap_filter
    (as : List α) :
    ((as.eraseDupsBy r).flatMap (fun a =>
      as.filter (r a))).Perm as := by
  induction as using eraseDupsBy_induct (r := r) with
  | nil => exact .nil
  | cons a rest ih =>
      have hHere : (a :: rest).filter (r a) =
          a :: rest.filter (fun b => !decide
            (r b a = false)) := by
        rw [List.filter_cons_of_pos (hEquivalence.refl a)]
        congr 1
        refine List.filter_congr (fun b _ => ?_)
        have hSymm : r a b = r b a := by
          rw [Bool.eq_iff_iff]
          exact ⟨hEquivalence.symm, hEquivalence.symm⟩
        simp [hSymm]
      have hOthers : ∀ b ∈ (rest.filter (fun b =>
            r b a = false)).eraseDupsBy r,
          (a :: rest).filter (r b) =
            (rest.filter (fun c => r c a = false)).filter
              (r b) := by
        intro b hB
        refine filter_apart hEquivalence ?_ rest
        simpa using (List.mem_filter.mp
          (mem_of_mem_eraseDupsBy hB)).2
      rw [List.eraseDupsBy_cons, List.flatMap_cons, hHere,
        List.flatMap_congr hOthers, List.cons_append,
        List.perm_cons]
      exact ((List.Perm.append_left _ ih).trans
        List.perm_append_comm).trans
          (List.filter_append_perm _ rest)

end Equivalent

end Flwor

------------------------------------------------------------
-- Rows That Group Together
------------------------------------------------------------

namespace Flwor

namespace Item

/-
  Whether two items group together: if they are equal, or
  neither of them is a number.
-/
def groupsWith
    (a b : Item) : Bool :=
  a.satisfies .eq b || (a.isNaN && b.isNaN)

/- Only doubles that are no number have no key. -/
theorem key?_eq_none_iff
    (a : Item) :
    a.key? = none ↔ a.isNaN = true := by
  rw [isNaN_eq_true_iff]
  cases a <;> simp [key?, family, number?]

/- What groups together shares a key, or has none. -/
theorem groupsWith_iff
    (a b : Item) :
    a.groupsWith b = true ↔ a.key? = b.key? := by
  rw [groupsWith, Bool.or_eq_true, satisfies_eq_iff,
    Bool.and_eq_true, ← key?_eq_none_iff,
    ← key?_eq_none_iff]
  cases a.key? with
  | none => simp [eq_comm]
  | some key => simp [eq_comm]

end Item

namespace Sequence

/- Whether two keys are equally long and group together. -/
def groupsWith
    (s t : Sequence) : Bool :=
  s.length == t.length
    && (s.zip t).all (fun p => p.1.groupsWith p.2)

theorem groupsWith_iff
    (s t : Sequence) :
    s.groupsWith t = true ↔
      s.map Item.key? = t.map Item.key? := by
  induction s generalizing t with
  | nil => cases t <;> simp [groupsWith]
  | cons a rest ih =>
      cases t with
      | nil => simp [groupsWith]
      | cons b more =>
          have hRest := ih more
          rw [groupsWith, Bool.and_eq_true, beq_iff_eq]
            at hRest
          rw [groupsWith, List.map_cons, List.map_cons,
            List.cons.injEq, ← Item.groupsWith_iff,
            ← hRest]
          simp only [List.length_cons, List.zip_cons_cons,
            List.all_cons, Bool.and_eq_true, beq_iff_eq,
            Nat.add_right_cancel_iff]
          exact and_left_comm

end Sequence

namespace Row

/- The value of a slot, if the row has it. -/
def valueAt
    (row : Row)
    (index : Nat) : Sequence :=
  (row[index]?).getD []

/- Whether two rows group together by some slots. -/
def groupsWith
    (keys : List Nat)
    (r s : Row) : Bool :=
  keys.all (fun index =>
    (r.valueAt index).groupsWith (s.valueAt index))

/- The first row of each class, in order. -/
def representatives
    (keys : List Nat)
    (rows : List Row) : List Row :=
  rows.eraseDupsBy (groupsWith keys)

variable (keys : List Nat)

/- The identity of a row by some slots. -/
def identity
    (row : Row) : List (List (Option Item.Key)) :=
  keys.map (fun index =>
    (row.valueAt index).map Item.key?)

theorem groupsWith_eq
    (r s : Row) :
    groupsWith keys r s =
      (r.identity keys == s.identity keys) := by
  rw [Bool.eq_iff_iff, beq_iff_eq, identity, identity,
    List.map_inj_left, groupsWith, List.all_eq_true]
  simp only [Sequence.groupsWith_iff]

theorem equivalence_groupsWith :
    Equivalence (fun r s : Row =>
      groupsWith keys r s = true) := by
  simp only [groupsWith_eq, beq_iff_eq]
  exact ⟨fun _ => rfl, Eq.symm, Eq.trans⟩

end Row

end Flwor

------------------------------------------------------------
-- The Groups of Rows
------------------------------------------------------------

namespace Flwor

namespace GroupEntry

/- What a row that has all the slots is reduced to. -/
def reduced
    (keys values : List Nat)
    (row : Row) : GroupEntry :=
  ⟨keys.map row.valueAt, values.map row.valueAt⟩

theorem slots_eq
    {row : Row}
    {indices : List Nat}
    (hPresent : ∀ i ∈ indices, i < row.length) :
    row.slots indices = .ok (indices.map row.valueAt) := by
  induction indices with
  | nil => rfl
  | cons i rest ih =>
      rw [List.forall_mem_cons] at hPresent
      have hRest := ih hPresent.2
      rw [Row.slots] at hRest ⊢
      rw [List.mapM_cons, hRest, Row.slot,
        List.getElem?_eq_getElem hPresent.1]
      simp only [List.map_cons, Row.valueAt,
        List.getElem?_eq_getElem hPresent.1]
      rfl

theorem ofRow_eq
    {keys values : List Nat}
    {row : Row}
    (hPresent : ∀ i ∈ keys ++ values, i < row.length) :
    ofRow keys values row = .ok (reduced keys values row) := by
  rw [ofRow, slots_eq (fun i hI =>
      hPresent i (List.mem_append_left _ hI)),
    slots_eq (fun i hI =>
      hPresent i (List.mem_append_right _ hI))]
  rfl

theorem identity_reduced
    (keys values : List Nat)
    (row : Row) :
    (reduced keys values row).identity =
      row.identity keys := by
  rw [identity, reduced, Row.identity, List.map_map]
  rfl

/- The columns of a class are what its rows hold. -/
theorem gather_reduced
    (keys values : List Nat)
    (rows : List Row) :
    (List.range values.length).map
        (gather (rows.map (reduced keys values))) =
      values.map (fun i =>
        rows.flatMap (fun row => row.valueAt i)) := by
  refine List.ext_getElem (by simp) (fun n hN _ => ?_)
  rw [List.length_map, List.length_range] at hN
  simp [gather, List.flatMap_map, reduced, hN]

theorem mapM_ofRow_eq
    {keys values : List Nat}
    {rows : List Row}
    (hPresent : ∀ row ∈ rows, ∀ i ∈ keys ++ values,
      i < row.length) :
    rows.mapM (ofRow keys values) =
      .ok (rows.map (reduced keys values)) := by
  induction rows with
  | nil => rfl
  | cons row rest ih =>
      rw [List.forall_mem_cons] at hPresent
      rw [List.mapM_cons, ih hPresent.2,
        ofRow_eq hPresent.1]
      rfl

end GroupEntry

/-
  One row for each class: the context, the keys of the first
  row, and the values of all rows of the class in order.
-/
theorem groupRows_eq
    (context : Row)
    {keys values : List Nat}
    {rows : List Row}
    (hPresent : ∀ row ∈ rows, ∀ i ∈ keys ++ values,
      i < row.length) :
    groupRows context keys values rows =
      .ok ((Row.representatives keys rows).map (fun first =>
        context ++ keys.map first.valueAt
          ++ values.map (fun i =>
            (rows.filter (Row.groupsWith keys first)).flatMap
              (fun row => row.valueAt i)))) := by
  have hIdentity : GroupEntry.identity ∘
      GroupEntry.reduced keys values = Row.identity keys :=
    funext (GroupEntry.identity_reduced keys values)
  have hRelation : Row.groupsWith keys = fun r s =>
      r.identity keys == s.identity keys :=
    funext (fun r => funext (Row.groupsWith_eq keys r))
  rw [groupRows, GroupEntry.mapM_ofRow_eq hPresent]
  refine congrArg Except.ok ?_
  rw [groupEntries_eq, mergeGroups, List.map_map, hIdentity,
    eraseDups_map, ← hRelation, ← Row.representatives,
    List.filterMap_map, List.map_filterMap]
  refine (List.filterMap_congr (fun first hFirst => ?_)).trans
    (congrFun List.filterMap_eq_map _)
  -- The entries with the identity of the first row.
  have hClass : (rows.map
      (GroupEntry.reduced keys values)).filter (fun e =>
        e.identity == first.identity keys) =
      (rows.filter (Row.groupsWith keys first)).map
        (GroupEntry.reduced keys values) := by
    rw [List.filter_map]
    refine congrArg _ (List.filter_congr (fun row _ => ?_))
    rw [Function.comp_apply, GroupEntry.identity_reduced,
      Row.groupsWith_eq]
    exact Bool.beq_comm
  have hHead :
      (rows.filter (Row.groupsWith keys first)).head? =
        some first := by
    rw [List.head?_filter]
    exact find?_of_mem_eraseDupsBy
      (Row.equivalence_groupsWith keys) hFirst
  simp only [Function.comp_apply, hClass, List.head?_map,
    hHead, Option.map_some, GroupEntry.gather_reduced]
  rfl

namespace Operator

/-
  A grouping partitions the rows of its input: by the keys,
  which is an equivalence, into classes of which each yields
  one row in the order of the first rows.
-/
theorem groupBy_partitions
    (context : Row)
    (keys aggregates : List Slot)
    (rows : List Row)
    (hPresent : ∀ row ∈ rows, ∀ slot ∈ keys ++ aggregates,
      slot.index < row.length) :
    let alike := Row.groupsWith (keys.map Slot.index)
    let firsts :=
      Row.representatives (keys.map Slot.index) rows
    let groups := firsts.map (fun first =>
      context
        ++ keys.map (fun slot => first.valueAt slot.index)
        ++ aggregates.map (fun slot =>
            (rows.filter (alike first)).flatMap (fun row =>
              row.valueAt slot.index)))
    groupRows context (keys.map Slot.index)
        (aggregates.map Slot.index) rows = .ok groups ∧
      (∀ input : Operator, input.rows? context = some rows →
        rows? (.groupBy input keys aggregates) context =
          some groups) ∧
      Equivalence (fun r s => alike r s = true) ∧
      firsts.Pairwise (fun r s => alike r s = false) ∧
      (∀ first ∈ firsts,
        rows.find? (alike first) = some first) ∧
      (firsts.flatMap (fun first =>
        rows.filter (alike first))).Perm rows := by
  intro alike firsts groups
  have hEquivalence : Equivalence (fun r s =>
      alike r s = true) :=
    Row.equivalence_groupsWith _
  have hGroups : groupRows context (keys.map Slot.index)
      (aggregates.map Slot.index) rows = .ok groups := by
    rw [groupRows_eq]
    · simp only [groups, firsts, alike, List.map_map]
      rfl
    · intro row hRow i hI
      rw [← List.map_append, List.mem_map] at hI
      rcases hI with ⟨slot, hSlot, rfl⟩
      exact hPresent row hRow slot hSlot
  have hApart : firsts.Pairwise (fun r s =>
      alike r s = false) := by
    refine (pairwise_eraseDupsBy alike rows).imp ?_
    intro r s hApart
    rw [Bool.eq_false_iff] at hApart ⊢
    exact fun hAlike => hApart (hEquivalence.symm hAlike)
  refine ⟨hGroups, fun input hInput => ?_, hEquivalence,
    hApart,
    fun first => find?_of_mem_eraseDupsBy hEquivalence,
    perm_flatMap_filter hEquivalence rows⟩
  rw [rows?_groupBy, hInput, Option.bind_some, hGroups]
  rfl

/-
  The zeros are equal and so are those items that are no
  number; a key that is shorter is another one.
-/
theorem groupBy_partitions_mixedKeys :
    let zero : Item := .int 0
    let negativeZero : Item := .dbl (.ofSigned true 0)
    let rows : List Row :=
      [[[.bool true], [zero, .dbl .nan], [.int 1]],
        [[.bool true], [], [.str "b"]],
        [[.bool true], [negativeZero, .dbl .nan],
          [.int 2, .int 3]],
        [[.bool true], [zero], [.int 4]],
        [[.bool true], [], []]]
    groupRows [[.bool true]] [1] [2, 1] rows =
      .ok [[[.bool true], [zero, .dbl .nan],
          [.int 1, .int 2, .int 3],
          [zero, .dbl .nan, negativeZero, .dbl .nan]],
        [[.bool true], [], [.str "b"], []],
        [[.bool true], [zero], [.int 4], [zero]]] := by
  intro zero negativeZero rows
  have hPresent : ∀ row ∈ rows,
      ∀ slot ∈ [Slot.mk "k" 1] ++ [⟨"v", 2⟩, ⟨"k", 1⟩],
        slot.index < row.length := by
    decide
  refine (groupBy_partitions [[.bool true]] [⟨"k", 1⟩]
    [⟨"v", 2⟩, ⟨"k", 1⟩] rows hPresent).1.trans ?_
  have hFirsts : Row.representatives [1] rows =
      [[[.bool true], [zero, .dbl .nan], [.int 1]],
        [[.bool true], [], [.str "b"]],
        [[.bool true], [zero], [.int 4]]] := by
    decide +kernel
  simp only [List.map_cons, List.map_nil, hFirsts]
  decide +kernel

end Operator

end Flwor
