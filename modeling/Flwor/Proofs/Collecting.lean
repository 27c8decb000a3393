import Mathlib.Data.List.Forall2
import Flwor.Proofs.Matching
import Flwor.Proofs.Refinement

/-
  Sorting, matching and grouping, whatever is sorted, matched
  or grouped.

  Sorting and matching look at keys only, so they treat rows
  and what these correspond to alike.  A table of groups
  holds the groups that equal keys make.

  Key theorems include:
    * `forall₂_sortKeyed`
    * `refines_found?`
    * `groupEntries_eq`
-/

------------------------------------------------------------
-- Sorting
------------------------------------------------------------

namespace Flwor

variable {α β : Type}

/- Sorting commutes with a change of what is sorted. -/
theorem sortKeyed_map
    (orders : List SortOrder)
    (f : α → β)
    (keyed : List (List (Option Item) × α)) :
    sortKeyed orders (keyed.map (fun e => (e.1, f e.2))) =
      (sortKeyed orders keyed).map f := by
  have hSort := List.map_mergeSort
    (r := fun a b =>
      compareKeys orders a.1 b.1 != .gt)
    (s := fun a b =>
      compareKeys orders a.1 b.1 != .gt)
    (f := fun e : List (Option Item) × α => (e.1, f e.2))
    (l := keyed) (fun _ _ _ _ => rfl)
  rw [sortKeyed, sortKeyed, ← hSort, List.map_map,
    List.map_map]
  rfl

/-
  Entries that correspond are the columns of entries with
  two values.
-/
theorem exists_columns_of_forall₂
    {κ : Type}
    {R : α → β → Prop}
    {xs : List (κ × α)}
    {ys : List (κ × β)}
    (hBoth : List.Forall₂
      (fun x y => x.1 = y.1 ∧ R x.2 y.2) xs ys) :
    ∃ keyed : List (κ × α × β),
      (∀ e ∈ keyed, R e.2.1 e.2.2) ∧
        keyed.map (fun e => (e.1, e.2.1)) = xs ∧
          keyed.map (fun e => (e.1, e.2.2)) = ys := by
  induction hBoth with
  | nil => exact ⟨[], by simp⟩
  | @cons x y xs ys hHead _ ih =>
      rcases x with ⟨key, a⟩
      rcases y with ⟨other, b⟩
      rcases hHead with ⟨rfl, hHead⟩
      rcases ih with ⟨keyed, hKeyed, rfl, rfl⟩
      exact ⟨(key, a, b) :: keyed,
        by simpa [hHead] using hKeyed, rfl, rfl⟩

/- Corresponding rows with equal keys are sorted alike. -/
theorem forall₂_sortKeyed
    {R : α → β → Prop}
    (orders : List SortOrder)
    {xs : List (List (Option Item) × α)}
    {ys : List (List (Option Item) × β)}
    (hBoth : List.Forall₂
      (fun x y => x.1 = y.1 ∧ R x.2 y.2) xs ys) :
    List.Forall₂ R (sortKeyed orders xs)
      (sortKeyed orders ys) := by
  rcases exists_columns_of_forall₂ hBoth with
    ⟨keyed, hKeyed, rfl, rfl⟩
  -- Sorting the pairs sorts both columns.
  rw [sortKeyed_map orders Prod.fst keyed,
    sortKeyed_map orders Prod.snd keyed,
    List.forall₂_map_left_iff, List.forall₂_map_right_iff,
    List.forall₂_same]
  intro pair hPair
  simp only [sortKeyed, List.mem_map,
    List.mem_mergeSort] at hPair
  rcases hPair with ⟨entry, hMem, rfl⟩
  exact hKeyed entry hMem

end Flwor

------------------------------------------------------------
-- Matching
------------------------------------------------------------

namespace Flwor

namespace Comparison

variable {α β : Type}

/- Matching commutes with a change of what is matched. -/
theorem matched?_map
    (c : Comparison)
    (key : Sequence)
    (f : α → β)
    (keyed : List (Sequence × α)) :
    c.matched? key (keyed.map (fun e => (e.1, f e.2))) =
      (c.matched? key keyed).map (List.map f) := by
  induction keyed with
  | nil => rfl
  | cons entry rest ih =>
      rw [List.map_cons, matched?_cons, matched?_cons, ih]
      cases c.matches? key entry.1 with
      | none => rfl
      | some holds =>
          cases c.matched? key rest with
          | none => rfl
          | some found => cases holds <;> rfl

theorem found?_map
    (c : Comparison)
    (skipSort : Bool)
    (key : Sequence)
    (f : α → β)
    (keyed : List (Sequence × α)) :
    c.found? skipSort key
        (keyed.map (fun e => (e.1, f e.2))) =
      (c.found? skipSort key keyed).map (List.map f) := by
  cases skipSort with
  | false =>
      simp only [found?, Bool.false_eq_true, if_false]
      exact c.matched?_map key f keyed
  | true =>
      simp only [found?, if_true, List.map_map,
        Option.map_map, Function.comp_def]
      congr 1
      funext rows
      simp [List.map_filterMap, Function.comp_def]

/- Only entries are matched. -/
theorem mem_of_matched?
    {c : Comparison}
    {key : Sequence}
    {keyed : List (Sequence × α)}
    {found : List α}
    (hFound : c.matched? key keyed = some found)
    {x : α}
    (hMem : x ∈ found) :
    x ∈ keyed.map Prod.snd := by
  induction keyed generalizing found with
  | nil =>
      cases hFound
      cases hMem
  | cons entry rest ih =>
      rw [matched?_cons, Option.bind_eq_some_iff] at hFound
      rcases hFound with ⟨holds, _, hFound⟩
      rw [Option.map_eq_some_iff] at hFound
      rcases hFound with ⟨more, hMore, rfl⟩
      rw [List.map_cons, List.mem_cons]
      cases holds with
      | false => exact .inr (ih hMore hMem)
      | true =>
          exact (List.mem_cons.mp hMem).imp id (ih hMore)

theorem mem_of_found?
    {c : Comparison}
    {skipSort : Bool}
    {key : Sequence}
    {keyed : List (Sequence × α)}
    {found : List α}
    (hFound : c.found? skipSort key keyed = some found)
    {x : α}
    (hMem : x ∈ found) :
    x ∈ keyed.map Prod.snd := by
  cases skipSort with
  | false =>
      simp only [found?, Bool.false_eq_true, if_false]
        at hFound
      exact mem_of_matched? hFound hMem
  | true =>
      simp only [found?, if_true, Option.map_eq_some_iff]
        at hFound
      rcases hFound with ⟨rows, _, rfl⟩
      rw [List.mem_filterMap] at hMem
      rcases hMem with ⟨index, _, hIndex⟩
      exact List.mem_of_getElem? hIndex

end Comparison

variable {α β : Type}

/- Corresponding entries with equal keys match alike. -/
theorem refines_found?
    {R : α → β → Prop}
    {lenient : Prop}
    (c : Comparison)
    (skipSort : Bool)
    (key : Sequence)
    {xs : List (Sequence × α)}
    {ys : List (Sequence × β)}
    (hBoth : List.Forall₂
      (fun x y => x.1 = y.1 ∧ R x.2 y.2) xs ys) :
    Refines lenient (List.Forall₂ R)
      (c.found? skipSort key xs)
      (c.found? skipSort key ys) := by
  rcases exists_columns_of_forall₂ hBoth with
    ⟨keyed, hKeyed, rfl, rfl⟩
  -- Matching the pairs matches both columns.
  rw [c.found?_map skipSort key Prod.fst keyed,
    c.found?_map skipSort key Prod.snd keyed]
  cases hFound : c.found? skipSort key keyed with
  | none => exact .failure
  | some found =>
      refine .value ?_
      rw [List.forall₂_map_left_iff,
        List.forall₂_map_right_iff, List.forall₂_same]
      intro pair hPair
      have hMem := Comparison.mem_of_found? hFound hPair
      rcases List.mem_map.mp hMem with ⟨entry, hEntry, rfl⟩
      exact hKeyed entry hEntry

end Flwor

------------------------------------------------------------
-- Grouping
------------------------------------------------------------

namespace Flwor

/- A group has as many values as its entries. -/
theorem length_of_mem_mergeGroups
    {width : Nat}
    {entries : List GroupEntry}
    {group : GroupEntry}
    (hMem : group ∈ mergeGroups width entries) :
    group.values.length = width ∧
      ∃ first ∈ entries, group.keys = first.keys := by
  simp only [mergeGroups, List.mem_filterMap,
    Option.map_eq_some_iff] at hMem
  rcases hMem with ⟨identity, _, first, hFirst, rfl⟩
  have hEntry := List.mem_of_head? hFirst
  exact ⟨by simp, first, (List.mem_filter.mp hEntry).1, rfl⟩

/- The rows of a table of groups are those of the groups. -/
theorem groupEntries_eq
    (context : Row)
    (width : Nat)
    (entries : List GroupEntry) :
    groupEntries context width entries =
      (mergeGroups width entries).map (fun group =>
        context ++ group.keys ++ group.values) := by
  have hFind (identity : List (List (Option Item.Key))) :
      (entries.map (fun e => (e.identity, e))).find?
          (fun e => e.1 == identity) =
        (entries.filter (fun e =>
          e.identity == identity)).head?.map
            (fun e => (e.identity, e)) := by
    rw [List.head?_filter, List.find?_map]
    rfl
  have hIdentity
      {identity : List (List (Option Item.Key))}
      {first : GroupEntry}
      (hFirst :
        (entries.filter (fun e =>
          e.identity == identity)).head? = some first) :
      first.identity = identity := by
    have hMem := List.mem_of_head? hFirst
    simpa using (List.mem_filter.mp hMem).2
  simp only [groupEntries, mergeGroups, Buckets.firsts_eq,
    Buckets.lookup_ofList, List.map_map, hFind,
    List.map_filterMap]
  refine List.filterMap_congr (fun identity _ => ?_)
  cases hFirst :
      (entries.filter (fun e =>
        e.identity == identity)).head? with
  | none => rfl
  | some first =>
      simp only [Option.map_some, hIdentity hFirst,
        groupRow, List.filter_map, List.map_map]
      simp [Function.comp_def]

end Flwor
