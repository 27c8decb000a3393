import Flwor.Buckets
import Flwor.Row

/-
  This file defines sorting and grouping of rows.

  Key definitions include:
    * `compareKeys`
    * `sortRows`
    * `GroupEntry.identity`
    * `groupRows`
-/

------------------------------------------------------------
-- Sorting
------------------------------------------------------------

namespace Flwor

/- Order two keys; a missing one comes first. -/
def compareKey :
    Option Item → Option Item → Ordering
  | none, none => .eq
  | none, some _ => .lt
  | some _, none => .gt
  | some a, some b => a.sortCompare b

/-
  Order two lists of keys by the first that differ, each in
  its own direction.
-/
def compareKeys :
    List SortOrder → List (Option Item) →
      List (Option Item) → Ordering
  | order :: orders, a :: as, b :: bs =>
      (order.apply (compareKey a b)).then
        (compareKeys orders as bs)
  | _, _, _ => .eq

/- Sort rows by their keys; equal ones keep their order. -/
def sortRows
    (orders : List SortOrder)
    (rows : List (List (Option Item) × Row)) : List Row :=
  (rows.mergeSort (fun a b =>
    compareKeys orders a.1 b.1 != .gt)).map Prod.snd

end Flwor

------------------------------------------------------------
-- Grouping
------------------------------------------------------------

namespace Flwor

/- A row reduced to its keys and its aggregated values. -/
structure GroupEntry where
  keys : List Sequence
  values : List Sequence

namespace GroupEntry

/- Read the keys and the aggregated values of a row. -/
def ofRow
    (keys values : List Nat)
    (row : Row) : Except Failure GroupEntry := do
  let ks ← row.slots keys
  let vs ← row.slots values
  return ⟨ks, vs⟩

/-
  What the rows of one group have in common: numbers that
  are equal, and items that are no number, group together.
-/
def identity
    (e : GroupEntry) : List (List (Option Item.Key)) :=
  e.keys.map (fun s => s.map Item.key?)

end GroupEntry

/- The values of one column over the rows of a group. -/
def gather
    (group : List GroupEntry)
    (column : Nat) : Sequence :=
  group.flatMap (fun e => (e.values[column]?).getD [])

/- The row that stands for a group. -/
def groupRow
    (context : Row)
    (width : Nat)
    (first : GroupEntry)
    (group : List GroupEntry) : Row :=
  context ++ first.keys
    ++ (List.range width).map (gather group)

/-
  One row for each group, in the order of the first rows:
  the context, the keys of the first row, and the values of
  all rows of the group.
-/
def groupEntries
    (context : Row)
    (width : Nat)
    (entries : List GroupEntry) : List Row :=
  let tagged := entries.map (fun e => (e.identity, e))
  let groups := Buckets.ofList tagged
  (Buckets.firsts tagged).map (fun first =>
    groupRow context width first.2
      (groups.lookup first.1))

/- Group rows on some slots and collect others. -/
def groupRows
    (context : Row)
    (keys values : List Nat)
    (rows : List Row) : Except Failure (List Row) := do
  let entries ← rows.mapM (GroupEntry.ofRow keys values)
  return groupEntries context values.length entries

end Flwor
