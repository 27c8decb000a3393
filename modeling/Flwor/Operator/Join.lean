import Flwor.Buckets
import Flwor.Journal
import Flwor.Row

/-
  This file defines how a join finds the right rows for a
  left key.

  Three structures over the right keys answer the same
  question: a hash table, the single items in sorting order,
  or the keys themselves.  Each names every right row that
  matches, possibly several times and in an order of its own;
  `arrange` brings the rows into the order of the output.

  Key definitions include:
    * `Probe`
    * `Probe.build`
    * `Probe.candidates`
    * `Probe.arrange`
    * `Probe.matching`
-/

------------------------------------------------------------
-- Building
------------------------------------------------------------

namespace Flwor

/- The keys of the right rows, prepared for look-up. -/
inductive Probe where
  | hashed (table : Buckets Item.Key Nat)
  | sorted (entries : List (Item × Nat))
  | scanned (keys : List Sequence)

namespace Probe

/- The single items of all keys with the row of each. -/
def keyItems
    (keys : List Sequence) : List (Item × Nat) :=
  keys.zipIdx.flatMap (fun p =>
    p.1.map (fun item => (item, p.2)))

/- The rows by key; an item without a key has no entry. -/
def hashTable
    (entries : List (Item × Nat)) : Buckets Item.Key Nat :=
  Buckets.ofList (entries.filterMap (fun e =>
    e.1.key?.map (fun key => (key, e.2))))

/- The entries that are no NaN, in sorting order. -/
def sortedEntries
    (entries : List (Item × Nat)) : List (Item × Nat) :=
  (entries.filter (fun e => !e.1.isNaN)).mergeSort
    (fun a b => a.1.sortCompare b.1 != .gt)

/- Prepare keys for the strategy. -/
def build
    (strategy : JoinStrategy)
    (keys : List Sequence) : Probe :=
  match strategy with
  | .hash => .hashed (hashTable (keyItems keys))
  | .sortMerge => .sorted (sortedEntries (keyItems keys))
  | .nestedLoop => .scanned keys

end Probe

end Flwor

------------------------------------------------------------
-- Looking Up
------------------------------------------------------------

namespace Flwor

namespace Probe

/- The rows of the bucket that an item falls into. -/
def bucket
    (table : Buckets Item.Key Nat)
    (item : Item) : List Nat :=
  match item.key? with
  | none => []
  | some key => table.lookup key

/-
  The rows of the entries that an item is related to.  The
  order of the entries is kept.
-/
def related
    (entries : List (Item × Nat))
    (relation : Relation)
    (item : Item) : List Nat :=
  if item.isNaN then []
  else
    (entries.filter (fun e =>
      e.1.comparable item
        && relation.holds (item.sortCompare e.1))).map
          Prod.snd

/- The rows whose key compares true, tried one by one. -/
def scan
    (comparison : Comparison)
    (key : Sequence) :
    List (Sequence × Nat) →
      Except EvaluationError (List Nat)
  | [] => .ok []
  | (right, index) :: rest => do
      let answer ← comparison.apply key right
      let more ← scan comparison key rest
      return if answer = some true then index :: more
        else more

/- The matching rows, in the order of the structure. -/
def candidates
    (probe : Probe)
    (comparison : Comparison)
    (key : Sequence) :
    Except EvaluationError (List Nat) :=
  match probe with
  | .hashed table => .ok (key.flatMap (bucket table))
  | .sorted entries =>
      .ok (key.flatMap
        (related entries comparison.relation))
  | .scanned keys => scan comparison key keys.zipIdx

/-
  Each row once: by index, or where the order does not
  matter, as first found.
-/
def arrange
    (skipSort : Bool)
    (rows : List Nat) : List Nat :=
  if skipSort then
    (Buckets.firsts (rows.map (fun i => (i, ())))).map
      Prod.fst
  else (rows.mergeSort (fun a b => a ≤ b)).eraseReps

/- The matching rows, in the order of the output. -/
def matching
    (probe : Probe)
    (comparison : Comparison)
    (skipSort : Bool)
    (key : Sequence) :
    Except EvaluationError (List Nat) :=
  (probe.candidates comparison key).map (arrange skipSort)

/-
  The rows that a left row is joined to.  A left join pads a
  row without a match with empty values.
-/
def joinRow
    (probe : Probe)
    (comparison : Comparison)
    (leftJoin skipSort : Bool)
    (rightWidth : Nat)
    (rights : Array (List Sequence))
    (left : Row)
    (key : Sequence) :
    Except EvaluationError (List Row) := do
  let rows ← probe.matching comparison skipSort key
  if rows.isEmpty && leftJoin then
    return [left ++ List.replicate rightWidth []]
  else
    return rows.filterMap (fun i =>
      rights[i]?.map (fun right => left ++ right))

end Probe

end Flwor
