import Flwor.Failure

/-
  This file defines how items compare: the total order that
  sorting uses, the relations that queries ask for, and the
  key by which equal items are found in a table.

  Numbers compare by the exact number they stand for, so a
  large integer never meets a double that only rounds to it.
  A double that is not a number sorts below every number,
  equals nothing and has no key.

  Key definitions include:
    * `Item.sortCompare`
    * `Item.atomicCompare`
    * `Item.compare`
    * `Item.atomicEq`
    * `Item.identical`
    * `Item.Key`
    * `Item.key?`
-/

------------------------------------------------------------
-- Sorting Order
------------------------------------------------------------

namespace Flwor

namespace Item

/- Order two numeric items, with non-numbers first. -/
def compareNumbers
    (a b : Item) : Ordering :=
  match a.number?, b.number? with
  | none, none => .eq
  | none, some _ => .lt
  | some _, none => .gt
  | some x, some y => x.compare y

/-
  The total order that sorting uses: booleans, then numbers,
  then strings.
-/
def sortCompare : Item → Item → Ordering
  | .bool a, .bool b => Ord.compare a b
  | .str a, .str b => Ord.compare a b
  | a, b =>
      match a.family, b.family with
      | .numeric, .numeric => compareNumbers a b
      | f, g => Ord.compare f.rank g.rank

end Item

end Flwor

------------------------------------------------------------
-- Relations Between Items
------------------------------------------------------------

namespace Flwor

namespace Item

/- The error of comparing items of two families. -/
def incomparable
    (a b : Item) : EvaluationError :=
  .mismatch (.comparison a.type b.type)

/- Order two items of one family. -/
def atomicCompare
    (a b : Item) : Except EvaluationError Ordering :=
  if a.comparable b then .ok (a.sortCompare b)
  else .error (incomparable a b)

/-
  Whether a relation holds between two items of one family.
  With an operand that is not a number only `ne` has an
  answer.
-/
def compare
    (relation : Relation)
    (a b : Item) : Except EvaluationError (Option Bool) :=
  if a.comparable b then
    if a.isNaN || b.isNaN then
      .ok (if relation = .ne then some true else none)
    else
      .ok (some (relation.holds (a.sortCompare b)))
  else .error (incomparable a b)

/- Equality of two items of one family. -/
def atomicEq
    (a b : Item) : Except EvaluationError Bool :=
  (a.compare .eq b).map (fun answer => answer.getD false)

/-
  Identity of items: same type and equal values, where an
  integer is never identical to a double.
-/
def identical : Item → Item → Bool
  | .bool a, .bool b => a == b
  | .int a, .int b => a == b
  | .dbl a, .dbl b => a.numericEq b
  | .str a, .str b => a == b
  | _, _ => false

/- Whether a relation certainly holds between two items. -/
def satisfies
    (relation : Relation)
    (a b : Item) : Bool :=
  match a.compare relation b with
  | .ok (some true) => true
  | _ => false

end Item

end Flwor

------------------------------------------------------------
-- Keys
------------------------------------------------------------

namespace Flwor

namespace Item

/- What equal items have in common. -/
inductive Key where
  | bool (value : Bool)
  | number (value : Number)
  | str (value : String)
deriving DecidableEq, Hashable

/-
  The key of an item.  Numerically equal items share one;
  a double that is not a number has none.
-/
def key? : Item → Option Key
  | .bool b => some (.bool b)
  | .str s => some (.str s)
  | a => a.number?.map Key.number

end Item

end Flwor
