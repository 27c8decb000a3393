import Flwor.Double.Text
import Flwor.Item.Arithmetic
import Flwor.Item.Order

/-
  This file defines sequences of items: their truth value,
  their comparison and the text they are written as.

  Key definitions include:
    * `Sequence`
    * `Sequence.single?`
    * `Sequence.booleanValue`
    * `Sequence.generalCompare`
    * `Sequence.valueCompare`
    * `Comparison.apply`
    * `Item.text`
    * `Sequence.text`
-/

------------------------------------------------------------
-- Sequences
------------------------------------------------------------

namespace Flwor

/- A sequence of items; nesting is flat. -/
abbrev Sequence :=
  List Item

namespace Sequence

/- The one item of a sequence, or none if it is empty. -/
def single?
    (place : String)
    (s : Sequence) :
    Except EvaluationError (Option Item) :=
  match s with
  | [] => .ok none
  | [a] => .ok (some a)
  | _ => .error (.notSingleton place s.length)

/- The effective boolean value of a sequence. -/
def booleanValue
    (s : Sequence) : Except EvaluationError Bool :=
  match s with
  | [] => .ok false
  | [.bool b] => .ok b
  | [.int n] => .ok (n != 0)
  | [.dbl x] => .ok (!(x.isZero || x.isNaN))
  | [.str t] => .ok (t != "")
  | _ => .error (.noBooleanValue s.length)

/-
  Whether some pair of items satisfies a relation.  Items of
  different families never do.
-/
def generalCompare
    (relation : Relation)
    (s t : Sequence) : Bool :=
  s.any (fun a => t.any (fun b => a.satisfies relation b))

/-
  Compare two sequences of at most one item; an empty one
  leaves the answer open.
-/
def valueCompare
    (relation : Relation)
    (s t : Sequence) :
    Except EvaluationError (Option Bool) := do
  let a ← single? "value comparison" s
  let b ← single? "value comparison" t
  match a, b with
  | some a, some b =>
      let answer ← a.compare relation b
      return some (answer.getD false)
  | _, _ => return none

/- Item by item identity. -/
def identical
    (s t : Sequence) : Bool :=
  s.length == t.length
    && (s.zip t).all (fun p => p.1.identical p.2)

end Sequence

namespace Comparison

/- Compare two sequences in either way. -/
def apply
    (c : Comparison)
    (s t : Sequence) :
    Except EvaluationError (Option Bool) :=
  match c with
  | .general r => .ok (some (s.generalCompare r t))
  | .value r => s.valueCompare r t

end Comparison

end Flwor

------------------------------------------------------------
-- Texts
------------------------------------------------------------

namespace Flwor

namespace Item

/- The text of an item. -/
def text : Item → String
  | .bool b => toString b
  | .int n => toString n
  | .dbl x => x.plain
  | .str s => s

/- The text of an item, with a string in quotes. -/
def quoted : Item → String
  | .str s => "\"" ++ s ++ "\""
  | a => a.text

end Item

namespace Sequence

/- The text of a sequence. -/
def text
    (s : Sequence) : String :=
  "(" ++ ", ".intercalate (s.map Item.quoted) ++ ")"

end Sequence

end Flwor
