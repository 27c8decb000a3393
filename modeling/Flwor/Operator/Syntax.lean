import Flwor.Journal
import Flwor.Library

/-
  This file defines compiled expressions and the operators
  of compiled pipelines, with the texts that describe them.

  Expressions refer to variables by the slot of the row that
  they are evaluated on.

  Key definitions include:
    * `Expr`
    * `SortKey`
    * `Operator`
    * `Operator.name`
    * `Expr.text`
-/

------------------------------------------------------------
-- Expressions and Operators
------------------------------------------------------------

namespace Flwor

/- A variable and the slot that holds its value. -/
structure Slot where
  name : String
  index : Nat
deriving DecidableEq, Repr

mutual

/- A compiled expression. -/
inductive Expr where
  | literal (value : Sequence)
  | variable (slot : Slot)
  | concat (parts : List Expr)
  | range (low high : Expr)
  | arithmetic
      (op : ArithmeticOp)
      (left right : Expr)
  | comparison
      (comparison : Comparison)
      (left right : Expr)
  | and (left right : Expr)
  | or (left right : Expr)
  | cond (condition yes no : Expr)
  | call
      (function : QueryFunction)
      (arguments : List Expr)
  | pipeline
      (tail : Operator)
      (result : Expr)

/- A sort key and its direction. -/
inductive SortKey where
  | mk
      (key : Expr)
      (order : SortOrder)

/-
  An operator on rows.  With a `check` slot that is empty, a
  binding operator binds the empty sequence; a `let` without
  an expression always does.
-/
inductive Operator where
  | start
  | forBind
      (input : Operator)
      (var : String)
      (position : Option String)
      (source : Expr)
      (check : Option Slot)
  | letBind
      (input : Operator)
      (var : String)
      (value : Option Expr)
      (check : Option Slot)
  | select
      (input : Operator)
      (predicate : Expr)
  | orderBy
      (input : Operator)
      (keys : List SortKey)
  | groupBy
      (input : Operator)
      (keys : List Slot)
      (aggregates : List Slot)
  | count
      (input : Operator)
      (var : String)
  | project
      (input : Operator)
      (context : Nat)
      (keep : List Slot)
  | join
      (left right : Operator)
      (leftKey rightKey : Expr)
      (comparison : Comparison)
      (leftJoin skipSort : Bool)
      (context : Nat)
      (rightWidth : Nat)

end

namespace SortKey

/- The direction of a sort key. -/
def order : SortKey → SortOrder
  | .mk _ o => o

end SortKey

namespace Operator

/- The name of an operator. -/
def name : Operator → String
  | .start => "Start"
  | .forBind .. => "ForBind"
  | .letBind .. => "LetBind"
  | .select .. => "Select"
  | .orderBy .. => "OrderBy"
  | .groupBy .. => "GroupBy"
  | .count .. => "Count"
  | .project .. => "Project"
  | .join .. => "Join"

/-
  The names of the operators from the start to the given
  one, along the left inputs of joins.
-/
def names : Operator → List String
  | .start => ["Start"]
  | .forBind input .. => names input ++ ["ForBind"]
  | .letBind input .. => names input ++ ["LetBind"]
  | .select input _ => names input ++ ["Select"]
  | .orderBy input _ => names input ++ ["OrderBy"]
  | .groupBy input .. => names input ++ ["GroupBy"]
  | .count input _ => names input ++ ["Count"]
  | .project input .. => names input ++ ["Project"]
  | .join left .. => names left ++ ["Join"]

end Operator

end Flwor

------------------------------------------------------------
-- Texts
------------------------------------------------------------

namespace Flwor

namespace Expr

/- The text of a constant. -/
def literalText
    (value : Sequence) : String :=
  match value with
  | [a] => a.quoted
  | _ => value.text

mutual

/- The text of an expression. -/
def text : Expr → String
  | .literal value => literalText value
  | .variable slot => "$" ++ slot.name
  | .concat parts =>
      "(" ++ ", ".intercalate (texts parts) ++ ")"
  | .range low high => text low ++ " to " ++ text high
  | .arithmetic op l r =>
      "(" ++ text l ++ " " ++ op.symbol ++ " " ++ text r
        ++ ")"
  | .comparison c l r =>
      text l ++ " " ++ c.symbol ++ " " ++ text r
  | .and l r => "(" ++ text l ++ " and " ++ text r ++ ")"
  | .or l r => "(" ++ text l ++ " or " ++ text r ++ ")"
  | .cond c yes no =>
      "if (" ++ text c ++ ") then " ++ text yes ++ " else "
        ++ text no
  | .call f args =>
      f.name ++ "(" ++ ", ".intercalate (texts args) ++ ")"
  | .pipeline tail result =>
      "flwor[" ++ " > ".intercalate tail.names
        ++ "] return " ++ text result

/- The texts of several expressions. -/
def texts : List Expr → List String
  | [] => []
  | e :: rest => text e :: texts rest

end

end Expr

end Flwor
