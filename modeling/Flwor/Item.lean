import Flwor.Double

/-
  This file defines the atomic items that flow through
  queries, their types, and the operators that compare and
  combine them.

  Key definitions include:
    * `Item`
    * `ItemType`
    * `Item.type`
    * `Item.Class`
    * `Relation`
    * `Relation.holds`
    * `Comparison`
    * `ArithmeticOp`
-/

------------------------------------------------------------
-- Items
------------------------------------------------------------

namespace Flwor

/- The type of an item. -/
inductive ItemType where
  | boolean
  | integer
  | double
  | string
deriving DecidableEq, Repr

namespace ItemType

/- The written name of a type. -/
def name : ItemType → String
  | .boolean => "xs:boolean"
  | .integer => "xs:integer"
  | .double => "xs:double"
  | .string => "xs:string"

end ItemType

/- An atomic item. -/
inductive Item where
  | bool (value : Bool)
  | int (value : Int)
  | dbl (value : Double)
  | str (value : String)
deriving DecidableEq, Repr, Inhabited

namespace Item

/- The type of an item. -/
def type : Item → ItemType
  | .bool _ => .boolean
  | .int _ => .integer
  | .dbl _ => .double
  | .str _ => .string

/-
  The families of mutually comparable items, in sorting
  order.
-/
inductive Class where
  | boolean
  | numeric
  | textual
deriving DecidableEq, Repr

namespace Class

/- The place of a family in sorting order. -/
def rank : Class → Nat
  | .boolean => 0
  | .numeric => 1
  | .textual => 2

end Class

/- The family of an item. -/
def family : Item → Class
  | .bool _ => .boolean
  | .int _ => .numeric
  | .dbl _ => .numeric
  | .str _ => .textual

/- Whether two items belong to one family. -/
def comparable
    (a b : Item) : Bool :=
  a.family = b.family

/- Whether the item is a double that is not a number. -/
def isNaN : Item → Bool
  | .dbl x => x.isNaN
  | _ => false

/- The item as a double, if it is numeric. -/
def toDouble? : Item → Option Double
  | .int n => some (Double.ofInt n)
  | .dbl x => some x
  | _ => none

/- The exact number behind a numeric item. -/
def number? : Item → Option Number
  | .int n => some (.finite n)
  | .dbl x => x.number?
  | _ => none

end Item

end Flwor

------------------------------------------------------------
-- Comparison Operators
------------------------------------------------------------

namespace Flwor

/- A relation between two compared items. -/
inductive Relation where
  | eq
  | ne
  | lt
  | le
  | gt
  | ge
deriving DecidableEq, Repr, Inhabited

namespace Relation

/- Every relation, in the order of declaration. -/
def all : List Relation :=
  [.eq, .ne, .lt, .le, .gt, .ge]

/- The name of a relation in documents. -/
def name : Relation → String
  | .eq => "Eq"
  | .ne => "Ne"
  | .lt => "Lt"
  | .le => "Le"
  | .gt => "Gt"
  | .ge => "Ge"

/- The relation with the given document name. -/
def ofName?
    (s : String) : Option Relation :=
  all.find? (fun r => r.name == s)

/- The relation between the operands when swapped. -/
def converse : Relation → Relation
  | .eq => .eq
  | .ne => .ne
  | .lt => .gt
  | .le => .ge
  | .gt => .lt
  | .ge => .le

/-
  Whether the relation holds between a left and a right
  operand that compare in the given way.
-/
def holds : Relation → Ordering → Bool
  | .eq, o => o == .eq
  | .ne, o => o != .eq
  | .lt, o => o == .lt
  | .le, o => o != .gt
  | .gt, o => o == .gt
  | .ge, o => o != .lt

end Relation

/-
  A comparison of sequences: of any pair of items, or of two
  single items.
-/
inductive Comparison where
  | general (relation : Relation)
  | value (relation : Relation)
deriving DecidableEq, Repr, Inhabited

namespace Comparison

/- The relation that is compared by. -/
def relation : Comparison → Relation
  | .general r => r
  | .value r => r

/- The comparison between the operands when swapped. -/
def converse : Comparison → Comparison
  | .general r => .general r.converse
  | .value r => .value r.converse

/- The operator as written in a query. -/
def symbol : Comparison → String
  | .general .eq => "="
  | .general .ne => "!="
  | .general .lt => "<"
  | .general .le => "<="
  | .general .gt => ">"
  | .general .ge => ">="
  | .value .eq => "eq"
  | .value .ne => "ne"
  | .value .lt => "lt"
  | .value .le => "le"
  | .value .gt => "gt"
  | .value .ge => "ge"

end Comparison

end Flwor

------------------------------------------------------------
-- Arithmetic Operators
------------------------------------------------------------

namespace Flwor

/- A binary arithmetic operator. -/
inductive ArithmeticOp where
  | add
  | sub
  | mul
  | div
  | idiv
  | mod
deriving DecidableEq, Repr, Inhabited

namespace ArithmeticOp

/- Every operator, in the order of declaration. -/
def all : List ArithmeticOp :=
  [.add, .sub, .mul, .div, .idiv, .mod]

/- The name of an operator in documents. -/
def name : ArithmeticOp → String
  | .add => "Add"
  | .sub => "Sub"
  | .mul => "Mul"
  | .div => "Div"
  | .idiv => "IDiv"
  | .mod => "Mod"

/- The operator with the given document name. -/
def ofName?
    (s : String) : Option ArithmeticOp :=
  all.find? (fun o => o.name == s)

/- The operator as written in a query. -/
def symbol : ArithmeticOp → String
  | .add => "+"
  | .sub => "-"
  | .mul => "*"
  | .div => "div"
  | .idiv => "idiv"
  | .mod => "mod"

end ArithmeticOp

end Flwor
