import Flwor.Double.Text
import Flwor.Failure

/-
  This file defines what a plan node carries besides its
  kind: a payload, and property annotations sorted by key.
  A document is a plan written as a tree of such nodes.

  Key definitions include:
    * `Payload`
    * `Payload.item?`
    * `Payload.text`
    * `Property`
    * `Properties`
    * `Properties.get?`, `Properties.put`,
      `Properties.erase`
    * `Document`
    * `Document.size`
-/

------------------------------------------------------------
-- Payloads
------------------------------------------------------------

namespace Flwor

/- The payload of a node. -/
inductive Payload where
  | none
  | var (name : String)
  | label (text : String)
  | int (value : Int)
  | dbl (value : Double)
  | str (value : String)
  | bool (value : Bool)
  | axis (axis : Axis)
  | cmp (comparison : Comparison)
  | arith (op : ArithmeticOp)
  | order (order : SortOrder)
  | quantifier (quantifier : Quantifier)
deriving DecidableEq, Repr, Inhabited

namespace Payload

/- The item that a literal payload stands for. -/
def item? : Payload → Option Item
  | .int n => some (.int n)
  | .dbl x => some (.dbl x)
  | .str s => some (.str s)
  | .bool b => some (.bool b)
  | _ => Option.none

/- The variable that a payload names. -/
def var? : Payload → Option String
  | .var name => some name
  | _ => Option.none

/- The function or node test that a payload names. -/
def label? : Payload → Option String
  | .label text => some text
  | _ => Option.none

/- The comparison that a payload carries. -/
def comparison? : Payload → Option Comparison
  | .cmp c => some c
  | _ => Option.none

/- The sort direction that a payload carries. -/
def order? : Payload → Option SortOrder
  | .order o => some o
  | _ => Option.none

/- The arithmetic operator that a payload carries. -/
def arithmetic? : Payload → Option ArithmeticOp
  | .arith op => some op
  | _ => Option.none

/- The axis that a payload carries. -/
def axis? : Payload → Option Axis
  | .axis a => some a
  | _ => Option.none

/- The text of a payload in a rendered plan. -/
def text : Payload → String
  | .none => ""
  | .var name => "$" ++ name
  | .label text => text
  | .int n => toString n
  | .dbl x => x.detailed
  | .str s => "\"" ++ s ++ "\""
  | .bool b => toString b
  | .axis a => a.symbol
  | .cmp c => c.symbol
  | .arith op => op.symbol
  | .order o => o.keyword
  | .quantifier q => q.keyword

end Payload

end Flwor

------------------------------------------------------------
-- Properties
------------------------------------------------------------

namespace Flwor

/- The value of a property annotation. -/
inductive Property where
  | flag (value : Bool)
  | var (name : String)
  | vars (names : List String)
deriving DecidableEq, Repr, Inhabited

namespace Property

/- The text of a property value in a rendered plan. -/
def text : Property → String
  | .flag b => toString b
  | .var name => "$" ++ name
  | .vars names =>
      "["
        ++ ", ".intercalate (names.map (fun n => "$" ++ n))
        ++ "]"

end Property

/- Property annotations, sorted by key. -/
abbrev Properties :=
  List (String × Property)

namespace Properties

/- The value of a property. -/
def get?
    (props : Properties)
    (key : String) : Option Property :=
  props.lookup key

/- Set a property, at the place where its key belongs. -/
def put
    (key : String)
    (value : Property) : Properties → Properties
  | [] => [(key, value)]
  | (k, v) :: rest =>
      if k = key then (key, value) :: rest
      else if key < k then (key, value) :: (k, v) :: rest
      else (k, v) :: put key value rest

/- Remove a property. -/
def erase
    (props : Properties)
    (key : String) : Properties :=
  props.filter (fun p => p.1 != key)

/- Properties from pairs; later pairs win. -/
def ofList
    (pairs : List (String × Property)) : Properties :=
  pairs.foldl (fun props p => put p.1 p.2 props) []

/- Whether a flag is set. -/
def flag
    (props : Properties)
    (key : String) : Bool :=
  props.get? key = some (.flag true)

/- The variable that a property names. -/
def var?
    (props : Properties)
    (key : String) : Option String :=
  match props.get? key with
  | some (.var name) => some name
  | _ => none

/- The variables that a property lists. -/
def vars?
    (props : Properties)
    (key : String) : Option (List String) :=
  match props.get? key with
  | some (.vars names) => some names
  | _ => none

/- The text of all annotations in a rendered plan. -/
def text
    (props : Properties) : String :=
  ", ".intercalate
    (props.map (fun p => p.1 ++ "=" ++ p.2.text))

end Properties

end Flwor

------------------------------------------------------------
-- Known Annotations
------------------------------------------------------------

namespace Flwor

namespace Properties

/- Flag of a join that keeps unmatched left rows. -/
def leftJoin : String :=
  "leftJoin"

/- Flag of a join whose match order nobody observes. -/
def skipSort : String :=
  "skipSort"

/- The bindings of a stage that are read downstream. -/
def project : String :=
  "project"

/- The variable whose emptiness disables a stage. -/
def check : String :=
  "check"

/-
  The target and the source of a regrouping that still has
  to be emitted above a join.
-/
def regroup : String :=
  "regroup"

end Properties

end Flwor

------------------------------------------------------------
-- Documents
------------------------------------------------------------

namespace Flwor

/- A plan written as a tree. -/
inductive Document where
  | node
      (kind : Kind)
      (payload : Payload)
      (children : List Document)
      (properties : Properties)
deriving Inhabited

namespace Document

/- The kind of the topmost node. -/
def kind : Document → Kind
  | .node k _ _ _ => k

/- The payload of the topmost node. -/
def payload : Document → Payload
  | .node _ p _ _ => p

/- The documents below the topmost node. -/
def children : Document → List Document
  | .node _ _ cs _ => cs

/- The annotations of the topmost node. -/
def properties : Document → Properties
  | .node _ _ _ ps => ps

/- A node without payload, children and annotations. -/
def leaf
    (kind : Kind) : Document :=
  .node kind .none [] []

/- A node without payload and annotations. -/
def branch
    (kind : Kind)
    (children : List Document) : Document :=
  .node kind .none children []

/- A node without children and annotations. -/
def carrying
    (kind : Kind)
    (payload : Payload) : Document :=
  .node kind payload [] []

mutual

/- The number of nodes of a document. -/
def size : Document → Nat
  | .node _ _ cs _ => 1 + sizeAll cs

/- The number of nodes of a list of documents. -/
def sizeAll : List Document → Nat
  | [] => 0
  | d :: ds => size d + sizeAll ds

end

end Document

end Flwor
