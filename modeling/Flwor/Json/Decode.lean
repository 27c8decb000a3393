import Flwor.Json
import Flwor.Optimizer
import Flwor.Sequence

/-
  This file defines how items, documents and settings are
  read from JSON values.  How numbers are read is left to
  the caller.

  Key definitions include:
    * `NumberRules`
    * `Decode.item?`, `Decode.sequence?`
    * `Decode.payload?`
    * `Decode.property?`
    * `Decode.document?`
    * `Decode.settings?`
-/

------------------------------------------------------------
-- Numbers and Names
------------------------------------------------------------

namespace Flwor

/- How integers and doubles are read. -/
structure NumberRules where
  int? : JsonNumber → Option Int
  double? : Json → Option Double

namespace NumberRules

/- A 64-bit integer. -/
def integer?
    (rules : NumberRules) : Json → Option Int
  | .num n => (rules.int? n).filter Integer.inRange
  | _ => none

end NumberRules

namespace Decode

/- A text. -/
def string? : Json → Option String
  | .str s => some s
  | _ => none

/- A truth value. -/
def bool? : Json → Option Bool
  | .bool b => some b
  | _ => none

/- A list of values that can all be read. -/
def list?
    {α : Type}
    (read : Json → Option α) : Json → Option (List α)
  | .arr items => items.mapM read
  | _ => none

/- A name with what stands under it, if anything. -/
def variant? : Json → Option (String × Option Json)
  | .str s => some (s, none)
  | .obj [(k, j)] => some (k, some j)
  | _ => none

/- A name under which nothing stands. -/
def unit?
    (j : Json) : Option String :=
  match variant? j with
  | some (s, none) => some s
  | some (s, some .null) => some s
  | _ => none

/- The field of an object, which must not be repeated. -/
def uniqueField?
    (key : String)
    (fields : List (String × Json)) :
    Option (Option Json) :=
  match fields.filter (fun f => f.1 == key) with
  | [] => some none
  | [f] => some (some f.2)
  | _ => none

/-
  The values of named fields, read from an object by name or
  from an array by position.
-/
def record?
    (keys : List String) : Json → Option (List (Option Json))
  | .obj fields => keys.mapM (fun k => uniqueField? k fields)
  | .arr items =>
      if items.length ≤ keys.length then
        some (items.map some
          ++ List.replicate (keys.length - items.length) none)
      else none
  | _ => none

/- A field that may be missing. -/
def optional?
    {α : Type}
    (default : α)
    (read : Json → Option α) : Option Json → Option α
  | none => some default
  | some j => read j

end Decode

end Flwor

------------------------------------------------------------
-- Items
------------------------------------------------------------

namespace Flwor

namespace Decode

/-
  The name of an item's type, and its value.  In an object
  the name may also be written with nothing under it; in an
  array it is a text.
-/
def tagged? : Json → Option (String × Json)
  | .obj fields => do
      let tag ← (← uniqueField? "t" fields)
      let v ← (← uniqueField? "v" fields)
      return (← unit? tag, v)
  | .arr [tag, v] => do
      return (← string? tag, v)
  | _ => none

/- An item, by its type and its value. -/
def item?
    (rules : NumberRules)
    (j : Json) : Option Item := do
  let (t, v) ← tagged? j
  if t = "Bool" then (bool? v).map Item.bool
  else if t = "Int" then (rules.integer? v).map Item.int
  else if t = "Dbl" then (rules.double? v).map Item.dbl
  else if t = "Str" then (string? v).map Item.str
  else none

/- A sequence of items. -/
def sequence?
    (rules : NumberRules) : Json → Option Sequence :=
  list? (item? rules)

end Decode

end Flwor

------------------------------------------------------------
-- Documents
------------------------------------------------------------

namespace Flwor

namespace Decode

/- A comparison. -/
def comparison?
    (j : Json) : Option Comparison := do
  match ← variant? j with
  | ("General", some r) =>
      return .general (← Relation.ofName? (← unit? r))
  | ("Value", some r) =>
      return .value (← Relation.ofName? (← unit? r))
  | _ => none

/- The payload that stands under a name. -/
def namedPayload?
    (rules : NumberRules)
    (name : String)
    (j : Json) : Option Payload :=
  if name = "Var" then (string? j).map Payload.var
  else if name = "Name" then (string? j).map Payload.label
  else if name = "Int" then
    (rules.integer? j).map Payload.int
  else if name = "Dbl" then (rules.double? j).map Payload.dbl
  else if name = "Str" then (string? j).map Payload.str
  else if name = "Bool" then (bool? j).map Payload.bool
  else if name = "Axis" then
    ((unit? j).bind Axis.ofName?).map Payload.axis
  else if name = "Cmp" then (comparison? j).map Payload.cmp
  else if name = "Arith" then
    ((unit? j).bind ArithmeticOp.ofName?).map Payload.arith
  else if name = "Order" then
    ((unit? j).bind SortOrder.ofName?).map Payload.order
  else if name = "Quantifier" then
    ((unit? j).bind Quantifier.ofName?).map
      Payload.quantifier
  else none

/- A payload. -/
def payload?
    (rules : NumberRules)
    (j : Json) : Option Payload :=
  if unit? j = some "None" then some .none
  else
    match variant? j with
    | some (name, some v) => namedPayload? rules name v
    | _ => none

/- The value of a property. -/
def property? : Json → Option Property
  | .bool b => some (.flag b)
  | .str s => some (.var s)
  | .arr items => (items.mapM string?).map Property.vars
  | _ => none

/- The annotations of a node. -/
def properties? : Json → Option Properties
  | .obj fields => do
      let pairs ← fields.mapM (fun f =>
        (property? f.2).map (fun p => (f.1, p)))
      return Properties.ofList pairs
  | _ => none

/- The parts of a document, those below it already read. -/
structure Parts where
  kind : Option Json
  payload : Option Json
  children : Option (List Document)
  properties : Option Json

/- A document from its parts. -/
def assemble?
    (rules : NumberRules)
    (parts : Parts) : Option Document := do
  let kind ← Kind.ofName? (← unit? (← parts.kind))
  let payload ← optional? .none (payload? rules)
    parts.payload
  let properties ← optional? [] properties? parts.properties
  return .node kind payload (parts.children.getD [])
    properties

mutual

/- A document. -/
def document?
    (rules : NumberRules) : Json → Option Document
  | .obj fields => do
      assemble? rules (← parts? rules fields)
  | .arr [k] =>
      assemble? rules ⟨some k, none, none, none⟩
  | .arr [k, v] =>
      assemble? rules ⟨some k, some v, none, none⟩
  | .arr [k, v, c] => do
      let children ← children? rules c
      assemble? rules ⟨some k, some v, some children, none⟩
  | .arr [k, v, c, p] => do
      let children ← children? rules c
      assemble? rules
        ⟨some k, some v, some children, some p⟩
  | _ => none

/- The documents of an array. -/
def children?
    (rules : NumberRules) :
    Json → Option (List Document)
  | .arr items => documents? rules items
  | _ => none

/- Several documents. -/
def documents?
    (rules : NumberRules) :
    List Json → Option (List Document)
  | [] => some []
  | j :: rest => do
      let d ← document? rules j
      let ds ← documents? rules rest
      return d :: ds

/- The parts of a document, none of them repeated. -/
def parts?
    (rules : NumberRules) :
    List (String × Json) → Option Parts
  | [] => some ⟨none, none, none, none⟩
  | (key, j) :: rest => do
      let parts ← parts? rules rest
      if key = "kind" then
        guard parts.kind.isNone
        return { parts with kind := some j }
      else if key = "value" then
        guard parts.payload.isNone
        return { parts with payload := some j }
      else if key = "properties" then
        guard parts.properties.isNone
        return { parts with properties := some j }
      else if key = "children" then
        guard parts.children.isNone
        let children ← children? rules j
        return { parts with children := some children }
      else return parts

end

end Decode

end Flwor

------------------------------------------------------------
-- Settings
------------------------------------------------------------

namespace Flwor

namespace Decode

/- A 64-bit number of traversals. -/
def traversals?
    (rules : NumberRules) : Json → Option Nat
  | .num n =>
      match rules.int? n with
      | some (.ofNat k) =>
          if k < Nat.pow 2 64 then some k else none
      | _ => none
  | _ => none

/- Settings; what is missing has its standard value. -/
def settings?
    (rules : NumberRules)
    (j : Json) : Option Settings := do
  let keys := ["unnest", "projection", "max_traversals",
    "order_insensitive_functions"]
  match ← record? keys j with
  | [unnest, projection, bound, blind] =>
      let base := Settings.standard
      let unnest ← optional? base.unnest bool? unnest
      let projection ←
        optional? base.projection bool? projection
      let maxTraversals ← optional? base.maxTraversals
        (traversals? rules) bound
      let orderBlind ← optional? base.orderBlind
        (list? string?) blind
      return { unnest, projection, maxTraversals, orderBlind }
  | _ => none

end Decode

end Flwor
