import Flwor.Json.Decode
import Flwor.Names
import Flwor.Query
import Flwor.Toml

/-
  This file defines how query files and configuration files
  are read.

  Key definitions include:
    * `QueryFile`
    * `QueryFile.Part`, `QueryFile.outline`
    * `QueryFile.parse?`
    * `Settings.parse?`
-/

------------------------------------------------------------
-- Query Files
------------------------------------------------------------

namespace Flwor

/- A query: a plan with the values of its externals. -/
structure QueryFile where
  bindings : Bindings
  document : Document

namespace QueryFile

/- The parts of a query file that are told apart. -/
inductive Part where
  | file
  | bindings
  | sequence
  | item
  | document
  | documents
  | whole
deriving DecidableEq, Repr

namespace Part

/- The part that stands in a field; the others are skipped. -/
def field? : Part → String → Option Part
  | .file, name =>
      if name = "bindings" then some .bindings
      else if name = "plan" then some .document
      else none
  | .bindings, _ => some .sequence
  | .item, name =>
      if name ∈ ["t", "v"] then some .whole else none
  | .document, name =>
      if name = "children" then some .documents
      else if name ∈ ["kind", "value", "properties"] then
        some .whole
      else none
  | _, _ => some .whole

/- The part that stands in a place of an array. -/
def place : Part → Nat → Part
  | .file, 0 => .bindings
  | .file, 1 => .document
  | .sequence, _ => .item
  | .document, 2 => .documents
  | .documents, _ => .document
  | _, _ => .whole

end Part

/- What is asked for in a query file. -/
def outline : Json.Outline Part where
  field := Part.field?
  item := Part.place

/- The names of the externals, sorted. -/
def externals
    (query : QueryFile) : List String :=
  Names.sorted (query.bindings.map Prod.fst)

/-
  How numbers are read: a zero with a sign is a double, and
  so is all that has a point or an exponent.
-/
def numberRules : NumberRules where
  int? n :=
    if n = .integer true 0 then none else n.int?
  double?
    | .num n => n.scaledDouble?
    | _ => none

/- Values by name; the last value of a name counts. -/
def bindings? : Json → Option Bindings
  | .obj fields => do
      let pairs ← fields.mapM (fun f =>
        (Decode.sequence? numberRules f.2).map
          (fun s => (f.1, s)))
      return pairs.reverse
  | _ => none

/- The greatest number of brackets around what is read. -/
def maxDepth : Nat :=
  127

/- A query from its value. -/
def ofJson?
    (j : Json) : Option QueryFile := do
  guard (j.depth ≤ maxDepth)
  match ← Decode.record? ["bindings", "plan"] j with
  | [bindings, some plan] =>
      let bindings ← Decode.optional? [] bindings? bindings
      let document ← Decode.document? numberRules plan
      return { bindings, document }
  | _ => none

/- A query from its text. -/
def parse?
    (text : String) : Option QueryFile :=
  (Json.read? outline .file text).bind ofJson?

end QueryFile

end Flwor

------------------------------------------------------------
-- Configuration Files
------------------------------------------------------------

namespace Flwor

namespace Settings

/- How numbers are read, of which only integers are used. -/
def numberRules : NumberRules where
  int? := JsonNumber.int?
  double? _ := none

/-
  Settings from the value under the name of the optimizer.
  An array gives them by position, and what follows the last
  one is ignored.
-/
def ofJson?
    (j : Json) : Option Settings :=
  match j with
  | .arr items =>
      Decode.settings? numberRules (.arr (items.take 4))
  | _ => Decode.settings? numberRules j

/- Settings from the text of a configuration file. -/
def parse?
    (text : String) : Option Settings := do
  let table ← Toml.parse? text
  Decode.optional? standard ofJson?
    (table.field? "optimizer")

end Settings

end Flwor
