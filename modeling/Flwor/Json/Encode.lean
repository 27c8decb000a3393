import Flwor.Explain
import Flwor.Json
import Flwor.Plan.Node
import Flwor.Sequence
import Flwor.Walk

/-
  This file defines the JSON forms of items, documents,
  reports and explanations.  How doubles are written is left
  to the caller.

  Key definitions include:
    * `Encode.item`, `Encode.sequence`
    * `Encode.payload`
    * `Encode.property`
    * `Encode.document`
    * `Encode.report`
    * `Encode.explain`
    * `Encode.tally`
-/

------------------------------------------------------------
-- Items and Documents
------------------------------------------------------------

namespace Flwor

/- How doubles are written. -/
abbrev DoubleForm :=
  Double → Json

namespace Encode

/- An object of one field. -/
def single
    (key : String)
    (j : Json) : Json :=
  .obj [(key, j)]

/- A list of texts. -/
def strings
    (texts : List String) : Json :=
  .arr (texts.map Json.str)

/- An item. -/
def item
    (form : DoubleForm)
    (a : Item) : Json :=
  let tagged (t : String) (v : Json) : Json :=
    .obj [("t", .str t), ("v", v)]
  match a with
  | .bool b => tagged "Bool" (.bool b)
  | .int n => tagged "Int" (.int n)
  | .dbl x => tagged "Dbl" (form x)
  | .str s => tagged "Str" (.str s)

/- A sequence of items. -/
def sequence
    (form : DoubleForm)
    (s : Sequence) : Json :=
  .arr (s.map (item form))

/- A comparison. -/
def comparison : Comparison → Json
  | .general r => single "General" (.str r.name)
  | .value r => single "Value" (.str r.name)

/- A payload. -/
def payload
    (form : DoubleForm) : Payload → Json
  | .none => .str "None"
  | .var name => single "Var" (.str name)
  | .label text => single "Name" (.str text)
  | .int n => single "Int" (.int n)
  | .dbl x => single "Dbl" (form x)
  | .str s => single "Str" (.str s)
  | .bool b => single "Bool" (.bool b)
  | .axis a => single "Axis" (.str a.name)
  | .cmp c => single "Cmp" (comparison c)
  | .arith op => single "Arith" (.str op.name)
  | .order o => single "Order" (.str o.name)
  | .quantifier q => single "Quantifier" (.str q.name)

/- The value of a property. -/
def property : Property → Json
  | .flag b => .bool b
  | .var name => .str name
  | .vars names => strings names

/- The annotations of a node. -/
def properties
    (ps : Properties) : Json :=
  .obj (ps.map (fun p => (p.1, property p.2)))

mutual

/- A document; what is empty is left out. -/
def document
    (form : DoubleForm) : Document → Json
  | .node k p cs ps =>
      .obj
        ((if cs.isEmpty then []
          else [("children", .arr (documents form cs))])
        ++ [("kind", .str k.name)]
        ++ (if ps.isEmpty then []
            else [("properties", properties ps)])
        ++ (if p = .none then []
            else [("value", payload form p)]))

/- Several documents. -/
def documents
    (form : DoubleForm) : List Document → List Json
  | [] => []
  | d :: ds => document form d :: documents form ds

end

end Encode

end Flwor

------------------------------------------------------------
-- Reports and Explanations
------------------------------------------------------------

namespace Flwor

namespace Encode

/- The report of a walk. -/
def report
    (r : WalkReport) : Json :=
  .obj
    [("changed", .bool r.changed),
     ("pass", .str r.pass),
     ("traversals", .nat r.traversals)]

/-
  A key that is not taken yet: the plain one, or the first
  free one with a number from two on.
-/
def freeKey
    (taken : List String)
    (key : String) : String :=
  let numbered :=
    (List.range' 2 taken.length).map
      (fun n => key ++ "#" ++ toString n)
  ((key :: numbered).find? (fun k =>
    !taken.contains k)).getD key

/- Insert a field at the place where its key belongs. -/
def insertField
    (field : String × Json) :
    List (String × Json) → List (String × Json)
  | [] => [field]
  | f :: rest =>
      if field.1 < f.1 then field :: f :: rest
      else f :: insertField field rest

/- The properties of an operator, sorted by key. -/
def details
    (redact : Bool)
    (ds : List Detail) : List (String × Json) :=
  ds.foldl
    (fun fields d =>
      insertField
        (freeKey (fields.map Prod.fst) d.key,
         .str (d.shown redact))
        fields)
    []

mutual

/- An explanation. -/
def explain
    (redact : Bool) : Explain → Json
  | .node op ds inputs =>
      .obj
        ([("inputs", .arr (explains redact inputs)),
          ("op", .str op)]
        ++ (if ds.isEmpty then []
            else [("props", .obj (details redact ds))]))

/- Several explanations. -/
def explains
    (redact : Bool) : List Explain → List Json
  | [] => []
  | e :: rest => explain redact e :: explains redact rest

end

/- The counters of an evaluation. -/
def tally
    (t : Tally) : Json :=
  .obj
    [("hash_joins", .nat t.hashJoins),
     ("let_evaluations", .nat t.letEvaluations),
     ("nested_loop_joins", .nat t.nestedLoopJoins),
     ("rows", .nat t.rows),
     ("skipped_lets", .nat t.skippedLets),
     ("sort_merge_joins", .nat t.sortMergeJoins)]

end Encode

end Flwor
