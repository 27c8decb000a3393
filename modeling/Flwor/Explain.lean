import Flwor.Checksum
import Flwor.Operator.Syntax

/-
  This file defines the explanation of a compiled query: a
  tree of operators with their properties, in which texts
  that may hold literals can be redacted.

  Key definitions include:
    * `Explain`
    * `Detail`
    * `Operator.explain`
    * `Explain.render`
    * `Explain.bytes`
-/

------------------------------------------------------------
-- Explanations
------------------------------------------------------------

namespace Flwor

/- A property shown in an explanation. -/
structure Detail where
  key : String
  value : String
  redactable : Bool
deriving DecidableEq, Repr

namespace Detail

/- A property that is always shown. -/
def plain
    (key value : String) : Detail :=
  ⟨key, value, false⟩

/- A property that may hold literals. -/
def literal
    (key value : String) : Detail :=
  ⟨key, value, true⟩

/- The value as shown. -/
def shown
    (redact : Bool)
    (d : Detail) : String :=
  if redact && d.redactable then "<redacted>" else d.value

end Detail

/- An operator with its properties and its inputs. -/
inductive Explain where
  | node
      (op : String)
      (details : List Detail)
      (inputs : List Explain)

namespace Explain

mutual

/- One line for each operator, indented by its depth. -/
def render
    (redact : Bool)
    (depth : Nat) : Explain → String
  | .node op details inputs =>
      String.ofList (List.replicate (2 * depth) ' ')
        ++ op
        ++ String.join (details.map (fun d =>
            " " ++ d.key ++ "=" ++ d.shown redact))
        ++ "\n"
        ++ renderAll redact (depth + 1) inputs

/- The lines of several explanations. -/
def renderAll
    (redact : Bool)
    (depth : Nat) : List Explain → String
  | [] => ""
  | e :: rest =>
      render redact depth e ++ renderAll redact depth rest

end

mutual

/-
  The bytes that identify an explanation: names and values
  as they stand, and the number of inputs before the inputs.
-/
def bytes : Explain → List UInt8
  | .node op details inputs =>
      op.toUTF8.toList
        ++ details.flatMap (fun d =>
            d.key.toUTF8.toList ++ d.value.toUTF8.toList)
        ++ Checksum.littleEndian
            (UInt64.ofNat inputs.length)
        ++ bytesAll inputs

/- The bytes of several explanations. -/
def bytesAll : List Explain → List UInt8
  | [] => []
  | e :: rest => bytes e ++ bytesAll rest

end

end Explain

end Flwor

------------------------------------------------------------
-- Explanations of Operators
------------------------------------------------------------

namespace Flwor

namespace Operator

/- The property that shows a check. -/
def checkDetails
    (check : Option Slot) : List Detail :=
  match check with
  | some slot => [.plain "check" ("$" ++ slot.name)]
  | none => []

/- The property that shows a sort key. -/
def keyDetail : SortKey → Detail
  | .mk e order =>
      .literal "key" (e.text ++ " " ++ order.abbreviation)

/- The property that shows a variable. -/
def varDetail
    (key : String)
    (slot : Slot) : Detail :=
  .plain key ("$" ++ slot.name)

/- The property that shows a flag that is set. -/
def flagDetails
    (key : String)
    (value : Bool) : List Detail :=
  if value then [.plain key "true"] else []

/- The explanation of an operator and its inputs. -/
def explain : Operator → Explain
  | .start => .node "Start" [] []
  | .forBind input var position source check =>
      .node "ForBind"
        ([.plain "var" ("$" ++ var)]
          ++ (match position with
              | some p => [Detail.plain "at" ("$" ++ p)]
              | none => [])
          ++ [.literal "in" source.text]
          ++ checkDetails check)
        [explain input]
  | .letBind input var value check =>
      .node "LetBind"
        ([.plain "var" ("$" ++ var)]
          ++ (match value with
              | some e => [Detail.literal "expr" e.text]
              | none => [Detail.plain "disabled" "true"])
          ++ checkDetails check)
        [explain input]
  | .select input predicate =>
      .node "Select" [.literal "predicate" predicate.text]
        [explain input]
  | .orderBy input keys =>
      .node "OrderBy" (keys.map keyDetail) [explain input]
  | .groupBy input keys aggregates =>
      .node "GroupBy"
        (keys.map (varDetail "key")
          ++ aggregates.map (varDetail "collect"))
        [explain input]
  | .count input var =>
      .node "Count" [.plain "var" ("$" ++ var)]
        [explain input]
  | .project input _ keep =>
      .node "Project"
        [.plain "keep"
          ("["
            ++ ", ".intercalate
                (keep.map (fun s => "$" ++ s.name))
            ++ "]")]
        [explain input]
  | .join left right leftKey rightKey comparison leftJoin
      skipSort _ _ =>
      .node "Join"
        ([.plain "strategy"
            (JoinStrategy.ofComparison comparison).name,
          .literal "on"
            (leftKey.text ++ " " ++ comparison.symbol ++ " "
              ++ rightKey.text)]
          ++ flagDetails "left_join" leftJoin
          ++ flagDetails "skip_sort" skipSort)
        [explain left, explain right]

end Operator

end Flwor
