import Flwor.Command.Source
import Flwor.Json.Encode
import Flwor.Prepare

/-
  This file defines what the command line prints about a
  prepared query and about its result.

  Key definitions include:
    * `Report.indent`
    * `Report.explainText`, `Report.explainJson`
    * `Report.resultText`, `Report.resultJson`
    * `Report.counters`
-/

------------------------------------------------------------
-- Lines
------------------------------------------------------------

namespace Flwor

namespace Report

/- A line without the return in front of its break. -/
def dropReturn
    (line : String) : String :=
  if line.toList.getLast? = some '\r' then
    String.ofList line.toList.dropLast
  else line

/- The lines of a text; a break at its end adds none. -/
def lines
    (text : String) : List String :=
  let parts := text.splitOn "\n"
  let last := parts.getLast?.getD ""
  parts.dropLast.map dropReturn
    ++ (if last.isEmpty then [] else [last])

/- Indent the lines of a text. -/
def indent
    (text : String) : String :=
  String.join ((lines text).map (fun l => "  " ++ l ++ "\n"))

end Report

end Flwor

------------------------------------------------------------
-- Explanations
------------------------------------------------------------

namespace Flwor

namespace Report

/- The line of a pass. -/
def passLine
    (r : WalkReport) : String :=
  "  " ++ r.pass ++ " traversals=" ++ toString r.traversals
    ++ " changed=" ++ toString r.changed ++ "\n"

/- The operators of a query under its fingerprint. -/
def operators
    (redact : Bool)
    (query : Query) : String :=
  "plan_hash=" ++ Checksum.hex query.fingerprint ++ "\n"
    ++ query.explain.render redact 0

/- The explanation of a prepared query as text. -/
def explainText
    (redact : Bool)
    (prepared : Prepared) : String :=
  "Rewrites:\n"
    ++ String.join (prepared.reports.map passLine)
    ++ "Plan:\n"
    ++ indent prepared.plan.render
    ++ "Operators:\n"
    ++ indent (operators redact prepared.query)

/- The explanation of a prepared query as a value. -/
def explainJson
    (redact : Bool)
    (prepared : Prepared) : Json :=
  let plan := prepared.plan
  .obj
    [("explain", .obj
        [("plan",
          Encode.explain redact prepared.query.explain),
         ("plan_hash",
          .str (Checksum.hex prepared.query.fingerprint))]),
     ("externals", Encode.strings prepared.query.externals),
     ("plan",
      Encode.document Json.double (plan.document plan.root)),
     ("projected", .nat prepared.projected),
     ("rewrites", .obj
        [("passes",
          .arr (prepared.reports.map Encode.report))])]

end Report

end Flwor

------------------------------------------------------------
-- Results
------------------------------------------------------------

namespace Flwor

namespace Report

/- The items of a result, one after the other. -/
def resultText
    (s : Sequence) : String :=
  String.join (s.map (fun a => a.text ++ "\n"))

/- A result and its counters as a value. -/
def resultJson
    (s : Sequence)
    (t : Tally) : Json :=
  .obj
    [("items", Encode.sequence Json.double s),
     ("profile", .null),
     ("stats", Encode.tally t)]

/- The line of the counters. -/
def counters
    (t : Tally) : String :=
  "rows=" ++ toString t.rows
    ++ " let_evaluations=" ++ toString t.letEvaluations
    ++ " skipped_lets=" ++ toString t.skippedLets
    ++ " joins(hash=" ++ toString t.hashJoins
    ++ " sort_merge=" ++ toString t.sortMergeJoins
    ++ " nested_loop=" ++ toString t.nestedLoopJoins
    ++ ")\n"

end Report

end Flwor
