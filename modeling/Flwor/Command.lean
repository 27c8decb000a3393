import Flwor.Command.Report
import Flwor.Command.Usage

/-
  This file defines what the command line does: from its
  arguments and the files it may look at to what it prints.

  Key definitions include:
    * `Command.FileState`, `Command.Setting`
    * `Command.Fault`
    * `Command.Outcome`
    * `Command.perform`
    * `Command.paths`
-/

------------------------------------------------------------
-- Files and Faults
------------------------------------------------------------

namespace Flwor

namespace Command

/- What is found under a path. -/
inductive FileState where
  | missing
  | unreadable (reason : String)
  | text (contents : String)
deriving DecidableEq, Repr

/-
  What a command can see: the files, the configuration file
  asked for by its surroundings, and the standard one.
-/
structure Setting where
  files : String → FileState
  asked : Option String
  standard : Option String

/- Why a command ends without a result. -/
inductive Fault where
  | noConfig (path : String)
  | configUnreadable (path reason : String)
  | configMalformed (path : String)
  | queryUnreadable (path reason : String)
  | queryMalformed (path : String)
  | failed (failure : Failure)

namespace Fault

/- The text of a fault. -/
def message : Fault → String
  | .noConfig path =>
      "config file " ++ path ++ " does not exist"
  | .configUnreadable path reason =>
      "failed to read CLI config " ++ path ++ ": " ++ reason
  | .configMalformed path =>
      "failed to parse CLI config " ++ path
        ++ ": no table of settings"
  | .queryUnreadable path reason =>
      "failed to read " ++ path ++ ": " ++ reason
  | .queryMalformed path =>
      "failed to parse " ++ path ++ ": no query"
  | .failed failure => failure.message

end Fault

/- What a command prints, and the code it ends with. -/
structure Outcome where
  code : Nat
  output : String
  errors : String
deriving DecidableEq, Repr

end Command

end Flwor

------------------------------------------------------------
-- Configuration
------------------------------------------------------------

namespace Flwor

namespace Command

/- The name of the program. -/
def programName : String :=
  "sylva"

/- The standard configuration file below a directory. -/
def configPath
    (directory : String) : String :=
  directory ++ "/" ++ programName ++ "/config.toml"

/- The settings in a configuration file that exists. -/
def settingsIn
    (path contents : String) : Except Fault Settings :=
  match Settings.parse? contents with
  | some settings => .ok settings
  | none => .error (.configMalformed path)

/-
  The settings to start from.  A file that was asked for
  must exist; the standard one need not.
-/
def loadSettings
    (setting : Setting)
    (i : Invocation) : Except Fault Settings :=
  let asked := i.config.orElse (fun _ => setting.asked)
  match asked.orElse (fun _ => setting.standard) with
  | none => .ok Settings.standard
  | some path =>
      match setting.files path with
      | .text contents => settingsIn path contents
      | .unreadable reason =>
          .error (.configUnreadable path reason)
      | .missing =>
          if asked.isSome then .error (.noConfig path)
          else .ok Settings.standard

/- Settings as changed by options. -/
def adjust
    (i : Invocation)
    (settings : Settings) : Settings :=
  { settings with
    unnest := settings.unnest || i.unnest
    projection := settings.projection && !i.noProjection
    maxTraversals :=
      i.maxTraversals.getD settings.maxTraversals }

end Command

end Flwor

------------------------------------------------------------
-- Tasks
------------------------------------------------------------

namespace Flwor

namespace Command

/- The query in a file. -/
def loadQuery
    (setting : Setting)
    (path : String) : Except Fault QueryFile :=
  match setting.files path with
  | .text contents =>
      match QueryFile.parse? contents with
      | some query => .ok query
      | none => .error (.queryMalformed path)
  | .unreadable reason =>
      .error (.queryUnreadable path reason)
  | .missing =>
      .error (.queryUnreadable path
        "No such file or directory (os error 2)")

/- Prepare the query of a file. -/
def prepareQuery
    (settings : Settings)
    (file : QueryFile) : Except Failure Prepared := do
  let plan ← Plan.ofValidDocument file.document
  plan.prepare settings Library.standard file.externals

/- The outcome of a task that explains. -/
def explained
    (i : Invocation)
    (prepared : Prepared) : Outcome :=
  match i.format with
  | .json =>
      ⟨0, (Report.explainJson i.redact prepared).pretty
        ++ "\n", ""⟩
  | .text => ⟨0, Report.explainText i.redact prepared, ""⟩

/- The outcome of a task that runs. -/
def evaluated
    (i : Invocation)
    (file : QueryFile)
    (prepared : Prepared) : Except Failure Outcome := do
  let answer := prepared.query.evaluate file.bindings
  let s ← answer.result
  let tally := answer.journal.tally
  match i.format with
  | .json =>
      return ⟨0, (Report.resultJson s tally).pretty ++ "\n",
        ""⟩
  | .text =>
      return ⟨0, Report.resultText s, Report.counters tally⟩

/- Do what is asked for, after the settings are known. -/
def execute
    (i : Invocation)
    (settings : Settings)
    (file : QueryFile) : Except Failure Outcome := do
  let prepared ← prepareQuery (adjust i settings) file
  match i.task with
  | .explain => return explained i prepared
  | .run => evaluated i file prepared

/- Do what is asked for. -/
def invoke
    (setting : Setting)
    (i : Invocation) : Except Fault Outcome := do
  let settings ← loadSettings setting i
  let file ← loadQuery setting i.plan
  (execute i settings file).mapError Fault.failed

end Command

end Flwor

------------------------------------------------------------
-- The Command Line
------------------------------------------------------------

namespace Flwor

namespace Command

/- How the program is used. -/
def usage : String :=
  "Usage: " ++ programName
    ++ " [--config FILE] [--format text|json]"
    ++ " <explain [--redact]|run> [--unnest]"
    ++ " [--no-projection] [--max-traversals N] PLAN\n"

/- The version of the program. -/
def version : String :=
  programName ++ " 0.1.0\n"

/- The outcome of wrong arguments. -/
def refused : Outcome :=
  ⟨2, "", "error: wrong arguments\n\n" ++ usage⟩

/- The outcome of arguments. -/
def perform
    (setting : Setting)
    (args : List String) : Outcome :=
  match Request.ofArguments? args with
  | none => refused
  | some .help => ⟨0, usage, ""⟩
  | some .version => ⟨0, version, ""⟩
  | some (.invoke i) =>
      if i.config = none ∧ setting.asked = some "" then
        refused
      else
        match invoke setting i with
        | .ok outcome => outcome
        | .error fault =>
            ⟨1, "", "error: " ++ fault.message ++ "\n"⟩

/- The files that arguments lead to. -/
def paths
    (asked standard : Option String)
    (args : List String) : List String :=
  match Request.ofArguments? args with
  | some (.invoke i) =>
      [i.config, asked, standard, some i.plan].filterMap id
  | _ => []

end Command

end Flwor
