/-
  This file defines how the arguments of the command line
  are read.

  The configuration and the format may be given before the
  task and after it; what is given after it counts.  Nothing
  may be given twice in the same place.

  Key definitions include:
    * `Argument`
    * `Task`
    * `Invocation`
    * `Request`
    * `Request.ofArguments?`
-/

------------------------------------------------------------
-- Arguments
------------------------------------------------------------

namespace Flwor

/- One argument, by its shape. -/
inductive Argument where
  | word (text : String)
  | option
      (name : String)
      (value : Option String)
  | letters (text : List Char)
  | separator
deriving DecidableEq, Repr

namespace Argument

/- The shape of an argument. -/
def ofString
    (text : String) : Argument :=
  match text.toList with
  | ['-', '-'] => .separator
  | '-' :: '-' :: rest =>
      let name := String.ofList (rest.takeWhile (· != '='))
      match rest.dropWhile (· != '=') with
      | _ :: value => .option name (some (String.ofList value))
      | [] => .option name none
  | '-' :: c :: rest => .letters (c :: rest)
  | _ => .word text

end Argument

end Flwor

------------------------------------------------------------
-- Requests
------------------------------------------------------------

namespace Flwor

/- What to do with a plan. -/
inductive Task where
  | explain
  | run
deriving DecidableEq, Repr

namespace Task

/- The task of a name. -/
def ofName?
    (name : String) : Option Task :=
  if name = "explain" then some .explain
  else if name = "run" then some .run
  else none

end Task

/- The form of the output. -/
inductive OutputFormat where
  | text
  | json
deriving DecidableEq, Repr

namespace OutputFormat

/- The format of a name. -/
def ofName?
    (name : String) : Option OutputFormat :=
  if name = "text" then some .text
  else if name = "json" then some .json
  else none

end OutputFormat

/- A task with its plan and the settings that go with it. -/
structure Invocation where
  task : Task
  plan : String
  config : Option String
  format : OutputFormat
  unnest : Bool
  noProjection : Bool
  maxTraversals : Option Nat
  redact : Bool
deriving DecidableEq, Repr

/- What the arguments ask for. -/
inductive Request where
  | invoke (invocation : Invocation)
  | help
  | version
deriving DecidableEq, Repr

end Flwor

------------------------------------------------------------
-- Options
------------------------------------------------------------

namespace Flwor

/- What has been given in one place. -/
structure Given where
  config : Option String
  format : Option OutputFormat
  plan : Option String
  unnest : Bool
  noProjection : Bool
  maxTraversals : Option Nat
  redact : Bool
deriving DecidableEq, Repr

namespace Given

/- Nothing given. -/
def nothing : Given where
  config := none
  format := none
  plan := none
  unnest := false
  noProjection := false
  maxTraversals := none
  redact := false

/- Give a configuration file. -/
def addConfig
    (path : String)
    (given : Given) : Option Given :=
  if path.isEmpty || given.config.isSome then none
  else some { given with config := some path }

/- Give a format. -/
def addFormat
    (name : String)
    (given : Given) : Option Given := do
  guard given.format.isNone
  let format ← OutputFormat.ofName? name
  return { given with format := some format }

/- Give a plan. -/
def addPlan
    (path : String)
    (given : Given) : Option Given :=
  if path.isEmpty || given.plan.isSome then none
  else some { given with plan := some path }

/- Unnest. -/
def addUnnest
    (given : Given) : Option Given :=
  if given.unnest then none
  else some { given with unnest := true }

/- Leave out the annotation of live bindings. -/
def addNoProjection
    (given : Given) : Option Given :=
  if given.noProjection then none
  else some { given with noProjection := true }

/- Hide literals. -/
def addRedact
    (given : Given) : Option Given :=
  if given.redact then none
  else some { given with redact := true }

/- A 64-bit number, which may have a plus in front. -/
def count?
    (text : String) : Option Nat :=
  let digits :=
    match text.toList with
    | '+' :: rest => rest
    | cs => cs
  if digits.isEmpty || !digits.all Char.isDigit then none
  else
    let n := digits.foldl
      (fun n c => n * 10 + (c.toNat - 48)) 0
    if n < Nat.pow 2 64 then some n else none

/- Give a bound on the traversals. -/
def addMaxTraversals
    (text : String)
    (given : Given) : Option Given := do
  guard given.maxTraversals.isNone
  return { given with maxTraversals := some (← count? text) }

/- The request that the two places make together. -/
def request?
    (task : Task)
    (before after : Given) : Option Request := do
  let plan ← after.plan
  let format :=
    (after.format.orElse (fun _ => before.format)).getD .text
  return .invoke
    { task
      plan
      config := after.config.orElse (fun _ => before.config)
      format
      unnest := after.unnest
      noProjection := after.noProjection
      maxTraversals := after.maxTraversals
      redact := after.redact }

end Given

/- An option: it stands alone, or a value belongs to it. -/
inductive OptionRule where
  | alone (give : Given → Option Given)
  | valued (give : String → Given → Option Given)

namespace OptionRule

/- The options that may be given before the task. -/
def general? : String → Option OptionRule
  | "config" => some (.valued Given.addConfig)
  | "format" => some (.valued Given.addFormat)
  | _ => none

/- The options that may be given after the task. -/
def special?
    (task : Task) : String → Option OptionRule
  | "unnest" => some (.alone Given.addUnnest)
  | "no-projection" => some (.alone Given.addNoProjection)
  | "max-traversals" =>
      some (.valued Given.addMaxTraversals)
  | "redact" =>
      if task = .explain then some (.alone Given.addRedact)
      else none
  | name => general? name

end OptionRule

end Flwor

------------------------------------------------------------
-- Reading Arguments
------------------------------------------------------------

namespace Flwor

namespace Request

/- Take an option off the arguments, with its value. -/
def option?
    (rule : OptionRule)
    (value : Option String)
    (rest : List String)
    (given : Given) : Option (Given × Bool) :=
  match rule, value, rest with
  | .alone give, none, _ =>
      (give given).map (fun g => (g, false))
  | .alone _, some _, _ => none
  | .valued give, some v, _ =>
      (give v given).map (fun g => (g, false))
  | .valued give, none, next :: _ =>
      match Argument.ofString next with
      | .word v => (give v given).map (fun g => (g, true))
      | _ => none
  | .valued _, none, [] => none

/-
  The request made by the arguments after the task, of which
  the first is skipped if it was the value of an option.
-/
def afterTask?
    (task : Task)
    (before : Given) :
    Bool → Given → List String → Option Request
  | _, given, [] => Given.request? task before given
  | true, given, _ :: rest =>
      afterTask? task before false given rest
  | false, given, arg :: rest =>
      match Argument.ofString arg with
      | .word path => do
          let given ← given.addPlan path
          afterTask? task before false given rest
      | .option "help" none => some .help
      | .option name value => do
          let rule ← OptionRule.special? task name
          let (given, skip) ← option? rule value rest given
          afterTask? task before skip given rest
      | .letters letters =>
          if letters.head? = some 'h' then some .help
          else none
      | .separator => do
          let given ← rest.foldlM
            (fun g path => g.addPlan path) given
          Given.request? task before given

/-
  The request made by all arguments, of which the first is
  skipped if it was the value of an option.
-/
def beforeTask? :
    Bool → Given → List String → Option Request
  | _, _, [] => none
  | true, given, _ :: rest => beforeTask? false given rest
  | false, given, arg :: rest =>
      match Argument.ofString arg with
      | .word name => do
          let task ← Task.ofName? name
          afterTask? task given false Given.nothing rest
      | .option "help" none => some .help
      | .option "version" none => some .version
      | .option name value => do
          let rule ← OptionRule.general? name
          let (given, skip) ← option? rule value rest given
          beforeTask? skip given rest
      | .letters letters =>
          if letters.head? = some 'h' then some .help
          else if letters.head? = some 'V' then some .version
          else none
      | .separator => none

/- The request that arguments make, unless they are wrong. -/
def ofArguments?
    (args : List String) : Option Request :=
  beforeTask? false Given.nothing args

end Request

end Flwor
