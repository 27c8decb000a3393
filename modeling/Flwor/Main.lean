import Flwor.Command

/-
  This file is the outer layer of the command line: it looks
  at the environment and the files, and prints.

  Key definitions include:
    * `main`
-/

------------------------------------------------------------
-- Files
------------------------------------------------------------

namespace Flwor

namespace Command

/- What is found under a path. -/
def look
    (path : String) : IO FileState := do
  try
    return .text (← IO.FS.readFile path)
  catch e =>
    match e with
    | .noFileOrDirectory .. => return .missing
    | _ => return .unreadable (toString e)

/- The standard configuration file of the environment. -/
def standardConfig : IO (Option String) := do
  let own := (← IO.getEnv "XDG_CONFIG_HOME").filter
    (fun d => d.startsWith "/")
  let home := (← IO.getEnv "HOME").map (· ++ "/.config")
  return (own.orElse (fun _ => home)).map configPath

/- The configuration file that the environment asks for. -/
def askedConfig : IO (Option String) :=
  IO.getEnv (programName.toUpper ++ "_CONFIG")

/- What the command can see of the files at some paths. -/
def survey
    (asked standard : Option String)
    (paths : List String) : IO Setting := do
  let found ← paths.mapM (fun path => do
    return (path, ← look path))
  let files (path : String) : FileState :=
    (found.lookup path).getD .missing
  return { files, asked, standard }

end Command

end Flwor

------------------------------------------------------------
-- The Program
------------------------------------------------------------

/- Run the command line and exit with its code. -/
def main
    (args : List String) : IO UInt32 := do
  let asked ← Flwor.Command.askedConfig
  let standard ← Flwor.Command.standardConfig
  let paths := Flwor.Command.paths asked standard args
  let setting ← Flwor.Command.survey asked standard paths
  let outcome := Flwor.Command.perform setting args
  (← IO.getStdout).putStr outcome.output
  (← IO.getStderr).putStr outcome.errors
  return UInt32.ofNat outcome.code
