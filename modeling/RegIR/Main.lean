import RegIR.Cli.Run

/-!
# The program

The command line on the disk and the terminal. What is done, and in which order, is decided
by `RegIR.Cli.Request.plan`.
-/

namespace RegIR

namespace Cli

/-- Why the operating system did not write a file. -/
def writeErrorText : IO.Error → String
  | .noFileOrDirectory .. => FileError.notFound.message
  | .inappropriateType .. => FileError.isDirectory.message
  | e => e.toString

/-- Write a file. Returns the reason if that fails. -/
def writeText (path content : String) : IO (Option String) :=
  try
    IO.FS.writeFile path content
    return none
  catch e => return some (writeErrorText e)

/-- Carry out actions until one fails. Returns the reason if one does. -/
def perform : List Action → IO (Option String)
  | [] => return none
  | .print text :: rest => do
      IO.print text
      perform rest
  | .write path content :: rest => do
      match ← writeText path content with
      | none => perform rest
      | some error => return some error

end Cli

end RegIR

open RegIR.Cli in
/-- Run the command that the arguments describe. -/
def main (args : List String) : IO UInt32 := do
  match parse args with
  | .error e =>
      IO.eprintln ("error: " ++ e.message)
      return 2
  | .ok request =>
      let plan := request.plan
      match (← perform plan.actions) <|> plan.error with
      | some error =>
          IO.eprint (errorText error)
          return 1
      | none => return 0
