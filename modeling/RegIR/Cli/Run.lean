import RegIR.Cli.Arguments
import RegIR.Cli.FileStore
import RegIR.Json.Codec
import RegIR.Sample
import RegIR.Select.Program
import RegIR.Storage

/-!
# The command line

A request is turned into a plan: texts to print and files to write, in order, and an error
to end with if the request cannot be met. A plan that fails to write a file ends there with
the reason. The same plan is carried out on the disk by the program and in a `FileStore` by
`Plan.run`.

The exit code is 0 on success, 1 after an error and 2 if the arguments are not understood.
-/

namespace RegIR

namespace Cli

/-- Something to do. -/
inductive Action where
  | print (text : String)
  | write (path content : String)
deriving DecidableEq, Repr

/-- What to do, and how it ends. -/
structure Plan where
  actions : List Action
  error : Option String := none
deriving DecidableEq, Repr

/-- The text for a user who asks what there is. -/
def helpText : String :=
  "Usage: lirc [-v] <COMMAND>\n\n" ++
  "Commands:\n" ++
  "  demo <NAME> [-o FILE] [--print-ir] [--emit-json FILE]  compile a sample\n" ++
  "  list                                                   list the samples\n"

def versionText : String :=
  "lirc 0.1.0\n"

/-- A name filled up with blanks to eight characters. -/
def padName (name : String) : String :=
  name ++ String.ofList (List.replicate (8 - name.length) ' ')

/-- The samples, one on a line. -/
def listText : String :=
  String.join (Sample.all.map fun s => padName s.name ++ " " ++ s.description ++ "\n")

/-- A failure of a stage, as a user is told it. -/
def failureText {ε : Type} (message : ε → String) : Failure ε → String
  | .error e => message e
  | .fault f => f.message

/-- Compile a module: the lowered module is printed if asked for, and the assembly text is
printed or written. -/
def compilePlan (options : Demo) (m : Module) : Plan :=
  let printIR (text : String) : List Action := if options.printIR then [.print text] else []
  match m.lower with
  | .error e => { actions := [], error := some (failureText (·.toCompileError.message) e) }
  | .ok lowered =>
      let shown := printIR ("=== Lowered IR ===\n" ++ lowered.text ++ "=== End IR ===\n")
      match lowered.assembly with
      | .error e =>
          { actions := shown, error := some (failureText (·.toCompileError.message) e) }
      | .ok text =>
          match options.output with
          | some path =>
              { actions :=
                  shown ++ [.write path text, .print ("Assembly written to: " ++ path ++ "\n")] }
          | none => { actions := shown ++ [.print text] }

/-- Compile a sample. -/
def demoPlan (options : Demo) : Plan :=
  match Sample.named? options.name with
  | none =>
      { actions := []
        error := some ("unknown sample '" ++ options.name ++ "', see `lirc list`") }
  | some sample =>
      match sample.module with
      | .error f => { actions := [], error := some f.message }
      | .ok m =>
          let json := match options.emitJson with
            | some path => [Action.write path m.toJson.pretty]
            | none => []
          let shown :=
            if options.printIR then [Action.print ("=== IR ===\n" ++ m.text)] else []
          let compile := compilePlan options m
          { compile with actions := json ++ shown ++ compile.actions }

/-- The plan of a request. -/
def Request.plan : Request → Plan
  | .help => { actions := [.print helpText] }
  | .version => { actions := [.print versionText] }
  | .list => { actions := [.print listText] }
  | .demo options => demoPlan options

/-! ### Carrying out a plan -/

/-- The state after running a command. -/
structure Result where
  code : UInt32
  stdout : String
  error : Option String
  files : FileStore
deriving DecidableEq, Repr

/-- How a plan ends when all its actions are done. -/
def Plan.exit (error : Option String) : UInt32 :=
  if error.isSome then 1 else 0

/-- Carry out actions in a file store. `stdout` is what has been printed before. -/
def runActions (files : FileStore) (stdout : String) (error : Option String) :
    List Action → Result
  | [] => { code := Plan.exit error, stdout := stdout, error := error, files := files }
  | .print text :: rest => runActions files (stdout ++ text) error rest
  | .write path content :: rest =>
      match files.write path content with
      | .ok files => runActions files stdout error rest
      | .error e => { code := 1, stdout := stdout, error := some e.message, files := files }

/-- Carry out a plan in a file store. -/
def Plan.run (plan : Plan) (files : FileStore) : Result :=
  runActions files "" plan.error plan.actions

/-- Run a command in a file store. -/
def run (args : List String) (files : FileStore) : Result :=
  match parse args with
  | .ok request => request.plan.run files
  | .error _ => { code := 2, stdout := "", error := none, files := files }

/-- What a user is told of an error. The text of the error may itself have several lines, since
it may quote an argument. -/
def errorText (error : String) : String :=
  "Error: " ++ error ++ "\n"

end Cli

end RegIR
