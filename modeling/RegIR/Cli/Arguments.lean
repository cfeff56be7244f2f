/-!
# Command-line arguments

The arguments are read from left to right and the first mistake ends the reading. An option
is written `--name`, or `-c` if it has a letter; letters of options without a value may be
joined. A value follows its option as the next argument or joined to it, `--name=value`,
`-cvalue` or `-c=value`; the next argument counts as a value only if it does not look like
an option. Everything behind `--` is taken as it stands. No option may be given twice to one
command, and no value may be empty.

Options that ask for information, such as `--version`, end the reading at once.

## Main definitions

* `Request`: what a user asks for.
* `UsageError`: what is wrong with the arguments.
* `parse`: from arguments to a request.
-/

namespace RegIR

namespace Cli

/-- What an option does to the reading of arguments. -/
inductive OptionKind where
  /-- Given or not. -/
  | switch
  /-- Has a value. -/
  | value
  /-- Asks for information. -/
  | stop
deriving DecidableEq, Repr

/-- An option of a command. -/
structure OptionSpec where
  name : String
  letter : Option Char
  kind : OptionKind
deriving DecidableEq, Repr

namespace OptionSpec

def help : OptionSpec := { name := "help", letter := some 'h', kind := .stop }
def version : OptionSpec := { name := "version", letter := some 'V', kind := .stop }
def verbose : OptionSpec := { name := "verbose", letter := some 'v', kind := .switch }
def output : OptionSpec := { name := "output", letter := some 'o', kind := .value }
def printIR : OptionSpec := { name := "print-ir", letter := none, kind := .switch }
def emitJson : OptionSpec := { name := "emit-json", letter := none, kind := .value }

end OptionSpec

/-- What is wrong with the arguments. -/
inductive UsageError where
  | unknownOption (arg : String)
  | repeatedOption (name : String)
  | unexpectedValue (name : String)
  | missingValue (name : String)
  | unexpectedArgument (arg : String)
  | missingArgument (name : String)
  | unknownCommand (name : String)
  | missingCommand
deriving DecidableEq, Repr

def UsageError.message : UsageError → String
  | unknownOption arg => "unknown option '" ++ arg ++ "'"
  | repeatedOption name => "option '--" ++ name ++ "' is given twice"
  | unexpectedValue name => "option '--" ++ name ++ "' takes no value"
  | missingValue name => "option '--" ++ name ++ "' needs a value"
  | unexpectedArgument arg => "unexpected argument '" ++ arg ++ "'"
  | missingArgument name => "missing argument <" ++ name ++ ">"
  | unknownCommand name => "unknown command '" ++ name ++ "'"
  | missingCommand => "a command is needed"

/-! ### One argument -/

/-- What has been read for a command: its options with their values, and the other arguments,
in order. -/
structure Given where
  options : List (String × String) := []
  plain : List String := []
deriving DecidableEq, Repr

namespace Given

def has (g : Given) (spec : OptionSpec) : Bool :=
  g.options.any (·.1 == spec.name)

def value? (g : Given) (spec : OptionSpec) : Option String :=
  g.options.lookup spec.name

/-- Give an option that may be given once. -/
def addSwitch (g : Given) (spec : OptionSpec) : Except UsageError Given :=
  if g.has spec then .error (.repeatedOption spec.name)
  else .ok { g with options := g.options ++ [(spec.name, "")] }

/-- Give an option with its value. -/
def addValue (g : Given) (spec : OptionSpec) (value : String) : Except UsageError Given :=
  if g.has spec then .error (.repeatedOption spec.name)
  else if value.isEmpty then .error (.missingValue spec.name)
  else .ok { g with options := g.options ++ [(spec.name, value)] }

/-- Give an argument, of which a command takes at most `limit`. -/
def addPlain (g : Given) (limit : Nat) (arg : String) : Except UsageError Given :=
  if g.plain.length < limit then .ok { g with plain := g.plain ++ [arg] }
  else .error (.unexpectedArgument arg)

end Given

/-- The effect of one argument. -/
inductive Effect where
  /-- Options were given. -/
  | given (g : Given)
  /-- The next argument is the value of an option. -/
  | wantsValue (spec : OptionSpec) (g : Given)
  /-- Information is asked for. -/
  | stop (spec : OptionSpec)
  /-- It is no option. -/
  | plain
  /-- No option follows. -/
  | endOfOptions
deriving DecidableEq, Repr

/-- An option by its name, with the value joined to it. -/
def longOption (specs : List OptionSpec) (g : Given) (arg : String) (name : String)
    (value : Option String) : Except UsageError Effect :=
  match specs.find? (·.name == name), value with
  | none, _ => .error (.unknownOption arg)
  | some spec, none =>
      match spec.kind with
      | .switch => (g.addSwitch spec).map .given
      | .value => .ok (.wantsValue spec g)
      | .stop => .ok (.stop spec)
  | some spec, some value =>
      match spec.kind with
      | .value => (g.addValue spec value).map .given
      | .switch | .stop => .error (.unexpectedValue spec.name)

/-- Options by their letters. An option with a value takes the rest of them as its value. -/
def letterOptions (specs : List OptionSpec) (g : Given) (arg : String) :
    List Char → Except UsageError Effect
  | [] => .ok (.given g)
  | c :: cs =>
      match specs.find? (·.letter == some c) with
      | none => .error (.unknownOption arg)
      | some spec =>
          match spec.kind, cs with
          | .switch, _ => do letterOptions specs (← g.addSwitch spec) arg cs
          | .stop, _ => .ok (.stop spec)
          | .value, [] => .ok (.wantsValue spec g)
          | .value, '=' :: value => (g.addValue spec (String.ofList value)).map .given
          | .value, value => (g.addValue spec (String.ofList value)).map .given

/-- Read one argument. -/
def readArg (specs : List OptionSpec) (g : Given) (arg : String) : Except UsageError Effect :=
  match arg.toList with
  | ['-', '-'] => .ok .endOfOptions
  | '-' :: '-' :: body =>
      let name := String.ofList (body.takeWhile (· != '='))
      let value := match body.dropWhile (· != '=') with
        | [] => none
        | _ :: value => some (String.ofList value)
      longOption specs g arg name value
  | '-' :: c :: cs => letterOptions specs g arg (c :: cs)
  | _ => .ok .plain

/-- Does an argument look like an option? A dash alone does not. -/
def looksLikeOption (arg : String) : Bool :=
  match arg.toList with
  | '-' :: _ :: _ => true
  | _ => false

/-! ### The arguments of a command -/

/-- The result of reading the arguments of a command. -/
inductive Reading where
  | complete (g : Given)
  | stopped (spec : OptionSpec)
deriving DecidableEq, Repr

/-- Read the arguments of a command that takes some options and at most `limit` other
arguments. -/
def readArgs (specs : List OptionSpec) (limit : Nat) (g : Given) :
    List String → Except UsageError Reading
  | [] => .ok (.complete g)
  | arg :: rest => do
      match ← readArg specs g arg with
      | .given g => readArgs specs limit g rest
      | .stop spec => .ok (.stopped spec)
      | .plain => do readArgs specs limit (← g.addPlain limit arg) rest
      | .endOfOptions => do
          let g ← rest.foldlM (fun g arg => g.addPlain limit arg) g
          .ok (.complete g)
      | .wantsValue spec g =>
          match rest with
          | [] => .error (.missingValue spec.name)
          | value :: rest =>
              if looksLikeOption value then .error (.missingValue spec.name)
              else do readArgs specs limit (← g.addValue spec value) rest

/-! ### Requests -/

/-- How a sample is to be compiled. -/
structure Demo where
  name : String
  /-- The file for the assembly text, which is printed otherwise. -/
  output : Option String
  /-- Print the module before and after storage is assigned. -/
  printIR : Bool
  /-- The file for the module as JSON. -/
  emitJson : Option String
deriving DecidableEq, Repr

/-- What a user asks for. -/
inductive Request where
  | help
  | version
  | list
  | demo (options : Demo)
deriving DecidableEq, Repr

/-- The request of an option that asks for information. -/
def Request.ofStop (spec : OptionSpec) : Request :=
  if spec = .version then version else help

def parseDemo (args : List String) : Except UsageError Request := do
  match ← readArgs [.verbose, .output, .printIR, .emitJson, .help] 1 {} args with
  | .stopped spec => return .ofStop spec
  | .complete g =>
      match g.plain with
      | name :: _ =>
          return .demo {
            name := name
            output := g.value? .output
            printIR := g.has .printIR
            emitJson := g.value? .emitJson }
      | [] => throw (.missingArgument "NAME")

def parseList (args : List String) : Except UsageError Request := do
  match ← readArgs [.verbose, .help] 0 {} args with
  | .stopped spec => return .ofStop spec
  | .complete _ => return .list

/-- Help may be asked for by command. -/
def parseHelp : List String → Except UsageError Request
  | [] => .ok .help
  | ["demo"] | ["list"] | ["help"] => .ok .help
  | name :: _ => .error (.unknownCommand name)

/-- Read the arguments in front of the command, and the command. -/
def parseFrom (g : Given) : List String → Except UsageError Request
  | [] => .error .missingCommand
  | "demo" :: rest => parseDemo rest
  | "list" :: rest => parseList rest
  | "help" :: rest => parseHelp rest
  | arg :: rest => do
      match ← readArg [.verbose, .version, .help] g arg with
      | .given g => parseFrom g rest
      | .stop spec => return .ofStop spec
      | .plain => throw (.unknownCommand arg)
      | .endOfOptions | .wantsValue _ _ => throw .missingCommand

/-- From arguments to a request. -/
def parse (args : List String) : Except UsageError Request :=
  parseFrom {} args

end Cli

end RegIR
