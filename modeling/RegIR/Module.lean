import RegIR.Func

/-!
# Modules

A module is a list of functions with distinct names and a list of string constants. It
records whether storage has been assigned to its registers.
-/

namespace RegIR

/-- A module. -/
structure Module where
  name : String
  functions : List Func := []
  strings : List StringConst := []
  /-- Have the virtual registers been given storage? -/
  lowered : Bool := false
deriving DecidableEq, Repr

namespace Module

/-- The function of a given name. -/
def function? (m : Module) (name : String) : Option Func :=
  m.functions.find? (·.name == name)

/-- The string constant of a given name. -/
def string? (m : Module) (name : String) : Option StringConst :=
  m.strings.find? (·.name == name)

/-- Add a function; its name must be new. -/
def addFunction (m : Module) (f : Func) : Checked Module :=
  if (m.function? f.name).isSome then
    .error (.duplicateFunction m.name f.name)
  else
    .ok { m with functions := m.functions ++ [f] }

/-- Add a string constant. -/
def addString (m : Module) (s : StringConst) : Module :=
  { m with strings := m.strings ++ [s] }

/-- Replace the function at a position. -/
def setFunction (m : Module) (position : Nat) (f : Func) : Module :=
  { m with functions := m.functions.set position f }

/-- A string constant as it is written in IR text. -/
def stringText (s : StringConst) : String :=
  "@" ++ s.name ++ " = \"" ++ s.value ++ "\"\n"

/-- The module as it is written in IR text. -/
def text (m : Module) : String :=
  ";module " ++ m.name ++ "\n" ++ String.join (m.strings.map stringText)
    ++ String.join (m.functions.map fun f => "\n" ++ f.text)

end Module

end RegIR
