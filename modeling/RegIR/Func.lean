import RegIR.Block
import RegIR.Fault

/-!
# Functions

A function has a linkage, a return type, arguments that each bind a register name, and
blocks in layout order. It numbers its blocks from one and never gives a number twice, so
a number stays good while blocks are inserted around it. A function that is defined
elsewhere has no blocks.
-/

namespace RegIR

/-- Who can see a function, and where it is defined. -/
inductive Linkage where
  /-- Defined here and visible to other modules. -/
  | exported
  /-- Defined here and visible only here. -/
  | internal
  /-- Defined elsewhere. -/
  | external
deriving DecidableEq, Repr

/-- The linkage as it is written in IR text. -/
def Linkage.text : Linkage → String
  | exported => "gbl"
  | internal => "lcl"
  | external => "ext"

/-- A function. -/
structure Func where
  name : String
  linkage : Linkage
  returnType : Ty
  args : List (Ty × RegName) := []
  blocks : List Block := []
  /-- Bytes of stack slots, known once storage has been assigned. -/
  stackSize : UInt32 := 0
  /-- The number the next block gets. -/
  nextBlockId : UInt32 := 1
deriving DecidableEq, Repr

namespace Func

def isExternal (f : Func) : Bool :=
  f.linkage == .external

/-- Add an argument under a given register name. -/
def addArg (f : Func) (type : Ty) (reg : RegName) : Func :=
  { f with args := f.args ++ [(type, reg)] }

/-- Replace the arguments; they bind the registers numbered from zero. -/
def setArgs (f : Func) (types : List Ty) : Func :=
  { f with args := types.mapIdx fun i type => (type, .num (UInt32.ofNat i)) }

/-- The block with a given number. -/
def block? (f : Func) (id : UInt32) : Option Block :=
  f.blocks.find? (·.id == id)

/-- The block with a given name. -/
def blockNamed? (f : Func) (name : String) : Option Block :=
  f.blocks.find? (·.name == name)

/-- The block that control enters first. -/
def entry? (f : Func) : Option Block :=
  f.blocks.head?

/-! ### Adding blocks -/

/-- A new block needs a function with a body, and a name of its own. -/
def checkNewBlock (f : Func) (b : Block) : Checked Unit :=
  if f.isExternal then
    .error (.externalBody f.name)
  else if (f.blockNamed? b.name).isSome then
    .error (.duplicateBlock f.name b.name)
  else
    .ok ()

/-- Number a block and add it at the end. Returns the number and the function. -/
def addBlock (f : Func) (b : Block) : Checked (UInt32 × Func) := do
  f.checkNewBlock b
  let id := f.nextBlockId
  let next ← successor32 id
  return (id, { f with blocks := f.blocks ++ [{ b with id := id }], nextBlockId := next })

/-- Number a block and insert it behind the block numbered `after`. Returns the number and
the function. -/
def addBlockAfter (f : Func) (after : UInt32) (b : Block) : Checked (UInt32 × Func) := do
  f.checkNewBlock b
  match f.blocks.findIdx? (·.id == after) with
  | none => throw (.missingBlock f.name after)
  | some position =>
    let id := f.nextBlockId
    let next ← successor32 id
    return (id,
      { f with blocks := f.blocks.insertIdx (position + 1) { b with id := id }
               nextBlockId := next })

/-- Change the first block that satisfies a test. -/
def modifyFirst (p : Block → Bool) (change : Block → Block) : List Block → List Block
  | [] => []
  | b :: bs => if p b then change b :: bs else b :: modifyFirst p change bs

/-- Add an instruction at the end of the block numbered `id`, if there is one. -/
def appendTo? (f : Func) (id : UInt32) (i : Instruction) : Option Func :=
  if (f.block? id).isSome then
    some { f with blocks := modifyFirst (·.id == id) (·.append i) f.blocks }
  else
    none

/-! ### Text -/

/-- An argument as it is written in IR text. -/
def argText (arg : Ty × RegName) : String :=
  arg.1.text ++ " %" ++ arg.2.text

/-- The function as it is written in IR text. Without blocks it is a declaration. -/
def text (f : Func) : String :=
  let keyword := if f.blocks.isEmpty then "def" else "func"
  let body :=
    if f.blocks.isEmpty then ";\n"
    else " \x7b\n" ++ String.join (f.blocks.map Block.text) ++ "\x7d\n"
  keyword ++ " (" ++ f.linkage.text ++ ") " ++ f.name ++ "("
    ++ String.intercalate ", " (f.args.map argText) ++ ") -> " ++ f.returnType.text ++ body

end Func

end RegIR
