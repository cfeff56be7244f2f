import RegIR.Error
import RegIR.Module
import RegIR.Ty.Layout

/-!
# Storage assignment

Every virtual register of a function is replaced by a place in hardware. Variables get stack
slots, arguments are numbered, element addresses get pointer registers and all other values
general registers. Instructions are visited once, in layout order.

## Conventions

*Definition before use.* A source is replaced by what its name stands for at that point; a
name that stands for nothing yet is left alone, and the function is rejected afterwards.

*Priority.* A name defined in several classes stands for its stack slot if it has one, then
for an argument, a pointer register, a general register; within a class the last definition
counts.

*Reuse.* There is no liveness analysis. The numbering of general registers starts again at
every store and every call, after which values in them are taken to be dead. Pointer
registers and slots are never reused.

## Main definitions

* `Storage`: what the names of a function stand for, and the next free places.
* `Storage.assign`: one instruction.
* `Func.lower`, `Module.lower`: a function, a module; or the first register without a
  definition.
-/

namespace RegIR

/-- Why a module cannot be given storage. -/
inductive LowerError where
  | alreadyLowered (owner : String)
  | unresolvedRegister (function block : String) (reg : RegName)
deriving DecidableEq, Repr

def LowerError.message : LowerError → String
  | alreadyLowered owner => "module '" ++ owner ++ "' has already been lowered"
  | unresolvedRegister function block reg =>
      "register %" ++ reg.text ++ " in " ++ function ++ ":" ++ block ++ " was never defined"

def LowerError.toCompileError (e : LowerError) : CompileError :=
  match e with
  | alreadyLowered _ => .internal e.message
  | unresolvedRegister function _ _ => .lowering function e.message

/-- What the register names of a function stand for, the last definition first, and the next
free place in each class. -/
structure Storage where
  slots : List (RegName × UInt32) := []
  arguments : List (RegName × UInt32) := []
  pointers : List (RegName × UInt32) := []
  generals : List (RegName × UInt32) := []
  nextGeneral : UInt32 := 0
  nextPointer : UInt32 := 0
  /-- Bytes of stack slots so far. -/
  offset : UInt32 := 0
deriving DecidableEq, Repr

namespace Storage

/-- At the start of a function only the arguments are defined. -/
def ofArgs (args : List (Ty × RegName)) : Storage :=
  { arguments := (args.mapIdx fun i arg => (arg.2, UInt32.ofNat i)).reverse }

/-- What a name stands for. -/
def resolve (s : Storage) (name : RegName) : Operand :=
  match s.slots.lookup name, s.arguments.lookup name,
      s.pointers.lookup name, s.generals.lookup name with
  | some offset, _, _, _ => .slot name offset
  | none, some index, _, _ => .argument index
  | none, none, some index, _ => .pointer index
  | none, none, none, some index => .general index
  | none, none, none, none => .reg name

/-- Replace a virtual register by what it stands for. -/
def rename (s : Storage) : Operand → Operand
  | .reg name => s.resolve name
  | op => op

/-- Replace the sources of an instruction. -/
def renameSources (s : Storage) (i : Instruction) : Instruction :=
  { i with src1 := i.src1.map s.rename, src2 := i.src2.map s.rename, src3 := i.src3.map s.rename }

/-- Replace the arguments of a call. -/
def renameArgs (s : Storage) (i : Instruction) : Instruction :=
  { i with call := i.call.map fun c => { c with args := c.args.map s.rename } }

/-- Give a variable a stack slot below those before it. A variable without a size still gets
an address of its own. -/
def takeSlot (s : Storage) (i : Instruction) : Checked (Storage × Instruction) :=
  match i.dest with
  | some (.reg name) => do
      let offset ← narrow32 .add (s.offset.toNat + max i.dataType.size 1)
      return ({ s with slots := (name, offset) :: s.slots, offset := offset },
        { i with dest := some (.slot name offset) })
  | _ => return (s, i)

/-- Give a destination the next pointer register. -/
def takePointer (s : Storage) (i : Instruction) : Checked (Storage × Instruction) :=
  match i.dest with
  | some (.reg name) => do
      let next ← successor32 s.nextPointer
      return ({ s with pointers := (name, s.nextPointer) :: s.pointers, nextPointer := next },
        { i with dest := some (.pointer s.nextPointer) })
  | _ => return (s, i)

/-- Give a destination the next general register. -/
def takeGeneral (s : Storage) (i : Instruction) : Checked (Storage × Instruction) :=
  match i.dest with
  | some (.reg name) => do
      let next ← successor32 s.nextGeneral
      return ({ s with generals := (name, s.nextGeneral) :: s.generals, nextGeneral := next },
        { i with dest := some (.general s.nextGeneral) })
  | _ => return (s, i)

/-- Start the numbering of general registers again. -/
def releaseGenerals (s : Storage) : Storage :=
  { s with nextGeneral := 0 }

/-- Assign storage to one instruction. The arguments of a call are read before its result is
defined, the sources of any instruction after. A variable has no sources. -/
def assign (s : Storage) (i : Instruction) : Checked (Storage × Instruction) :=
  match i.opcode with
  | .alloca => s.takeSlot i
  | .gep => do
      let (s, i) ← s.takePointer i
      return (s, s.renameSources i)
  | .load | .structLoad | .arith _ | .divide _ | .unary _ => do
      let (s, i) ← s.takeGeneral i
      return (s, s.renameSources i)
  | .call => do
      let (s, i) ← s.releaseGenerals.takeGeneral (s.renameArgs i)
      return (s, s.renameSources i)
  | .store | .structStore => return (s.releaseGenerals, s.renameSources i)
  | .ret | .retVoid | .br | .branch _ => return (s, s.renameSources i)

/-- Assign storage to instructions in order. -/
def assignAll (s : Storage) : List Instruction → Checked (Storage × List Instruction)
  | [] => return (s, [])
  | i :: is => do
      let (s, i) ← s.assign i
      let (s, is) ← s.assignAll is
      return (s, i :: is)

/-- Assign storage to blocks in layout order. -/
def assignBlocks (s : Storage) : List Block → Checked (Storage × List Block)
  | [] => return (s, [])
  | b :: bs => do
      let (s, is) ← s.assignAll b.instructions
      let (s, bs) ← s.assignBlocks bs
      return (s, { b with instructions := is } :: bs)

end Storage

/-- The first virtual register among the operands of a block. -/
def Block.firstReg? (b : Block) : Option RegName :=
  b.instructions.findSome? fun i => i.operands.findSome? Operand.reg?

/-- The first virtual register among the operands of a function, with its block. -/
def Func.firstReg? (f : Func) : Option (Block × RegName) :=
  f.blocks.findSome? fun b => b.firstReg?.map fun reg => (b, reg)

/-- Give the registers of a function storage. -/
def Func.lower (f : Func) : Outcome LowerError Func := do
  let (s, blocks) ← (Storage.ofArgs f.args).assignBlocks f.blocks
  let f := { f with blocks := blocks, stackSize := s.offset }
  match f.firstReg? with
  | some (b, reg) => Outcome.fail (.unresolvedRegister f.name b.name reg)
  | none => return f

/-- Give the registers of a module storage. Functions defined elsewhere have none. -/
def Module.lower (m : Module) : Outcome LowerError Module :=
  if m.lowered then
    Outcome.fail (.alreadyLowered m.name)
  else do
    let functions ← m.functions.mapM fun f => if f.isExternal then return f else f.lower
    return { m with functions := functions, lowered := true }

end RegIR
