import RegIR.Fold
import RegIR.Module
import RegIR.Text.Literal

/-!
# Building modules

A builder holds a module under construction, the function that is being built, the block at
whose end instructions are added, and the next free register and string numbers. Building
is a state computation that faults when the builder is misused: nothing selected, a block or
function that does not exist, a name that is taken.

Registers are numbered per function, starting behind its arguments; selecting a function
starts its numbering again. Operations on constants are folded where `Opcode.fold?` allows,
and then neither an instruction nor a register number is used.

## Main definitions

* `Builder`, `Builder.new`, `Builder.ofModule`: the state and its two beginnings.
* `Build α`: a computation on it.
* The operations, from `Build.addFunction` to `Build.ret`.
-/

namespace RegIR

/-- A module under construction. -/
structure Builder where
  module : Module
  /-- The position of the function that is being built. -/
  current : Option Nat := none
  /-- The number of the block at whose end instructions are added. -/
  insertPoint : Option UInt32 := none
  /-- The number of the next register. -/
  nextReg : UInt32 := 0
  /-- The number of the next string constant. -/
  nextString : UInt32
deriving DecidableEq, Repr

/-- A step of building. -/
abbrev Build (α : Type) := StateT Builder (Except Fault) α

namespace Builder

/-- Continue with a module; its strings keep their numbers. -/
def ofModule (m : Module) : Builder :=
  { module := m, nextString := UInt32.ofNat m.strings.length }

/-- Start an empty module. -/
def new (name : String) : Builder :=
  ofModule { name := name }

/-- The function that is being built. -/
def function? (b : Builder) : Option Func :=
  b.current.bind fun position => b.module.functions[position]?

/-- The block at whose end instructions are added. -/
def block? (b : Builder) : Option Block := do
  let f ← b.function?
  let id ← b.insertPoint
  f.block? id

/-- Is the current block finished? -/
def atTerminator (b : Builder) : Bool :=
  match b.block? with
  | some block => block.hasTerminator
  | none => false

end Builder

namespace Build

/-! ### The module and the current function -/

def addFunction (f : Func) : Build Unit := do
  let b ← get
  let m ← b.module.addFunction f
  set { b with module := m }

def addString (s : StringConst) : Build Unit :=
  modify fun b => { b with module := b.module.addString s }

/-- Select the function that is built from now on. No block of it is selected. -/
def selectFunction (name : String) : Build Unit := do
  let b ← get
  match b.module.functions.findIdx? (·.name == name), b.module.function? name with
  | some position, some f =>
      set { b with current := some position, insertPoint := none,
                   nextReg := UInt32.ofNat f.args.length }
  | _, _ => throw (.missingFunction b.module.name name)

/-- The function that is being built, with its position. -/
def currentFunction : Build (Nat × Func) := do
  let b ← get
  match b.current with
  | none => throw .noCurrentFunction
  | some position =>
      match b.module.functions[position]? with
      | some f => return (position, f)
      | none => throw .noCurrentFunction

/-- Put a changed function back. -/
def replaceFunction (position : Nat) (f : Func) : Build Unit :=
  modify fun b => { b with module := b.module.setFunction position f }

/-! ### Blocks -/

/-- Add a block at the end of the current function. -/
def addBlock (name : String) : Build UInt32 := do
  let (position, f) ← currentFunction
  let (id, f) ← f.addBlock (.empty name)
  replaceFunction position f
  return id

/-- Insert a block behind another one. -/
def addBlockAfter (after : UInt32) (name : String) : Build UInt32 := do
  let (position, f) ← currentFunction
  let (id, f) ← f.addBlockAfter after (.empty name)
  replaceFunction position f
  return id

/-- Add a block and select it. -/
def createBlock (name : String) : Build UInt32 := do
  let id ← addBlock name
  modify fun b => { b with insertPoint := some id }
  return id

/-- Select the block at whose end instructions are added. -/
def selectBlock (id : UInt32) : Build Unit := do
  let (_, f) ← currentFunction
  if (f.block? id).isSome then
    modify fun b => { b with insertPoint := some id }
  else
    throw (.missingBlock f.name id)

/-- The label of a block of the current function. -/
def labelOf (id : UInt32) : Build Operand := do
  let (_, f) ← currentFunction
  match f.block? id with
  | some block => return .label block.name
  | none => throw (.missingBlock f.name id)

/-! ### Instructions -/

/-- Add an instruction at the end of the selected block. -/
def append (i : Instruction) : Build Unit := do
  let b ← get
  let (position, f) ← currentFunction
  match b.insertPoint with
  | none => throw (.noInsertPoint f.name)
  | some id =>
      match f.appendTo? id i with
      | some f => replaceFunction position f
      | none => throw (.missingBlock f.name id)

/-- A register with the next free number. -/
def freshReg : Build Operand := do
  let b ← get
  let next ← successor32 b.nextReg
  set { b with nextReg := next }
  return .reg (.num b.nextReg)

/-- Add an instruction that defines a fresh register. -/
def define (i : Instruction) : Build Operand := do
  let dest ← freshReg
  append { i with dest := some dest }
  return dest

/-- Add a string constant under a fresh label. -/
def string (value : String) : Build Operand := do
  let b ← get
  let next ← successor32 b.nextString
  let s : StringConst :=
    { name := "STR" ++ b.nextString.toNat.repr, value := Literal.escape value }
  set { b with module := b.module.addString s, nextString := next }
  return .string s

/-! ### Memory -/

def alloca (type : Ty) : Build Operand :=
  define { opcode := .alloca, dataType := type }

def load (type : Ty) (address : Operand) : Build Operand :=
  define { opcode := .load, dataType := type, src1 := some address }

def store (type : Ty) (value address : Operand) : Build Unit :=
  append { opcode := .store, dataType := type, src1 := some value, src2 := some address }

/-- A field is selected by its index, a constant. -/
def fieldIndex (index : UInt32) : Operand :=
  .imm (Int64.ofNat index.toNat)

def structLoad (type : Ty) (address : Operand) (index : UInt32) : Build Operand :=
  define { opcode := .structLoad, dataType := type,
           src1 := some address, src2 := some (fieldIndex index) }

def structStore (type : Ty) (address : Operand) (index : UInt32) (value : Operand) :
    Build Unit :=
  append { opcode := .structStore, dataType := type,
           src1 := some address, src2 := some (fieldIndex index), src3 := some value }

/-! ### Arithmetic -/

/-- An operation on two operands, folded if it can be. -/
def binary (op : Opcode) (type : Ty) (left right : Operand) : Build Operand := do
  let folded := do op.fold? (← left.imm?) (← right.imm?)
  match folded with
  | some value => return .imm value
  | none =>
      define { opcode := op, dataType := type, src1 := some left, src2 := some right }

def arith (op : ArithOp) : Ty → Operand → Operand → Build Operand :=
  binary (.arith op)

def divide (op : DivOp) : Ty → Operand → Operand → Build Operand :=
  binary (.divide op)

/-- The address of an element of an array. -/
def gep : Ty → Operand → Operand → Build Operand :=
  binary .gep

/-- An operation on one operand, folded if that is a constant. -/
def unary (op : UnaryOp) (type : Ty) (operand : Operand) : Build Operand :=
  match operand with
  | .imm value => return .imm (op.fold value)
  | _ => define { opcode := .unary op, dataType := type, src1 := some operand }

/-! ### Control flow -/

def br (target : UInt32) : Build Unit := do
  let label ← labelOf target
  append { opcode := .br, dataType := .void, src1 := some label }

/-- A branch that compares. -/
def compareBranch (rel : Relation) (type : Ty) (left right : Operand) (target : UInt32) :
    Build Unit := do
  let label ← labelOf target
  append { opcode := .branch rel, dataType := type,
           src1 := some left, src2 := some right, src3 := some label }

/-- A conditional branch. Equal constants make a test for equality unconditional. -/
def branch (rel : Relation) (type : Ty) (left right : Operand) (target : UInt32) :
    Build Unit :=
  match rel, left, right with
  | .eq, .imm a, .imm b =>
      if a = b then br target else compareBranch rel type left right target
  | _, _, _ => compareBranch rel type left right target

def call (type : Ty) (callee : String) (args : List Operand) : Build Operand :=
  define { opcode := .call, dataType := type, call := some { callee := callee, args := args } }

/-- A call without a result. -/
def callVoid (callee : String) (args : List Operand) : Build Unit :=
  append { opcode := .call, dataType := .void,
           call := some { callee := callee, args := args } }

def ret (type : Ty) (value : Operand) : Build Unit :=
  append { opcode := .ret, dataType := type, src1 := some value }

def retVoid : Build Unit :=
  append { opcode := .retVoid, dataType := .void }

end Build

end RegIR
