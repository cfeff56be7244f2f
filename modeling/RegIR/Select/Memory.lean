import RegIR.Select.Scope

/-!
# Code for memory access

Loads and stores of values and of fields, and the addresses of array elements. A stack slot
is accessed relative to the frame pointer; any other pointer is first brought into a
register.

## Conventions

*Sizes.* The size of an element and the offset of a field are exact numbers, as in the layout
of types, and they are not checked here. They are taken to be below `2 ^ 32`: a displacement
keeps the low 32 bits of an offset. To a type of `2 ^ 32` bytes or more `Storage` gives no
slot, but code for such a type is selected all the same, where 32-bit sizes would overflow.
-/

namespace RegIR

open X86

namespace Scope

/-- Load from memory into a destination. -/
def loadToDest (s : Scope) (opcode : Opcode) (dest : Option Operand) (mem : X86.Operand)
    (w : Width) : Selected Code := do
  match ← s.location opcode (← s.required opcode dest) with
  | .reg r => return loadFrom r mem w
  | .slot _ => return loadFrom scratch mem w ++ (← s.storeResult opcode dest scratch w)

/-- Store a value of a given width. -/
def storeValue (s : Scope) (opcode : Opcode) (mem : X86.Operand) (value : Operand) (w : Width) :
    Selected Code := do
  let throughScratch : Selected Code := do
    return (← s.loadInto opcode scratch2 value w) ++ [.mov mem (.reg scratch2 w)]
  match value with
  | .imm v =>
      if fitsSigned32 (w.signExtend v) then return [.mov mem (.imm (w.signExtend v))]
      else throughScratch
  | .general _ | .pointer _ =>
      match ← s.location opcode value with
      | .reg r => return [.mov mem (.reg r w)]
      | .slot offset =>
          return [.mov (.reg scratch2 w) (.slotAt offset w), .mov mem (.reg scratch2 w)]
  | _ => throughScratch

def load (s : Scope) (i : Instruction) : Selected Code := do
  let w ← s.valueWidth i.opcode i.dataType
  let src ← s.required i.opcode i.src1
  let (address, mem) ← s.memoryAt i.opcode src 0 w
  return address ++ (← s.loadToDest i.opcode i.dest mem w)

def store (s : Scope) (i : Instruction) : Selected Code := do
  let w ← s.valueWidth i.opcode i.dataType
  let value ← s.required i.opcode i.src1
  let dest ← s.required i.opcode i.src2
  let (address, mem) ← s.memoryAt i.opcode dest 0 w
  return address ++ (← s.storeValue i.opcode mem value w)

/-- The offset and width of the field that an instruction selects by a constant. -/
def field (s : Scope) (i : Instruction) : Selected (Nat × Width) := do
  let index ← match ← s.required i.opcode i.src2 with
    | .imm v => if 0 ≤ v.toInt then pure v.toInt.toNat else s.unsupported i.opcode (.imm v)
    | other => s.unsupported i.opcode other
  match i.dataType.fieldOffset? index, i.dataType.fieldType? index with
  | some offset, some type => return (offset, ← s.valueWidth i.opcode type)
  | _, _ => s.unsupportedType i.opcode i.dataType

def structLoad (s : Scope) (i : Instruction) : Selected Code := do
  let (offset, w) ← s.field i
  let src ← s.required i.opcode i.src1
  let (address, mem) ← s.memoryAt i.opcode src offset w
  return address ++ (← s.loadToDest i.opcode i.dest mem w)

def structStore (s : Scope) (i : Instruction) : Selected Code := do
  let (offset, w) ← s.field i
  let ptr ← s.required i.opcode i.src1
  let value ← s.required i.opcode i.src3
  let (address, mem) ← s.memoryAt i.opcode ptr offset w
  return address ++ (← s.storeValue i.opcode mem value w)

/-- Add an index times the element size to the address in `r11`. -/
def scaleIndex (s : Scope) (opcode : Opcode) (index : Operand) (size : Int64) :
    Selected Code :=
  match index with
  | .imm n =>
      if n * size = 0 then return []
      else do
        let (load, right) ← s.rightOperand opcode (.imm (n * size)) .qword
        return load ++ [.alu .add (.qword scratch) right]
  | _ => do
      let load ← s.loadInto opcode scratch2 index .qword
      let scale : Code :=
        if size = 1 then [] else [.imul3 (.qword scratch2) (.qword scratch2) size]
      return load ++ scale ++ [.alu .add (.qword scratch) (.qword scratch2)]

def gep (s : Scope) (i : Instruction) : Selected Code := do
  let ptr ← s.required i.opcode i.src1
  let index ← s.required i.opcode i.src2
  let loadPtr ← s.loadInto i.opcode scratch ptr .qword
  let scale ← s.scaleIndex i.opcode index (Int64.ofNat i.dataType.size)
  let store ← s.storeResult i.opcode i.dest scratch .qword
  return loadPtr ++ scale ++ store

end Scope

end RegIR
