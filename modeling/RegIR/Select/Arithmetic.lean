import RegIR.Select.Scope

/-!
# Code for arithmetic

A result is computed in `r11`, made a proper value of its width and written to the
destination. Division goes through `rdx:rax`; `rax` is kept on the stack meanwhile unless it
is the destination. Narrow operands of an unsigned division are zero-extended first.
-/

namespace RegIR

open X86

namespace Scope

/-- The instruction that does an arithmetic operation in a register. A product with a
constant has a form of its own. -/
def arithInstr (op : ArithOp) (acc right : X86.Operand) : Instr :=
  match op with
  | .add => .alu .add acc right
  | .sub => .alu .sub acc right
  | .and => .alu .and acc right
  | .or => .alu .or acc right
  | .xor => .alu .xor acc right
  | .smul | .umul =>
      match right with
      | .imm factor => .imul3 acc acc factor
      | _ => .alu .imul acc right

def arithmetic (s : Scope) (op : ArithOp) (i : Instruction) : Selected Code := do
  let w ← s.intWidth i.opcode i.dataType
  let left ← s.required i.opcode i.src1
  let right ← s.required i.opcode i.src2
  let loadLeft ← s.loadInto i.opcode scratch left w
  let (loadRight, right) ← s.rightOperand i.opcode right w
  let store ← s.storeResult i.opcode i.dest scratch w
  return loadLeft ++ loadRight ++ [arithInstr op (.reg scratch w.widen) right]
    ++ normalize scratch w ++ store

/-- Divide `rax` by `r11`. -/
def divideCode (signed : Bool) (w : Width) : Code :=
  if signed then
    [if w.widen = .qword then .cqo else .cdq, .idiv (.reg scratch w.widen)]
  else
    [.alu .xor (.reg .rdx .dword) (.reg .rdx .dword), .div (.reg scratch w.widen)]

def division (s : Scope) (op : DivOp) (i : Instruction) : Selected Code := do
  let w ← s.intWidth i.opcode i.dataType
  let dividend ← s.required i.opcode i.src1
  let divisor ← s.required i.opcode i.src2
  let dest ← s.required i.opcode i.dest
  let keepRax := (← s.location i.opcode dest) != .reg .rax
  let load := if op.isSigned then s.loadInto i.opcode else s.loadUnsigned i.opcode
  let loadDivisor ← load scratch divisor w
  let loadDividend ← load .rax dividend w
  let result : Reg := if op.isQuotient then .rax else .rdx
  let store ← s.storeResult i.opcode i.dest scratch w
  return (if keepRax then [.push (.qword .rax)] else [])
    ++ loadDivisor ++ loadDividend ++ divideCode op.isSigned w
    ++ [.mov (.reg scratch w.widen) (.reg result w.widen)]
    ++ (if keepRax then [.pop (.qword .rax)] else [])
    ++ normalize scratch w ++ store

/-- The instruction that does a unary operation in a register. -/
def unaryInstr (op : UnaryOp) (acc : X86.Operand) : Instr :=
  match op with
  | .neg => .neg acc
  | .not => .not acc

def unary (s : Scope) (op : UnaryOp) (i : Instruction) : Selected Code := do
  let w ← s.intWidth i.opcode i.dataType
  let src ← s.required i.opcode i.src1
  let load ← s.loadInto i.opcode scratch src w
  let store ← s.storeResult i.opcode i.dest scratch w
  return load ++ [unaryInstr op (.reg scratch w.widen)] ++ normalize scratch w ++ store

end Scope

end RegIR
