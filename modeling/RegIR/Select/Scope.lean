import RegIR.Func
import RegIR.Select.Error
import RegIR.X86.Frame
import RegIR.X86.Immediate

/-!
# Values in machine code

What the code of every instruction is made of: where an operand lives, how its value gets
into a register, and how a result is written back. Each function here returns the machine
instructions it needs, or the first reason why there are none; the order of the checks is
part of its meaning.

## Conventions

*Width.* A value of eight or sixteen bits is computed at thirty-two, and a register that
holds one holds its sign extension. A pointer is sixty-four bits wide.

*Scratch.* `r11` holds the value that is being computed and `r10` a second one. Neither
survives the code of an IR instruction.
-/

namespace RegIR

open X86

/-- A function while its code is selected. -/
structure Scope where
  func : Func
  frame : Frame

/-- The result of selecting code. -/
abbrev Selected (α : Type) := Outcome CodeError α

/-- Code of an instruction. -/
abbrev Code := List Instr

namespace Scope

/-! ### Failing -/

/-- Stop with a cause. -/
def fail {α : Type} (s : Scope) (cause : Cause) : Selected α :=
  Outcome.fail { function := s.func.name, cause := cause }

/-- The operand cannot stand here. -/
def unsupported {α : Type} (s : Scope) (opcode : Opcode) (op : Operand) : Selected α :=
  match op with
  | .reg _ => s.fail (.unassigned op.text)
  | _ => s.fail (.unsupportedOperand opcode.text op.text)

/-- The type cannot stand here. -/
def unsupportedType {α : Type} (s : Scope) (opcode : Opcode) (type : Ty) : Selected α :=
  s.fail (.unsupportedType opcode.text type.text)

/-- An operand that must be there. -/
def required (s : Scope) (opcode : Opcode) : Option Operand → Selected Operand
  | some op => return op
  | none => s.fail (.missingOperand opcode.text)

/-- A question to the frame. -/
def ask {α : Type} (s : Scope) : Outcome AbiError α → Selected α
  | .ok a => return a
  | .error (.error e) => s.fail (.ofAbi e)
  | .error (.fault f) => .error (.fault f)

/-! ### Types -/

/-- The width of a value that fits a register. -/
def valueWidth (s : Scope) (opcode : Opcode) (type : Ty) : Selected Width :=
  match type with
  | .struct _ _ => s.unsupportedType opcode type
  | _ =>
      match Width.ofBytes? type.size with
      | some w => return w
      | none => s.unsupportedType opcode type

/-- The width of an integer or a pointer. -/
def intWidth (s : Scope) (opcode : Opcode) (type : Ty) : Selected Width :=
  if type.isFloat then s.unsupportedType opcode type else s.valueWidth opcode type

/-! ### Operands -/

/-- Where the value of a register or an argument is kept. -/
def location (s : Scope) (opcode : Opcode) (op : Operand) : Selected Location :=
  match op with
  | .general index => s.ask ((s.frame.generalLocation index).mapError .error)
  | .pointer index => s.ask ((s.frame.pointerLocation index).mapError .error)
  | .argument index => do
      return .slot (← s.ask (s.frame.argHome index.toUInt64))
  | _ => s.unsupported opcode op

/-- Load a value of a given width, extended to the width at which it is computed. -/
def loadFrom (r : Reg) (src : X86.Operand) (w : Width) : Code :=
  if w.isNarrow then [.movsx (.reg r .dword) src] else [.mov (.reg r w) src]

/-- Load the value of an operand into a register. The value of a slot or a string is its
address. -/
def loadInto (s : Scope) (opcode : Opcode) (r : Reg) (op : Operand) (w : Width) :
    Selected Code :=
  match op with
  | .imm v => return [.mov (.reg r w.widen) (.imm (w.widen.signExtend v))]
  | .slot _ offset => do return [.lea (.qword r) (← X86.Operand.frameAddr offset)]
  | .string constant => return [.lea (.qword r) (.rip constant.name)]
  | _ => do
      let loc ← s.location opcode op
      if loc = .reg r ∧ !w.isNarrow then return []
      else return loadFrom r (loc.operand w) w

/-- Load the value of an operand as an unsigned number. -/
def loadUnsigned (s : Scope) (opcode : Opcode) (r : Reg) (op : Operand) (w : Width) :
    Selected Code :=
  if w.isNarrow then
    match op with
    | .imm v => return [.mov (.reg r .dword) (.imm (w.zeroExtend v))]
    | .general _ | .pointer _ | .argument _ => do
        return [.movzx (.reg r .dword) ((← s.location opcode op).operand w)]
    | _ => s.unsupported opcode op
  else
    s.loadInto opcode r op w

/-- A second operand of arithmetic: a small constant or a wide location as it stands,
anything else in `r10`. -/
def rightOperand (s : Scope) (opcode : Opcode) (op : Operand) (w : Width) :
    Selected (Code × X86.Operand) := do
  let inScratch : Selected (Code × X86.Operand) := do
    return (← s.loadInto opcode scratch2 op w, .reg scratch2 w.widen)
  match op with
  | .imm v =>
      if fitsSigned32 (w.widen.signExtend v) then return ([], .imm (w.widen.signExtend v))
      else inScratch
  | .general _ | .pointer _ | .argument _ =>
      if w.isNarrow then inScratch
      else return ([], (← s.location opcode op).operand w.widen)
  | _ => inScratch

/-- The memory `disp` bytes behind a pointer. -/
def memoryAt (s : Scope) (opcode : Opcode) (ptr : Operand) (disp : Nat) (w : Width) :
    Selected (Code × X86.Operand) :=
  match ptr with
  | .slot _ offset => do
      let place ← narrowSigned32 .subtract
        ((Int32.ofNat disp).toInt - offset.toInt32.toInt)
      return ([], .deref .rbp place w)
  | .string _ => do
      return (← s.loadInto opcode scratch ptr .qword, .deref scratch (Int32.ofNat disp) w)
  | _ => do
      match ← s.location opcode ptr with
      | .reg r => return ([], .deref r (Int32.ofNat disp) w)
      | .slot offset =>
          return ([.mov (.qword scratch) (.slotAt offset .qword)],
            .deref scratch (Int32.ofNat disp) w)

/-! ### Results -/

/-- Write a result from a register to its destination. -/
def storeResult (s : Scope) (opcode : Opcode) (dest : Option Operand) (src : Reg) (w : Width) :
    Selected Code := do
  let loc ← s.location opcode (← s.required opcode dest)
  if loc = .reg src then return []
  else return [.mov (loc.operand w.widen) (.reg src w.widen)]

/-- Make a register hold the sign extension of its low bits. -/
def normalize (r : Reg) (w : Width) : Code :=
  if w.isNarrow then [.movsx (.reg r .dword) (.reg r w)] else []

end Scope

end RegIR
