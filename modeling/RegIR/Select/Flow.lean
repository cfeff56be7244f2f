import RegIR.Select.Label
import RegIR.Select.Scope

/-!
# Code for calls, branches and returns

The first six arguments of a call go into registers; the others are pushed from the last to
the seventh, with eight bytes of padding first if their number is odd, so that the stack
stays aligned to sixteen bytes at the call. `eax` is zero there, as callees with a variable
number of arguments expect, and holds the result afterwards.

A return puts its value into `rax` and jumps to the epilogue, unless the epilogue is what
follows.
-/

namespace RegIR

open X86

namespace Scope

/-! ### Calls -/

/-- Push an argument. -/
def pushArg (s : Scope) (opcode : Opcode) (arg : Operand) : Selected Code := do
  let throughScratch : Selected Code := do
    return (← s.loadInto opcode scratch arg .qword) ++ [.push (.qword scratch)]
  match arg with
  | .imm v => if fitsSigned32 v then return [.push (.imm v)] else throughScratch
  | _ => throughScratch

/-- The bytes that align the stack below so many pushed arguments. -/
def callPadding (count : Nat) : Nat :=
  if count % 2 = 1 then 8 else 0

def call (s : Scope) (i : Instruction) : Selected Code := do
  match i.call with
  | none => s.fail (.missingOperand i.opcode.text)
  | some c =>
      let pushed := c.args.drop maxRegArgs
      let padding := callPadding pushed.length
      let cleanup := 8 * pushed.length + padding
      let pushes ← pushed.reverse.mapM (s.pushArg i.opcode)
      let loads ← (argRegs.zip c.args).mapM fun (r, arg) => s.loadInto i.opcode r arg .qword
      let store ← if i.dest.isSome then do
          let w ← s.valueWidth i.opcode i.dataType
          s.storeResult i.opcode i.dest returnReg w
        else pure []
      return (if padding = 0 then [] else [.alu .sub (.qword .rsp) (.imm (Int64.ofNat padding))])
        ++ pushes.flatten ++ loads.flatten
        ++ [.alu .xor (.reg returnReg .dword) (.reg returnReg .dword), .call c.callee]
        ++ (if cleanup = 0 then [] else [.alu .add (.qword .rsp) (.imm (Int64.ofNat cleanup))])
        ++ store

/-! ### Branches -/

/-- The label that a branch names. -/
def target (s : Scope) (opcode : Opcode) (op : Option Operand) : Selected String := do
  match ← s.required opcode op with
  | .label name =>
      if (s.func.blockNamed? name).isSome then return blockLabel s.func.name name
      else s.fail (.unknownBlock name)
  | other => s.unsupported opcode other

def jump (s : Scope) (i : Instruction) : Selected Code := do
  return [.jmp (← s.target i.opcode i.src1)]

/-- The condition under which a signed comparison jumps. -/
def condition : Relation → Cond
  | .eq => .e
  | .ne => .ne
  | .gt => .g
  | .lt => .l
  | .ge => .ge
  | .le => .le

def branch (s : Scope) (rel : Relation) (i : Instruction) : Selected Code := do
  let w ← s.intWidth i.opcode i.dataType
  let left ← s.required i.opcode i.src1
  let right ← s.required i.opcode i.src2
  let target ← s.target i.opcode i.src3
  let loadLeft ← s.loadInto i.opcode scratch left w
  let (loadRight, right) ← s.rightOperand i.opcode right w
  return loadLeft ++ loadRight
    ++ [.cmp (.reg scratch w.widen) right, .jcc (condition rel) target]

/-! ### Returns -/

/-- Go to the epilogue; nothing is needed where it follows. -/
def leave (s : Scope) (isLast : Bool) : Code :=
  if isLast then [] else [.jmp (epilogueLabel s.func.name)]

/-- The first general register is where a value is returned. -/
def ret (s : Scope) (i : Instruction) (isLast : Bool) : Selected Code := do
  let w ← s.valueWidth i.opcode i.dataType
  let value ← s.required i.opcode i.src1
  let load ← if value = .general 0 then pure [] else s.loadInto i.opcode returnReg value w
  return load ++ s.leave isLast

end Scope

end RegIR
