import RegIR.Fault
import RegIR.X86.Register

/-!
# Machine operands

A register at a width, an immediate, memory at a register plus a displacement, or memory at
a label relative to the instruction pointer. Memory carries a width where the instruction
accesses it and none where only its address is taken.

Frame memory lies below the frame pointer: offset `n` is the address `rbp - n`. An offset is
an unsigned word and a displacement a signed one; `frameSlot` and `frameAddr` negate the
offset read as a signed word, which fails for the one word that has no negative.
-/

namespace RegIR

namespace X86

/-- An operand of a machine instruction. -/
inductive Operand where
  | reg (r : Reg) (w : Width)
  | imm (value : Int64)
  | mem (w : Option Width) (base : Reg) (disp : Int32)
  | rip (label : String)
deriving DecidableEq, Repr

namespace Operand

/-- A whole register. -/
def qword (r : Reg) : Operand :=
  reg r .qword

/-- An access at a register plus a displacement. -/
def deref (base : Reg) (disp : Int32) (w : Width) : Operand :=
  mem (some w) base disp

/-- An access to the frame, at an offset that has a negative. -/
def slotAt (offset : UInt32) (w : Width) : Operand :=
  deref .rbp (-offset.toInt32) w

/-- The displacement of a frame offset. -/
def frameDisp (offset : UInt32) : Checked Int32 :=
  narrowSigned32 .negate (-offset.toInt32.toInt)

/-- An access to the frame. -/
def frameSlot (offset : UInt32) (w : Width) : Checked Operand := do
  return deref .rbp (← frameDisp offset) w

/-- The address of a place in the frame. -/
def frameAddr (offset : UInt32) : Checked Operand := do
  return mem none .rbp (← frameDisp offset)

/-- Is the operand memory at a register? -/
def isMem : Operand → Bool
  | mem _ _ _ => true
  | _ => false

/-- A displacement behind its register. -/
def dispText (disp : Int32) : String :=
  if disp.toInt = 0 then ""
  else if disp.toInt < 0 then "-" ++ disp.toInt.natAbs.repr
  else "+" ++ disp.toInt.natAbs.repr

/-- The operand as it is written. -/
def text : Operand → String
  | reg r w => r.name w
  | imm value => value.toInt.repr
  | mem w base disp =>
      let keyword := match w with
        | some w => w.keyword ++ " "
        | none => ""
      keyword ++ "[" ++ base.text ++ dispText disp ++ "]"
  | rip label => "[rip + " ++ label ++ "]"

end Operand

end X86

end RegIR
