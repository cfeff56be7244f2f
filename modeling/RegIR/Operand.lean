import RegIR.RegName

/-!
# Operands

What an instruction reads and writes. Immediates, virtual registers, labels and string
references are written by whoever builds the code; frame slots and the three classes of
indexed registers stand for hardware storage and appear when storage has been assigned.
-/

namespace RegIR

/-- A string constant of a module: a label and the text between the quotes of its
definition. -/
structure StringConst where
  name : String
  value : String
deriving DecidableEq, Repr

/-- An operand of an instruction. -/
inductive Operand where
  /-- A constant. -/
  | imm (value : Int64)
  /-- A virtual register. -/
  | reg (name : RegName)
  /-- A block, by name. -/
  | label (name : String)
  /-- The address of a string constant. -/
  | string (constant : StringConst)
  /-- The stack slot of a variable, `offset` bytes below the frame pointer. -/
  | slot (name : RegName) (offset : UInt32)
  /-- A general register. -/
  | general (index : UInt32)
  /-- An argument of the function. -/
  | argument (index : UInt32)
  /-- A pointer register. -/
  | pointer (index : UInt32)
deriving DecidableEq, Repr

namespace Operand

/-- The operand as it is written in IR text. -/
def text : Operand → String
  | imm value => value.toInt.repr
  | reg name => "%" ++ name.text
  | label name => name
  | string constant => "@" ++ constant.name
  | slot name offset => "[%" ++ name.text ++ " @ -" ++ offset.toNat.repr ++ "]"
  | general index => "$h" ++ index.toNat.repr
  | argument index => "$a" ++ index.toNat.repr
  | pointer index => "$p" ++ index.toNat.repr

/-- The value of a constant. -/
def imm? : Operand → Option Int64
  | imm value => some value
  | _ => none

/-- The name of a virtual register. -/
def reg? : Operand → Option RegName
  | reg name => some name
  | _ => none

def isReg (op : Operand) : Bool :=
  op.reg?.isSome

/-- Does the operand name hardware storage? -/
def isHardware : Operand → Bool
  | slot _ _ | general _ | argument _ | pointer _ => true
  | _ => false

end Operand

end RegIR
