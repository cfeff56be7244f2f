import RegIR.X86.Register

/-!
# Immediates

A constant of the IR is a 64-bit word; an instruction of width `w` uses its low bits. The two
functions here give the word that has those low bits and extends them, as a signed or as an
unsigned number.
-/

namespace RegIR

namespace X86

/-- The low bits of a constant, sign-extended. -/
def Width.signExtend (w : Width) (v : Int64) : Int64 :=
  match w with
  | .byte => v.toInt8.toInt64
  | .word => v.toInt16.toInt64
  | .dword => v.toInt32.toInt64
  | .qword => v

/-- The low bits of a constant, zero-extended. -/
def Width.zeroExtend (w : Width) (v : Int64) : Int64 :=
  match w with
  | .byte => v.toUInt64.toUInt8.toUInt64.toInt64
  | .word => v.toUInt64.toUInt16.toUInt64.toInt64
  | .dword => v.toUInt64.toUInt32.toUInt64.toInt64
  | .qword => v

/-- Can the constant stand in an instruction? Most take a signed 32-bit one at most. -/
def fitsSigned32 (v : Int64) : Bool :=
  decide (-0x80000000 ≤ v.toInt ∧ v.toInt < 0x80000000)

end X86

end RegIR
