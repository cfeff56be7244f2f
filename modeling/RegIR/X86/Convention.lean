import RegIR.Fault
import RegIR.X86.Register

/-!
# The calling convention

Which registers serve what, after the System V convention for x86-64. Up to six arguments
travel in registers. General and pointer registers of the IR are backed by a few machine
registers each; `r11` and `r10` are scratch for the code of a single instruction.
-/

namespace RegIR

namespace X86

/-- The registers of the first six arguments. -/
def argRegs : List Reg :=
  [.rdi, .rsi, .rdx, .rcx, .r8, .r9]

/-- How many arguments are passed in registers. -/
def maxRegArgs : Nat :=
  6

/-- The machine registers behind the first general registers. -/
def generalRegs : List Reg :=
  [.rax, .rbx, .r12, .r13]

/-- The machine registers behind the first pointer registers. -/
def pointerRegs : List Reg :=
  [.r14, .r15]

/-- The registers a function must leave as it found them. -/
def calleeSavedRegs : List Reg :=
  [.rbx, .r12, .r13, .r14, .r15]

def Reg.isCalleeSaved (r : Reg) : Bool :=
  calleeSavedRegs.contains r

/-- Where a function returns its value. -/
def returnReg : Reg :=
  .rax

/-- The scratch register in which values are computed. -/
def scratch : Reg :=
  .r11

/-- The scratch register for a second value. -/
def scratch2 : Reg :=
  .r10

/-- The classes of registers whose later indices live in the frame. -/
inductive RegClass where
  | general
  | pointer
deriving DecidableEq, Repr

def RegClass.text : RegClass → String
  | general => "general"
  | pointer => "pointer"

/-- What the convention cannot provide. -/
inductive AbiError where
  | tooManyArguments (count max : Nat)
  | unreservedSlot (cls : RegClass) (index : UInt32)
  | frameTooLarge (bytes : Nat)
deriving DecidableEq, Repr

def AbiError.message : AbiError → String
  | tooManyArguments count max =>
      "Too many arguments: " ++ count.repr ++ " (maximum in registers: " ++ max.repr ++ ")"
  | unreservedSlot cls index =>
      "No frame slot reserved for " ++ cls.text ++ " register " ++ index.toNat.repr
  | frameTooLarge bytes => "Stack frame too large: " ++ bytes.repr ++ " bytes"

/-- How many arguments there are if one has this index. The count is a 64-bit word. -/
def argCountAt (index : UInt64) : Checked Nat :=
  if index.toNat + 1 < UInt64.size then .ok (index.toNat + 1) else .error (.overflow .add)

/-- The register of an argument. -/
def argReg (index : UInt64) : Outcome AbiError Reg := do
  let count ← argCountAt index
  match argRegs[index.toNat]? with
  | some r => return r
  | none => Outcome.fail (.tooManyArguments count maxRegArgs)

end X86

end RegIR
