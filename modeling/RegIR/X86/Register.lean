/-!
# Machine registers

The sixteen general registers of x86-64, and the four widths at which each is named.
-/

namespace RegIR

namespace X86

/-- The width of an access. -/
inductive Width where
  | byte
  | word
  | dword
  | qword
deriving DecidableEq, Repr

namespace Width

/-- The width of so many bytes. -/
def ofBytes? : Nat → Option Width
  | 1 => some byte
  | 2 => some word
  | 4 => some dword
  | 8 => some qword
  | _ => none

/-- How many bytes an access of this width touches. -/
def bytes : Width → Nat
  | byte => 1
  | word => 2
  | dword => 4
  | qword => 8

/-- The keyword in front of a memory operand. -/
def keyword : Width → String
  | byte => "BYTE PTR"
  | word => "WORD PTR"
  | dword => "DWORD PTR"
  | qword => "QWORD PTR"

/-- The width at which a value is computed: nothing is computed below 32 bits. -/
def widen : Width → Width
  | byte | word => dword
  | wide => wide

/-- Is a value of this width computed in a wider register? -/
def isNarrow (w : Width) : Bool :=
  w.widen != w

end Width

/-- A general register. -/
inductive Reg where
  | rax | rbx | rcx | rdx | rsi | rdi | rbp | rsp
  | r8 | r9 | r10 | r11 | r12 | r13 | r14 | r15
deriving DecidableEq, Repr

namespace Reg

/-- Every register. -/
def all : List Reg :=
  [rax, rbx, rcx, rdx, rsi, rdi, rbp, rsp, r8, r9, r10, r11, r12, r13, r14, r15]

/-- Nothing is missing from the list of all registers. -/
theorem mem_all (r : Reg) : r ∈ all := by
  cases r <;> decide

/-- The names of a register at the four widths, narrowest first. -/
def names : Reg → String × String × String × String
  | rax => ("al", "ax", "eax", "rax")
  | rbx => ("bl", "bx", "ebx", "rbx")
  | rcx => ("cl", "cx", "ecx", "rcx")
  | rdx => ("dl", "dx", "edx", "rdx")
  | rsi => ("sil", "si", "esi", "rsi")
  | rdi => ("dil", "di", "edi", "rdi")
  | rbp => ("bpl", "bp", "ebp", "rbp")
  | rsp => ("spl", "sp", "esp", "rsp")
  | r8 => ("r8b", "r8w", "r8d", "r8")
  | r9 => ("r9b", "r9w", "r9d", "r9")
  | r10 => ("r10b", "r10w", "r10d", "r10")
  | r11 => ("r11b", "r11w", "r11d", "r11")
  | r12 => ("r12b", "r12w", "r12d", "r12")
  | r13 => ("r13b", "r13w", "r13d", "r13")
  | r14 => ("r14b", "r14w", "r14d", "r14")
  | r15 => ("r15b", "r15w", "r15d", "r15")

/-- The name of a register at a width. -/
def name (r : Reg) : Width → String
  | .byte => r.names.1
  | .word => r.names.2.1
  | .dword => r.names.2.2.1
  | .qword => r.names.2.2.2

/-- The name of the whole register. -/
def text (r : Reg) : String :=
  r.name .qword

end Reg

end X86

end RegIR
