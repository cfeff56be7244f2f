import RegIR.X86.Operand

/-!
# Assembly

The machine instructions that the library writes, and the lines of an assembly file: an
instruction, a label, a directive or nothing. The text is in Intel syntax with the
destination first; instructions are indented and everything else is not.

## Main definitions

* `Instr`: a machine instruction.
* `Line`: a line of a file.
* `render`: the text of a list of lines.
-/

namespace RegIR

namespace X86

/-- Arithmetic of the form `dst := dst op src`. -/
inductive AluOp where
  | add
  | sub
  | imul
  | and
  | or
  | xor
deriving DecidableEq, Repr

def AluOp.text : AluOp → String
  | add => "add"
  | sub => "sub"
  | imul => "imul"
  | and => "and"
  | or => "or"
  | xor => "xor"

/-- The condition of a jump, on the flags of a signed comparison. -/
inductive Cond where
  | e
  | ne
  | g
  | l
  | ge
  | le
deriving DecidableEq, Repr

def Cond.text : Cond → String
  | e => "e"
  | ne => "ne"
  | g => "g"
  | l => "l"
  | ge => "ge"
  | le => "le"

/-- A machine instruction. -/
inductive Instr where
  | mov (dst src : Operand)
  /-- Move and sign-extend. -/
  | movsx (dst src : Operand)
  /-- Move and zero-extend. -/
  | movzx (dst src : Operand)
  /-- Load an address. -/
  | lea (dst src : Operand)
  | push (src : Operand)
  | pop (dst : Operand)
  | alu (op : AluOp) (dst src : Operand)
  /-- Multiply by a constant into a register. -/
  | imul3 (dst src : Operand) (factor : Int64)
  | neg (dst : Operand)
  | not (dst : Operand)
  /-- Sign-extend `eax` into `edx`. -/
  | cdq
  /-- Sign-extend `rax` into `rdx`. -/
  | cqo
  /-- Signed division of `rdx:rax`. -/
  | idiv (src : Operand)
  /-- Unsigned division of `rdx:rax`. -/
  | div (src : Operand)
  | cmp (left right : Operand)
  | jmp (target : String)
  | jcc (cond : Cond) (target : String)
  | call (target : String)
  | leave
  | ret
deriving DecidableEq, Repr

namespace Instr

/-- A mnemonic and two operands. -/
def binaryText (mnemonic : String) (dst src : Operand) : String :=
  mnemonic ++ " " ++ dst.text ++ ", " ++ src.text

/-- The instruction as it is written, without indentation. -/
def text : Instr → String
  | mov dst src => binaryText "mov" dst src
  | movsx dst src => binaryText "movsx" dst src
  | movzx dst src => binaryText "movzx" dst src
  | lea dst src => binaryText "lea" dst src
  | push src => "push " ++ src.text
  | pop dst => "pop " ++ dst.text
  | alu op dst src => binaryText op.text dst src
  | imul3 dst src factor => binaryText "imul" dst src ++ ", " ++ factor.toInt.repr
  | neg dst => "neg " ++ dst.text
  | not dst => "not " ++ dst.text
  | cdq => "cdq"
  | cqo => "cqo"
  | idiv src => "idiv " ++ src.text
  | div src => "div " ++ src.text
  | cmp left right => binaryText "cmp" left right
  | jmp target => "jmp " ++ target
  | jcc cond target => "j" ++ cond.text ++ " " ++ target
  | call target => "call " ++ target
  | leave => "leave"
  | ret => "ret"

/-- A move from memory to memory, which cannot be encoded. -/
def isMemoryMove : Instr → Bool
  | mov dst src => dst.isMem && src.isMem
  | _ => false

end Instr

/-- A line of an assembly file. -/
inductive Line where
  /-- The choice of syntax. -/
  | intelSyntax
  | dataSection
  | textSection
  /-- A symbol other files may use. -/
  | globl (name : String)
  /-- A symbol that is a function. -/
  | functionType (name : String)
  /-- A symbol of another file. -/
  | external (name : String)
  /-- A string with its label. -/
  | stringConst (name value : String)
  | label (name : String)
  | instr (i : Instr)
  | blank
deriving DecidableEq, Repr

namespace Line

/-- The line without indentation and line end. -/
def text : Line → String
  | intelSyntax => ".intel_syntax noprefix"
  | dataSection => ".data"
  | textSection => ".text"
  | globl name => ".globl " ++ name
  | functionType name => ".type " ++ name ++ ", @function"
  | external name => ".extern " ++ name
  | stringConst name value => name ++ ": .string \"" ++ value ++ "\""
  | label name => name ++ ":"
  | instr i => i.text
  | blank => ""

/-- Does the line start at the margin? -/
def isUnindented : Line → Bool
  | instr _ => false
  | _ => true

/-- The line as it stands in the file. -/
def render (l : Line) : String :=
  (if l.isUnindented then "" else "  ") ++ l.text ++ "\n"

end Line

/-- The text of a list of lines. -/
def render (lines : List Line) : String :=
  String.join (lines.map Line.render)

end X86

end RegIR
