/-!
# Opcodes

The instruction set. Operations that are compiled alike share a constructor: plain
arithmetic, division, operations on one operand, and the branches that compare two
operands and jump.
-/

namespace RegIR

/-- Arithmetic on two operands that the machine does in one step. -/
inductive ArithOp where
  | add
  | sub
  | smul
  | umul
  | and
  | or
  | xor
deriving DecidableEq, Repr

/-- Quotients and remainders. -/
inductive DivOp where
  | sdiv
  | udiv
  | srem
  | urem
deriving DecidableEq, Repr

/-- Are the operands read as signed numbers? -/
def DivOp.isSigned : DivOp → Bool
  | sdiv | srem => true
  | udiv | urem => false

/-- Is the result the quotient, rather than the remainder? -/
def DivOp.isQuotient : DivOp → Bool
  | sdiv | udiv => true
  | srem | urem => false

/-- Operations on one operand. -/
inductive UnaryOp where
  | not
  | neg
deriving DecidableEq, Repr

/-- The comparison that a conditional branch tests. -/
inductive Relation where
  | eq
  | ne
  | gt
  | lt
  | ge
  | le
deriving DecidableEq, Repr

/-- What an instruction does. -/
inductive Opcode where
  | ret
  | retVoid
  | arith (op : ArithOp)
  | divide (op : DivOp)
  | unary (op : UnaryOp)
  | br
  | branch (rel : Relation)
  | call
  | alloca
  | structLoad
  | load
  | gep
  | structStore
  | store
deriving DecidableEq, Repr

namespace Opcode

/-- The opcode as it is written in IR text. -/
def text : Opcode → String
  | ret => "ret"
  | retVoid => "retvoid"
  | arith .add => "add"
  | arith .sub => "sub"
  | arith .smul => "smul"
  | arith .umul => "umul"
  | arith .and => "and"
  | arith .or => "or"
  | arith .xor => "xor"
  | divide .sdiv => "sdiv"
  | divide .udiv => "udiv"
  | divide .srem => "srem"
  | divide .urem => "urem"
  | unary .not => "not"
  | unary .neg => "neg"
  | br => "br"
  | branch .eq => "beq"
  | branch .ne => "bne"
  | branch .gt => "bgt"
  | branch .lt => "blt"
  | branch .ge => "bge"
  | branch .le => "ble"
  | call => "call"
  | alloca => "alloca"
  | structLoad => "structload"
  | load => "load"
  | gep => "getelementptr"
  | structStore => "structstore"
  | store => "store"

/-- Every opcode. -/
def all : List Opcode :=
  [ret, retVoid,
   arith .add, arith .sub, arith .smul, arith .umul,
   divide .sdiv, divide .udiv, divide .srem, divide .urem,
   arith .and, arith .or, arith .xor, unary .not, unary .neg,
   br, branch .eq, branch .ne, branch .gt, branch .lt, branch .ge, branch .le,
   call, alloca, structLoad, load, gep, structStore, store]

/-- Nothing is missing from the list of all opcodes. -/
theorem mem_all (op : Opcode) : op ∈ all := by
  cases op with
  | arith op | divide op | unary op | branch op => cases op <;> decide
  | _ => decide

/-- Arithmetic on two operands. -/
def isBinary : Opcode → Bool
  | arith _ | divide _ => true
  | _ => false

def isUnary : Opcode → Bool
  | unary _ => true
  | _ => false

/-- Does control never pass to the next instruction? -/
def isTerminator : Opcode → Bool
  | ret | retVoid | br => true
  | _ => false

def isStore : Opcode → Bool
  | store | structStore => true
  | _ => false

end Opcode

end RegIR
