import RegIR.Opcode
import RegIR.Operand
import RegIR.Ty

/-!
# Instructions

An instruction is an opcode with a data type, at most one destination and at most three
sources; a call carries the name of its callee and the arguments besides. Which of them
an opcode needs is not part of the type: code that reads them says so when one is
missing.
-/

namespace RegIR

/-- What a call passes, and to whom. -/
structure Call where
  callee : String
  args : List Operand
deriving DecidableEq, Repr

/-- An instruction. -/
structure Instruction where
  opcode : Opcode
  dataType : Ty
  dest : Option Operand := none
  src1 : Option Operand := none
  src2 : Option Operand := none
  src3 : Option Operand := none
  call : Option Call := none
deriving DecidableEq, Repr

namespace Instruction

/-- The arguments of a call, none if there is no call. -/
def args (i : Instruction) : List Operand :=
  match i.call with
  | some c => c.args
  | none => []

/-- The sources that are present, in order. -/
def sources (i : Instruction) : List Operand :=
  i.src1.toList ++ i.src2.toList ++ i.src3.toList

/-- Every operand: the destination, the sources, the arguments of the call. -/
def operands (i : Instruction) : List Operand :=
  i.dest.toList ++ i.sources ++ i.args

def isCall (i : Instruction) : Bool :=
  i.call.isSome

def callee? (i : Instruction) : Option String :=
  i.call.map Call.callee

def isTerminator (i : Instruction) : Bool :=
  i.opcode.isTerminator

/-- Operands separated by commas. -/
def listText (ops : List Operand) : String :=
  String.intercalate ", " (ops.map Operand.text)

/-- The type is printed except where it says nothing. -/
def typeText (i : Instruction) : String :=
  match i.opcode with
  | .br | .retVoid => ""
  | _ => " " ++ i.dataType.text

/-- What follows the type: the call if there is one, else the sources. -/
def payloadText (i : Instruction) : String :=
  match i.call with
  | some c => " @" ++ c.callee ++ "(" ++ listText c.args ++ ")"
  | none => if i.sources.isEmpty then "" else " " ++ listText i.sources

/-- The instruction as it is written in IR text, without the semicolon. -/
def text (i : Instruction) : String :=
  let target := match i.dest with
    | some d => d.text ++ " = "
    | none => ""
  target ++ i.opcode.text ++ i.typeText ++ i.payloadText

end Instruction

end RegIR
