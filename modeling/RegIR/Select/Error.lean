import RegIR.Error
import RegIR.X86.Convention

/-!
# Errors of instruction selection

Selection works on a function at a time, so an error is the name of a function and a cause.
Operands, types and opcodes are kept as they are written in IR text.
-/

namespace RegIR

open X86 (AbiError)

/-- What selection cannot compile. -/
inductive Cause where
  /-- A virtual register is left. -/
  | unassigned (operand : String)
  | unsupportedOperand (opcode operand : String)
  | unsupportedType (opcode type : String)
  | tooManyArguments (count max : Nat)
  | unknownBlock (block : String)
  | missingOperand (opcode : String)
  | abi (e : AbiError)
deriving DecidableEq, Repr

def Cause.message : Cause → String
  | unassigned operand => "operand " ++ operand ++ " was never lowered"
  | unsupportedOperand opcode operand =>
      "operand " ++ operand ++ " cannot be used by " ++ opcode
  | unsupportedType opcode type => "type " ++ type ++ " is not supported by " ++ opcode
  | tooManyArguments count max =>
      count.repr ++ " arguments, at most " ++ max.repr ++ " can be passed in registers"
  | unknownBlock block => "branch to unknown block '" ++ block ++ "'"
  | missingOperand opcode => opcode ++ " is missing an operand"
  | abi e => e.message

/-- Where selection stopped, and why. -/
structure CodeError where
  function : String
  cause : Cause
deriving DecidableEq, Repr

def CodeError.message (e : CodeError) : String :=
  e.function ++ ": " ++ e.cause.message

def CodeError.toCompileError (e : CodeError) : CompileError :=
  .codegen e.function e.message

/-- A limit of the convention as a cause: too many arguments have one of their own. -/
def Cause.ofAbi : AbiError → Cause
  | .tooManyArguments count max => .tooManyArguments count max
  | e => .abi e

end RegIR
