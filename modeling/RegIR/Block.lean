import RegIR.Instruction

/-!
# Blocks

A block is a named list of instructions with a number by which the builder refers to it.
Branches refer to it by name.
-/

namespace RegIR

/-- A block of instructions. -/
structure Block where
  name : String
  id : UInt32
  instructions : List Instruction
deriving DecidableEq, Repr

namespace Block

/-- A block without instructions; a function numbers it when it is added. -/
def empty (name : String) : Block :=
  { name := name, id := 0, instructions := [] }

/-- Add an instruction at the end. -/
def append (b : Block) (i : Instruction) : Block :=
  { b with instructions := b.instructions ++ [i] }

/-- Does the last instruction end the block? -/
def hasTerminator (b : Block) : Bool :=
  match b.instructions.getLast? with
  | some i => i.isTerminator
  | none => false

/-- The block as it is written in IR text. -/
def text (b : Block) : String :=
  b.name ++ ":\n" ++ String.join (b.instructions.map fun i => "  " ++ i.text ++ ";\n")

end Block

end RegIR
