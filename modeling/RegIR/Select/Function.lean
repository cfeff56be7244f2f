import RegIR.Select.Arithmetic
import RegIR.Select.Flow
import RegIR.Select.Memory

/-!
# Code of a function

The code of a function is its label, the prologue, the blocks in layout order and the
epilogue. Each block is its label and the code of its instructions, one after the other.
The epilogue has a label of its own if some return jumps to it.

## Main definitions

* `Func.demand`: what a function asks of its frame.
* `Scope.select`: the code of one instruction.
* `Func.select`: the code of a function, by blocks and instructions.
* `FuncCode.lines`: the same as lines of a file.
-/

namespace RegIR

open X86

/-! ### The registers in use -/

/-- How many general and pointer registers are in use, counting one more operand. -/
def countOperand (function : String) (counts : UInt32 × UInt32) (op : Operand) :
    Selected (UInt32 × UInt32) :=
  match op with
  | .reg _ => Outcome.fail { function := function, cause := .unassigned op.text }
  | .general index => do
      let count ← successor32 index
      return (max counts.1 count, counts.2)
  | .pointer index => do
      let count ← successor32 index
      return (counts.1, max counts.2 count)
  | _ => return counts

/-- All operands of a function, in layout order. -/
def Func.operands (f : Func) : List Operand :=
  f.blocks.flatMap fun b => b.instructions.flatMap Instruction.operands

/-- What a function asks of its frame. -/
def Func.demand (f : Func) : Selected Demand := do
  let (general, pointer) ← f.operands.foldlM (countOperand f.name) (0, 0)
  return { locals := f.stackSize, args := f.args.length, general := general, pointer := pointer }

/-! ### Instructions -/

/-- The code of an instruction. A variable needs none, its slot is part of the frame. -/
def Scope.selectRaw (s : Scope) (i : Instruction) (isLast : Bool) : Selected Code :=
  match i.opcode with
  | .ret => s.ret i isLast
  | .retVoid => return s.leave isLast
  | .alloca => return []
  | .load => s.load i
  | .store => s.store i
  | .structLoad => s.structLoad i
  | .structStore => s.structStore i
  | .gep => s.gep i
  | .arith op => s.arithmetic op i
  | .divide op => s.division op i
  | .unary op => s.unary op i
  | .br => s.jump i
  | .branch rel => s.branch rel i
  | .call => s.call i

/-- The code of an instruction, checked for moves that the machine does not have. -/
def Scope.select (s : Scope) (i : Instruction) (isLast : Bool) : Selected Code := do
  let code ← s.selectRaw i isLast
  match code.find? Instr.isMemoryMove with
  | some move => throw (.fault (.memoryMove move.text))
  | none => return code

/-! ### Positions

A return that is the last instruction of the last block falls into the epilogue. -/

/-- The instructions of a block, each with whether it is the last of the function. -/
def markLast (lastBlock : Bool) : List Instruction → List (Instruction × Bool)
  | [] => []
  | [i] => [(i, lastBlock)]
  | i :: is => (i, false) :: markLast lastBlock is

/-- The blocks of a function with their instructions marked. -/
def markBlocks : List Block → List (Block × List (Instruction × Bool))
  | [] => []
  | [b] => [(b, markLast true b.instructions)]
  | b :: bs => (b, markLast false b.instructions) :: markBlocks bs

/-- Does an instruction return before the end of the function? -/
def isEarlyReturn : Instruction × Bool → Bool
  | (i, isLast) => (i.opcode == .ret || i.opcode == .retVoid) && !isLast

/-- Does some instruction jump to the epilogue? -/
def Func.returnsEarly (f : Func) : Bool :=
  (markBlocks f.blocks).any fun b => b.2.any isEarlyReturn

/-! ### Functions -/

/-- The code of a block: its label and the code of each instruction. -/
structure BlockCode where
  label : String
  code : List Code
deriving DecidableEq, Repr

/-- The code of a function. -/
structure FuncCode where
  name : String
  frame : Frame
  blocks : List BlockCode
  /-- The label of the epilogue, if something jumps to it. -/
  exit : Option String
deriving DecidableEq, Repr

/-- The lines of a block. -/
def BlockCode.lines (b : BlockCode) : List Line :=
  .label b.label :: b.code.flatten.map .instr

/-- The lines of a function. -/
def FuncCode.lines (c : FuncCode) : List Line :=
  .label c.name :: c.frame.prologue.map .instr
    ++ c.blocks.flatMap BlockCode.lines
    ++ (c.exit.map Line.label).toList
    ++ c.frame.epilogue.map .instr

/-- Select the code of a block. -/
def Scope.selectBlock (s : Scope) (b : Block × List (Instruction × Bool)) :
    Selected BlockCode := do
  let code ← b.2.mapM fun (i, isLast) => s.select i isLast
  return { label := blockLabel s.func.name b.1.name, code := code }

/-- Lay out the frame of a function. -/
def Func.makeFrame (f : Func) : Selected Frame := do
  let demand ← f.demand
  match Frame.make demand with
  | .ok frame => return frame
  | .error (.error e) => Outcome.fail { function := f.name, cause := .ofAbi e }
  | .error (.fault fault) => throw (.fault fault)

/-- Select the code of a function. -/
def Func.select (f : Func) : Selected FuncCode := do
  let frame ← f.makeFrame
  let scope : Scope := { func := f, frame := frame }
  let blocks ← (markBlocks f.blocks).mapM scope.selectBlock
  return {
    name := f.name
    frame := frame
    blocks := blocks
    exit := if f.returnsEarly then some (epilogueLabel f.name) else none }

end RegIR
