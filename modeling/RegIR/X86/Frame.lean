import RegIR.Ty.Layout
import RegIR.X86.Assembly
import RegIR.X86.Convention

/-!
# Stack frames

From the frame pointer downwards a frame holds the stack slots of the function's variables,
then words of eight bytes: a home for each argument, a place for each callee-saved register
in use, and the general and pointer registers that have no machine register behind them. A
word is named by the offset of its lowest byte below the frame pointer, so the word at
offset `n` occupies the bytes `n - 7` to `n`.

## Word arithmetic

The parts of a frame are sums over the naturals. `Demand.checkWords` finds the first of
them, in the order in which they are added up, that does not fit an unsigned 32-bit word;
only the pointer registers and the final rounding are added in a wider word. A demand that
passes but is larger than a displacement can reach is an error.

## Main definitions

* `Demand`: what a function asks of its frame.
* `Frame`: a demand that is met, and `Frame.make`, which says why one is not.
* `Frame.argHome`, `Frame.saveSlot`, `Frame.generalLocation`, `Frame.pointerLocation`: where
  things are.
* `Frame.prologue`, `Frame.epilogue`: the code around a function's body.
-/

namespace RegIR

namespace X86

/-- The size of a word of the frame. -/
def slotSize : Nat :=
  8

/-- What a function asks of its frame: bytes of stack slots, and how many arguments,
general registers and pointer registers it uses. -/
structure Demand where
  locals : UInt32
  args : Nat
  general : UInt32
  pointer : UInt32
deriving DecidableEq, Repr

namespace Demand

/-- The callee-saved registers in use. -/
def saved (d : Demand) : List Reg :=
  (generalRegs.take d.general.toNat ++ pointerRegs.take d.pointer.toNat).filter
    Reg.isCalleeSaved

/-- Where the stack slots end and the argument homes start. -/
def homesBase (d : Demand) : Nat :=
  alignUp d.locals.toNat slotSize

/-- Where the saved registers start. -/
def savesBase (d : Demand) : Nat :=
  d.homesBase + slotSize * d.args

/-- Where the general registers without a machine register start. -/
def generalBase (d : Demand) : Nat :=
  d.savesBase + slotSize * d.saved.length

/-- How many general registers have no machine register. -/
def generalOverflow (d : Demand) : Nat :=
  d.general.toNat - generalRegs.length

/-- Where the pointer registers without a machine register start. -/
def pointerBase (d : Demand) : Nat :=
  d.generalBase + slotSize * d.generalOverflow

/-- How many pointer registers have no machine register. -/
def pointerOverflow (d : Demand) : Nat :=
  d.pointer.toNat - pointerRegs.length

/-- The size of the frame, a multiple of sixteen. -/
def totalSize (d : Demand) : Nat :=
  alignUp (d.pointerBase + slotSize * d.pointerOverflow) 16

/-- Do the parts fit in words, each when it is added? -/
def checkWords (d : Demand) : Checked Unit := do
  discard (narrow32 .multiply d.homesBase)
  discard (narrow32 .add d.savesBase)
  discard (narrow32 .add d.generalBase)
  discard (narrow32 .multiply (slotSize * d.generalOverflow))
  discard (narrow32 .add d.pointerBase)

end Demand

/-- The largest frame a displacement can reach across. -/
def maxFrameSize : Nat :=
  0x7fffffff

/-- A frame: a demand within the limits of the convention and of displacements. -/
structure Frame extends Demand where
  args_le : args ≤ maxRegArgs
  size_le : toDemand.totalSize ≤ maxFrameSize
deriving DecidableEq, Repr

/-- Where a value is kept. -/
inductive Location where
  | reg (r : Reg)
  | slot (offset : UInt32)
deriving DecidableEq, Repr

/-- A location as an operand. The slots of a frame have negatives, since the frame is
smaller than half the words. -/
def Location.operand (loc : Location) (w : Width) : Operand :=
  match loc with
  | .reg r => .reg r w
  | .slot offset => .slotAt offset w

namespace Frame

/-- Lay out a frame. -/
def make (d : Demand) : Outcome AbiError Frame :=
  if hargs : d.args ≤ maxRegArgs then do
    d.checkWords
    if hsize : d.totalSize ≤ maxFrameSize then
      return { toDemand := d, args_le := hargs, size_le := hsize }
    else
      Outcome.fail (.frameTooLarge d.totalSize)
  else
    Outcome.fail (.tooManyArguments d.args maxRegArgs)

/-- The word number `i` of the part of the frame that starts at `base`. -/
def wordAt (base i : Nat) : UInt32 :=
  UInt32.ofNat (base + slotSize * (i + 1))

/-- The home of an argument. -/
def argHome (f : Frame) (index : UInt64) : Outcome AbiError UInt32 :=
  if index.toNat < f.args then
    return wordAt f.homesBase index.toNat
  else do
    Outcome.fail (.tooManyArguments (← argCountAt index) f.args)

/-- Where a callee-saved register is kept, if it is in use. -/
def saveSlot (f : Frame) (r : Reg) : Option UInt32 :=
  (f.saved.findIdx? (· == r)).map (wordAt f.savesBase)

/-- Where a general register is kept. -/
def generalLocation (f : Frame) (index : UInt32) : Except AbiError Location :=
  match generalRegs[index.toNat]? with
  | some r => .ok (.reg r)
  | none =>
      if index < f.general then
        .ok (.slot (wordAt f.generalBase (index.toNat - generalRegs.length)))
      else
        .error (.unreservedSlot .general index)

/-- Where a pointer register is kept. -/
def pointerLocation (f : Frame) (index : UInt32) : Except AbiError Location :=
  match pointerRegs[index.toNat]? with
  | some r => .ok (.reg r)
  | none =>
      if index < f.pointer then
        .ok (.slot (wordAt f.pointerBase (index.toNat - pointerRegs.length)))
      else
        .error (.unreservedSlot .pointer index)

/-- Store the callee-saved registers in use. -/
def saveCode (f : Frame) : List Instr :=
  f.saved.mapIdx fun i r => .mov (.slotAt (wordAt f.savesBase i) .qword) (.qword r)

/-- Load them again. -/
def restoreCode (f : Frame) : List Instr :=
  f.saved.mapIdx fun i r => .mov (.qword r) (.slotAt (wordAt f.savesBase i) .qword)

/-- Store the arguments in their homes. -/
def homeCode (f : Frame) : List Instr :=
  (argRegs.take f.args).mapIdx fun i r =>
    .mov (.slotAt (wordAt f.homesBase i) .qword) (.qword r)

/-- The code before a function's body. -/
def prologue (f : Frame) : List Instr :=
  [.push (.qword .rbp),
   .mov (.qword .rbp) (.qword .rsp),
   .alu .sub (.qword .rsp) (.imm (Int64.ofNat f.totalSize))]
  ++ f.saveCode ++ f.homeCode

/-- The code behind a function's body. -/
def epilogue (f : Frame) : List Instr :=
  f.restoreCode ++ [.leave, .ret]

end Frame

end X86

end RegIR
