import RegIR.Proofs.Frame.Arithmetic
import RegIR.Proofs.Select.Errors

/-!
# Selection does not fault

Writing a module works on fixed-width words: registers are counted, the parts of a frame are
added up, and offsets into the frame are negated or subtracted to give displacements. Each of
these steps can leave its range, and a move between two memory operands cannot be encoded. For
a lowered module all of that is excluded by one number, the size of the frame over the naturals:
it bounds the counts, the parts and the offsets, because every register that is counted without
a machine register behind it takes a word of the frame, and every slot lies inside it.

## Main definitions

* `X86.frameBytes`, `Func.frameBytes`: the size of a frame over the naturals.
* `Func.Safe`: every place where code of a function could leave the range of a word does not.

## Main results

* `exists_foldlM_countOperand`: the scan counts exactly, if the exact counts fit a word.
* `Scope.Shape.isMemoryMove`: no code moves memory to memory.
* `Func.select_ne_fault`: a lowered function with a small frame has code or an error.
* `Module.assembly_never_faults`: the same for a module, with every word that is involved.
-/

namespace RegIR

open X86

/-! ### Counting over the naturals -/

/-- How many general registers there are up to this one, if it is one. -/
def Operand.generalCount : Operand → Nat
  | .general index => index.toNat + 1
  | _ => 0

/-- How many pointer registers there are up to this one, if it is one. -/
def Operand.pointerCount : Operand → Nat
  | .pointer index => index.toNat + 1
  | _ => 0

/-- The general and pointer registers in use, counting one more operand. -/
def countExactly (counts : Nat × Nat) (op : Operand) : Nat × Nat :=
  (max counts.1 op.generalCount, max counts.2 op.pointerCount)

/-- Counting goes up. -/
theorem le_foldl_countExactly (ops : List Operand) (counts : Nat × Nat) :
    counts.1 ≤ (ops.foldl countExactly counts).1 ∧
      counts.2 ≤ (ops.foldl countExactly counts).2 := by
  induction ops generalizing counts with
  | nil => exact ⟨Nat.le_refl _, Nat.le_refl _⟩
  | cons op ops ih =>
      have hrest := ih (countExactly counts op)
      have hgeneral : counts.1 ≤ (countExactly counts op).1 := Nat.le_max_left _ _
      have hpointer : counts.2 ≤ (countExactly counts op).2 := Nat.le_max_left _ _
      rw [List.foldl_cons]
      omega

/-- The counts of the scan, as exact numbers. -/
def exactCounts (counts : UInt32 × UInt32) : Nat × Nat :=
  (counts.1.toNat, counts.2.toNat)

/-- A number that is small enough fits a word. -/
theorem narrow32_eq_ok {operation : Arithmetic} {n : Nat} (h : n < UInt32.size) :
    narrow32 operation n = .ok (UInt32.ofNat n) :=
  if_pos h

/-- One operand is counted exactly, if it is no virtual register and the count fits a word. -/
theorem exists_countOperand (function : String) (counts : UInt32 × UInt32) {op : Operand}
    (hreg : op.isReg = false) (hgeneral : op.generalCount < UInt32.size)
    (hpointer : op.pointerCount < UInt32.size) :
    ∃ counts', countOperand function counts op = .ok counts' ∧
      exactCounts counts' = countExactly (exactCounts counts) op := by
  cases op with
  | reg name => cases hreg
  | general index =>
      obtain ⟨count, hcount⟩ : ∃ count, successor32 index = .ok count :=
        ⟨_, narrow32_eq_ok hgeneral⟩
      have hword := successor32_eq_ok_iff.mp hcount
      refine ⟨(max counts.1 count, counts.2), ?_, ?_⟩
      · rw [countOperand, hcount]
        rfl
      · simp [exactCounts, countExactly, Operand.generalCount, Operand.pointerCount,
          UInt32.toNat_max, hword]
  | pointer index =>
      obtain ⟨count, hcount⟩ : ∃ count, successor32 index = .ok count :=
        ⟨_, narrow32_eq_ok hpointer⟩
      have hword := successor32_eq_ok_iff.mp hcount
      refine ⟨(counts.1, max counts.2 count), ?_, ?_⟩
      · rw [countOperand, hcount]
        rfl
      · simp [exactCounts, countExactly, Operand.generalCount, Operand.pointerCount,
          UInt32.toNat_max, hword]
  | imm | label | string | slot | argument =>
      exact ⟨counts, rfl, by
        simp [exactCounts, countExactly, Operand.generalCount, Operand.pointerCount]⟩

/-- **The scan** counts exactly, if no virtual register is left and the exact counts fit a
word. -/
theorem exists_foldlM_countOperand (function : String) {ops : List Operand}
    (counts : UInt32 × UInt32) (hreg : ∀ op ∈ ops, op.isReg = false)
    (hgeneral : (ops.foldl countExactly (exactCounts counts)).1 < UInt32.size)
    (hpointer : (ops.foldl countExactly (exactCounts counts)).2 < UInt32.size) :
    ∃ counts', ops.foldlM (countOperand function) counts = .ok counts' ∧
      exactCounts counts' = ops.foldl countExactly (exactCounts counts) := by
  induction ops generalizing counts with
  | nil => exact ⟨counts, rfl, rfl⟩
  | cons op ops ih =>
      rw [List.forall_mem_cons] at hreg
      rw [List.foldl_cons] at hgeneral hpointer
      -- the counts only go up, so what fits in the end fits here
      have hle := le_foldl_countExactly ops (countExactly (exactCounts counts) op)
      have hop : op.generalCount ≤ (countExactly (exactCounts counts) op).1 :=
        Nat.le_max_right _ _
      have hop' : op.pointerCount ≤ (countExactly (exactCounts counts) op).2 :=
        Nat.le_max_right _ _
      obtain ⟨counts', hcount, hexact⟩ :=
        exists_countOperand function counts hreg.1 (by omega) (by omega)
      rw [← hexact] at hgeneral hpointer
      obtain ⟨counts'', hrest, hexact'⟩ := ih counts' hreg.2 hgeneral hpointer
      refine ⟨counts'', ?_, ?_⟩
      · rw [List.foldlM_cons, hcount]
        exact hrest
      · rw [List.foldl_cons, hexact', hexact]

/-! ### The size of a frame -/

/-- The size of a frame over the naturals: the slots rounded up to words, a word for each
argument, for each callee-saved register in use and for each register without a machine
register, all rounded up to sixteen. -/
def X86.frameBytes (locals args general pointer : Nat) : Nat :=
  let saved := (generalRegs.take general ++ pointerRegs.take pointer).filter Reg.isCalleeSaved
  alignUp (alignUp locals slotSize + slotSize * args + slotSize * saved.length
    + slotSize * (general - generalRegs.length) + slotSize * (pointer - pointerRegs.length)) 16

/-- The size of a frame that is laid out is the one over the naturals. -/
theorem X86.Demand.totalSize_eq (d : Demand) :
    d.totalSize = frameBytes d.locals.toNat d.args d.general.toNat d.pointer.toNat :=
  rfl

/-- A frame that a displacement can reach across has words for its registers, so there are not
many of them. -/
theorem X86.lt_size_of_frameBytes_le {locals args general pointer : Nat}
    (h : frameBytes locals args general pointer ≤ maxFrameSize) :
    locals ≤ maxFrameSize ∧ general < UInt32.size ∧ pointer < UInt32.size := by
  have hlocals := le_alignUp locals slotSize
  have htotal := (le_alignUp _ 16).trans h
  simp only [slotSize, maxFrameSize, generalRegs, pointerRegs, List.length_cons,
    List.length_nil, UInt32.size] at *
  omega

/-- The registers that a function uses, over the naturals. -/
def Func.registerCounts (f : Func) : Nat × Nat :=
  f.operands.foldl countExactly (0, 0)

/-- The size of the frame of a function, over the naturals. -/
def Func.frameBytes (f : Func) : Nat :=
  X86.frameBytes f.stackSize.toNat f.args.length f.registerCounts.1 f.registerCounts.2

/-- A demand that is small enough is met, or has too many arguments. -/
theorem X86.Frame.make_ne_fault {d : Demand} {fault : Fault} (h : d.totalSize ≤ maxFrameSize) :
    Frame.make d ≠ .error (.fault fault) := by
  intro hfault
  rw [make] at hfault
  split at hfault
  next =>
    rw [Demand.checkWords_eq_ok h] at hfault
    cases hfault
  next => cases hfault

namespace Func

variable {f : Func} {fault : Fault}

/-- The demand of a function with a small frame is exact. -/
theorem exists_demand (hreg : ∀ op ∈ f.operands, op.isReg = false)
    (hframe : f.frameBytes ≤ maxFrameSize) :
    ∃ d, f.demand = .ok d ∧ d.locals = f.stackSize ∧ d.totalSize = f.frameBytes := by
  obtain ⟨-, hgeneral, hpointer⟩ := lt_size_of_frameBytes_le hframe
  obtain ⟨counts, hscan, hexact⟩ :=
    exists_foldlM_countOperand f.name (0, 0) hreg hgeneral hpointer
  refine ⟨⟨f.stackSize, f.args.length, counts.1, counts.2⟩, ?_, rfl, ?_⟩
  · rw [demand, hscan]
    rfl
  · have hcounts : exactCounts counts = f.registerCounts := hexact
    rw [Demand.totalSize_eq, frameBytes, ← hcounts]
    rfl

/-- A function with a small frame is given it, or there is an error. -/
theorem makeFrame_ne_fault (hreg : ∀ op ∈ f.operands, op.isReg = false)
    (hframe : f.frameBytes ≤ maxFrameSize) : f.makeFrame ≠ .error (.fault fault) := by
  obtain ⟨d, hdemand, -, hsize⟩ := exists_demand hreg hframe
  intro hfault
  rw [makeFrame, hdemand] at hfault
  obtain h | ⟨_, hd, h⟩ := bind_eq_error_iff.mp hfault
  · cases h
  · cases hd
    have hmake : ∀ e, Frame.make d ≠ .error (.fault e) :=
      fun e => Frame.make_ne_fault (hsize ▸ hframe)
    split at h
    next => cases h
    next => cases h
    next e he => exact hmake e he

end Func

/-! ### Displacements -/

/-- The displacement of a frame offset below half the words is its negative. -/
theorem X86.Operand.frameDisp_eq_ok {offset : UInt32} (h : offset.toNat < 0x80000000) :
    frameDisp offset = .ok (-offset.toInt32) := by
  rw [frameDisp, narrowSigned32_eq_ok_iff, toInt_toInt32 h, toInt_neg_toInt32 h]

/-- A place inside a type and behind a frame offset has a displacement, if both are small. -/
theorem exists_accessDisp {offset : UInt32} {disp : Nat} (hoffset : offset.toNat < 0x80000000)
    (hdisp : disp < 0x80000000) :
    ∃ place : Int32, place.toInt = disp - offset.toNat ∧
      narrowSigned32 .subtract ((Int32.ofNat disp).toInt - offset.toInt32.toInt) = .ok place := by
  have hint : (Int32.ofNat disp).toInt = disp := Int32.toInt_ofNat_of_lt hdisp
  rw [hint, toInt_toInt32 hoffset]
  have hplace : (Int32.ofInt (disp - offset.toNat)).toInt = disp - offset.toNat :=
    Int32.toInt_ofInt_of_le (by omega) (by omega)
  exact ⟨_, hplace, narrowSigned32_eq_ok_iff.mpr hplace⟩

/-- A word of a frame is the exact sum of the base of its part and the words up to it. -/
theorem X86.Frame.Word.exact {frame : Frame} {w : UInt32} (h : frame.Word w) :
    ∃ base ∈ frame.bases, ∃ k, narrow32 .add (base + slotSize * (k + 1)) = .ok w := by
  obtain ⟨base, hbase, count, k, -, hk, hend, rfl⟩ := h.part
  exact ⟨base, hbase, k, narrow32_eq_ok_iff.mpr (toNat_wordAt hk hend)⟩

/-! ### Moves -/

/-- What writes a register does not move memory to memory. -/
theorem X86.Instr.isMemoryMove_of_dst {x : Instr} {r : Reg} {w : Width}
    (h : x.dst? = some (.reg r w)) : x.isMemoryMove = false := by
  cases x with
  | mov dst src =>
      cases h
      rfl
  | _ => rfl

/-- A value from a register does not come from memory. -/
theorem X86.Instr.isMemoryMove_of_src {dst : X86.Operand} {r : Reg} {w : Width} :
    (Instr.mov dst (.reg r w)).isMemoryMove = false := by
  simp [isMemoryMove, X86.Operand.isMem]

namespace Scope

variable {s : Scope} {i : Instruction} {isLast : Bool} {code : Code} {x : Instr}

/-- None of the forms moves memory to memory. -/
theorem Emits.isMemoryMove (h : s.Emits i x) : x.isMemoryMove = false := by
  cases h with
  | loaded _ _ _ hx =>
      obtain ⟨-, w, hw⟩ := mem_loadFrom hx
      exact Instr.isMemoryMove_of_dst hw
  | constant | bits | copy => rfl
  | result | storeReg => exact Instr.isMemoryMove_of_src
  | storeImm => simp [Instr.isMemoryMove, X86.Operand.isMem]
  | unary op _ _ => cases op <;> rfl
  | signRax hx => obtain rfl | rfl := hx <;> rfl
  | divide _ hx => obtain rfl | rfl := hx <;> rfl
  | _ => rfl

/-- Nor does what stands around them. -/
theorem Arranges.isMemoryMove (h : Arranges x) : x.isMemoryMove = false := by
  cases h with
  | jump hx => cases x <;> first | rfl | cases hx
  | _ => rfl

/-- **Moves.** No code moves memory to memory. -/
theorem Shape.isMemoryMove (h : s.Shape i isLast code) (hx : x ∈ code) :
    x.isMemoryMove = false := by
  obtain hx | hx := h.mem_cases hx
  · exact hx.isMemoryMove
  · exact hx.isMemoryMove

/-- Code that has been selected passes the check for moves. -/
theorem select_eq_selectRaw : s.select i isLast = s.selectRaw i isLast := by
  have hends : Ends (s.selectRaw i isLast) (s.Shape i isLast) (s.Rejects i) := selectRaw_ends
  cases hraw : s.selectRaw i isLast with
  | error e => rw [select, hraw]; rfl
  | ok code =>
      have hshape := hends.of_ok hraw
      have hnone : code.find? Instr.isMemoryMove = none := by
        rw [List.find?_eq_none]
        intro x hx
        simp [hshape.isMemoryMove hx]
      rw [select, hraw]
      simp only [bind, Except.bind, hnone]
      rfl

end Scope

/-! ### Functions -/

/-- `f.Safe frame`: what the code of the function computes in words is exact, and what it moves
can be moved. -/
structure Func.Safe (f : Func) (frame : Frame) : Prop where
  /-- A word of the frame is the exact sum, and its offset has a negative. -/
  words : ∀ w, frame.Word w →
    (∃ base ∈ frame.bases, ∃ k, narrow32 .add (base + slotSize * (k + 1)) = .ok w) ∧
      ∀ width, X86.Operand.frameSlot w width = .ok (.slotAt w width)
  /-- The offset of a variable has a negative. -/
  addresses : ∀ name offset, .slot name offset ∈ f.operands →
    X86.Operand.frameAddr offset = .ok (.mem none .rbp (-offset.toInt32))
  /-- A place inside the type that is accessed has a displacement. -/
  accesses : ∀ i ∈ f.instructions, ∀ name offset, i.pointer? = some (.slot name offset) →
    ∀ disp ≤ i.dataType.size, ∃ place : Int32, place.toInt = disp - offset.toNat ∧
      narrowSigned32 .subtract ((Int32.ofNat disp).toInt - offset.toInt32.toInt) = .ok place
  /-- No code moves memory to memory. -/
  moves : ∀ i ∈ f.instructions, ∀ isLast code,
    Scope.selectRaw { func := f, frame := frame } i isLast = .ok code →
      ∀ x ∈ code, x.isMemoryMove = false

namespace Func

variable {f f₀ : Func} {frame : Frame} {fault : Fault}

/-- A function is safe in its frame, if its variables lie inside their part of the frame and its
types are small. -/
theorem safe_of_makeFrame (hframe : f.makeFrame = .ok frame)
    (hslots : ∀ name offset, .slot name offset ∈ f.operands →
      offset.toNat ≤ f.stackSize.toNat)
    (htypes : ∀ i ∈ f.instructions, i.dataType.size ≤ maxFrameSize) : f.Safe frame := by
  have hsize := frame.size_le
  have hlocals := frame.locals_le_totalSize
  rw [locals_makeFrame hframe] at hlocals
  have hoffset : ∀ name offset, .slot name offset ∈ f.operands → offset.toNat < 0x80000000 := by
    intro name offset hop
    have hle := hslots name offset hop
    simp only [maxFrameSize] at hsize
    omega
  constructor
  case words =>
    intro w hw
    refine ⟨hw.exact, fun width => ?_⟩
    have hlt : w.toNat < 0x80000000 := by
      have hle := hw.bounds.2
      simp only [maxFrameSize] at hsize
      omega
    rw [X86.Operand.frameSlot, X86.Operand.frameDisp_eq_ok hlt]
    rfl
  case addresses =>
    intro name offset hop
    rw [X86.Operand.frameAddr, X86.Operand.frameDisp_eq_ok (hoffset name offset hop)]
    rfl
  case accesses =>
    intro i hi name offset hptr disp hdisp
    have hop := mem_operands hi (Instruction.mem_operands_of_pointer? hptr)
    have htype := htypes i hi
    simp only [maxFrameSize] at htype
    exact exists_accessDisp (hoffset name offset hop) (by omega)
  case moves =>
    intro i _ isLast code hraw x hx
    have hshape : Scope.Shape { func := f, frame := frame } i isLast code :=
      Scope.selectRaw_ends.of_ok hraw
    exact hshape.isMemoryMove hx

/-- A safe function does not fault at an instruction. -/
theorem Safe.select_ne_fault (h : f.Safe frame) {i : Instruction} (hi : i ∈ f.instructions)
    {isLast : Bool} :
    Scope.select { func := f, frame := frame } i isLast ≠ .error (.fault fault) := by
  rw [Scope.select_eq_selectRaw]
  intro hraw
  have hends : Ends (Scope.selectRaw { func := f, frame := frame } i isLast)
      (Scope.Shape _ i isLast) (Scope.Rejects _ i) := Scope.selectRaw_ends
  cases hends.of_error hraw with
  | slotAddress hop haddr =>
      have hok := h.addresses _ _ (mem_operands hi hop)
      rw [X86.Operand.frameAddr, haddr] at hok
      cases hok
  | slotAccess hptr hdisp hplace =>
      obtain ⟨place, -, hok⟩ := h.accesses i hi _ _ hptr _ hdisp
      rw [hplace] at hok
      cases hok

/-- **Functions.** A function with a small frame and small types, without virtual registers and
with its variables inside their part of the frame, has code or an error. -/
theorem select_ne_fault (hreg : ∀ op ∈ f.operands, op.isReg = false)
    (hslots : ∀ name offset, .slot name offset ∈ f.operands →
      offset.toNat ≤ f.stackSize.toNat)
    (htypes : ∀ i ∈ f.instructions, i.dataType.size ≤ maxFrameSize)
    (hframe : f.frameBytes ≤ maxFrameSize) : f.select ≠ .error (.fault fault) := by
  intro hselect
  obtain hmake | ⟨frame, hmake, i, hi, isLast, hi'⟩ := select_eq_error hselect
  · exact makeFrame_ne_fault hreg hframe hmake
  · exact (safe_of_makeFrame hmake hslots htypes).select_ne_fault hi hi'

/-- A lowered function has no virtual register. -/
theorem Lowers.isReg_eq_false (h : f₀.Lowers f) : ∀ op ∈ f.operands, op.isReg = false := by
  intro op hop
  rw [operands_eq] at hop
  obtain ⟨i, hi, hop⟩ := List.mem_flatMap.mp hop
  exact h.placed i hi op hop

/-- The variables of a lowered function lie inside their part of the frame. -/
theorem Lowers.slot_le (h : f₀.Lowers f)
    (hplain : ∀ i ∈ f₀.instructions, ∀ op ∈ i.operands, op.isHardware = false) {name : RegName}
    {offset : UInt32} (hop : .slot name offset ∈ f.operands) :
    offset.toNat ≤ f.stackSize.toNat := by
  rw [operands_eq] at hop
  obtain ⟨i, hi, hop⟩ := List.mem_flatMap.mp hop
  cases h.place hplain hi hop rfl with
  | slot hoffset => exact hoffset

/-- A lowered function has the types that the function had. -/
theorem Lowers.exists_dataType (h : f₀.Lowers f) {i : Instruction} (hi : i ∈ f.instructions) :
    ∃ i₀ ∈ f₀.instructions, i.dataType = i₀.dataType := by
  obtain ⟨i₀, hi₀, hmatch⟩ := h.exists_matches hi
  exact ⟨i₀, hi₀, hmatch.dataType⟩

end Func

/-! ### Modules -/

/-- **No faults.** Writing a module that is lowered from one without hardware operands gives text
or an error, if its types and the frames of its functions are no larger than a displacement can
reach. In each function the scan counts exactly, the parts of the frame fit a word when they are
added up, and all that is computed from the frame is safe. -/
theorem Module.assembly_never_faults {m m' : Module} (h : m.lower = .ok m')
    (hplain : ∀ f ∈ m.functions, ∀ i ∈ f.instructions, ∀ op ∈ i.operands,
      op.isHardware = false)
    (htypes : ∀ f ∈ m.functions, ∀ i ∈ f.instructions, i.dataType.size ≤ maxFrameSize)
    (hframes : ∀ f ∈ m'.functions, f.isExternal = false → f.frameBytes ≤ maxFrameSize) :
    ((∃ text, m'.assembly = .ok text) ∨ ∃ e, m'.assembly = .error (.error e)) ∧
    ∀ f ∈ m'.functions, f.isExternal = false →
      (∃ d, f.demand = .ok d ∧ d.totalSize = f.frameBytes ∧ d.checkWords = .ok ()) ∧
      ∀ frame, f.makeFrame = .ok frame → f.Safe frame := by
  -- what lowering says of a function with a body
  have hlowered : ∀ f ∈ m'.functions, f.isExternal = false →
      (∀ op ∈ f.operands, op.isReg = false) ∧
      (∀ name offset, .slot name offset ∈ f.operands → offset.toNat ≤ f.stackSize.toNat) ∧
      ∀ i ∈ f.instructions, i.dataType.size ≤ maxFrameSize := by
    intro f hf hbody
    obtain ⟨f₀, hf₀, -, hlower⟩ := Module.exists_lower_of_mem h hf hbody
    have hlowers := Func.lowers_of_lower hlower
    refine ⟨hlowers.isReg_eq_false, fun name offset => hlowers.slot_le (hplain f₀ hf₀), ?_⟩
    intro i hi
    obtain ⟨i₀, hi₀, htype⟩ := hlowers.exists_dataType hi
    rw [htype]
    exact htypes f₀ hf₀ i₀ hi₀
  constructor
  · cases htext : m'.assembly with
    | ok text => exact .inl ⟨text, rfl⟩
    | error e =>
        cases e with
        | error e => exact .inr ⟨e, rfl⟩
        | fault fault =>
            rw [Module.assembly_eq_error_iff, Module.lines_eq_error_iff] at htext
            obtain ⟨before, f, after, hsplit, -, hbody, hselect⟩ := htext
            have hf : f ∈ m'.functions := by simp [hsplit]
            obtain ⟨hreg, hslots, htypes'⟩ := hlowered f hf hbody
            exact absurd hselect
              (Func.select_ne_fault hreg hslots htypes' (hframes f hf hbody))
  · intro f hf hbody
    obtain ⟨hreg, hslots, htypes'⟩ := hlowered f hf hbody
    have hsmall := hframes f hf hbody
    obtain ⟨d, hdemand, -, hsize⟩ := Func.exists_demand hreg hsmall
    refine ⟨⟨d, hdemand, hsize, Demand.checkWords_eq_ok (hsize ▸ hsmall)⟩, ?_⟩
    intro frame hframe
    exact Func.safe_of_makeFrame hframe hslots htypes'

/-- A module whose function writes its argument to the second field of a pair and reads it back
five times: the last reading has no machine register, and stays in a word of the frame. -/
def fieldReadOften : Module where
  name := "often"
  functions := [{
    name := "main"
    linkage := .exported
    returnType := .i64
    args := [(.i64, .named "n")]
    nextBlockId := 2
    blocks := [{
      name := "entry"
      id := 1
      instructions :=
        { opcode := .alloca, dataType := .struct "Pair" [.i8, .i64],
          dest := some (.reg (.num 0)) } ::
        { opcode := .structStore, dataType := .struct "Pair" [.i8, .i64],
          src1 := some (.reg (.num 0)), src2 := some (.imm 1),
          src3 := some (.reg (.named "n")) } ::
        [1, 2, 3, 4, 5].map (fun n =>
          { opcode := .structLoad, dataType := .struct "Pair" [.i8, .i64],
            dest := some (.reg (.num n)), src1 := some (.reg (.num 0)),
            src2 := some (.imm 1) }) ++
        [{ opcode := .ret, dataType := .i64, src1 := some (.reg (.num 5)) }] }] }]

/-- The frame takes sixty-four bytes: sixteen for the pair, and words for the argument, for three
saved registers and for the fifth reading. -/
theorem fieldReadOften_never_faults :
    ∃ m', fieldReadOften.lower = .ok m' ∧
      ((∃ text, m'.assembly = .ok text) ∨ ∃ e, m'.assembly = .error (.error e)) ∧
      ∃ f ∈ m'.functions, f.isExternal = false ∧ f.frameBytes = 64 ∧
        (∃ d, f.demand = .ok d ∧ d.totalSize = 64 ∧ d.checkWords = .ok ()) ∧
        ∃ frame, f.makeFrame = .ok frame ∧ f.Safe frame := by
  have hends : Ends fieldReadOften.lower (fun m' =>
      (∀ f ∈ m'.functions, f.isExternal = false → f.frameBytes ≤ maxFrameSize) ∧
      ∃ f ∈ m'.functions, f.isExternal = false ∧ f.frameBytes = 64 ∧
        Ends f.makeFrame (fun _ => True) fun _ => False) fun _ => False := by
    decide +kernel
  obtain ⟨m', hm, hframes, f, hf, hbody, hbytes, hframe⟩ := hends.exists_ok
  obtain ⟨frame, hframe, -⟩ := hframe.exists_ok
  obtain ⟨hresult, hsafe⟩ :=
    Module.assembly_never_faults hm (by decide) (by decide) hframes
  obtain ⟨⟨d, hdemand, hsize, hwords⟩, hsafe⟩ := hsafe f hf hbody
  exact ⟨m', hm, hresult, f, hf, hbody, hbytes, ⟨d, hdemand, hsize.trans hbytes, hwords⟩,
    frame, hframe, hsafe frame hframe⟩

end RegIR
