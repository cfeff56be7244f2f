import RegIR.Proofs.Select.Divides
import RegIR.Proofs.Select.Transfers

/-!
# Addresses of array elements

The address of an element is a pointer plus an index times the size of an element. A constant index
is a number of 64 bits. For an index that is kept somewhere the whole word is used, whatever the
type of the index was when it was computed. But at most 32 bits are written of a result that is not
wider: in a register the upper half becomes zero, and in the frame it stays as it was. So a negative
index of 32 bits or less that is in a register is used as a large positive number, and one in the
frame depends on what was there before.

## Main definitions

* `X86.Frame.Writes`: what the code of an instruction writes to its destination.
* `X86.Location.upperHalf`: what is above the 32 bits that are written.

## Main results

* `X86.Location.hold_eq_signExtend_iff`: when the whole word is the number.
* `Scope.gep_gives`: the address of an element.
* `Scope.gep_of_written`: what becomes of an index that an instruction has computed.
* `negativeIndex_is_not_the_constant`: a negative index and the same constant that give different
  addresses.
-/

namespace RegIR

open X86

/-! ### Whole words -/

namespace X86.Location

variable {w : Width} {v : BitVec w.bits}

/-- What is above 32 bits that have been written to a place. -/
def upperHalf (loc : Location) (old : BitVec 64) : BitVec 32 :=
  match loc with
  | .reg _ => 0
  | .slot _ => old.extractLsb' 32 32

/-- The two halves of a word of which the lower one has been written. -/
theorem hold_dword (loc : Location) (old : BitVec 64) (v : BitVec 32) :
    loc.hold .dword old v = loc.upperHalf old ++ v := by
  apply BitVec.eq_of_getLsbD_eq
  intro i hi
  rw [BitVec.getLsbD_append]
  cases loc with
  | reg r =>
      change (v.setWidth 64).getLsbD i = _
      rw [BitVec.getLsbD_setWidth]
      split
      next => simp [hi]
      next hhigh => simp [upperHalf, BitVec.getLsbD_of_ge v i (by omega)]
  | slot n =>
      change (old >>> 32 <<< 32 ||| v.setWidth 64).getLsbD i = _
      rw [BitVec.getLsbD_or, BitVec.getLsbD_shiftLeft, BitVec.getLsbD_ushiftRight,
        BitVec.getLsbD_setWidth]
      split
      next hlow => simp [hi, hlow]
      next hhigh =>
        have hfits : i - 32 < 32 := by omega
        simp [upperHalf, hi, hhigh, hfits, BitVec.getLsbD_of_ge v i (by omega)]

/-- The two halves of a sign extension. -/
theorem signExtend_eq_append {k : Nat} (hk : k ≤ 32) (v : BitVec k) :
    v.signExtend 64 = BitVec.fill 32 v.msb ++ v.signExtend 32 := by
  apply BitVec.eq_of_getLsbD_eq
  intro i hi
  rw [BitVec.getLsbD_append, BitVec.getLsbD_signExtend, BitVec.getLsbD_signExtend,
    BitVec.getLsbD_fill]
  by_cases hlow : i < 32
  · simp [hi, hlow]
  · have hmsb : ¬ i < k := by omega
    have hfits : i - 32 < 32 := by omega
    simp [hi, hlow, hmsb, hfits]

/-- **Whole words.** After a result has been written, the whole word is its sign extension exactly
if it has 64 bits or the upper half repeats the sign. -/
theorem hold_eq_signExtend_iff (loc : Location) (old : BitVec 64) :
    loc.hold w.widen old (v.signExtend _) = v.signExtend 64 ↔
      w = .qword ∨ loc.upperHalf old = BitVec.fill 32 v.msb := by
  cases w with
  | byte | word | dword =>
      change loc.hold .dword old (v.signExtend 32) = _ ↔ _
      rw [hold_dword, signExtend_eq_append (by decide), BitVec.append_left_inj]
      simp
  | qword =>
      refine iff_of_true ?_ (.inl rfl)
      cases loc with
      | reg r => exact BitVec.setWidth_eq _
      | slot n =>
          change old >>> 64 <<< 64 ||| (v.signExtend 64).setWidth 64 = v.signExtend 64
          simp

end X86.Location

/-! ### Elements -/

namespace Scope

variable {s : Scope} {g i : Instruction} {opcode : Opcode} {ptr index dest : Operand}
  {loc : Location} {m : X86.Machine} {w : Width} {p c : BitVec 64} {size : Nat}

/-- A second operand is added to `r11`. -/
theorem addScratch_achieves {x : X86.Operand} (hx : x.IsRight .qword)
    (hread : m.read .qword x = c) :
    Achieves [.alu .add (.qword scratch) x] m fun m' =>
      m'.regs scratch = m.regs scratch + c ∧ m.SameBut [scratch] m' := by
  refine (alu_achieves .add hx).mono fun m' hm' => ⟨?_, hm'.2⟩
  refine X86.Machine.regs_of_reg_qword (hm'.1.trans ?_)
  rw [hread]
  change (m.regs scratch).setWidth 64 + c = (m.regs scratch + c).setWidth 64
  rw [BitVec.setWidth_eq, BitVec.setWidth_eq]

/-- An index in `r10` is multiplied by the size of an element. -/
theorem scale_achieves (hsize : size ≤ 0x7fffffff) :
    Achieves (if Int64.ofNat size = 1 then [] else
        [.imul3 (.qword scratch2) (.qword scratch2) (Int64.ofNat size)]) m fun m' =>
      m'.regs scratch2 = m.regs scratch2 * BitVec.ofNat 64 size ∧ m.SameBut [scratch2] m' := by
  split
  next hone =>
    have hone : BitVec.ofNat 64 size = 1 := congrArg Int64.toBitVec hone
    refine .nil ⟨?_, .refl _ _⟩
    rw [hone]
    exact (BitVec.mul_one _).symm
  next =>
    have hholds : Width.dword.Holds (Int64.ofNat size) := Width.holds_ofNat (by omega)
    refine (Achieves.setReg (Instr.encodable_imul3 hholds) rfl (.inr rfl)).mono fun m' hm' => ?_
    refine ⟨X86.Machine.regs_of_reg_qword (hm'.1.trans ?_), hm'.2⟩
    change (m.regs scratch2).setWidth 64 * (BitVec.ofNat 64 size).setWidth 64 =
      (m.regs scratch2 * BitVec.ofNat 64 size).setWidth 64
    rw [BitVec.setWidth_eq, BitVec.setWidth_eq, BitVec.setWidth_eq]

/-- A word that is loaded and multiplied is added to `r11`. -/
theorem scaleWord_achieves (opcode : Opcode) (hc : s.frame.word? m index = some c)
    (hsize : size ≤ 0x7fffffff) :
    ∃ load, s.loadInto opcode scratch2 index .qword = .ok load ∧
      ∀ m', s.frame.word? m' index = some c →
        Achieves (load ++ (if Int64.ofNat size = 1 then [] else
            [.imul3 (.qword scratch2) (.qword scratch2) (Int64.ofNat size)]) ++
          [.alu .add (.qword scratch) (.qword scratch2)]) m' fun m'' =>
            m''.regs scratch = m'.regs scratch + c * BitVec.ofNat 64 size ∧
              m'.SameBut scratchRegs m'' := by
  obtain ⟨load, hload, hrun⟩ := loadQword_achieves opcode scratch2 hc
  refine ⟨load, hload, fun m' hc' => ?_⟩
  rw [List.append_assoc]
  refine (hrun m' hc').append fun m₁ hm₁ => ?_
  obtain ⟨hindex, hsame₁⟩ := hm₁
  refine (scale_achieves hsize).append fun m₂ hm₂ => ?_
  obtain ⟨hscaled, hsame₂⟩ := hm₂
  have hread : m₂.read .qword (.qword scratch2) = c * BitVec.ofNat 64 size :=
    (BitVec.setWidth_eq _).trans (by rw [hscaled, hindex])
  refine (addScratch_achieves (.inl (X86.Operand.isValue_reg _ _)) hread).mono fun m₃ hm₃ => ?_
  obtain ⟨hsum, hsame₃⟩ := hm₃
  refine ⟨?_, ?_⟩
  · rw [hsum, hsame₂.regs scratch (by decide), hsame₁.regs scratch (by decide)]
  · exact ((hsame₁.trans hsame₂).mono (by decide)).trans (hsame₃.mono (by decide))

/-- A product that is a constant is added to `r11`. -/
theorem scaleConstant_achieves {n : Int64} (opcode : Opcode) (size : Nat)
    (hc : s.frame.word? m (.imm n) = some c) :
    ∃ code, s.scaleIndex opcode (.imm n) (Int64.ofNat size) = .ok code ∧
      ∀ m', Achieves code m' fun m'' =>
        m''.regs scratch = m'.regs scratch + c * BitVec.ofNat 64 size ∧
          m'.SameBut scratchRegs m'' := by
  obtain rfl := Option.some.inj hc
  have hproduct : (n * Int64.ofNat size).toBitVec = n.toBitVec * BitVec.ofNat 64 size :=
    Int64.toBitVec_mul
  rw [← hproduct]
  by_cases hzero : n * Int64.ofNat size = 0
  · refine ⟨[], if_pos hzero, fun m' => .nil ⟨?_, .refl _ _⟩⟩
    rw [hzero]
    exact (BitVec.add_zero _).symm
  · have hvalue : s.frame.value? m (.imm (n * Int64.ofNat size)) =
        some (n * Int64.ofNat size).toBitVec := rfl
    obtain ⟨load, right, hload, hright, hrun⟩ := rightOperand_achieves opcode .qword hvalue
    refine ⟨load ++ [.alu .add (.qword scratch) right], ?_, fun m' => ?_⟩
    · exact (if_neg hzero).trans (bind_eq_ok_iff.mpr ⟨_, hload, rfl⟩)
    · refine (hrun m' rfl).append fun m₁ hm₁ => ?_
      obtain ⟨hread, hsame₁⟩ := hm₁
      refine (addScratch_achieves hright (hread.trans (BitVec.setWidth_eq _))).mono ?_
      rintro m₂ ⟨hsum, hsame₂⟩
      refine ⟨?_, (hsame₁.mono (by decide)).trans (hsame₂.mono (by decide))⟩
      rw [hsum, hsame₁.regs scratch (by decide)]

/-- An index times the size of an element is added to `r11`. -/
theorem scaleIndex_achieves (opcode : Opcode) (hc : s.frame.word? m index = some c)
    (hsize : size ≤ 0x7fffffff) :
    ∃ code, s.scaleIndex opcode index (Int64.ofNat size) = .ok code ∧
      ∀ m', s.frame.word? m' index = some c → Achieves code m' fun m'' =>
        m''.regs scratch = m'.regs scratch + c * BitVec.ofNat 64 size ∧
          m'.SameBut scratchRegs m'' := by
  cases index with
  | imm n =>
      obtain ⟨code, hcode, hrun⟩ := scaleConstant_achieves opcode size hc
      exact ⟨code, hcode, fun m' _ => hrun m'⟩
  | _ =>
      obtain ⟨load, hload, hrun⟩ := scaleWord_achieves opcode hc hsize
      exact ⟨_, bind_eq_ok_iff.mpr ⟨load, hload, rfl⟩, hrun⟩

/-- **Elements.** The code gives its destination the address of an element. -/
theorem gep_gives (isLast : Bool) (hop : g.opcode = .gep) (hptr : g.src1 = some ptr)
    (hp : s.frame.word? m ptr = some p) (hindex : g.src2 = some index)
    (hc : s.frame.word? m index = some c) (hsize : g.dataType.size ≤ 0x7fffffff)
    (hdest : g.dest = some dest) (hloc : s.frame.locate? dest = some loc) :
    ∃ code, s.select g isLast = .ok code ∧
      Achieves code m (s.frame.Gives 0 scratchRegs dest loc .qword
        (p + c * BitVec.ofNat 64 g.dataType.size) m) := by
  obtain ⟨load, hload, hrunLoad⟩ := loadQword_achieves g.opcode scratch hp
  obtain ⟨scale, hscale, hrunScale⟩ := scaleIndex_achieves g.opcode hc hsize
  obtain ⟨store, hstore, hfinish⟩ := finish_achieves_scratch (s := s) g.opcode .qword hloc
  refine ⟨load ++ scale ++ store, ?_, ?_⟩
  · rw [select_eq_selectRaw, selectRaw, hop]
    refine bind_eq_ok_iff.mpr ⟨ptr, congrArg _ hptr, ?_⟩
    refine bind_eq_ok_iff.mpr ⟨index, congrArg _ hindex, ?_⟩
    refine bind_eq_ok_iff.mpr ⟨load, hload, ?_⟩
    refine bind_eq_ok_iff.mpr ⟨scale, hscale, ?_⟩
    rw [hdest]
    exact bind_eq_ok_iff.mpr ⟨store, hstore, rfl⟩
  · rw [List.append_assoc]
    refine (hrunLoad m hp).append fun m₁ hm₁ => ?_
    obtain ⟨hbase, hsame₁⟩ := hm₁
    have hsame₁ : m.SameBut scratchRegs m₁ := hsame₁.mono (by decide)
    have hc₁ := X86.Frame.word?_of_sameBut hsame₁ scratchRegs_free hc
    refine (hrunScale m₁ hc₁).append fun m₂ hm₂ => ?_
    obtain ⟨hsum, hsame₂⟩ := hm₂
    refine hfinish (hsame₁.trans hsame₂) ?_
    rw [← hbase, ← hsum]
    exact (BitVec.setWidth_eq _).trans (BitVec.setWidth_eq _)

end Scope

/-! ### Indices that have been computed -/

/-- A value that is computed with fits a register. -/
theorem Ty.valueWidth?_of_width? {t : Ty} {w : Width} (h : t.width? = some w) :
    t.valueWidth? = some w := by
  cases t with
  | f32 | f64 => cases h
  | _ => exact h

/-- `f.Writes m i w v`: in the machine `m`, the instruction loads or computes the value `v` of the
width `w`. -/
inductive X86.Frame.Writes (f : Frame) (m : X86.Machine) (i : Instruction) (w : Width) :
    BitVec w.bits → Prop
  | load {ptr : RegIR.Operand} {p : BitVec 64} (hop : i.opcode = .load) (hptr : i.src1 = some ptr)
      (hp : f.address? m ptr = some p) (hslot : ptr.InReach) :
      Writes f m i w (m.mem.load p w.bytes)
  | arithmetic {v : BitVec w.bits} (hv : f.result? m i w = some v) : Writes f m i w v
  | division {op : DivOp} {left right : RegIR.Operand} {a b : BitVec 64}
      (hop : i.opcode = .divide op) (hframe : f.IsEntered m)
      (hleft : i.src1 = some left) (ha : f.value? m left = some a)
      (hright : i.src2 = some right) (hb : f.value? m right = some b)
      (htyped : op.isSigned = true → left.IsTyped w ∧ right.IsTyped w)
      (hdefined : op.Defined w (a.setWidth _) (b.setWidth _)) :
      Writes f m i w (op.eval (a.setWidth _) (b.setWidth _))

namespace Scope

variable {s : Scope} {g i : Instruction} {ptr index dest : Operand} {loc destLoc : Location}
  {m : X86.Machine} {w : Width} {v : BitVec w.bits}

/-- The whole word at the destination of an instruction. -/
theorem content_of_writes (isLast : Bool) (hv : s.frame.Writes m i w v)
    (hw : i.dataType.width? = some w) (hdest : i.dest = some dest)
    (hloc : s.frame.locate? dest = some loc) :
    ∃ code, s.select i isLast = .ok code ∧ Achieves code m fun m' =>
      m'.content loc = loc.hold w.widen (m.content loc) (v.signExtend _) := by
  cases hv with
  | @load ptr p hop hptr hp hslot =>
      have haccess : i.accessed? = some (0, w) := by
        rw [Instruction.accessed?, hop, Ty.valueWidth?_of_width? hw]
        rfl
      have hptr : i.pointer? = some ptr := by rwa [Instruction.pointer?, hop]
      have hdest : i.loaded? = some dest := by rwa [Instruction.loaded?, hop]
      obtain ⟨code, hcode, -, hrun⟩ :=
        load_gives isLast hptr hp haccess (Nat.zero_le _) hslot hdest hloc
      refine ⟨code, hcode, hrun.mono fun m' h => h.whole.trans ?_⟩
      rw [BitVec.add_zero]
  | arithmetic hv =>
      obtain ⟨code, hcode, hrun⟩ := arithmetic_gives isLast hw hdest hloc hv
      exact ⟨code, hcode, hrun.mono fun m' h => h.whole⟩
  | division hop hframe hleft ha hright hb htyped hdefined =>
      obtain ⟨code, hcode, hrun⟩ :=
        division_achieves hw hframe hleft ha hright hb htyped hdefined hdest hloc
      refine ⟨code, ?_, hrun.mono fun m' h => h.whole⟩
      rw [select_eq_selectRaw, selectRaw, hop]
      exact hcode

/-- **Indices.** An index that has been loaded or computed as an integer `v` of some width, and is
kept in a register or in the frame, is used as the whole word at its place. So the address is the
pointer plus that word times the size of an element, modulo `2 ^ 64`. A constant index `n` gives the
pointer plus `n` times the size. The word is the number that `v` is exactly if `v` has 64 bits or
what is above the 32 bits that were written repeats the sign: zero in a register, and what was there
before in the frame. -/
theorem gep_of_written (isLast isLast' : Bool) (hv : s.frame.Writes m i w v)
    (hw : i.dataType.width? = some w) (hindex : i.dest = some index)
    (hloc : s.frame.locate? index = some loc) (hop : g.opcode = .gep) (hptr : g.src1 = some ptr)
    (hindex' : g.src2 = some index) (hsize : g.dataType.size ≤ 0x7fffffff)
    (hdest : g.dest = some dest) (hdest' : s.frame.locate? dest = some destLoc) :
    (∃ code, s.select i isLast = .ok code ∧ Achieves code m fun m₁ =>
      ∀ m₂ p, m₂.content loc = m₁.content loc → s.frame.word? m₂ ptr = some p →
        ∃ code', s.select g isLast' = .ok code' ∧
          Achieves code' m₂ (s.frame.Assigns [.r11, .r10] dest destLoc .qword
            (p + loc.hold w.widen (m.content loc) (v.signExtend _) *
              BitVec.ofNat 64 g.dataType.size) m₂)) ∧
    (∀ (n : Int64) m₂ p, s.frame.word? m₂ ptr = some p →
      ∃ code', s.select { g with src2 := some (.imm n) } isLast' = .ok code' ∧
        Achieves code' m₂ (s.frame.Assigns [.r11, .r10] dest destLoc .qword
          (p + n.toBitVec * BitVec.ofNat 64 g.dataType.size) m₂)) ∧
    (loc.hold w.widen (m.content loc) (v.signExtend _) = v.signExtend 64 ↔
      w = .qword ∨ loc.upperHalf (m.content loc) = BitVec.fill 32 v.msb) := by
  refine ⟨?_, ?_, loc.hold_eq_signExtend_iff _⟩
  · obtain ⟨code, hcode, hrun⟩ := content_of_writes isLast hv hw hindex hloc
    refine ⟨code, hcode, hrun.mono fun m₁ hm₁ m₂ p hcontent hp => ?_⟩
    have hc : s.frame.word? m₂ index = some (m₂.content loc) := X86.Frame.word?_of_locate? hloc
    rw [hcontent, hm₁] at hc
    obtain ⟨code', hcode', hrun'⟩ := gep_gives isLast' hop hptr hp hindex' hc hsize hdest hdest'
    exact ⟨code', hcode', hrun'.mono fun _ h => h.assigns⟩
  · intro n m₂ p hp
    obtain ⟨code', hcode', hrun'⟩ := gep_gives (g := { g with src2 := some (.imm n) }) isLast' hop
      hptr hp rfl rfl hsize hdest hdest'
    exact ⟨code', hcode', hrun'.mono fun _ h => h.assigns⟩

end Scope

/-- The difference of two constants of 32 bits, in the first general register. -/
def difference (a b : Int64) : Instruction where
  opcode := .arith .sub
  dataType := .i32
  dest := some (.general 0)
  src1 := some (.imm a)
  src2 := some (.imm b)

/-- The address of an element by the first general register, behind the second one. -/
def elementAt (type : Ty) : Instruction where
  opcode := .gep
  dataType := type
  dest := some (.general 2)
  src1 := some (.general 1)
  src2 := some (.general 0)

/-- The third integer is eight bytes behind the first. -/
theorem thirdElement_address :
    twoSpilled.frame.locate? (.general 0) = some (.reg .rax) ∧
    twoSpilled.frame.locate? (.general 2) = some (.reg .r12) ∧
    twoSpilled.frame.result? runningMachine (difference 5 3) .dword = some 2 ∧
    ∃ code, twoSpilled.select (difference 5 3) false = .ok code ∧
      Achieves code runningMachine fun m₁ => ∀ m₂ p,
        m₂.content (.reg .rax) = m₁.content (.reg .rax) →
        twoSpilled.frame.word? m₂ (.general 1) = some p →
        ∃ code', twoSpilled.select (elementAt .i32) false = .ok code' ∧
          Achieves code' m₂ (twoSpilled.frame.Assigns [.r11, .r10] (.general 2) (.reg .r12) .qword
            (p + 8#64) m₂) := by
  have hloc : twoSpilled.frame.locate? (.general 0) = some (.reg .rax) := by decide +kernel
  have hdest : twoSpilled.frame.locate? (.general 2) = some (.reg .r12) := by decide +kernel
  have hresult : twoSpilled.frame.result? runningMachine (difference 5 3) .dword = some 2 := by
    decide +kernel
  exact ⟨hloc, hdest, hresult, (Scope.gep_of_written false false (.arithmetic hresult) rfl rfl hloc
    rfl rfl rfl (g := elementAt .i32) (by decide) rfl hdest).1⟩

/-- An index of -1 in a register gives the address `0xffffffff` bytes behind the pointer; the
constant gives the byte before it. -/
theorem negativeIndex_is_not_the_constant :
    twoSpilled.frame.result? runningMachine (difference 0 1) .dword = some (-1) ∧
    twoSpilled.frame.word? runningMachine (.general 1) = some 0x1000 ∧
    ∃ code byIndex byConstant, twoSpilled.select (difference 0 1) false = .ok code ∧
      twoSpilled.select (elementAt .i8) false = .ok byIndex ∧
      twoSpilled.select { elementAt .i8 with src2 := some (.imm (-1)) } false = .ok byConstant ∧
      (exec (code ++ byIndex) runningMachine).map (fun r => r.1.regs .r12) = some 0x100000fff ∧
      (exec byConstant runningMachine).map (fun r => r.1.regs .r12) = some 0xfff := by
  refine ⟨by decide +kernel, by decide +kernel, _, _, _, rfl, rfl, rfl, ?_, ?_⟩
  · decide +kernel
  · decide +kernel

end RegIR
