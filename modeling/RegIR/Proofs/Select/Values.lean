import RegIR.Proofs.Frame.Below

/-!
# Values in a machine

An operand has a value in a machine: a constant is itself, and a register of the IR or an argument
is what is kept in its place. The code of every instruction is made of pieces that bring values
into scratch registers and results back into places. Here each piece is run, once for all kinds of
operands and widths.

## Conventions

*Narrow values.* A value of 8 or 16 bits that is loaded from a place is sign-extended to 32 bits. A
constant is cut to the 32 bits at which it is computed with, and to no less, so that a constant
beyond the signed range of its type is not the sign extension of its low bits.

## Main definitions

* `X86.Frame.value?`: what an operand is worth.
* `Operand.extended`: what it is worth once it is loaded.

## Main results

* `Scope.loadInto_achieves`, `Scope.operands_achieve`: the operands of an instruction.
* `Scope.normalize_achieves`, `Scope.storeResult_achieves`: its result.
-/

namespace RegIR

open X86

/-! ### Widths -/

/-- A sign extension ends in the sign extension to fewer bits. -/
theorem setWidth_signExtend {k n n' : Nat} (x : BitVec k) (hn : n' ≤ n) :
    (x.signExtend n).setWidth n' = x.signExtend n' := by
  apply BitVec.eq_of_getLsbD_eq
  intro i hi
  have hin : i < n := by omega
  simp only [BitVec.getLsbD_setWidth, BitVec.getLsbD_signExtend, hi, hin, decide_true,
    Bool.true_and]

namespace X86.Width

variable {w : Width}

/-- Nothing gets narrower where it is computed. -/
theorem bits_le_widen (w : Width) : w.bits ≤ w.widen.bits := by
  cases w <;> decide

/-- Nothing is extended that is not narrow. -/
theorem signExtend_setWidth {n : Nat} (hw : w.isNarrow = false) (x : BitVec n) :
    (x.setWidth w.bits).signExtend w.widen.bits = x.setWidth w.widen.bits := by
  cases w with
  | byte | word => cases hw
  | dword | qword => exact BitVec.signExtend_eq _

/-- A constant at a width is the sign extension of its low bits. -/
theorem toBitVec_signExtend (w : Width) (v : Int64) :
    (w.signExtend v).toBitVec = (v.toBitVec.setWidth w.bits).signExtend 64 := by
  -- to cut a word, its sign does not matter
  have hcut : ∀ {k : Nat}, k ≤ 64 → v.toBitVec.signExtend k = v.toBitVec.setWidth k :=
    fun hk => BitVec.signExtend_eq_setWidth_of_le _ hk
  cases w with
  | byte =>
      rw [signExtend, Int8.toBitVec_toInt64, Int64.toBitVec_toInt8, hcut (by decide)]
      rfl
  | word =>
      rw [signExtend, Int16.toBitVec_toInt64, Int64.toBitVec_toInt16, hcut (by decide)]
      rfl
  | dword =>
      rw [signExtend, Int32.toBitVec_toInt64, Int64.toBitVec_toInt32, hcut (by decide)]
      rfl
  | qword => exact ((BitVec.signExtend_eq _).trans (BitVec.setWidth_eq _)).symm

/-- So its low bits are as they were. -/
theorem setWidth_toBitVec_signExtend (w : Width) (v : Int64) :
    (w.signExtend v).toBitVec.setWidth w.bits = v.toBitVec.setWidth w.bits := by
  rw [toBitVec_signExtend, setWidth_signExtend _ w.bits_le, BitVec.signExtend_eq]

/-- A constant without its sign is the zero extension of its low bits. -/
theorem toBitVec_zeroExtend (w : Width) (v : Int64) :
    (w.zeroExtend v).toBitVec = (v.toBitVec.setWidth w.bits).setWidth 64 := by
  cases w with
  | byte =>
      change v.toUInt64.toUInt8.toUInt64.toBitVec = _
      rw [UInt8.toBitVec_toUInt64, UInt64.toBitVec_toUInt8]
      rfl
  | word =>
      change v.toUInt64.toUInt16.toUInt64.toBitVec = _
      rw [UInt16.toBitVec_toUInt64, UInt64.toBitVec_toUInt16]
      rfl
  | dword =>
      change v.toUInt64.toUInt32.toUInt64.toBitVec = _
      rw [UInt32.toBitVec_toUInt64, UInt64.toBitVec_toUInt32]
      rfl
  | qword => exact ((BitVec.setWidth_eq _).trans (BitVec.setWidth_eq _)).symm

end X86.Width

/-- The width of an integer or a pointer. -/
def Ty.width? : Ty → Option Width
  | i8 => some .byte
  | i16 => some .word
  | i32 => some .dword
  | i64 | pointer _ => some .qword
  | void | f32 | f64 | struct _ _ => none

/-- Integers and pointers are computed at their widths. -/
theorem Scope.intWidth_of_width? {s : Scope} {opcode : Opcode} {t : Ty} {w : Width}
    (h : t.width? = some w) : s.intWidth opcode t = .ok w := by
  cases t with
  | void | f32 | f64 | struct _ _ => cases h
  | i8 | i16 | i32 | i64 | pointer _ =>
      cases h
      rfl

/-! ### Values of operands -/

/-- The value of an operand as it is computed with. A constant is not cut to less than 32 bits. -/
def Operand.extended (op : Operand) (w : Width) (a : BitVec 64) : BitVec w.widen.bits :=
  match op with
  | .imm _ => a.setWidth _
  | _ => (a.setWidth w.bits).signExtend _

/-- It has the low bits of the value. -/
theorem Operand.setWidth_extended (op : Operand) (w : Width) (a : BitVec 64) :
    (op.extended w a).setWidth w.bits = a.setWidth w.bits := by
  cases op with
  | imm _ => exact BitVec.setWidth_setWidth_of_le _ w.bits_le_widen
  | _ => exact (setWidth_signExtend _ w.bits_le_widen).trans (BitVec.signExtend_eq _)

namespace X86.Frame

variable {f : Frame} {m m' : Machine} {op : RegIR.Operand} {loc : Location} {a : BitVec 64}
  {rs : List Reg}

/-- What an operand is worth in a machine, if it is a constant or is kept somewhere. -/
def value? (f : Frame) (m : Machine) : RegIR.Operand → Option (BitVec 64)
  | .imm v => some v.toBitVec
  | op => (f.locate? op).map m.content

/-- What is kept somewhere is worth what is kept, and is extended when it is loaded. -/
theorem value?_of_locate? (h : f.locate? op = some loc) :
    f.value? m op = some (m.content loc) ∧
      ∀ w a, op.extended w a = (a.setWidth w.bits).signExtend _ := by
  obtain ⟨index, rfl, -⟩ | ⟨index, rfl, -⟩ | ⟨index, home, rfl, -⟩ := locate?_eq_some h <;>
    exact ⟨congrArg (Option.map m.content) h, fun w a => rfl⟩

/-- Only constants and what is kept somewhere have a value. -/
theorem value?_eq_some (h : f.value? m op = some a) :
    (∃ v, op = .imm v ∧ a = v.toBitVec) ∨ ∃ loc, f.locate? op = some loc ∧ a = m.content loc := by
  cases op with
  | imm v => exact .inl ⟨v, rfl, (Option.some.inj h).symm⟩
  | general _ | pointer _ | argument _ =>
      obtain ⟨loc, hloc, ha⟩ := Option.map_eq_some_iff.mp h
      exact .inr ⟨loc, hloc, ha.symm⟩
  | reg _ | label _ | string _ | slot _ _ => cases h

/-- Values do not change as long as places do not. -/
theorem value?_of_sameBut (h : m.SameBut rs m') (hrs : ∀ r ∈ rs, r ∉ pinnedRegs)
    (hv : f.value? m op = some a) : f.value? m' op = some a := by
  obtain ⟨v, rfl, rfl⟩ | ⟨loc, hloc, rfl⟩ := value?_eq_some hv
  · rfl
  · rw [(value?_of_locate? hloc).1, h.content hrs hloc]

/-- Nor do they while the stack is in use. -/
theorem value?_of_sameAbove {k : Nat} (h : m.SameAbove k rs m') (hclear : f.IsClear k m)
    (hrs : ∀ r ∈ rs, r = .rsp ∨ r ∉ pinnedRegs) (hv : f.value? m op = some a) :
    f.value? m' op = some a := by
  obtain ⟨v, rfl, rfl⟩ | ⟨loc, hloc, rfl⟩ := value?_eq_some hv
  · rfl
  · have hfree : ∀ r ∈ pinnedRegs, r ≠ .rsp → r ∉ rs :=
      fun r hpinned hne hmem => (hrs r hmem).elim hne fun hnot => hnot hpinned
    rw [(value?_of_locate? hloc).1, h.content hclear (hfree .rbp (by decide) nofun) hloc]
    rintro r rfl
    have hhome := mem_homeRegs hloc
    refine hfree r (List.mem_cons_of_mem _ (List.mem_cons_of_mem _ hhome)) ?_
    rintro rfl
    revert hhome
    decide

end X86.Frame

/-! ### Pieces of code -/

/-- `x.IsRight w`: what can stand on the right of arithmetic at a width. -/
def X86.Operand.IsRight (w : Width) (x : X86.Operand) : Prop :=
  x.IsValue w ∨ ∃ v, x = .imm v ∧ Width.dword.Holds v

namespace Scope

variable {s : Scope} {opcode : Opcode} {op dest : Operand} {loc : Location} {m : X86.Machine}
  {w : Width} {r : Reg} {a : BitVec 64}

/-- A value of any width is loaded with its sign, and the upper half of the register is cleared if
the value is not wider than 32 bits. -/
theorem loadFrom_sets {src : X86.Operand} (hsrc : src.IsValue w) :
    Achieves (loadFrom r src w) m (· = m.setReg r w.widen ((m.read w src).signExtend _)) := by
  have hwidth : src.width? = some w := by
    rcases hsrc with ⟨r', rfl⟩ | ⟨base, disp, rfl⟩ <;> rfl
  cases w with
  | byte | word =>
      refine .single (Instr.encodable_extend hsrc rfl).1 ?_ rfl
      rw [Instr.effect?, hwidth]
      rfl
  | dword | qword =>
      refine .single (Instr.encodable_mov_reg hsrc) rfl ?_
      exact congrArg (m.setReg r _) (BitVec.signExtend_eq _).symm

/-- A value of any width is loaded with its sign. -/
theorem loadFrom_achieves {src : X86.Operand} (hsrc : src.IsValue w) :
    Achieves (loadFrom r src w) m fun m' =>
      m'.reg r w.widen = (m.read w src).signExtend _ ∧ m.SameBut [r] m' := by
  refine (loadFrom_sets hsrc).mono ?_
  rintro _ rfl
  exact ⟨X86.Machine.reg_setReg_self, .setReg⟩

/-- A constant is put into a register. -/
theorem loadImm_achieves (v : Int64) :
    Achieves [.mov (.reg r w.widen) (.imm (w.widen.signExtend v))] m fun m' =>
      m'.reg r w.widen = v.toBitVec.setWidth _ ∧ m.SameBut [r] m' := by
  have hencodable : Instr.Encodable (.mov (.reg r w.widen) (.imm (w.widen.signExtend v))) := by
    refine Instr.encodable_mov_imm fun hw => ?_
    have hdword : w.widen = .dword := by
      cases w with
      | byte | word | dword => rfl
      | qword => exact absurd rfl hw
    rw [hdword]
    exact Width.holds_signExtend (w := .dword) nofun v
  rw [← w.widen.setWidth_toBitVec_signExtend v]
  exact .setReg hencodable rfl (.inl rfl)

/-- The code that loads what is kept somewhere. -/
theorem loadInto_of_locate? (h : s.frame.locate? op = some loc) :
    s.loadInto opcode r op w =
      .ok (if loc = .reg r ∧ !w.isNarrow then [] else loadFrom r (loc.operand w) w) := by
  have hloc := location_of_locate? h opcode
  obtain ⟨index, rfl, -⟩ | ⟨index, rfl, -⟩ | ⟨index, home, rfl, -⟩ :=
    X86.Frame.locate?_eq_some h <;>
  · refine bind_eq_ok_iff.mpr ⟨loc, hloc, ?_⟩
    split <;> rfl

/-- **Loads.** The value of an operand gets into a register, and nothing else happens. -/
theorem loadInto_achieves (opcode : Opcode) (r : Reg) (w : Width)
    (hv : s.frame.value? m op = some a) :
    ∃ code, s.loadInto opcode r op w = .ok code ∧ ∀ m', s.frame.value? m' op = some a →
      Achieves code m' fun m'' => m''.reg r w.widen = op.extended w a ∧ m'.SameBut [r] m'' := by
  obtain ⟨v, rfl, rfl⟩ | ⟨loc, hloc, rfl⟩ := X86.Frame.value?_eq_some hv
  · exact ⟨_, rfl, fun m' _ => loadImm_achieves v⟩
  · refine ⟨_, loadInto_of_locate? hloc, fun m' hv' => ?_⟩
    obtain ⟨hvalue, hext⟩ := X86.Frame.value?_of_locate? (m := m') hloc
    have heq := Option.some.inj (hv'.symm.trans hvalue)
    rw [hext, heq]
    split
    next hthere =>
      -- a wide value that is in the register already
      obtain ⟨rfl, hwide⟩ := hthere
      rw [Bool.not_eq_true'] at hwide
      exact .nil ⟨(Width.signExtend_setWidth hwide _).symm, .refl _ _⟩
    next =>
      rw [← X86.Machine.read_operand hloc w]
      exact loadFrom_achieves (loc.isValue w)

/-- The second operand of arithmetic, if it is kept somewhere. -/
theorem rightOperand_of_locate? (h : s.frame.locate? op = some loc) :
    s.rightOperand opcode op w =
      if w.isNarrow then do
        return (← s.loadInto opcode scratch2 op w, .reg scratch2 w.widen)
      else .ok ([], loc.operand w.widen) := by
  have hloc := location_of_locate? h opcode
  obtain ⟨index, rfl, -⟩ | ⟨index, rfl, -⟩ | ⟨index, home, rfl, -⟩ :=
    X86.Frame.locate?_eq_some h <;>
  · rw [rightOperand, hloc]
    rfl

/-- **Second operands.** The second operand of an instruction is a constant or it is found where
the code says, and nothing happens but that it may be loaded into `r10`. -/
theorem rightOperand_achieves (opcode : Opcode) (w : Width)
    (hv : s.frame.value? m op = some a) :
    ∃ code right, s.rightOperand opcode op w = .ok (code, right) ∧ right.IsRight w.widen ∧
      ∀ m', s.frame.value? m' op = some a → Achieves code m' fun m'' =>
        m''.read w.widen right = op.extended w a ∧ m'.SameBut [scratch2] m'' := by
  obtain ⟨code, hcode, hrun⟩ := loadInto_achieves opcode scratch2 w hv
  -- anything can be loaded
  have hscratch : (do
      return (← s.loadInto opcode scratch2 op w, X86.Operand.reg scratch2 w.widen)) =
        (.ok (code, .reg scratch2 w.widen) : Selected (Code × X86.Operand)) :=
    bind_eq_ok_iff.mpr ⟨code, hcode, rfl⟩
  obtain ⟨v, rfl, rfl⟩ | ⟨loc, hloc, rfl⟩ := X86.Frame.value?_eq_some hv
  · by_cases hfits : fitsSigned32 (w.widen.signExtend v) = true
    · refine ⟨[], .imm (w.widen.signExtend v), if_pos hfits,
        .inr ⟨_, rfl, Width.holds_dword_iff.mpr hfits⟩, fun m' _ => .nil ⟨?_, .refl _ _⟩⟩
      exact w.widen.setWidth_toBitVec_signExtend v
    · exact ⟨code, _, (if_neg hfits).trans hscratch, .inl (X86.Operand.isValue_reg _ _), hrun⟩
  · by_cases hw : w.isNarrow = true
    · refine ⟨code, _, ?_, .inl (X86.Operand.isValue_reg _ _), hrun⟩
      rw [rightOperand_of_locate? hloc, if_pos hw]
      exact hscratch
    · refine ⟨[], loc.operand w.widen, ?_, .inl (loc.isValue _), fun m' hv' => .nil ⟨?_, .refl _ _⟩⟩
      · rw [rightOperand_of_locate? hloc, if_neg hw]
      · obtain ⟨hvalue, hext⟩ := X86.Frame.value?_of_locate? (m := m') hloc
        rw [Bool.not_eq_true] at hw
        rw [X86.Machine.read_operand hloc, hext, Width.signExtend_setWidth hw,
          Option.some.inj (hv'.symm.trans hvalue)]

/-- The registers that arithmetic is done in. -/
def scratchRegs : List Reg :=
  [scratch, scratch2]

/-- They are not in use for anything else. -/
theorem scratchRegs_free : ∀ r ∈ scratchRegs, r ∉ X86.Frame.pinnedRegs := by
  decide

/-- **Operands.** Both operands of an instruction are brought to where it finds them, the first one
into `r11`. -/
theorem operands_achieve {left right : Operand} {b : BitVec 64} (opcode : Opcode) (w : Width)
    (ha : s.frame.value? m left = some a) (hb : s.frame.value? m right = some b) :
    ∃ loadLeft loadRight x, s.loadInto opcode scratch left w = .ok loadLeft ∧
      s.rightOperand opcode right w = .ok (loadRight, x) ∧ x.IsRight w.widen ∧
      Achieves (loadLeft ++ loadRight) m fun m' =>
        m'.reg scratch w.widen = left.extended w a ∧ m'.read w.widen x = right.extended w b ∧
          m.SameBut scratchRegs m' := by
  obtain ⟨loadLeft, hloadLeft, hrunLeft⟩ := loadInto_achieves opcode scratch w ha
  obtain ⟨loadRight, x, hloadRight, hx, hrunRight⟩ := rightOperand_achieves opcode w hb
  refine ⟨loadLeft, loadRight, x, hloadLeft, hloadRight, hx, ?_⟩
  refine (hrunLeft m ha).append fun m₁ hm₁ => ?_
  obtain ⟨hacc, hsame₁⟩ := hm₁
  have hsame₁ : m.SameBut scratchRegs m₁ := hsame₁.mono (by decide)
  have hb₁ := X86.Frame.value?_of_sameBut hsame₁ scratchRegs_free hb
  refine (hrunRight m₁ hb₁).mono fun m₂ hm₂ => ?_
  obtain ⟨hother, hsame₂⟩ := hm₂
  refine ⟨?_, hother, hsame₁.trans (hsame₂.mono (by decide))⟩
  -- the second operand is not loaded over the first
  rw [← hacc, hsame₂.reg (by decide)]

/-- A register is made to hold the sign extension of its low bits. -/
theorem normalize_achieves :
    Achieves (normalize r w) m fun m' =>
      m'.reg r w.widen = ((m.reg r w.widen).setWidth w.bits).signExtend _ ∧ m.SameBut [r] m' := by
  rw [normalize]
  split
  next hw =>
    have hlow : (m.reg r w.widen).setWidth w.bits = m.read w (.reg r w) :=
      BitVec.setWidth_setWidth_of_le _ w.bits_le_widen
    have hload := loadFrom_achieves (r := r) (m := m) (X86.Operand.isValue_reg r w)
    rw [loadFrom, if_pos hw] at hload
    rw [hlow]
    exact hload
  next hw =>
    rw [Bool.not_eq_true] at hw
    refine .nil ⟨?_, .refl _ _⟩
    rw [Width.signExtend_setWidth hw, BitVec.setWidth_eq]

/-- The code that writes a result to its place. -/
theorem storeResult_of_locate? (h : s.frame.locate? dest = some loc)
    (hr : r ∉ X86.Frame.homeRegs) : s.storeResult opcode (some dest) r w =
      .ok [.mov (loc.operand w.widen) (.reg r w.widen)] := by
  have hne : loc ≠ .reg r := by
    rintro rfl
    exact hr (X86.Frame.mem_homeRegs h)
  refine bind_eq_ok_iff.mpr ⟨dest, rfl, bind_eq_ok_iff.mpr ⟨loc, location_of_locate? h _, ?_⟩⟩
  rw [if_neg hne]
  rfl

/-- **Results.** A result is written to its place. -/
theorem storeResult_achieves (opcode : Opcode) (w : Width)
    (hloc : s.frame.locate? dest = some loc) (hr : r ∉ X86.Frame.homeRegs) :
    ∃ code, s.storeResult opcode (some dest) r w = .ok code ∧
      ∀ m, Achieves code m (· = m.write w.widen (m.reg r w.widen) (loc.operand w.widen)) := by
  refine ⟨_, storeResult_of_locate? hloc hr, fun m => ?_⟩
  refine .single (Instr.encodable_mov_of_reg (loc.isValue _)) ?_ rfl
  cases loc <;> rfl

end Scope

end RegIR
