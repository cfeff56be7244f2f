import Mathlib.Tactic.Positivity
import RegIR.Proofs.Select.Computes
import RegIR.Proofs.Select.Decides

/-!
# Divisions divide

The code of a division gives its destination the quotient or the remainder of its operands, read as
signed or unsigned numbers at the width of the type. The machine divides in `rax`, which is also
the place of a general register. It is kept on the stack meanwhile, unless it is the destination,
and the divisor is loaded before the dividend, so that an operand in `rax` is read in time.

## Conventions

*Numbers.* An operation reads words as numbers and writes its result as a word again, modulo the
words of its width. At 8 and 16 bits the machine divides at 32, where nothing overflows; at 32 and
64 bits the machine traps on the one quotient that does not fit.

## Main definitions

* `DivOp.read`, `DivOp.eval`: what the operations are on words of any width.
* `DivOp.Defined`: the operation has a result that the machine can compute.

## Main results

* `Scope.divideCode_achieves`: what dividing does in the machine.
* `Scope.division_gives`: what running the code does.
-/

namespace RegIR

open X86

/-! ### Operations -/

namespace DivOp

variable {n : Nat}

/-- The number that a word stands for. -/
def read (op : DivOp) (a : BitVec n) : Int :=
  if op.isSigned then a.toInt else a.toNat

/-- The quotient, towards zero, or the remainder that goes with it. -/
def compute (op : DivOp) (x y : Int) : Int :=
  if op.isQuotient then x.tdiv y else x.tmod y

/-- An operation on two words. -/
def eval (op : DivOp) (a b : BitVec n) : BitVec n :=
  BitVec.ofInt n (op.compute (op.read a) (op.read b))

/-- `op.Defined w a b`: the divisor is not zero and, where the machine divides at the width of the
type, the quotient is not the one that is out of range. -/
def Defined (op : DivOp) (w : Width) (a b : BitVec w.bits) : Prop :=
  b ≠ 0 ∧ (op.isSigned = true → w.isNarrow = false → ¬ (a = BitVec.intMin _ ∧ b = -1))

/-- Cutting a number to fewer bits. -/
theorem setWidth_ofInt {k n : Nat} (hkn : k ≤ n) (x : Int) :
    (BitVec.ofInt n x).setWidth k = BitVec.ofInt k x := by
  apply BitVec.eq_of_toInt_eq
  rw [← BitVec.signExtend_eq_setWidth_of_le _ hkn, BitVec.toInt_signExtend, BitVec.toInt_ofInt,
    BitVec.toInt_ofInt, Nat.min_eq_left hkn]
  exact Int.bmod_bmod_of_dvd (Nat.pow_dvd_pow 2 hkn)

/-- A quotient of signed words fits, at more bits or if it is not the one that is out of range. -/
theorem toInt_ofInt_tdiv {k : Nat} {a b : BitVec n} (hnk : n ≤ k)
    (h : n < k ∨ ¬ (a = BitVec.intMin n ∧ b = -1)) :
    (BitVec.ofInt k (a.toInt.tdiv b.toInt)).toInt = a.toInt.tdiv b.toInt := by
  by_cases hlt : n < k
  · have hquotient := Int.natAbs_tdiv_le_natAbs a.toInt b.toInt
    have hlow := BitVec.le_two_mul_toInt (x := a)
    have hhigh := BitVec.two_mul_toInt_lt (x := a)
    have hpow : (2 : Int) ^ n ≤ 2 ^ (k - 1) := pow_le_pow_right₀ (by decide) (by omega)
    have hpos : (0 : Int) < 2 ^ (k - 1) := by positivity
    exact BitVec.toInt_ofInt_eq_self (by omega) (by omega) (by omega)
  · obtain rfl : n = k := by omega
    have hother : a ≠ BitVec.intMin n ∨ b ≠ -1#n := by
      rw [← not_and_or]
      exact h.resolve_left hlt
    rw [BitVec.toInt_ofInt, ← BitVec.toInt_sdiv, BitVec.toInt_sdiv_of_ne_or_ne a b hother]

/-- A quotient of unsigned words always fits. -/
theorem toNat_ofInt_tdiv {k : Nat} {a b : BitVec n} (hnk : n ≤ k) :
    ((BitVec.ofInt k ((a.toNat : Int).tdiv b.toNat)).toNat : Int) =
      (a.toNat : Int).tdiv b.toNat := by
  have hlt : a.toNat / b.toNat < 2 ^ k := by
    calc a.toNat / b.toNat ≤ a.toNat := Nat.div_le_self _ _
      _ < 2 ^ n := a.isLt
      _ ≤ 2 ^ k := Nat.pow_le_pow_right (by decide) hnk
  rw [← Int.ofNat_tdiv, BitVec.ofInt_natCast, BitVec.toNat_ofNat, Nat.mod_eq_of_lt hlt]

variable {op : DivOp} {w : Width} {a b : BitVec w.bits}

/-- Where the operation is defined, the quotient fits where the machine computes it. -/
theorem Defined.fits (h : op.Defined w a b) :
    op.read (BitVec.ofInt w.widen.bits ((op.read a).tdiv (op.read b))) =
      (op.read a).tdiv (op.read b) := by
  have hle := w.bits_le_widen
  by_cases hsigned : op.isSigned = true
  · simp only [read, if_pos hsigned]
    refine toInt_ofInt_tdiv hle ?_
    by_cases hnarrow : w.isNarrow = true
    · left
      cases w with
      | byte | word => decide
      | dword | qword => cases hnarrow
    · exact .inr (h.2 hsigned (Bool.not_eq_true _ ▸ hnarrow))
  · simp only [read, if_neg hsigned]
    exact toNat_ofInt_tdiv hle

/-- A number that is not zero as a word is not zero. -/
theorem read_ne_zero {x : BitVec n} (hx : x ≠ 0) : op.read x ≠ 0 := by
  rw [read]
  split
  · rwa [Ne, ← BitVec.toInt_zero, BitVec.toInt_inj]
  · rwa [Ne, Int.natCast_eq_zero, ← BitVec.toNat_zero, BitVec.toNat_inj]

end DivOp

/-! ### The machine -/

/-- A word behind copies of its sign is the same number. -/
theorem toInt_sign_append {n : Nat} (hn : 0 < n) (x : BitVec n) :
    (x.sshiftRight (n - 1) ++ x).toInt = x.toInt := by
  have hlow := BitVec.le_toInt x
  have hhigh := BitVec.toInt_lt (x := x)
  have hnum := BitVec.toInt_eq_toNat_cond x
  have hne : ¬ (n == 0) = true := by
    rw [beq_iff_eq]
    omega
  rw [BitVec.toInt_append, if_neg hne, BitVec.toInt_sshiftRight, Int.shiftRight_eq_div_pow]
  push_cast at hnum ⊢
  by_cases hneg : x.toInt < 0
  · have hbig := BitVec.toInt_neg_iff.mp hneg
    rw [if_neg (by omega)] at hnum
    rw [Int.ediv_eq_neg_one_of_neg_of_le hneg (by omega)]
    omega
  · have hsmall := BitVec.toInt_pos_iff.mp (Int.not_lt.mp hneg)
    rw [if_pos hsmall] at hnum
    rw [Int.ediv_eq_zero_of_lt (Int.not_lt.mp hneg) hhigh]
    omega

/-- A word behind zeros is the same number. -/
theorem toNat_zero_append {n : Nat} (x : BitVec n) : (0#n ++ x).toNat = x.toNat := by
  rw [BitVec.toNat_append, BitVec.toNat_zero, Nat.zero_shiftLeft, Nat.zero_or]

/-- Dividing succeeds where the divisor is not zero and the quotient fits. -/
theorem X86.Machine.divide?_eq {op : DivOp} {m : X86.Machine} {w : Width} {d : BitVec w.bits}
    {x y : Int} (hx : op.read (m.reg .rdx w ++ m.reg .rax w) = x) (hy : op.read d = y)
    (hzero : y ≠ 0) (hfits : op.read (BitVec.ofInt w.bits (x.tdiv y)) = x.tdiv y) :
    m.divide? op.isSigned w d =
      some ((m.setReg .rax w (BitVec.ofInt w.bits (x.tdiv y))).setReg .rdx w
        (BitVec.ofInt w.bits (x.tmod y))).forgetFlags := by
  subst hx hy
  exact if_neg (not_or.mpr ⟨hzero, not_not.mpr hfits⟩)

namespace Scope

variable {s : Scope} {i : Instruction} {opcode : Opcode} {op : DivOp}
  {dest left right : Operand} {loc : Location} {m : X86.Machine} {w : Width} {r : Reg}
  {a b : BitVec 64}

/-- The sign of `rax` is copied into `rdx`. -/
theorem copySign_achieves (w : Width) :
    Achieves [if w.widen = .qword then Instr.cqo else Instr.cdq] m fun m' =>
      m'.reg .rdx w.widen = (m.reg .rax w.widen).sshiftRight (w.widen.bits - 1) ∧
        m.SameBut [.rdx] m' := by
  cases w <;> exact .setReg (by decide) rfl (.inl rfl)

/-- `rdx` is cleared. -/
theorem clearHigh_achieves (w : Width) :
    Achieves [.alu .xor (.reg .rdx .dword) (.reg .rdx .dword)] m fun m' =>
      m'.reg .rdx w = 0 ∧ m.SameBut [.rdx] m' := by
  refine .single (Instr.encodable_alu _ (X86.Operand.isValue_reg _ _)) rfl
    ⟨?_, X86.Machine.SameBut.setReg.forgetFlags⟩
  have hzero : AluOp.xor.eval (m.reg .rdx .dword) (m.reg .rdx .dword) = 0 := BitVec.xor_self
  change (X86.Machine.regs (m.setReg .rdx .dword (AluOp.xor.eval (m.reg .rdx .dword)
    (m.reg .rdx .dword))) .rdx).setWidth w.bits = 0
  rw [hzero, X86.Machine.regs_setReg_self]
  cases w <;> rfl

/-- Dividing the number in `rdx` and `rax`. -/
theorem divideInstr_achieves (w : Width) {x y : Int}
    (hx : op.read (m.reg .rdx w.widen ++ m.reg .rax w.widen) = x)
    (hy : op.read (m.reg scratch w.widen) = y) (hzero : y ≠ 0)
    (hfits : op.read (BitVec.ofInt w.widen.bits (x.tdiv y)) = x.tdiv y) :
    Achieves [(if op.isSigned then Instr.idiv else Instr.div) (.reg scratch w.widen)] m fun m' =>
      m'.reg (if op.isQuotient then .rax else .rdx) w.widen = BitVec.ofInt _ (op.compute x y) ∧
        m.SameBut [.rax, .rdx] m' := by
  have hencodable : Instr.Encodable
      ((if op.isSigned then Instr.idiv else Instr.div) (.reg scratch w.widen)) := by
    refine Instr.encodable_inPlace scratch w ?_
    cases op.isSigned <;> simp
  have heffect :
      ((if op.isSigned then Instr.idiv else Instr.div) (.reg scratch w.widen)).effect? m =
        m.divide? op.isSigned w.widen (m.reg scratch w.widen) := by
    cases op.isSigned <;> rfl
  refine .single hencodable (heffect.trans (X86.Machine.divide?_eq hx hy hzero hfits)) ⟨?_, ?_⟩
  · rw [DivOp.compute]
    split
    · refine Eq.trans ?_ (X86.Machine.reg_setReg_self (m := m) (r := .rax))
      exact (X86.Machine.SameBut.setReg (r := .rdx)).reg (by decide) w.widen
    · exact X86.Machine.reg_setReg_self
  · have hrax := X86.Machine.SameBut.setReg (m := m) (r := .rax)
      (v := BitVec.ofInt w.widen.bits (x.tdiv y))
    exact ((hrax.mono (by decide)).trans (X86.Machine.SameBut.setReg.mono (by decide))).forgetFlags

/-- **The machine divides.** The numbers in `rax` and `r11` are divided, if the quotient exists and
fits. -/
theorem divideCode_achieves (w : Width) {x y : Int} (hx : op.read (m.reg .rax w.widen) = x)
    (hy : op.read (m.reg scratch w.widen) = y) (hzero : y ≠ 0)
    (hfits : op.read (BitVec.ofInt w.widen.bits (x.tdiv y)) = x.tdiv y) :
    Achieves (divideCode op.isSigned w) m fun m' =>
      m'.reg (if op.isQuotient then .rax else .rdx) w.widen = BitVec.ofInt _ (op.compute x y) ∧
        m.SameBut [.rax, .rdx] m' := by
  have hdivide : ∀ m₁ : X86.Machine, m.SameBut [.rdx] m₁ →
      op.read (m₁.reg .rdx w.widen ++ m₁.reg .rax w.widen) = x →
      Achieves [(if op.isSigned then Instr.idiv else Instr.div) (.reg scratch w.widen)] m₁ fun m' =>
        m'.reg (if op.isQuotient then .rax else .rdx) w.widen = BitVec.ofInt _ (op.compute x y) ∧
          m.SameBut [.rax, .rdx] m' := by
    intro m₁ hsame hx₁
    rw [← hsame.reg (by decide)] at hy
    refine (divideInstr_achieves w hx₁ hy hzero hfits).mono fun m' hm' => ⟨hm'.1, ?_⟩
    exact (hsame.mono (by decide)).trans hm'.2
  by_cases hsigned : op.isSigned = true
  · rw [divideCode, if_pos hsigned, ← List.singleton_append]
    refine (copySign_achieves w).append fun m₁ hm₁ => ?_
    obtain ⟨hrdx, hsame⟩ := hm₁
    have hinstr : (if op.isSigned then Instr.idiv else Instr.div) = Instr.idiv := if_pos hsigned
    refine hinstr ▸ hdivide m₁ hsame ?_
    rw [hrdx, hsame.reg (by decide)]
    simp only [DivOp.read, if_pos hsigned] at hx ⊢
    rw [toInt_sign_append (by cases w <;> decide), hx]
  · rw [divideCode, if_neg hsigned, ← List.singleton_append]
    refine (clearHigh_achieves w.widen).append fun m₁ hm₁ => ?_
    obtain ⟨hrdx, hsame⟩ := hm₁
    have hinstr : (if op.isSigned then Instr.idiv else Instr.div) = Instr.div := if_neg hsigned
    refine hinstr ▸ hdivide m₁ hsame ?_
    rw [hrdx, hsame.reg (by decide)]
    simp only [DivOp.read, if_neg hsigned] at hx ⊢
    rw [← hx]
    exact congrArg _ (toNat_zero_append _)

/-! ### Operands -/

/-- A narrow constant is put into a register without its sign. -/
theorem loadUnsignedImm_achieves (hw : w.isNarrow = true) (v : Int64) :
    Achieves [.mov (.reg r .dword) (.imm (w.zeroExtend v))] m fun m' =>
      m'.reg r w.widen = (v.toBitVec.setWidth w.bits).setWidth _ ∧ m.SameBut [r] m' := by
  have hencodable : Instr.Encodable (.mov (.reg r .dword) (.imm (w.zeroExtend v))) :=
    Instr.encodable_mov_imm fun _ => Width.holds_zeroExtend hw v
  have hcut := BitVec.setWidth_setWidth_of_le (v.toBitVec.setWidth w.bits) w.widen.bits_le
  rw [← Width.toBitVec_zeroExtend] at hcut
  rw [← hcut]
  cases w with
  | byte | word => exact .setReg hencodable rfl (.inl rfl)
  | dword | qword => cases hw

/-- A narrow value is loaded without its sign. -/
theorem movzx_achieves {src : X86.Operand} (hw : w.isNarrow = true) (hsrc : src.IsValue w) :
    Achieves [.movzx (.reg r .dword) src] m fun m' =>
      m'.reg r w.widen = (m.read w src).setWidth _ ∧ m.SameBut [r] m' := by
  have hwidth : src.width? = some w := by
    rcases hsrc with ⟨r', rfl⟩ | ⟨base, disp, rfl⟩ <;> rfl
  cases w with
  | byte | word =>
      refine .setReg (Instr.encodable_extend hsrc hw).2 ?_ (.inl rfl)
      rw [Instr.effect?, hwidth]
      rfl
  | dword | qword => cases hw

/-- An operand is loaded as an unsigned number. -/
theorem loadUnsigned_achieves {x : Operand} (opcode : Opcode) (r : Reg) (w : Width)
    (hv : s.frame.value? m x = some a) :
    ∃ code, s.loadUnsigned opcode r x w = .ok code ∧ ∀ m', s.frame.value? m' x = some a →
      Achieves code m' fun m'' =>
        m''.reg r w.widen = (a.setWidth w.bits).setWidth _ ∧ m'.SameBut [r] m'' := by
  by_cases hw : w.isNarrow = true
  · obtain ⟨v, rfl, rfl⟩ | ⟨loc, hloc, rfl⟩ := X86.Frame.value?_eq_some hv
    · exact ⟨_, if_pos hw, fun m' _ => loadUnsignedImm_achieves hw v⟩
    · refine ⟨[.movzx (.reg r .dword) (loc.operand w)], ?_, fun m' hv' => ?_⟩
      · have hlocation := location_of_locate? hloc opcode
        obtain ⟨index, rfl, -⟩ | ⟨index, rfl, -⟩ | ⟨index, home, rfl, -⟩ :=
          X86.Frame.locate?_eq_some hloc <;>
        · refine (if_pos hw).trans ?_
          exact bind_eq_ok_iff.mpr ⟨loc, hlocation, rfl⟩
      · obtain ⟨hvalue, -⟩ := X86.Frame.value?_of_locate? (m := m') hloc
        rw [Option.some.inj (hv'.symm.trans hvalue), ← X86.Machine.read_operand hloc w]
        exact movzx_achieves hw (loc.isValue w)
  · obtain ⟨code, hcode, hrun⟩ := loadInto_achieves opcode r w hv
    refine ⟨code, (if_neg hw).trans hcode, fun m' hv' => (hrun m' hv').mono ?_⟩
    rintro m'' ⟨hreg, hsame⟩
    rw [Bool.not_eq_true] at hw
    refine ⟨hreg.trans ?_, hsame⟩
    rw [(Operand.isTyped_of_wide hw).extended_eq hv, Width.signExtend_setWidth hw]
    cases w with
    | byte | word => cases hw
    | dword | qword => exact (BitVec.setWidth_eq _).symm

/-- An operand is loaded as the number that the operation reads. -/
theorem loadNumber_achieves {x : Operand} (op : DivOp) (opcode : Opcode) (r : Reg) (w : Width)
    (hv : s.frame.value? m x = some a) (htyped : op.isSigned = true → x.IsTyped w) :
    ∃ code, (if op.isSigned then s.loadInto opcode else s.loadUnsigned opcode) r x w = .ok code ∧
      ∀ m', s.frame.value? m' x = some a → Achieves code m' fun m'' =>
        op.read (m''.reg r w.widen) = op.read (a.setWidth w.bits) ∧ m'.SameBut [r] m'' := by
  by_cases hsigned : op.isSigned = true
  · obtain ⟨code, hcode, hrun⟩ := loadInto_achieves opcode r w hv
    refine ⟨code, by rw [if_pos hsigned, hcode], fun m' hv' => (hrun m' hv').mono ?_⟩
    rintro m'' ⟨hreg, hsame⟩
    refine ⟨?_, hsame⟩
    simp only [DivOp.read, if_pos hsigned]
    rw [hreg, (htyped hsigned).toInt_extended hv]
  · obtain ⟨code, hcode, hrun⟩ := loadUnsigned_achieves opcode r w hv
    refine ⟨code, by rw [if_neg hsigned, hcode], fun m' hv' => (hrun m' hv').mono ?_⟩
    rintro m'' ⟨hreg, hsame⟩
    refine ⟨?_, hsame⟩
    simp only [DivOp.read, if_neg hsigned]
    rw [hreg, BitVec.toNat_setWidth_of_le w.bits_le_widen]

/-! ### The code of a division -/

/-- The result of the operation gets into `r11`. -/
theorem quotient_achieves {result : Reg} (op : DivOp) (opcode : Opcode) (w : Width)
    (ha : s.frame.value? m left = some a) (hb : s.frame.value? m right = some b)
    (htyped : op.isSigned = true → left.IsTyped w ∧ right.IsTyped w)
    (hdefined : op.Defined w (a.setWidth _) (b.setWidth _))
    (hresult : result = if op.isQuotient then .rax else .rdx) :
    ∃ loadRight loadLeft,
      (if op.isSigned then s.loadInto opcode else s.loadUnsigned opcode) scratch right w =
        .ok loadRight ∧
      (if op.isSigned then s.loadInto opcode else s.loadUnsigned opcode) .rax left w =
        .ok loadLeft ∧
      ∀ m', s.frame.value? m' left = some a → s.frame.value? m' right = some b →
        Achieves (loadRight ++ loadLeft ++ divideCode op.isSigned w
          ++ [.mov (.reg scratch w.widen) (.reg result w.widen)]) m' fun m'' =>
          (m''.reg scratch w.widen).setWidth w.bits = op.eval (a.setWidth _) (b.setWidth _) ∧
            m'.SameBut [scratch, .rax, .rdx] m'' := by
  obtain ⟨loadRight, hloadRight, hrunRight⟩ :=
    loadNumber_achieves op opcode scratch w hb fun h => (htyped h).2
  obtain ⟨loadLeft, hloadLeft, hrunLeft⟩ :=
    loadNumber_achieves op opcode .rax w ha fun h => (htyped h).1
  refine ⟨loadRight, loadLeft, hloadRight, hloadLeft, fun m' ha' hb' => ?_⟩
  rw [List.append_assoc, List.append_assoc]
  refine (hrunRight m' hb').append fun m₁ hm₁ => ?_
  obtain ⟨hdivisor, hsame₁⟩ := hm₁
  have ha₁ := X86.Frame.value?_of_sameBut hsame₁ (by decide) ha'
  refine (hrunLeft m₁ ha₁).append fun m₂ hm₂ => ?_
  obtain ⟨hdividend, hsame₂⟩ := hm₂
  -- the dividend is not loaded over the divisor
  rw [← hsame₂.reg (by decide)] at hdivisor
  refine (divideCode_achieves w hdividend hdivisor (DivOp.read_ne_zero hdefined.1)
    hdefined.fits).append fun m₃ hm₃ => ?_
  obtain ⟨hquotient, hsame₃⟩ := hm₃
  refine (Achieves.setReg (Instr.encodable_mov_reg (X86.Operand.isValue_reg _ _)) rfl
    (.inl rfl)).mono fun m₄ hm₄ => ?_
  obtain ⟨hmoved, hsame₄⟩ := hm₄
  refine ⟨?_, ?_⟩
  · rw [hmoved]
    change (m₃.reg result w.widen).setWidth w.bits = _
    rw [hresult, hquotient, DivOp.setWidth_ofInt w.bits_le_widen]
    rfl
  · refine (hsame₁.mono (by decide)).trans ((hsame₂.mono (by decide)).trans ?_)
    exact (hsame₃.mono (by decide)).trans (hsame₄.mono (by decide))

/-- Code that uses `rax` between a push and a pop. The register is as it was afterwards, and so is
the stack pointer. -/
theorem keepingRax_achieves {inner : Code} {P : BitVec 64 → Prop}
    (hinner : Achieves inner (m.push (m.regs .rax)) fun m' =>
      P (m'.regs scratch) ∧ (m.push (m.regs .rax)).SameBut [scratch, .rax, .rdx] m') :
    Achieves ([.push (.qword .rax)] ++ inner ++ [.pop (.qword .rax)]) m fun m' =>
      P (m'.regs scratch) ∧ m.SameAbove 8 [scratch, .rdx] m' := by
  have hpush : m.SameAbove 8 [.rsp, scratch, .rax, .rdx] (m.push (m.regs .rax)) :=
    (m.sameAbove_push (m.regs .rax)).mono (Nat.le_refl 8) (by decide)
  rw [List.append_assoc]
  refine (Achieves.push m .rax).append fun m₁ hm₁ => ?_
  subst hm₁
  refine hinner.append fun m₂ hm₂ => (Achieves.pop m₂ (r := .rax) nofun).mono fun m₃ hm₃ => ?_
  obtain ⟨hscratch, hsame₂⟩ := hm₂
  obtain ⟨hrax, hrsp, hsame₃⟩ := hm₃
  have hrsp₂ : m₂.regs .rsp = m.regs .rsp - 8 :=
    (hsame₂.regs .rsp (by decide)).trans (X86.Machine.rsp_push _)
  have hsame : m.SameAbove 8 [.rsp, scratch, .rax, .rdx] m₃ :=
    (hpush.trans (hsame₂.mono (by decide))).trans (hsame₃.mono (by decide))
  refine ⟨by rwa [hsame₃.regs scratch (by decide)], fun r hr => ?_, hsame.mem, hsame.symbols⟩
  by_cases hr' : r ∈ [Reg.rsp, scratch, .rax, .rdx]
  · have hcases : r = .rsp ∨ r = .rax := by
      simp only [List.mem_cons, List.not_mem_nil, or_false] at hr hr'
      tauto
    rcases hcases with rfl | rfl
    · rw [hrsp, hrsp₂, BitVec.sub_add_cancel]
    · rw [hrax, hsame₂.mem, hrsp₂, X86.Machine.load_push]
  · exact hsame.regs r hr'

/-- The code of a division around the instructions that divide. -/
theorem division_eq {loadRight loadLeft store : Code} (hw : i.dataType.width? = some w)
    (hleft : i.src1 = some left) (hright : i.src2 = some right) (hdest : i.dest = some dest)
    (hloc : s.frame.locate? dest = some loc)
    (hloadRight : (if op.isSigned then s.loadInto i.opcode else s.loadUnsigned i.opcode)
      scratch right w = .ok loadRight)
    (hloadLeft : (if op.isSigned then s.loadInto i.opcode else s.loadUnsigned i.opcode)
      .rax left w = .ok loadLeft)
    (hstore : s.storeResult i.opcode (some dest) scratch w = .ok store) :
    s.division op i = .ok (
      (if loc = .reg .rax then [] else [.push (.qword .rax)])
      ++ (loadRight ++ loadLeft ++ divideCode op.isSigned w
        ++ [.mov (.reg scratch w.widen) (.reg (if op.isQuotient then .rax else .rdx) w.widen)])
      ++ (if loc = .reg .rax then [] else [.pop (.qword .rax)])
      ++ (normalize scratch w ++ store)) := by
  refine bind_eq_ok_iff.mpr ⟨w, intWidth_of_width? hw, ?_⟩
  refine bind_eq_ok_iff.mpr ⟨left, congrArg _ hleft, ?_⟩
  refine bind_eq_ok_iff.mpr ⟨right, congrArg _ hright, ?_⟩
  refine bind_eq_ok_iff.mpr ⟨dest, congrArg _ hdest, ?_⟩
  refine bind_eq_ok_iff.mpr ⟨loc, location_of_locate? hloc _, ?_⟩
  refine bind_eq_ok_iff.mpr ⟨loadRight, hloadRight, ?_⟩
  refine bind_eq_ok_iff.mpr ⟨loadLeft, hloadLeft, ?_⟩
  rw [hdest]
  refine bind_eq_ok_iff.mpr ⟨store, hstore, pure_eq_ok_iff.mpr ?_⟩
  by_cases hrax : loc = .reg .rax
  · simp [hrax]
  · simp [hrax]

/-- The code of a division gives its destination the result. -/
theorem division_achieves (hw : i.dataType.width? = some w) (hframe : s.frame.IsEntered m)
    (hleft : i.src1 = some left) (ha : s.frame.value? m left = some a)
    (hright : i.src2 = some right) (hb : s.frame.value? m right = some b)
    (htyped : op.isSigned = true → left.IsTyped w ∧ right.IsTyped w)
    (hdefined : op.Defined w (a.setWidth _) (b.setWidth _))
    (hdest : i.dest = some dest) (hloc : s.frame.locate? dest = some loc) :
    ∃ code, s.division op i = .ok code ∧ Achieves code m (s.frame.Gives 8 [.r11, .rdx] dest loc w
      (op.eval (a.setWidth _) (b.setWidth _)) m) := by
  obtain ⟨loadRight, loadLeft, hloadRight, hloadLeft, hquotient⟩ :=
    quotient_achieves op i.opcode w ha hb htyped hdefined rfl
  obtain ⟨store, hstore, hfinish⟩ := finish_achieves (s := s) i.opcode w hloc
  have hclear : s.frame.IsClear 8 m := by
    have hsize := s.frame.size_le
    rw [maxFrameSize] at hsize
    exact hframe.isClear (by omega)
  refine ⟨_, division_eq hw hleft hright hdest hloc hloadRight hloadLeft hstore, ?_⟩
  by_cases hrax : loc = .reg .rax
  · -- `rax` is the destination and is not kept
    rw [if_pos hrax, if_pos hrax, List.nil_append, List.append_nil]
    refine (hquotient m ha hb).append fun m₁ hm₁ => ?_
    obtain ⟨hresult, hsame⟩ := hm₁
    refine hfinish hsame.sameAbove hclear (by decide) ?_ (by decide) hresult
    simp [hrax, scratch]
  · rw [if_neg hrax, if_neg hrax]
    have hpush := m.sameAbove_push (m.regs .rax)
    have ha₁ := X86.Frame.value?_of_sameAbove hpush hclear (by decide) ha
    have hb₁ := X86.Frame.value?_of_sameAbove hpush hclear (by decide) hb
    refine (keepingRax_achieves (P := fun x => (x.setWidth w.widen.bits).setWidth w.bits =
      op.eval (a.setWidth _) (b.setWidth _)) (hquotient _ ha₁ hb₁)).append fun m₁ hm₁ => ?_
    obtain ⟨hresult, hsame⟩ := hm₁
    exact hfinish hsame hclear (by decide) (fun r hr => .inl hr) (by decide) hresult

/-- **Divisions.** Every division on integers or pointers, with constants, registers or arguments as
its operands and a register or an argument as its destination, has code, whose constants are typed
if the operation is signed. In the body of a function, where the stack pointer is at the end of the
frame, and if the operation is defined on the values of the operands at the width of the type, the
code leaves in the low bits of the destination, 32 or more, the sign extension of the quotient or
the remainder. This holds wherever the operands and the destination are kept, also where they are
the same or in `rax`. All other operands, the stack and the frame pointer, and the memory outside
the destination are as they were, except for the eight bytes below the stack pointer; beside them
only `r11`, `rdx` and the flags may have changed. -/
theorem division_gives (isLast : Bool) (hop : i.opcode = .divide op)
    (hw : i.dataType.width? = some w) (hframe : s.frame.IsEntered m)
    (hleft : i.src1 = some left) (ha : s.frame.value? m left = some a)
    (hright : i.src2 = some right) (hb : s.frame.value? m right = some b)
    (htyped : op.isSigned = true → left.IsTyped w ∧ right.IsTyped w)
    (hdefined : op.Defined w (a.setWidth _) (b.setWidth _))
    (hdest : i.dest = some dest) (hloc : s.frame.locate? dest = some loc) :
    ∃ code, s.select i isLast = .ok code ∧ Achieves code m (s.frame.Gives 8 [.r11, .rdx] dest loc w
      (op.eval (a.setWidth _) (b.setWidth _)) m) := by
  rw [select_eq_selectRaw, selectRaw, hop]
  exact division_achieves hw hframe hleft ha hright hb htyped hdefined hdest hloc

end Scope

/-- In the body of a function with the frame `twoSpilled`: the low byte of `rax` is -1. -/
def runningMachine : X86.Machine where
  regs := fun r => if r = .rax then 0x12ff else if r = .rsp then 0xfc0 else 0x1000
  mem := fun _ => 0
  flags := none
  symbols := fun _ => 0

/-- Divide the least byte by the first general register, into one that is in the frame. -/
def divideLeast : Instruction where
  opcode := .divide .sdiv
  dataType := .i8
  dest := some (.general 5)
  src1 := some (.imm (-128))
  src2 := some (.general 0)

/-- At 8 bits the quotient, 128, is not out of range, and the divisor is read before `rax` is used
for the dividend. -/
theorem divideLeast_gives :
    twoSpilled.frame.IsEntered runningMachine ∧
    twoSpilled.frame.locate? (.general 5) = some (.slot 56) ∧
    twoSpilled.frame.value? runningMachine (.general 0) = some 0x12ff ∧
    DivOp.sdiv.Defined .byte 0x80 0xff ∧
    ∃ code, twoSpilled.select divideLeast false = .ok code ∧
      Achieves code runningMachine (twoSpilled.frame.Gives 8 [.r11, .rdx] (.general 5) (.slot 56)
        .byte 0x80 runningMachine) := by
  have hframe : twoSpilled.frame.IsEntered runningMachine := by decide +kernel
  have hloc : twoSpilled.frame.locate? (.general 5) = some (.slot 56) := by decide +kernel
  have hrax : twoSpilled.frame.value? runningMachine (.general 0) = some 0x12ff := by decide +kernel
  have htyped : (Operand.imm (-128)).IsTyped .byte ∧ (Operand.general 0).IsTyped .byte := by
    refine ⟨?_, nofun⟩
    rintro v ⟨⟩
    decide
  have hdefined : DivOp.sdiv.Defined .byte 0x80 0xff := ⟨by decide, nofun⟩
  exact ⟨hframe, hloc, hrax, hdefined, Scope.division_gives false rfl rfl hframe rfl rfl rfl hrax
    (fun _ => htyped) hdefined rfl hloc⟩

end RegIR
