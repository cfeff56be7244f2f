import Mathlib.Algebra.Ring.Int.Defs
import RegIR.Proofs.Build.Command

/-!
# Folding quotients

A signed quotient of two constants is folded on 64 bits, whatever the type of the operation, unless
it is undefined or out of range there. Unlike for sums and products, the low bits of a quotient
depend on all bits of the operands. At a narrower type the fold is therefore right for constants in
the range of the type only, and not for the least of them divided by `-1`: this quotient is out of
range at the type, but not on 64 bits.

A quotient that is not folded is left to the machine: the division is added to the selected block.

## Main definitions

* `IsQuotientAt`: the quotient of two constants on words of so many bits.
* `Builder.Defines`: an instruction is added for its value.

## Main results

* `quotient?_eq_some_iff`: which quotients are folded, and to what.
* `isQuotientAt_iff`: when a quotient on 64 bits is right on fewer.
* `Build.sdiv_folds_or_emits`: what building a signed quotient of constants does.
* `wideQuotients_folded`: quotients that are folded and not right.
-/

namespace RegIR

/-! ### Quotients at a width -/

/-- The number that a constant stands for at a type of `n` bits: its low bits, with their sign. -/
def signedAt (n : Nat) (v : Int64) : Int :=
  (BitVec.ofInt n v.toInt).toInt

/-- `IsQuotientAt n a c q`: at a type of `n` bits the quotient of the constants `a` and `c` is
defined and in range, and it is `q`. -/
structure IsQuotientAt (n : Nat) (a c q : Int64) : Prop where
  divisor_ne_zero : signedAt n c ≠ 0
  in_range : ¬ (signedAt n a = -2 ^ (n - 1) ∧ signedAt n c = -1)
  value : q.toInt % 2 ^ n = (signedAt n a).tdiv (signedAt n c) % 2 ^ n

/-- Is a constant in the range of a type of `n` bits? -/
def InRangeAt (n : Nat) (v : Int64) : Prop :=
  -2 ^ (n - 1) ≤ v.toInt ∧ v.toInt < 2 ^ (n - 1)

instance (n : Nat) (v : Int64) : Decidable (InRangeAt n v) :=
  inferInstanceAs (Decidable (_ ∧ _))

/-- A constant in range stands for itself. -/
theorem InRangeAt.signedAt_eq {n : Nat} {v : Int64} (h : InRangeAt n v) (hn : 0 < n) :
    signedAt n v = v.toInt :=
  BitVec.toInt_ofInt_eq_self hn h.1 h.2

/-- The integer quotient is right on words of `n` bits, for constants in range, unless it is the one
that is out of range. -/
theorem isQuotientAt_iff {n : Nat} {a c q : Int64} (hn : 0 < n) (ha : InRangeAt n a)
    (hc : InRangeAt n c) (hzero : c ≠ 0) (hq : q.toInt = a.toInt.tdiv c.toInt) :
    IsQuotientAt n a c q ↔ ¬ (a.toInt = -2 ^ (n - 1) ∧ c.toInt = -1) := by
  have ha' := ha.signedAt_eq hn
  have hc' := hc.signedAt_eq hn
  constructor
  · rintro ⟨-, hrange, -⟩
    rwa [ha', hc'] at hrange
  · intro hrange
    refine ⟨?_, ?_, ?_⟩
    · rwa [hc', Ne, ← Int64.toInt_zero, Int64.toInt_inj]
    · rwa [ha', hc']
    · rw [ha', hc', hq]

/-! ### Quotients that are folded -/

/-- A quotient is folded unless the divisor is zero or the quotient is the one that does not fit 64
bits. It is folded to the integer quotient, towards zero. -/
theorem quotient?_eq_some_iff {a c q : Int64} :
    quotient? a c = some q ↔
      c ≠ 0 ∧ ¬ (a = Int64.minValue ∧ c = -1) ∧ q.toInt = a.toInt.tdiv c.toInt := by
  unfold quotient?
  split
  next hundefined =>
    constructor
    · intro h
      cases h
    · rintro ⟨hzero, hrange, -⟩
      exact absurd hundefined (not_or.mpr ⟨hzero, hrange⟩)
  next hdefined =>
    obtain ⟨hzero, hrange⟩ := not_or.mp hdefined
    have hvalue : (a / c).toInt = a.toInt.tdiv c.toInt := by
      rcases Decidable.not_and_iff_not_or_not.mp hrange with ha | hc
      · exact Int64.toInt_div_of_ne_left a c ha
      · exact Int64.toInt_div_of_ne_right a c hc
    rw [Option.some.injEq, ← Int64.toInt_inj, hvalue]
    constructor
    · intro h
      exact ⟨hzero, hrange, h.symm⟩
    · rintro ⟨-, -, h⟩
      exact h.symm

/-! ### Instructions that are added for their value -/

/-- `b.Defines i op b'`: the instruction `i` is added at the end of the selected block, and nothing
else. Its value is in the next register, `op`. -/
structure Builder.Defines (b : Builder) (i : Instruction) (op : Operand) (b' : Builder) : Prop where
  dest : op = .reg (.num b.nextReg)
  added : ∃ (p : Nat) (f g : Func) (id next : UInt32), b.At p f ∧ b.insertPoint = some id ∧
    f.Appends id { i with dest := some op } g ∧ next.toNat = b.nextReg.toNat + 1 ∧
    b' = { b.put p g with nextReg := next }

namespace Build

variable {b b' : Builder} {i : Instruction} {op : Operand}

/-- What adding an instruction for its value does. -/
theorem defines_of_define (h : (define i).run b = .ok (op, b')) : b.Defines i op b' := by
  obtain ⟨rfl, hadded⟩ := define_eq_ok h
  exact ⟨rfl, hadded⟩

/-- The function that is being built is found. -/
theorem currentFunction_run {p : Nat} {f : Func} (h : b.At p f) :
    currentFunction.run b = .ok ((p, f), b) := by
  refine bind_eq_ok.mpr ⟨b, b, rfl, ?_⟩
  simp only [h.current, h.function]
  rfl

/-- An instruction is added if the selected block is there. -/
theorem append_run {p : Nat} {f g : Func} {id : UInt32} (hat : b.At p f)
    (hid : b.insertPoint = some id) (hg : f.appendTo? id i = some g) :
    (append i).run b = .ok ((), b.put p g) := by
  refine bind_eq_ok.mpr ⟨b, b, rfl, bind_eq_ok.mpr ⟨(p, f), b, currentFunction_run hat, ?_⟩⟩
  simp only [hid, hg]
  rfl

/-- An instruction can be added for its value if a block is selected and a register is left. -/
theorem exists_define (i : Instruction) (hblock : b.block?.isSome = true)
    (hreg : b.nextReg.toNat + 1 < UInt32.size) :
    ∃ op b', (define i).run b = .ok (op, b') := by
  obtain ⟨block, hblock⟩ := Option.isSome_iff_exists.mp hblock
  obtain ⟨f, hf, hblock⟩ := Option.bind_eq_some_iff.mp hblock
  obtain ⟨id, hid, hblock⟩ := Option.bind_eq_some_iff.mp hblock
  obtain ⟨p, hcurrent, hfunction⟩ := Option.bind_eq_some_iff.mp hf
  have hnext : successor32 b.nextReg = .ok (UInt32.ofNat (b.nextReg.toNat + 1)) :=
    successor32_eq_ok_iff.mpr (UInt32.toNat_ofNat_of_lt' hreg)
  obtain ⟨g, hg⟩ : ∃ g, f.appendTo? id { i with dest := some (.reg (.num b.nextReg)) } = some g :=
    ⟨_, if_pos (Option.isSome_of_eq_some hblock)⟩
  -- The register is numbered first; that leaves the function and the block selected.
  have hfresh : freshReg.run b = .ok (.reg (.num b.nextReg),
      { b with nextReg := UInt32.ofNat (b.nextReg.toNat + 1) }) := by
    refine bind_eq_ok.mpr ⟨b, b, rfl, bind_eq_ok.mpr ⟨_, b, ?_, rfl⟩⟩
    rw [hnext]
    rfl
  have happend := append_run (b := { b with nextReg := UInt32.ofNat (b.nextReg.toNat + 1) })
    ⟨hcurrent, hfunction⟩ hid hg
  exact ⟨_, _, bind_eq_ok.mpr ⟨_, _, hfresh, bind_eq_ok.mpr ⟨(), _, happend, rfl⟩⟩⟩

/-! ### Building a quotient -/

/-- An integer type has bits. -/
theorem size_pos_of_isInteger {type : Ty} (h : type.isInteger = true) : 0 < 8 * type.size := by
  cases type with
  | i8 | i16 | i32 | i64 => decide
  | void | f32 | f64 | pointer _ | struct _ _ => cases h

/-- A quotient that is folded. -/
theorem sdiv_run {type : Ty} {a c q : Int64} (b : Builder) (hq : quotient? a c = some q) :
    (divide .sdiv type (.imm a) (.imm c)).run b = .ok (.imm q, b) := by
  rw [divide, binary]
  simp only [Operand.imm?, Option.bind_eq_bind, Option.bind_some, Opcode.fold?, hq]
  rfl

/-- A quotient that is not folded. -/
theorem sdiv_eq_define {a c : Int64} (type : Ty) (hq : quotient? a c = none) :
    divide .sdiv type (.imm a) (.imm c) =
      define { opcode := .divide .sdiv, dataType := type, src1 := some (.imm a),
               src2 := some (.imm c) } := by
  rw [divide, binary]
  simp only [Operand.imm?, Option.bind_eq_bind, Option.bind_some, Opcode.fold?, hq]

/-- **Quotients of constants.** At an integer type, a signed quotient of two constants is folded
unless the divisor is zero or the quotient does not fit 64 bits. It is folded to the integer
quotient; the builder is left as it is. If the constants are in the range of the type, this is the
quotient at the width of the type except for the least number divided by `-1`.

A quotient that is not folded is added as one division of the two constants, whenever a block is
selected and a register is left. -/
theorem sdiv_folds_or_emits {type : Ty} (htype : type.isInteger = true) (a c : Int64)
    (b : Builder) :
    (c ≠ 0 ∧ ¬ (a = Int64.minValue ∧ c = -1) →
      ∃ q : Int64, (divide .sdiv type (.imm a) (.imm c)).run b = .ok (.imm q, b) ∧
        q.toInt = a.toInt.tdiv c.toInt ∧
        (InRangeAt (8 * type.size) a → InRangeAt (8 * type.size) c →
          (IsQuotientAt (8 * type.size) a c q ↔
            ¬ (a.toInt = -2 ^ (8 * type.size - 1) ∧ c.toInt = -1)))) ∧
    (c = 0 ∨ a = Int64.minValue ∧ c = -1 →
      (∀ op b', (divide .sdiv type (.imm a) (.imm c)).run b = .ok (op, b') →
        b.Defines { opcode := .divide .sdiv, dataType := type, src1 := some (.imm a),
                    src2 := some (.imm c) } op b') ∧
      (b.block?.isSome = true → b.nextReg.toNat + 1 < UInt32.size →
        ∃ op b', (divide .sdiv type (.imm a) (.imm c)).run b = .ok (op, b'))) := by
  constructor
  · rintro ⟨hzero, hrange⟩
    have hq : quotient? a c = some (a / c) := if_neg (not_or.mpr ⟨hzero, hrange⟩)
    obtain ⟨-, -, hvalue⟩ := quotient?_eq_some_iff.mp hq
    refine ⟨a / c, sdiv_run b hq, hvalue, fun ha hc => ?_⟩
    exact isQuotientAt_iff (size_pos_of_isInteger htype) ha hc hzero hvalue
  · intro hundefined
    have hq : quotient? a c = none := if_pos hundefined
    rw [sdiv_eq_define type hq]
    exact ⟨fun op b' => defines_of_define, exists_define _⟩

/-- The least byte divided by `3`: the quotient is cut towards zero, and it is right at 8 bits. -/
theorem leastByte_folds :
    Ty.i8.isInteger = true ∧ InRangeAt 8 (-128) ∧ InRangeAt 8 3 ∧
      ∃ q : Int64,
        (divide .sdiv .i8 (.imm (-128)) (.imm 3)).run (.new "m") = .ok (.imm q, .new "m") ∧
        q.toInt = -42 ∧ IsQuotientAt 8 (-128) 3 q := by
  have hleft : InRangeAt 8 (-128) := by decide
  have hright : InRangeAt 8 3 := by decide
  obtain ⟨q, hrun, hvalue, hiff⟩ :=
    (@sdiv_folds_or_emits .i8 rfl (-128) 3 (.new "m")).1 (by decide)
  exact ⟨rfl, hleft, hright, q, hrun, hvalue, (hiff hleft hright).mpr (by decide)⟩

/-- Quotients that are folded and not right. The least word divided by `-1` traps in the machine. At
8 bits, `200` is `-56`, so that half of it is `-28`, and `256` is zero. -/
theorem wideQuotients_folded :
    ((divide .sdiv .i32 (.imm (-0x80000000)) (.imm (-1))).run (.new "m") =
        .ok (.imm 0x80000000, .new "m") ∧
      ¬ IsQuotientAt 32 (-0x80000000) (-1) 0x80000000) ∧
    ((divide .sdiv .i8 (.imm 200) (.imm 2)).run (.new "m") = .ok (.imm 100, .new "m") ∧
      ¬ IsQuotientAt 8 200 2 100) ∧
    ((divide .sdiv .i8 (.imm 1) (.imm 256)).run (.new "m") = .ok (.imm 0, .new "m") ∧
      ¬ IsQuotientAt 8 1 256 0) := by
  refine ⟨⟨sdiv_run _ (by decide), ?_⟩, ⟨sdiv_run _ (by decide), ?_⟩, sdiv_run _ (by decide), ?_⟩
  · exact fun h => h.in_range (by decide)
  · exact fun h => absurd h.value (by decide)
  · exact fun h => h.divisor_ne_zero (by decide)

end Build

end RegIR
