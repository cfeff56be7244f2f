import Mathlib.Tactic.Positivity
import RegIR.Proofs.Build.Command
import RegIR.Proofs.Select.Computes

/-!
# Folding whole expressions

Constants are 64 bits wide whatever the type of an operation, so what is folded on the way to a
result may be out of range for its type. That does no harm: sums, products, negatives and bitwise
operations of more bits end in the result on fewer bits, and therefore so does every expression
made of them, however deep.

Quotients and remainders are not among these operations, since their low bits depend on all bits
of the operands, and unsigned products are never folded.

## Main definitions

* `ConstExpr`: an expression of constants.
* `ConstExpr.build`: how it is built.
* `ConstExpr.eval`: what it is worth on words of any width.

## Main results

* `ConstExpr.build_eq`: building gives the value on 64 bits and does nothing else.
* `ConstExpr.setWidth_eval`: the low bits of a value are the value on fewer bits.
* `ConstExpr.folds_at_width`: what is built, at the width of a type.
-/

namespace RegIR

/-- An expression of constants, with the operations that wrap around and are folded. -/
inductive ConstExpr where
  | const (value : Int64)
  | arith (op : ArithOp) (hop : op ≠ .umul) (left right : ConstExpr)
  | unary (op : UnaryOp) (operand : ConstExpr)

namespace ConstExpr

/-- Build an expression at a type, operands first. -/
def build (type : Ty) : ConstExpr → Build Operand
  | const value => return .imm value
  | arith op _ left right => do
      let l ← left.build type
      let r ← right.build type
      Build.arith op type l r
  | unary op operand => do
      let a ← operand.build type
      Build.unary op type a

/-- The value of an expression on words of `n` bits: each constant is cut to `n` bits, and every
operation wraps around there. -/
def eval (n : Nat) : ConstExpr → BitVec n
  | const value => BitVec.ofInt n value.toInt
  | arith op _ left right => op.eval (left.eval n) (right.eval n)
  | unary op operand => op.eval (operand.eval n)

end ConstExpr

/-! ### One operation -/

/-- An operation that is folded is done on 64 bits. -/
theorem Opcode.fold?_arith {op : ArithOp} (hop : op ≠ .umul) (a b : Int64) :
    (Opcode.arith op).fold? a b = some (Int64.ofBitVec (op.eval a.toBitVec b.toBitVec)) := by
  cases op with
  | umul => exact absurd rfl hop
  | add | sub | smul | and | or | xor => rfl

/-- So is an operation on one constant. -/
theorem UnaryOp.fold_eq (op : UnaryOp) (a : Int64) :
    op.fold a = Int64.ofBitVec (op.eval a.toBitVec) := by
  cases op <;> rfl

/-- An operation on two constants leaves the builder as it is. -/
theorem Build.arith_imm_run {op : ArithOp} (hop : op ≠ .umul) (type : Ty) (a c : Int64)
    (b : Builder) :
    (Build.arith op type (.imm a) (.imm c)).run b =
      .ok (.imm (Int64.ofBitVec (op.eval a.toBitVec c.toBitVec)), b) := by
  rw [arith, binary]
  simp only [Operand.imm?, Option.bind_eq_bind, Option.bind_some, Opcode.fold?_arith hop]
  rfl

/-- So does an operation on one constant. -/
theorem Build.unary_imm_run (op : UnaryOp) (type : Ty) (a : Int64) (b : Builder) :
    (Build.unary op type (.imm a)).run b =
      .ok (.imm (Int64.ofBitVec (op.eval a.toBitVec)), b) := by
  rw [unary, UnaryOp.fold_eq]
  rfl

/-- A constant on fewer bits is its low bits. -/
theorem ofInt_toInt_eq_setWidth {k : Nat} (v : Int64) (hk : k ≤ 64) :
    BitVec.ofInt k v.toInt = v.toBitVec.setWidth k :=
  BitVec.signExtend_eq_setWidth_of_le v.toBitVec hk

/-! ### Expressions -/

namespace ConstExpr

variable {type : Ty}

/-- **Building** an expression gives its value on 64 bits, and leaves the builder as it is. -/
theorem build_eq (type : Ty) (b : Builder) (e : ConstExpr) :
    (e.build type).run b = .ok (.imm (Int64.ofBitVec (e.eval 64)), b) := by
  induction e with
  | const value =>
      have hvalue : BitVec.ofInt 64 value.toInt = value.toBitVec :=
        (ofInt_toInt_eq_setWidth value (Nat.le_refl 64)).trans (BitVec.setWidth_eq _)
      rw [eval, hvalue]
      rfl
  | arith op hop left right ihl ihr =>
      refine Build.bind_eq_ok.mpr ⟨_, b, ihl, Build.bind_eq_ok.mpr ⟨_, b, ihr, ?_⟩⟩
      exact Build.arith_imm_run hop type _ _ b
  | unary op operand ih =>
      exact Build.bind_eq_ok.mpr ⟨_, b, ih, Build.unary_imm_run op type _ b⟩

/-- **Cutting.** The low bits of a value are the value on fewer bits. -/
theorem setWidth_eval {k n : Nat} (e : ConstExpr) (hkn : k ≤ n) (hn : n ≤ 64) :
    (e.eval n).setWidth k = e.eval k := by
  induction e with
  | const value =>
      have hk := hkn.trans hn
      rw [eval, eval, ofInt_toInt_eq_setWidth value hn, ofInt_toInt_eq_setWidth value hk]
      exact BitVec.setWidth_setWidth_of_le _ hkn
  | arith op hop left right ihl ihr => rw [eval, eval, op.setWidth_eval _ _ hkn, ihl, ihr]
  | unary op operand ih => rw [eval, eval, op.setWidth_eval _ hkn, ih]

/-- An integer type has at most 64 bits. -/
theorem bits_le_of_isInteger (h : type.isInteger = true) : 8 * type.size ≤ 64 := by
  cases type with
  | i8 | i16 | i32 | i64 => decide
  | void | f32 | f64 | pointer _ | struct _ _ => cases h

/-- **Folding is right at every width.** Building an expression of constants at an integer type
gives one constant. No instruction is added and no register is used. At the width of the type the
constant is the value of the expression, computed there from the start. -/
theorem folds_at_width (h : type.isInteger = true) (e : ConstExpr) (b : Builder) :
    ∃ v : Int64, (e.build type).run b = .ok (.imm v, b) ∧
      v.toInt % 2 ^ (8 * type.size) = ((e.eval (8 * type.size)).toNat : Int) := by
  have hbits := bits_le_of_isInteger h
  refine ⟨_, build_eq type b e, ?_⟩
  rw [← setWidth_eval e hbits (Nat.le_refl 64)]
  have hcut := ofInt_toInt_eq_setWidth (Int64.ofBitVec (e.eval 64)) hbits
  rw [Int64.toBitVec_ofBitVec] at hcut
  rw [← hcut, BitVec.toNat_ofInt, Int.toNat_of_nonneg (Int.emod_nonneg _ (by positivity))]
  push_cast
  rfl

/-- The product of `100 + 100` and the negative of `-129`. Neither factor fits eight bits. -/
def wideFactors : ConstExpr :=
  .arith .smul (by decide) (.arith .add (by decide) (.const 100) (.const 100))
    (.unary .neg (.const (-129)))

/-- At eight bits the factors are `-56` and `-127`, and their product wraps around to `-56`, which
is `200` without its sign. -/
theorem wideFactors_folds :
    Ty.i8.isInteger = true ∧ wideFactors.eval 8 = 200#8 ∧
      ∃ v : Int64, (wideFactors.build .i8).run (Builder.new "m") = .ok (.imm v, Builder.new "m") ∧
        v.toInt % 256 = 200 := by
  have heval : wideFactors.eval 8 = 200#8 := by decide
  obtain ⟨v, hrun, hv⟩ := @folds_at_width .i8 rfl wideFactors (Builder.new "m")
  refine ⟨rfl, heval, v, hrun, ?_⟩
  have hbits : 8 * Ty.i8.size = 8 := rfl
  rw [hbits, heval] at hv
  exact hv

end ConstExpr

end RegIR
