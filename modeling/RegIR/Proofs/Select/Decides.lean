import RegIR.Proofs.Select.Faults
import RegIR.Proofs.Select.Values

/-!
# Branches decide comparisons

The code of a conditional branch compares its operands as signed numbers and jumps if the relation
holds of them. A register or an argument is compared at the width of the type. A constant is
compared as it is computed with, so a constant of a narrow type that is written beyond the signed
range of the type, such as 255 for a byte, is compared as the number that was written, and not as
the value of the type that has the same bits.

## Main definitions

* `Relation.holds`: what a branch tests.
* `Operand.IsTyped`: a constant that is the same number at the width of its type.

## Main results

* `X86.Flags.holds_condition`: the machine tests the relation.
* `Scope.branch_decides`: what running the code does.
* `unsignedByte_not_equal`: a branch on two values with the same bits that does not jump.
-/

namespace RegIR

open X86

/-! ### Relations -/

/-- The comparison that a branch tests. -/
def Relation.holds (rel : Relation) (a b : Int) : Bool :=
  match rel with
  | .eq => a = b
  | .ne => a ≠ b
  | .gt => b < a
  | .lt => a < b
  | .ge => b ≤ a
  | .le => a ≤ b

/-- The machine tests the relation of the numbers that it has compared. -/
theorem X86.Flags.holds_condition {n : Nat} (rel : Relation) (a b : BitVec n) :
    (Flags.ofCompare a b).holds (Scope.condition rel) = rel.holds a.toInt b.toInt := by
  have hzero := Flags.zero_ofCompare (a := a) (b := b)
  have hsign := Flags.sign_ofCompare (a := a) (b := b)
  have hsame : ((Flags.ofCompare a b).sign == (Flags.ofCompare a b).overflow) =
      decide (b.toInt ≤ a.toInt) := by
    rw [← Bool.not_not (_ == _), ← bne, hsign, ← decide_not, decide_eq_decide, Int.not_lt]
  cases rel with
  | eq => exact hzero
  | ne =>
      rw [Scope.condition, Flags.holds, hzero, Relation.holds, decide_not]
  | gt =>
      rw [Scope.condition, Flags.holds, hzero, hsame, Relation.holds, ← decide_not,
        ← Bool.decide_and, decide_eq_decide]
      omega
  | lt => exact hsign
  | ge => exact hsame
  | le =>
      rw [Scope.condition, Flags.holds, hzero, hsign, Relation.holds, ← Bool.decide_or,
        decide_eq_decide]
      omega

/-! ### Constants -/

namespace Operand

variable {op : Operand} {w : Width} {f : Frame} {m : X86.Machine} {a : BitVec 64}

/-- `op.IsTyped w`: if the operand is a constant, it is the same number at the width `w` as where it
is computed with. -/
def IsTyped (op : Operand) (w : Width) : Prop :=
  ∀ v, op = .imm v → w.widen.signExtend v = w.signExtend v

/-- At 32 and 64 bits there is no difference. -/
theorem isTyped_of_wide (hw : w.isNarrow = false) : op.IsTyped w := by
  rintro v rfl
  cases w with
  | byte | word => cases hw
  | dword | qword => rfl

/-- A typed operand is computed with as its value at the width of the type. -/
theorem IsTyped.extended_eq (h : op.IsTyped w) (hv : f.value? m op = some a) :
    op.extended w a = (a.setWidth w.bits).signExtend _ := by
  obtain ⟨v, rfl, rfl⟩ | ⟨loc, hloc, rfl⟩ := X86.Frame.value?_eq_some hv
  · calc v.toBitVec.setWidth w.widen.bits
        = (w.widen.signExtend v).toBitVec.setWidth w.widen.bits :=
          (w.widen.setWidth_toBitVec_signExtend v).symm
      _ = ((v.toBitVec.setWidth w.bits).signExtend 64).setWidth w.widen.bits := by
          rw [h v rfl, w.toBitVec_signExtend v]
      _ = (v.toBitVec.setWidth w.bits).signExtend w.widen.bits :=
          setWidth_signExtend _ w.widen.bits_le
  · exact (X86.Frame.value?_of_locate? (m := m) hloc).2 w _

/-- As a number it is the signed value of the low bits. -/
theorem IsTyped.toInt_extended (h : op.IsTyped w) (hv : f.value? m op = some a) :
    (op.extended w a).toInt = (a.setWidth w.bits).toInt := by
  rw [h.extended_eq hv, BitVec.toInt_signExtend_of_le w.bits_le_widen]

end Operand

/-! ### The code of a branch -/

namespace Scope

variable {s : Scope} {i : Instruction} {rel : Relation} {left right : Operand}
  {name : String} {m : X86.Machine} {w : Width} {r : Reg} {a b : BitVec 64}

/-- A comparison and the jump behind it. -/
theorem exec_compare {x : X86.Operand} (rel : Relation) (hx : x.IsRight w) (target : String) :
    ∃ m', exec [.cmp (.reg r w) x, .jcc (condition rel) target] m =
        some (m', if rel.holds (m.reg r w).toInt (m.read w x).toInt then some target else none) ∧
      m.SameBut [] m' := by
  have hencodable : Instr.Encodable (.cmp (.reg r w) x) := by
    obtain hx | ⟨v, rfl, hv⟩ := hx
    · exact Instr.encodable_cmp hx
    · exact Instr.encodable_cmp_imm hv
  have hstep : Instr.step? (.cmp (.reg r w) x) m =
      some { m with flags := some (.ofCompare (m.reg r w) (m.read w x)) } :=
    Instr.step?_eq hencodable
  refine ⟨{ m with flags := some (.ofCompare (m.reg r w) (m.read w x)) },
    (exec_cons hstep).trans ?_, fun _ _ => rfl, rfl, rfl⟩
  rw [← Flags.holds_condition]
  change (if _ then _ else _) = _
  split
  · rfl
  · rfl

/-- The label of a block that is there. -/
theorem target_eq (opcode : Opcode) (hblock : (s.func.blockNamed? name).isSome = true) :
    s.target opcode (some (.label name)) = .ok (blockLabel s.func.name name) :=
  if_pos hblock

/-- **Branches.** Every conditional branch on integers or pointers, with constants, registers or
arguments as its operands, to a block of the function has code. Wherever the operands are kept, the
code jumps to the block if the relation holds of the operands as they are computed with, and runs
to its end otherwise; it changes the two scratch registers and the flags at most. If the type has
32 or 64 bits, or constants are typed, this is the relation of the signed values that the operands
have at the width of the type. -/
theorem branch_decides (isLast : Bool) (hop : i.opcode = .branch rel)
    (hw : i.dataType.width? = some w)
    (hleft : i.src1 = some left) (ha : s.frame.value? m left = some a)
    (hright : i.src2 = some right) (hb : s.frame.value? m right = some b)
    (hlabel : i.src3 = some (.label name)) (hblock : (s.func.blockNamed? name).isSome = true) :
    ∃ code m', s.select i isLast = .ok code ∧
      exec code m = some (m',
        if rel.holds (left.extended w a).toInt (right.extended w b).toInt then
          some (blockLabel s.func.name name)
        else none) ∧
      m.SameBut [.r11, .r10] m' ∧
      (w.isNarrow = false ∨ (left.IsTyped w ∧ right.IsTyped w) →
        rel.holds (left.extended w a).toInt (right.extended w b).toInt =
          rel.holds (a.setWidth w.bits).toInt (b.setWidth w.bits).toInt) := by
  obtain ⟨loadLeft, loadRight, x, hloadLeft, hloadRight, hx, m₁, hexec, hacc, hother, hsame₁⟩ :=
    operands_achieve i.opcode w ha hb
  obtain ⟨m₂, hcompare, hsame₂⟩ :=
    exec_compare (r := scratch) (m := m₁) rel hx (blockLabel s.func.name name)
  refine ⟨loadLeft ++ loadRight ++ [.cmp (.reg scratch w.widen) x,
    .jcc (condition rel) (blockLabel s.func.name name)], m₂, ?_, ?_, ?_, ?_⟩
  · rw [select_eq_selectRaw, selectRaw, hop]
    refine bind_eq_ok_iff.mpr ⟨w, intWidth_of_width? hw, ?_⟩
    refine bind_eq_ok_iff.mpr ⟨left, congrArg _ hleft, ?_⟩
    refine bind_eq_ok_iff.mpr ⟨right, congrArg _ hright, ?_⟩
    refine bind_eq_ok_iff.mpr ⟨_, (congrArg _ hlabel).trans (target_eq _ hblock), ?_⟩
    refine bind_eq_ok_iff.mpr ⟨loadLeft, hloadLeft, ?_⟩
    exact bind_eq_ok_iff.mpr ⟨(loadRight, x), hloadRight, rfl⟩
  · rw [exec_append hexec, hcompare, hacc, hother]
  · exact hsame₁.trans (hsame₂.mono (List.nil_subset _))
  · intro htyped
    have hboth : left.IsTyped w ∧ right.IsTyped w := by
      obtain hwide | hboth := htyped
      · exact ⟨Operand.isTyped_of_wide hwide, Operand.isTyped_of_wide hwide⟩
      · exact hboth
    rw [hboth.1.toInt_extended ha, hboth.2.toInt_extended hb]

end Scope

/-- A function of two arguments, with a block to branch to. -/
def twoArguments : Scope where
  func := {
    name := "f"
    linkage := .exported
    returnType := .i32
    args := [(.i8, .num 0), (.i8, .num 1)]
    blocks := [{ name := "entry", id := 1, instructions := [] },
      { name := "yes", id := 2, instructions := [] }]
    nextBlockId := 3 }
  frame := {
    locals := 0, args := 2, general := 0, pointer := 0
    args_le := by decide, size_le := by decide }

/-- Branch on how a constant and the first argument compare as bytes. -/
def compareByte (rel : Relation) (v : Int64) : Instruction where
  opcode := .branch rel
  dataType := .i8
  src1 := some (.imm v)
  src2 := some (.argument 0)
  src3 := some (.label "yes")

/-- Every byte of memory is `0xff`. -/
def onesMachine : X86.Machine where
  regs := fun _ => 0x1000
  mem := fun _ => 0xff
  flags := none
  symbols := fun _ => 0

/-- As bytes, -2 is less than the argument, which is -1. -/
theorem smallerByte_jumps :
    twoArguments.frame.value? onesMachine (.argument 0) = some 0xffffffffffffffff ∧
    ∃ code m', twoArguments.select (compareByte .lt (-2)) false = .ok code ∧
      exec code onesMachine = some (m', some (blockLabel "f" "yes")) ∧
      onesMachine.SameBut [.r11, .r10] m' := by
  have harg : twoArguments.frame.value? onesMachine (.argument 0) = some 0xffffffffffffffff := by
    decide +kernel
  obtain ⟨code, m', hselect, hexec, hsame, htyped⟩ := Scope.branch_decides (s := twoArguments)
    (i := compareByte .lt (-2)) (m := onesMachine) false rfl rfl rfl rfl rfl harg rfl (by decide)
  have hconstant : (Operand.imm (-2)).IsTyped .byte := by
    rintro v ⟨⟩
    decide
  have hplace : (Operand.argument 0).IsTyped .byte := nofun
  rw [htyped (.inr ⟨hconstant, hplace⟩)] at hexec
  exact ⟨harg, code, m', hselect, hexec, hsame⟩

/-- A byte of 255 has the bits of the argument, but is not equal to it: the code runs to its end. -/
theorem unsignedByte_not_equal :
    twoArguments.frame.value? onesMachine (.imm 255) = some 0xff ∧
    twoArguments.frame.value? onesMachine (.argument 0) = some 0xffffffffffffffff ∧
    Relation.eq.holds (BitVec.setWidth 8 (0xff : BitVec 64)).toInt
      (BitVec.setWidth 8 (0xffffffffffffffff : BitVec 64)).toInt = true ∧
    ∃ code, twoArguments.select (compareByte .eq 255) false = .ok code ∧
      (exec code onesMachine).map Prod.snd = some none := by
  refine ⟨by decide +kernel, by decide +kernel, by decide +kernel, _, rfl, ?_⟩
  decide +kernel

end RegIR
