import RegIR.Proofs.Select.Faults
import RegIR.Proofs.Select.Values

/-!
# Arithmetic computes

The code of an arithmetic instruction gives its destination the result of the operation, at the
width of its type, and changes nothing else that can be observed. Sums, products and bitwise
operations of more bits end in the result on fewer bits; so it does not matter how the operands
were extended, and it is enough to extend the result once more.

## Main definitions

* `ArithOp.eval`, `UnaryOp.eval`: what the operations are on words of any width.
* `X86.Frame.result?`: the result of an instruction, for the values that its operands have.

## Main results

* `ArithOp.setWidth_eval`, `UnaryOp.setWidth_eval`: the low bits of a result.
* `Scope.arithmetic_assigns`: what running the code does.
-/

namespace RegIR

open X86

/-! ### Operations -/

/-- An operation on two words. The low half of a product has no sign. -/
def ArithOp.eval {n : Nat} (op : ArithOp) (a b : BitVec n) : BitVec n :=
  match op with
  | .add => a + b
  | .sub => a - b
  | .smul | .umul => a * b
  | .and => a &&& b
  | .or => a ||| b
  | .xor => a ^^^ b

/-- An operation on one word. -/
def UnaryOp.eval {n : Nat} (op : UnaryOp) (a : BitVec n) : BitVec n :=
  match op with
  | .not => ~~~a
  | .neg => -a

/-- The low bits of a result are the result on the low bits. -/
theorem ArithOp.setWidth_eval {k n : Nat} (op : ArithOp) (a b : BitVec n) (hkn : k ≤ n) :
    (op.eval a b).setWidth k = op.eval (a.setWidth k) (b.setWidth k) := by
  cases op with
  | add => exact BitVec.setWidth_add _ _ hkn
  | sub =>
      simp only [eval, BitVec.sub_eq_add_neg]
      rw [BitVec.setWidth_add _ _ hkn, BitVec.setWidth_neg_of_le hkn]
  | smul | umul => exact BitVec.setWidth_mul _ _ hkn
  | and => exact BitVec.setWidth_and
  | or => exact BitVec.setWidth_or
  | xor => exact BitVec.setWidth_xor

/-- The low bits of a result are the result on the low bits. -/
theorem UnaryOp.setWidth_eval {k n : Nat} (op : UnaryOp) (a : BitVec n) (hkn : k ≤ n) :
    (op.eval a).setWidth k = op.eval (a.setWidth k) := by
  cases op with
  | not => exact BitVec.setWidth_not hkn
  | neg => exact BitVec.setWidth_neg_of_le hkn

/-- The result of an arithmetic instruction at a width, for the values that its operands have in a
machine. -/
def X86.Frame.result? (f : Frame) (m : X86.Machine) (i : Instruction) (w : Width) :
    Option (BitVec w.bits) :=
  match i.opcode with
  | .arith op => do
      let a ← f.value? m (← i.src1)
      let b ← f.value? m (← i.src2)
      return op.eval (a.setWidth _) (b.setWidth _)
  | .unary op => do
      let a ← f.value? m (← i.src1)
      return op.eval (a.setWidth _)
  | _ => none

namespace Scope

variable {s : Scope} {i : Instruction} {isLast : Bool} {opcode : Opcode} {dest left right : Operand}
  {loc : Location} {m m' : X86.Machine} {w : Width} {r : Reg} {a b : BitVec 64} {v : BitVec w.bits}

/-! ### The operation -/

/-- Arithmetic in a register, with anything that can stand on the right. -/
theorem alu_achieves {x : X86.Operand} (o : AluOp) (hx : x.IsRight w) :
    Achieves [.alu o (.reg r w) x] m fun m' =>
      m'.reg r w = o.eval (m.reg r w) (m.read w x) ∧ m.SameBut [r] m' := by
  have hencodable : Instr.Encodable (.alu o (.reg r w) x) := by
    obtain hx | ⟨v, rfl, hv⟩ := hx
    · exact Instr.encodable_alu o hx
    · exact Instr.encodable_alu_imm o hv
  exact .setReg hencodable rfl (.inr rfl)

/-- The machine has each operation. -/
theorem arithInstr_achieves {x : X86.Operand} (op : ArithOp) (hx : x.IsRight w) :
    Achieves [arithInstr op (.reg r w) x] m fun m' =>
      m'.reg r w = op.eval (m.reg r w) (m.read w x) ∧ m.SameBut [r] m' := by
  cases op with
  | add => exact alu_achieves .add hx
  | sub => exact alu_achieves .sub hx
  | and => exact alu_achieves .and hx
  | or => exact alu_achieves .or hx
  | xor => exact alu_achieves .xor hx
  | smul | umul =>
      obtain (⟨r', rfl⟩ | ⟨base, disp, rfl⟩) | ⟨factor, rfl, hfactor⟩ := hx
      · exact alu_achieves .imul (.inl (X86.Operand.isValue_reg _ _))
      · exact alu_achieves .imul (.inl (X86.Operand.isValue_mem _ _ _))
      · -- a product with a constant is an instruction of its own
        exact .setReg (Instr.encodable_imul3 hfactor) rfl (.inr rfl)

/-- The machine has each operation. -/
theorem unaryInstr_achieves (op : UnaryOp) :
    Achieves [unaryInstr op (.reg r w.widen)] m fun m' =>
      m'.reg r w.widen = op.eval (m.reg r w.widen) ∧ m.SameBut [r] m' := by
  have hencodable : (unaryInstr op (.reg r w.widen)).Encodable := by
    refine Instr.encodable_inPlace r w ?_
    cases op <;> simp [unaryInstr]
  cases op with
  | not => exact .setReg hencodable rfl (.inl rfl)
  | neg => exact .setReg hencodable rfl (.inr rfl)

/-! ### The code of an instruction -/

/-- What is left to do once a result is computed in `r11`, possibly with words on the stack. -/
theorem finish_achieves (opcode : Opcode) (w : Width) (hloc : s.frame.locate? dest = some loc) :
    ∃ store, s.storeResult opcode (some dest) scratch w = .ok store ∧
      ∀ {k : Nat} {rs rs' : List Reg} {v : BitVec w.bits} {m m' : X86.Machine},
        m.SameAbove k rs' m' → s.frame.IsClear k m → scratch ∈ rs' →
        (∀ r ∈ rs', r ∈ rs ∨ loc = .reg r) → (∀ r ∈ rs, r ∉ X86.Frame.pinnedRegs) →
        (m'.reg scratch w.widen).setWidth w.bits = v →
        Achieves (normalize scratch w ++ store) m' (s.frame.Gives k rs dest loc w v m) := by
  obtain ⟨store, hstore, hwrite⟩ := storeResult_achieves (r := scratch) opcode w hloc (by decide)
  refine ⟨store, hstore, fun {k rs rs' v m m'} hsame hclear hscratch hrs' hrs hv => ?_⟩
  refine normalize_achieves.append fun m₁ hnormal => (hwrite m₁).mono ?_
  obtain ⟨hreg, hsame₁⟩ := hnormal
  have hsame₁ : m'.SameBut rs' m₁ :=
    hsame₁.mono (List.cons_subset.mpr ⟨hscratch, List.nil_subset _⟩)
  rintro _ rfl
  rw [hreg, hv]
  exact .of_write hloc (hsame.trans hsame₁) hclear hrs' hrs

/-- What is left to do if only the scratch registers have been used. -/
theorem finish_achieves_scratch (opcode : Opcode) (w : Width)
    (hloc : s.frame.locate? dest = some loc) :
    ∃ store, s.storeResult opcode (some dest) scratch w = .ok store ∧
      ∀ {v : BitVec w.bits} {m m' : X86.Machine}, m.SameBut scratchRegs m' →
        (m'.reg scratch w.widen).setWidth w.bits = v →
        Achieves (normalize scratch w ++ store) m'
          (s.frame.Gives 0 scratchRegs dest loc w v m) := by
  obtain ⟨store, hstore, hfinish⟩ := finish_achieves (s := s) opcode w hloc
  exact ⟨store, hstore, fun hsame hv => hfinish hsame.sameAbove (X86.Frame.isClear_zero _ _)
    (by decide) (fun r hr => .inl hr) scratchRegs_free hv⟩

/-- Arithmetic on two operands. -/
theorem arithmetic_achieves (op : ArithOp) (hw : i.dataType.width? = some w)
    (hleft : i.src1 = some left) (ha : s.frame.value? m left = some a)
    (hright : i.src2 = some right) (hb : s.frame.value? m right = some b)
    (hdest : i.dest = some dest) (hloc : s.frame.locate? dest = some loc) :
    ∃ code, s.arithmetic op i = .ok code ∧ Achieves code m (s.frame.Gives 0 scratchRegs dest loc w
      (op.eval (a.setWidth _) (b.setWidth _)) m) := by
  obtain ⟨loadLeft, loadRight, x, hloadLeft, hloadRight, hx, hrun⟩ :=
    operands_achieve i.opcode w ha hb
  obtain ⟨store, hstore, hfinish⟩ := finish_achieves_scratch i.opcode w hloc
  refine ⟨loadLeft ++ loadRight ++ [arithInstr op (.reg scratch w.widen) x]
    ++ normalize scratch w ++ store, ?_, ?_⟩
  · refine bind_eq_ok_iff.mpr ⟨w, intWidth_of_width? hw, ?_⟩
    refine bind_eq_ok_iff.mpr ⟨left, congrArg _ hleft, ?_⟩
    refine bind_eq_ok_iff.mpr ⟨right, congrArg _ hright, ?_⟩
    refine bind_eq_ok_iff.mpr ⟨loadLeft, hloadLeft, ?_⟩
    refine bind_eq_ok_iff.mpr ⟨(loadRight, x), hloadRight, ?_⟩
    rw [hdest]
    exact bind_eq_ok_iff.mpr ⟨store, hstore, rfl⟩
  · rw [List.append_assoc, List.append_assoc]
    refine hrun.append fun m₁ hm₁ => ?_
    obtain ⟨hacc, hother, hsame₁⟩ := hm₁
    refine (arithInstr_achieves op hx).append fun m₂ hm₂ => ?_
    obtain ⟨hresult, hsame₂⟩ := hm₂
    refine hfinish (hsame₁.trans (hsame₂.mono (by decide))) ?_
    rw [hresult, hacc, hother, ArithOp.setWidth_eval _ _ _ w.bits_le_widen,
      Operand.setWidth_extended, Operand.setWidth_extended]

/-- An operation on one operand. -/
theorem unary_achieves (op : UnaryOp) (hw : i.dataType.width? = some w)
    (hleft : i.src1 = some left) (ha : s.frame.value? m left = some a)
    (hdest : i.dest = some dest) (hloc : s.frame.locate? dest = some loc) :
    ∃ code, s.unary op i = .ok code ∧ Achieves code m (s.frame.Gives 0 scratchRegs dest loc w
      (op.eval (a.setWidth _)) m) := by
  obtain ⟨load, hload, hrun⟩ := loadInto_achieves i.opcode scratch w ha
  obtain ⟨store, hstore, hfinish⟩ := finish_achieves_scratch i.opcode w hloc
  refine ⟨load ++ [unaryInstr op (.reg scratch w.widen)] ++ normalize scratch w ++ store, ?_, ?_⟩
  · refine bind_eq_ok_iff.mpr ⟨w, intWidth_of_width? hw, ?_⟩
    refine bind_eq_ok_iff.mpr ⟨left, congrArg _ hleft, ?_⟩
    refine bind_eq_ok_iff.mpr ⟨load, hload, ?_⟩
    rw [hdest]
    exact bind_eq_ok_iff.mpr ⟨store, hstore, rfl⟩
  · rw [List.append_assoc, List.append_assoc]
    refine (hrun m ha).append fun m₁ hm₁ => ?_
    obtain ⟨hacc, hsame₁⟩ := hm₁
    refine (unaryInstr_achieves op).append fun m₂ hm₂ => ?_
    obtain ⟨hresult, hsame₂⟩ := hm₂
    have hsame₂ : m.SameBut scratchRegs m₂ := (hsame₁.trans hsame₂).mono (by decide)
    refine hfinish hsame₂ ?_
    rw [hresult, hacc, UnaryOp.setWidth_eval _ _ w.bits_le_widen, Operand.setWidth_extended]

/-- An arithmetic instruction gives its destination the result. -/
theorem arithmetic_gives (isLast : Bool) (hw : i.dataType.width? = some w)
    (hdest : i.dest = some dest) (hloc : s.frame.locate? dest = some loc)
    (hv : s.frame.result? m i w = some v) :
    ∃ code, s.select i isLast = .ok code ∧
      Achieves code m (s.frame.Gives 0 scratchRegs dest loc w v m) := by
  rw [select_eq_selectRaw, selectRaw]
  rw [X86.Frame.result?] at hv
  split at hv
  next op hop =>
    obtain ⟨left, hleft, hv⟩ := Option.bind_eq_some_iff.mp hv
    obtain ⟨a, ha, hv⟩ := Option.bind_eq_some_iff.mp hv
    obtain ⟨right, hright, hv⟩ := Option.bind_eq_some_iff.mp hv
    obtain ⟨b, hb, hv⟩ := Option.bind_eq_some_iff.mp hv
    obtain rfl := Option.some.inj hv
    rw [hop]
    exact arithmetic_achieves op hw hleft ha hright hb hdest hloc
  next op hop =>
    obtain ⟨left, hleft, hv⟩ := Option.bind_eq_some_iff.mp hv
    obtain ⟨a, ha, hv⟩ := Option.bind_eq_some_iff.mp hv
    obtain rfl := Option.some.inj hv
    rw [hop]
    exact unary_achieves op hw hleft ha hdest hloc
  next => cases hv

/-- **Arithmetic.** Every arithmetic instruction on integers or pointers, with constants, registers
or arguments as its operands and a register or an argument as its destination, has code. Wherever
the operands and the destination are kept, and also where the destination is an operand, the code
leaves in the low bits of the destination, 32 or more, the sign extension of the result at the
width of the type. All other operands, the stack and the frame pointer, and the memory outside the
destination are as they were; only the two scratch registers and the flags may have changed. -/
theorem arithmetic_assigns (hw : i.dataType.width? = some w) (hdest : i.dest = some dest)
    (hloc : s.frame.locate? dest = some loc) (hv : s.frame.result? m i w = some v) :
    ∃ code, s.select i isLast = .ok code ∧
      Achieves code m (s.frame.Assigns [.r11, .r10] dest loc w v m) := by
  obtain ⟨code, hcode, hrun⟩ := arithmetic_gives isLast hw hdest hloc hv
  exact ⟨code, hcode, hrun.mono fun _ h => h.assigns⟩

end Scope

/-- A frame with an argument and two general registers that have no machine register. -/
def twoSpilled : Scope where
  func := { name := "f", linkage := .exported, returnType := .i8 }
  frame := {
    locals := 3, args := 1, general := 6, pointer := 0
    args_le := by decide, size_le := by decide }

/-- Every byte of memory is `0x81`. -/
def filledMachine : X86.Machine where
  regs := fun _ => 0x1000
  mem := fun _ => 0x81
  flags := none
  symbols := fun _ => 0

/-- Take a constant beyond the range of its type from a register in the frame, in place. -/
def takeFromSpilled : Instruction where
  opcode := .arith .sub
  dataType := .i8
  dest := some (.general 5)
  src1 := some (.general 5)
  src2 := some (.imm 0x2ff)

/-- The result is `0x81 - 0xff`, which is `0x82`; the neighbour is left alone. -/
theorem takeFromSpilled_assigns :
    twoSpilled.frame.locate? (.general 5) = some (.slot 56) ∧
    twoSpilled.frame.locate? (.general 4) = some (.slot 48) ∧
    twoSpilled.frame.result? filledMachine takeFromSpilled .byte = some 0x82 ∧
    ∃ code, twoSpilled.select takeFromSpilled false = .ok code ∧
      Achieves code filledMachine (twoSpilled.frame.Assigns [.r11, .r10] (.general 5) (.slot 56)
        .byte 0x82 filledMachine) := by
  have hloc : twoSpilled.frame.locate? (.general 5) = some (.slot 56) := by decide +kernel
  have hresult : twoSpilled.frame.result? filledMachine takeFromSpilled .byte = some 0x82 := by
    decide +kernel
  exact ⟨hloc, by decide +kernel, hresult, Scope.arithmetic_assigns rfl rfl hloc hresult⟩

end RegIR
