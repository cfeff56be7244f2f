import RegIR.Proofs.Select.Emitted

/-!
# Encodable instructions

The machine does not have every combination of operands that `X86.Instr` can express: there is one
memory operand at most, operands go together in width, and constants are small. What it has is said
here of an instruction alone, so that it can be checked for any code, and then shown of all code
that selection emits.

## Conventions

*Width.* A register and an access have a width. An address has none, nor has a constant, which
stands at the width of what it is combined with.

*Constants.* A constant is at most a signed 32-bit word, at any width of the instruction, except
that a move into a whole register takes any 64-bit word. A constant that is stored to fewer than 32
bits must be in the signed range of these.

## Main results

* `Scope.Shape.encodable`: the code of an instruction can be encoded.
* `Func.select_encodable`: so can all code of a function.
-/

namespace RegIR

open X86

namespace X86

/-! ### What the machine has -/

/-- The first number that is too large for a signed word of a width. -/
def Width.limit : Width → Int
  | byte => 0x80
  | word => 0x8000
  | dword => 0x80000000
  | qword => 0x8000000000000000

/-- The constant is in the signed range of a width. -/
def Width.Holds (w : Width) (v : Int64) : Prop :=
  -w.limit ≤ v.toInt ∧ v.toInt < w.limit

instance (w : Width) (v : Int64) : Decidable (w.Holds v) :=
  inferInstanceAs (Decidable (_ ∧ _))

namespace Operand

/-- The width of a register or of an access. -/
@[simp] def width? : Operand → Option Width
  | reg _ w => some w
  | mem w _ _ => w
  | imm _ | rip _ => none

/-- Is the operand in memory, at a register or at a label? -/
@[simp] def isMemory : Operand → Bool
  | mem _ _ _ | rip _ => true
  | reg _ _ | imm _ => false

/-- Is the operand a register? -/
@[simp] def isReg : Operand → Bool
  | reg _ _ => true
  | _ => false

/-- Is the operand a register at a given width? -/
@[simp] def isRegAt (w : Width) (op : Operand) : Bool :=
  op.isReg && op.width? == some w

/-- The value of a constant. -/
@[simp] def imm? : Operand → Option Int64
  | imm v => some v
  | _ => none

/-- Is the operand a place of which only the address counts? -/
@[simp] def isAddress (op : Operand) : Bool :=
  op.isMemory && op.width?.isNone

/-- Can a source be combined with a destination? Both have one width, or the source is a
constant. -/
@[simp] def agrees (dst src : Operand) : Bool :=
  dst.width?.isSome && (src.imm?.isSome || dst.width? == src.width?)

end Operand

namespace Instr

/-- The operands of an instruction, the destination first. -/
@[simp] def operands : Instr → List Operand
  | mov dst src | movsx dst src | movzx dst src | lea dst src | alu _ dst src | cmp dst src =>
      [dst, src]
  | imul3 dst src factor => [dst, src, .imm factor]
  | push op | pop op | neg op | not op | idiv op | div op => [op]
  | cdq | cqo | jmp _ | jcc _ _ | call _ | leave | ret => []

/-- Do the operands have the kinds and widths that the instruction takes? -/
@[simp] def hasForm : Instr → Bool
  | mov dst src | cmp dst src => dst.agrees src
  | alu op dst src => dst.agrees src && (op != .imul || dst.isReg)
  | imul3 dst src _ => dst.agrees src && dst.isReg
  | movsx dst src | movzx dst src =>
      dst.isRegAt .dword && (src.width? == some .byte || src.width? == some .word)
  | lea dst src => dst.isRegAt .qword && src.isAddress
  | neg op | not op | idiv op | div op => op.isRegAt .dword || op.isRegAt .qword
  | push op => op.isRegAt .qword || op.imm?.isSome
  | pop op => op.isRegAt .qword
  | cdq | cqo | jmp _ | jcc _ _ | call _ | leave | ret => true

/-- The width in whose signed range a constant must be; none if it may be any word. -/
@[simp] def constantWidth? : Instr → Option Width
  | mov (.reg _ .qword) _ => none
  | mov (.mem (some .byte) _ _) _ => some .byte
  | mov (.mem (some .word) _ _) _ => some .word
  | _ => some .dword

/-- The machine has the instruction. -/
structure Encodable (x : Instr) : Prop where
  memory : x.operands.countP Operand.isMemory ≤ 1
  form : x.hasForm = true
  constants : ∀ v ∈ x.operands.filterMap Operand.imm?, ∀ w ∈ x.constantWidth?, w.Holds v

instance (x : Instr) : Decidable x.Encodable :=
  -- Only the constants that occur are looked at, not all there are.
  haveI : Decidable (∀ v ∈ x.operands.filterMap Operand.imm?, ∀ w ∈ x.constantWidth?,
      w.Holds v) := List.decidableBAll (fun v => ∀ w ∈ x.constantWidth?, w.Holds v) _
  decidable_of_iff
    (x.operands.countP Operand.isMemory ≤ 1 ∧ x.hasForm = true ∧
      ∀ v ∈ x.operands.filterMap Operand.imm?, ∀ w ∈ x.constantWidth?, w.Holds v)
    ⟨fun h => ⟨h.1, h.2.1, h.2.2⟩, fun h => ⟨h.memory, h.form, h.constants⟩⟩

/-- The same constant may be put into a register, but not added to one. -/
example : (mov (.reg .r10 .qword) (.imm 0x80000000)).Encodable ∧
    ¬ (alu .add (.reg .r10 .qword) (.imm 0x80000000)).Encodable := by
  decide

end Instr

/-! ### Constants -/

namespace Width

/-- What fits as a constant in most instructions. -/
theorem holds_dword_iff {v : Int64} : dword.Holds v ↔ fitsSigned32 v = true := by
  simp [Holds, fitsSigned32, limit]

/-- The sign extension of a narrower value is in the range of its width. -/
theorem holds_signExtend {w : Width} (hw : w ≠ .qword) (v : Int64) : w.Holds (w.signExtend v) := by
  cases w with
  | byte =>
      have hlow := v.toInt8.le_toInt
      have hhigh := v.toInt8.toInt_lt
      simp only [Holds, signExtend, limit, Int8.toInt_toInt64]
      omega
  | word =>
      have hlow := v.toInt16.le_toInt
      have hhigh := v.toInt16.toInt_lt
      simp only [Holds, signExtend, limit, Int16.toInt_toInt64]
      omega
  | dword =>
      have hlow := v.toInt32.le_toInt
      have hhigh := v.toInt32.toInt_lt
      simp only [Holds, signExtend, limit, Int32.toInt_toInt64]
      omega
  | qword => exact absurd rfl hw

/-- A small number is a 32-bit constant. -/
theorem holds_of_toNat_lt {u : UInt64} (hu : u.toNat < 0x80000000) : dword.Holds u.toInt64 := by
  have hexact : u.toInt64.toInt = u.toNat := by
    have hword : 2 * u.toBitVec.toNat < 2 ^ 64 := by
      rw [UInt64.toNat_toBitVec]
      omega
    exact BitVec.toInt_eq_toNat_of_lt hword
  simp only [Holds, limit, hexact]
  omega

/-- The zero extension of a narrow value is a 32-bit constant. -/
theorem holds_zeroExtend {w : Width} (hw : w.isNarrow = true) (v : Int64) :
    dword.Holds (w.zeroExtend v) := by
  cases w with
  | byte =>
      refine holds_of_toNat_lt ?_
      have hlt := v.toUInt64.toUInt8.toNat_lt
      rw [UInt8.toNat_toUInt64]
      omega
  | word =>
      refine holds_of_toNat_lt ?_
      have hlt := v.toUInt64.toUInt16.toNat_lt
      rw [UInt16.toNat_toUInt64]
      omega
  | dword | qword => cases hw

/-- A small number is a 32-bit constant. -/
theorem holds_ofNat {n : Nat} (hn : n < 0x80000000) : dword.Holds (Int64.ofNat n) := by
  have hexact : (Int64.ofNat n).toInt = n := Int64.toInt_ofNat_of_lt (by omega)
  simp only [Holds, limit, hexact]
  omega

end Width

/-! ### Forms -/

namespace Operand

/-- `src.IsValue w`: a register or an access of the given width. -/
def IsValue (w : Width) (src : Operand) : Prop :=
  (∃ r, src = .reg r w) ∨ ∃ base disp, src = .mem (some w) base disp

theorem isValue_reg (r : Reg) (w : Width) : (reg r w).IsValue w :=
  .inl ⟨r, rfl⟩

theorem isValue_mem (base : Reg) (disp : Int32) (w : Width) : (mem (some w) base disp).IsValue w :=
  .inr ⟨base, disp, rfl⟩

end Operand

/-- What is kept somewhere is there at any width. -/
theorem Location.isValue (loc : Location) (w : Width) : (loc.operand w).IsValue w := by
  cases loc with
  | reg r => exact Operand.isValue_reg r w
  | slot offset => exact Operand.isValue_mem _ _ w

namespace Instr

variable {w : Width} {r : Reg} {src dst : Operand} {x : Instr}

/-- A value is loaded into a register. -/
theorem encodable_mov_reg (hsrc : src.IsValue w) : Encodable (.mov (.reg r w) src) := by
  rcases hsrc with ⟨r', rfl⟩ | ⟨base, disp, rfl⟩ <;> constructor <;> simp [List.countP_cons]

/-- A register is written somewhere. -/
theorem encodable_mov_of_reg (hdst : dst.IsValue w) : Encodable (.mov dst (.reg r w)) := by
  rcases hdst with ⟨r', rfl⟩ | ⟨base, disp, rfl⟩ <;> constructor <;> simp [List.countP_cons]

/-- A constant is put into a register. -/
theorem encodable_mov_imm {v : Int64} (hv : w ≠ .qword → Width.dword.Holds v) :
    Encodable (.mov (.reg r w) (.imm v)) := by
  refine ⟨by simp, by simp, ?_⟩
  cases w with
  | byte | word | dword => simpa using hv nofun
  | qword => simp

/-- A constant is stored. -/
theorem encodable_store_imm {base : Reg} {disp : Int32} {v : Int64} (hv : Width.dword.Holds v)
    (hw : w ≠ .qword → w.Holds v) : Encodable (.mov (.mem (some w) base disp) (.imm v)) := by
  refine ⟨by simp [List.countP_cons], by simp, ?_⟩
  cases w with
  | byte | word | dword => simpa using hw nofun
  | qword => simpa using hv

/-- A narrow value is extended into a register. -/
theorem encodable_extend (hsrc : src.IsValue w) (hw : w.isNarrow = true) :
    Encodable (.movsx (.reg r .dword) src) ∧ Encodable (.movzx (.reg r .dword) src) := by
  have hnarrow : w = .byte ∨ w = .word := by
    cases w with
    | byte => exact .inl rfl
    | word => exact .inr rfl
    | dword | qword => cases hw
  rcases hsrc with ⟨r', rfl⟩ | ⟨base, disp, rfl⟩ <;>
    refine ⟨⟨?_, ?_, ?_⟩, ?_, ?_, ?_⟩ <;> simp [List.countP_cons, hnarrow]

/-- Arithmetic in a register, with a value. -/
theorem encodable_alu (op : AluOp) (hsrc : src.IsValue w) :
    Encodable (.alu op (.reg r w) src) := by
  rcases hsrc with ⟨r', rfl⟩ | ⟨base, disp, rfl⟩ <;> constructor <;> simp [List.countP_cons]

/-- Arithmetic in a register, with a constant. -/
theorem encodable_alu_imm (op : AluOp) {v : Int64} (hv : Width.dword.Holds v) :
    Encodable (.alu op (.reg r w) (.imm v)) :=
  ⟨by simp, by simp, by simpa using hv⟩

/-- A comparison with a value. -/
theorem encodable_cmp (hsrc : src.IsValue w) : Encodable (.cmp (.reg r w) src) := by
  rcases hsrc with ⟨r', rfl⟩ | ⟨base, disp, rfl⟩ <;> constructor <;> simp [List.countP_cons]

/-- A comparison with a constant. -/
theorem encodable_cmp_imm {v : Int64} (hv : Width.dword.Holds v) :
    Encodable (.cmp (.reg r w) (.imm v)) :=
  ⟨by simp, by simp, by simpa using hv⟩

/-- A product with a constant. -/
theorem encodable_imul3 {factor : Int64} (hfactor : Width.dword.Holds factor) :
    Encodable (.imul3 (.reg r w) (.reg r w) factor) :=
  ⟨by simp, by simp, by simpa using hfactor⟩

/-- The address of a place. -/
theorem encodable_lea (hsrc : src.isAddress = true) : Encodable (.lea (.qword r) src) := by
  cases src with
  | mem o base disp =>
      have ho : o = none := by simpa using hsrc
      subst ho
      constructor <;> simp [Operand.qword, List.countP_cons]
  | rip label => constructor <;> simp [Operand.qword, List.countP_cons]
  | reg _ _ | imm _ => cases hsrc

/-- What is done in one register is done at 32 or 64 bits. -/
theorem encodable_inPlace (r : Reg) (w : Width) (hx : x ∈ [neg (.reg r w.widen), not (.reg r w.widen),
    idiv (.reg r w.widen), div (.reg r w.widen)]) : x.Encodable := by
  have hw : w.widen = .dword ∨ w.widen = .qword := by cases w <;> simp [Width.widen]
  simp only [List.mem_cons, List.not_mem_nil, or_false] at hx
  rcases hx with rfl | rfl | rfl | rfl <;> constructor <;> simp [hw]

end Instr

end X86

namespace Scope

variable {s : Scope} {i : Instruction} {w : Width} {x : Instr} {code : Code} {isLast : Bool}

/-- The memory that an instruction accesses has the width of the access. -/
theorem Memory.isValue {mem : X86.Operand} (h : s.Memory i w mem) :
    ∃ base disp, mem = .mem (some w) base disp := by
  obtain ⟨ptr, disp, address, -, -, hmem⟩ := h
  obtain ⟨base, place, rfl, -⟩ := memoryAt_eq_ok hmem
  exact ⟨base, place, rfl⟩

/-- A value is found at its width. -/
theorem Reads.isValue {src : X86.Operand} (h : s.Reads i w src) : src.IsValue w := by
  cases h with
  | temp hr => exact X86.Operand.isValue_reg _ w
  | located hop hloc => exact Location.isValue _ w
  | memory hmem => exact .inr hmem.isValue

/-- A value is loaded by an instruction that can be encoded. -/
theorem encodable_of_mem_loadFrom {r : Reg} {src : X86.Operand} (hsrc : src.IsValue w)
    (hx : x ∈ loadFrom r src w) : x.Encodable := by
  unfold loadFrom at hx
  split at hx
  next hw =>
    obtain rfl := List.mem_singleton.mp hx
    exact (Instr.encodable_extend hsrc hw).1
  next =>
    obtain rfl := List.mem_singleton.mp hx
    exact Instr.encodable_mov_reg hsrc

/-- **Forms.** Every form of machine instruction can be encoded, if the sizes of elements are 32-bit
constants. -/
theorem Emits.encodable (h : s.Emits i x)
    (hsize : i.opcode = .gep → i.dataType.size < 0x80000000) : x.Encodable := by
  cases h with
  | constant hr w v =>
      refine Instr.encodable_mov_imm fun hw => ?_
      have hdword : w.widen = .dword := by
        cases w with
        | byte | word | dword => rfl
        | qword => exact absurd rfl hw
      have hne : Width.dword ≠ .qword := nofun
      rw [hdword]
      exact Width.holds_signExtend hne v
  | bits hr hw v => exact Instr.encodable_mov_imm fun _ => Width.holds_zeroExtend hw v
  | slotAddress hr disp | stringAddress hr name => exact Instr.encodable_lea rfl
  | copy hr hsrc => exact Instr.encodable_mov_reg hsrc.isValue
  | extend hr hw hsrc => exact (Instr.encodable_extend hsrc.isValue hw).1
  | zeroExtend hr hw hsrc => exact (Instr.encodable_extend hsrc.isValue hw).2
  | loaded hdest hloc hmem hx => exact encodable_of_mem_loadFrom (.inr hmem.isValue) hx
  | result hdest hloc hr w => exact Instr.encodable_mov_of_reg (Location.isValue _ _)
  | storeReg hmem hsrc => exact Instr.encodable_mov_of_reg (.inr hmem.isValue)
  | storeImm hmem hv =>
      obtain ⟨base, disp, rfl⟩ := hmem.isValue
      exact Instr.encodable_store_imm (Width.holds_dword_iff.mpr hv) fun hw =>
        Width.holds_signExtend hw _
  | alu op hr hright =>
      cases hright with
      | imm hv => exact Instr.encodable_alu_imm op (Width.holds_dword_iff.mpr hv)
      | value hsrc => exact Instr.encodable_alu op hsrc.isValue
  | scale w hr hfactor =>
      refine Instr.encodable_imul3 ?_
      rcases hfactor with hfits | ⟨hgep, rfl⟩
      · exact Width.holds_dword_iff.mpr hfits
      · exact Width.holds_ofNat (hsize hgep)
  | @unary r op hr w => cases op <;> exact Instr.encodable_inPlace r w (by simp [unaryInstr])
  | signRax hx => rcases hx with rfl | rfl <;> decide
  | @divide _ r w hr hx => rcases hx with rfl | rfl <;> exact Instr.encodable_inPlace r w (by simp)
  | compare hr hright =>
      cases hright with
      | imm hv => exact Instr.encodable_cmp_imm (Width.holds_dword_iff.mpr hv)
      | value hsrc => exact Instr.encodable_cmp hsrc.isValue

/-- Moving the stack pointer. -/
theorem encodable_of_mem_adjustStack {op : AluOp} {n : Nat} (hn : n < 0x80000000)
    (hx : x ∈ adjustStack op n) : x.Encodable := by
  unfold adjustStack at hx
  split at hx
  · cases hx
  · obtain rfl := List.mem_singleton.mp hx
    exact Instr.encodable_alu_imm op (Width.holds_ofNat hn)

/-- A whole register is pushed and popped. -/
theorem encodable_push (r : Reg) : (Instr.push (.qword r)).Encodable := by
  constructor <;> simp [X86.Operand.qword]

theorem encodable_pop (r : Reg) : (Instr.pop (.qword r)).Encodable := by
  constructor <;> simp [X86.Operand.qword]

/-- Pushing an argument. -/
theorem Pushes.encodable (h : s.Pushes i code)
    (hsize : i.opcode = .gep → i.dataType.size < 0x80000000) (hx : x ∈ code) : x.Encodable := by
  cases h with
  | imm hv =>
      obtain rfl := List.mem_singleton.mp hx
      exact ⟨by simp, by simp, by simpa using Width.holds_dword_iff.mpr hv⟩
  | loaded hload hr =>
      rcases List.mem_append.mp hx with hx | hx
      · exact (hload x hx).encodable hsize
      · obtain rfl := List.mem_singleton.mp hx
        exact encodable_push _

/-- **Code of an instruction.** It can be encoded if element sizes and what is pushed for a call are
32-bit constants. -/
theorem Shape.encodable (h : s.Shape i isLast code)
    (hsize : i.opcode = .gep → i.dataType.size < 0x80000000)
    (hargs : i.opcode = .call → (i.args.drop maxRegArgs).length < 0xfffffff) (hx : x ∈ code) :
    x.Encodable := by
  cases h with
  | plain hcode => exact (hcode x hx).encodable hsize
  | jump hcode hjump _ =>
      rcases List.mem_append.mp hx with hx | hx
      · exact (hcode x hx).encodable hsize
      · obtain rfl := List.mem_singleton.mp hx
        cases x with
        | jmp | jcc => constructor <;> simp
        | _ => cases hjump
  | division hinner hrest =>
      simp only [List.mem_append, List.mem_singleton] at hx
      rcases hx with ((rfl | hx) | rfl) | hx
      · exact encodable_push .rax
      · exact (hinner x hx).encodable hsize
      · exact encodable_pop .rax
      · exact (hrest x hx).encodable hsize
  | call hpushes hloads hrest hop hcount =>
      -- at most `8 * 0xffffffe + 8` bytes are pushed
      have hpadding : ∀ n, callPadding n ≤ 8 := by
        intro n
        unfold callPadding
        split <;> omega
      simp only [List.mem_append, List.mem_singleton] at hx
      rcases hx with ((((hx | hx) | hx) | rfl) | hx) | hx
      · refine encodable_of_mem_adjustStack ?_ hx
        exact Nat.lt_of_le_of_lt (hpadding _) (by decide)
      · obtain ⟨push, hpush, hx⟩ := List.mem_flatten.mp hx
        exact (hpushes push hpush).encodable hsize hx
      · exact (hloads x hx).encodable hsize
      · constructor <;> simp
      · refine encodable_of_mem_adjustStack ?_ hx
        rw [hcount]
        have hle := hpadding (i.args.drop maxRegArgs).length
        have hlt := hargs hop
        omega
      · exact (hrest x hx).encodable hsize

end Scope

/-! ### Functions -/

namespace X86.Frame

variable {f : Frame} {x : Instr}

/-- The code around the body of a function can be encoded. -/
theorem encodable_of_mem_prologue (hx : x ∈ f.prologue) : x.Encodable := by
  have hstore : ∀ {offset : UInt32} {r : Reg},
      (Instr.mov (.slotAt offset .qword) (.qword r)).Encodable :=
    Instr.encodable_mov_of_reg (Operand.isValue_mem _ _ _)
  simp only [prologue, saveCode, homeCode, List.mem_append, List.mem_cons, List.not_mem_nil,
    or_false, List.mem_mapIdx] at hx
  rcases hx with ((rfl | rfl | rfl) | ⟨n, hn, rfl⟩) | ⟨n, hn, rfl⟩
  · exact Scope.encodable_push .rbp
  · exact Instr.encodable_mov_reg (Operand.isValue_reg _ _)
  · exact Instr.encodable_alu_imm .sub (Width.holds_ofNat (Nat.lt_succ_of_le f.size_le))
  · exact hstore
  · exact hstore

theorem encodable_of_mem_epilogue (hx : x ∈ f.epilogue) : x.Encodable := by
  simp only [epilogue, restoreCode, List.mem_append, List.mem_cons, List.not_mem_nil, or_false,
    List.mem_mapIdx] at hx
  rcases hx with ⟨n, hn, rfl⟩ | rfl | rfl
  · exact Instr.encodable_mov_reg (Operand.isValue_mem _ _ _)
  · decide
  · decide

end X86.Frame

/-- **Encoding.** Whatever function code is selected for: if the sizes of its array elements are
signed 32-bit numbers and its calls pass fewer than `0xfffffff` arguments on the stack, then the
machine has every instruction of the code, prologue and epilogue included. -/
theorem Func.select_encodable {f : Func} {c : FuncCode}
    (hsize : ∀ i ∈ f.instructions, i.opcode = .gep → i.dataType.size ≤ 0x7fffffff)
    (hargs : ∀ i ∈ f.instructions, i.opcode = .call →
      (i.args.drop maxRegArgs).length < 0xfffffff)
    (hselect : f.select = .ok c) : ∀ x : Instr, .instr x ∈ c.lines → x.Encodable := by
  intro x hx
  rcases FuncCode.mem_lines hx with hx | hx | hx
  · exact Frame.encodable_of_mem_prologue hx
  · obtain ⟨code, hcode, hx⟩ := List.mem_flatten.mp hx
    obtain ⟨i, hi, isLast, hshape⟩ := Func.shape_of_mem hselect hcode
    exact hshape.encodable (fun hgep => Nat.lt_succ_of_le (hsize i hi hgep)) (hargs i hi) hx
  · exact Frame.encodable_of_mem_epilogue hx

/-- A module whose function stores a narrow constant, divides narrow numbers, scales an index by the
size of a structure and pushes an argument that is no 32-bit constant. -/
def mixedWidths : Module where
  name := "mixed"
  functions := [{
    name := "main"
    linkage := .exported
    returnType := .i64
    args := [(.i8, .named "n")]
    nextBlockId := 2
    blocks := [{
      name := "entry"
      id := 1
      instructions := [
        { opcode := .alloca, dataType := .i8, dest := some (.reg (.num 0)) },
        { opcode := .store, dataType := .i8, src1 := some (.imm 200),
          src2 := some (.reg (.num 0)) },
        { opcode := .divide .udiv, dataType := .i8, dest := some (.reg (.num 1)),
          src1 := some (.reg (.named "n")), src2 := some (.imm 3) },
        { opcode := .gep, dataType := .struct "pair" [.i64, .i64], dest := some (.reg (.num 2)),
          src1 := some (.reg (.num 0)), src2 := some (.reg (.num 1)) },
        { opcode := .call, dataType := .i64, dest := some (.reg (.num 3)),
          call := some { callee := "use", args := [1, 2, 3, 4, 5, 6, 0x100000000].map .imm } },
        { opcode := .ret, dataType := .i64, src1 := some (.reg (.num 3)) }] }] }]

/-- The constant is stored as a signed byte, the dividend is extended, and the large argument goes
through a register. -/
theorem mixedWidths_encodable :
    ∃ m', mixedWidths.lower = .ok m' ∧ ∃ f ∈ m'.functions, f.isExternal = false ∧
      ∃ c : FuncCode, f.select = .ok c ∧
      .instr (.mov (.deref .rbp (-1) .byte) (.imm (-56))) ∈ c.lines ∧
      .instr (.movzx (.reg .rax .dword) (.deref .rbp (-16) .byte)) ∈ c.lines ∧
      .instr (.mov (.qword .r11) (.imm 0x100000000)) ∈ c.lines ∧
      ∀ x : Instr, .instr x ∈ c.lines → x.Encodable := by
  have hends : Ends mixedWidths.lower (fun m' => ∃ f ∈ m'.functions, f.isExternal = false ∧
      (∀ i ∈ f.instructions, i.opcode = .gep → i.dataType.size ≤ 0x7fffffff) ∧
      (∀ i ∈ f.instructions, i.opcode = .call →
        (i.args.drop maxRegArgs).length < 0xfffffff) ∧
      Ends f.select (fun c =>
        .instr (.mov (.deref .rbp (-1) .byte) (.imm (-56))) ∈ c.lines ∧
        .instr (.movzx (.reg .rax .dword) (.deref .rbp (-16) .byte)) ∈ c.lines ∧
        .instr (.mov (.qword .r11) (.imm 0x100000000)) ∈ c.lines) fun _ => False)
      fun _ => False := by
    decide +kernel
  obtain ⟨m', hm, f, hf, hbody, hsize, hargs, hends⟩ := hends.exists_ok
  obtain ⟨c, hselect, hstore, hdividend, hlarge⟩ := hends.exists_ok
  exact ⟨m', hm, f, hf, hbody, c, hselect, hstore, hdividend, hlarge,
    Func.select_encodable hsize hargs hselect⟩

end RegIR
