import RegIR.Proofs.Select.Forms

/-!
# What the code of an instruction consists of

Each function of the selector is described by one lemma about both of its ends: the code that it
gives consists of the forms that there are, and if it gives none, one of the reasons why
instructions are rejected holds. Proofs about machine code and about errors start from the
description of the whole selector.

## Main results

* `Scope.location_ends`, `Scope.loadInto_ends`, `Scope.memoryAt_ends`: the parts that code is
  made of.
* `Scope.selectRaw_ends`: the code of an instruction has one of the shapes, or the instruction
  is rejected for one of the reasons.
-/

namespace RegIR

open X86

/-- The place of an argument is found, or there are too many. -/
theorem X86.Frame.argHome_ne_fault {f : Frame} {index : UInt32} {fault : Fault} :
    f.argHome index.toUInt64 ≠ .error (.fault fault) := by
  have hcount : argCountAt index.toUInt64 = .ok (index.toUInt64.toNat + 1) := by
    have hlt := index.toNat_lt
    rw [argCountAt, if_pos]
    rw [UInt32.toNat_toUInt64, UInt64.size]
    omega
  rw [argHome]
  split
  · exact nofun
  · rw [hcount]
    exact nofun

/-- The sources of an instruction are operands of it. -/
theorem Instruction.mem_operands_of_source {i : Instruction} {src : Option Operand}
    {op : Operand} (h : src = some op) (hsrc : src = i.src1 ∨ src = i.src2 ∨ src = i.src3) :
    op ∈ i.operands := by
  obtain rfl | rfl | rfl := hsrc <;> simp [operands, sources, h]

/-- A pointer through which memory is accessed is an operand. -/
theorem Instruction.mem_operands_of_pointer? {i : Instruction} {ptr : Operand}
    (h : i.pointer? = some ptr) : ptr ∈ i.operands := by
  rw [pointer?] at h
  split at h
  case h_1 | h_2 | h_3 => exact mem_operands_of_source h (.inl rfl)
  case h_4 => exact mem_operands_of_source h (.inr (.inl rfl))
  case h_5 => cases h

namespace Scope

variable {s : Scope} {i : Instruction} {w : Width} {op : Operand} {code : Code} {isLast : Bool}

/-! ### Operands -/

/-- An operand that must be there. -/
theorem required_ends {o : Option Operand} :
    Ends (s.required i.opcode o) (fun op => o = some op) (s.Rejects i) := by
  cases o with
  | none => exact Rejects.missing
  | some op => exact rfl

/-- An operand that cannot stand where it does. -/
theorem unsupported_ends {α : Type} {Q : α → Prop} (hop : op ∈ i.operands) :
    Ends (s.unsupported i.opcode op) Q (s.Rejects i) := by
  cases op with
  | reg name => exact Rejects.unassigned hop rfl
  | _ => exact Rejects.operand hop rfl

/-- The width of a value. -/
theorem valueWidth_ends {t : Ty} :
    Ends (s.valueWidth i.opcode t) (fun w => w.bytes = t.size) (s.Rejects i) := by
  refine (Ends.of_errors fun e he => ?_).mono fun w => valueWidth_eq_ok
  unfold valueWidth at he
  split at he
  next =>
    cases he
    exact .type _
  next =>
    split at he
    next => cases he
    next =>
      cases he
      exact .type _

/-- The width of an integer or a pointer. -/
theorem intWidth_ends {t : Ty} :
    Ends (s.intWidth i.opcode t) (fun _ => True) (s.Rejects i) := by
  unfold intWidth
  split
  · exact Rejects.type _
  · exact valueWidth_ends.mono fun _ _ => trivial

/-- A register of the frame that is not there. -/
theorem ask_register_eq_error {x : Except AbiError Location} {e : Failure CodeError}
    (h : s.ask (x.mapError .error) = .error e) :
    ∃ a, x = .error a ∧ e = .error ⟨s.func.name, .ofAbi a⟩ := by
  cases x with
  | ok loc => cases h
  | error a =>
      cases h
      exact ⟨a, rfl, rfl⟩

/-- An argument of the function that is not there. -/
theorem ask_argHome_eq_error {index : UInt32} {e : Failure CodeError}
    (h : s.ask (s.frame.argHome index.toUInt64) = .error e) :
    ∃ a, s.frame.argHome index.toUInt64 = .error (.error a) ∧
      e = .error ⟨s.func.name, .ofAbi a⟩ := by
  unfold ask at h
  split at h
  next => cases h
  next a ha =>
    cases h
    exact ⟨a, ha, rfl⟩
  next f hf => exact absurd hf Frame.argHome_ne_fault

/-- Where an operand is kept. -/
theorem location_ends (hop : op ∈ i.operands) :
    Ends (s.location i.opcode op) (fun loc => s.location i.opcode op = .ok loc)
      (s.Rejects i) := by
  refine Ends.of_errors fun e he => ?_
  cases op with
  | general index =>
      obtain ⟨a, ha, rfl⟩ := ask_register_eq_error he
      exact .general hop ha
  | pointer index =>
      obtain ⟨a, ha, rfl⟩ := ask_register_eq_error he
      exact .pointer hop ha
  | argument index =>
      obtain he | ⟨home, -, he⟩ := bind_eq_error_iff.mp he
      · obtain ⟨a, ha, rfl⟩ := ask_argHome_eq_error he
        exact .argument hop ha
      · cases he
  | reg name | imm v | label name | string c | slot name offset =>
      exact (unsupported_ends (Q := fun _ => True) hop).of_error he

/-! ### Values -/

/-- A value is loaded by one instruction. -/
theorem emitsAll_loadFrom {r : Reg} {src : X86.Operand} (hr : r ∈ callerSavedRegs)
    (hsrc : s.Reads i w src) : s.EmitsAll i (loadFrom r src w) := by
  unfold loadFrom
  split
  next hw => simpa using Emits.extend hr hw hsrc
  next => simpa using Emits.copy hr hsrc

/-- A register is normalized by an instruction at most. -/
theorem emitsAll_normalize {r : Reg} (hr : r ∈ callerSavedRegs) :
    s.EmitsAll i (normalize r w) := by
  unfold normalize
  split
  next hw => simpa using Emits.extend hr hw (.temp hr)
  next => exact emitsAll_nil

/-- The address of a slot. -/
theorem frameAddr_ends {name : RegName} {offset : UInt32} (hop : .slot name offset ∈ i.operands) :
    Ends (liftM (X86.Operand.frameAddr offset)) (fun src => ∃ disp, src = .mem none .rbp disp)
      (s.Rejects i) := by
  refine Ends.liftM (fun src hsrc => ?_) fun f hf => ?_
  · obtain ⟨disp, -, hdisp⟩ := bind_eq_ok_iff.mp hsrc
    exact ⟨disp, (pure_eq_ok_iff.mp hdisp).symm⟩
  · obtain hf | ⟨disp, -, hf⟩ := bind_eq_error_iff.mp hf
    · exact .slotAddress hop hf
    · cases hf

/-- The value of an operand is brought into a register. -/
theorem loadInto_ends {r : Reg} (hr : r ∈ callerSavedRegs) (hop : op ∈ i.operands) :
    Ends (s.loadInto i.opcode r op w) (s.EmitsAll i) (s.Rejects i) := by
  -- what is kept somewhere is loaded from there, unless it is in the register already
  have hlocated : Ends (do
      let loc ← s.location i.opcode op
      if loc = .reg r ∧ !w.isNarrow then return [] else return loadFrom r (loc.operand w) w)
      (s.EmitsAll i) (s.Rejects i) := by
    refine (location_ends hop).bind fun loc hloc => ?_
    split
    · exact Ends.pure emitsAll_nil
    · exact Ends.pure (emitsAll_loadFrom hr (.located hop hloc))
  cases op with
  | imm v =>
      refine Ends.pure ?_
      simpa using Emits.constant hr w v
  | slot name offset =>
      refine (frameAddr_ends hop).bind fun src hsrc => ?_
      obtain ⟨disp, rfl⟩ := hsrc
      refine Ends.pure ?_
      simpa using Emits.slotAddress hr disp
  | string c =>
      refine Ends.pure ?_
      simpa using Emits.stringAddress hr c.name
  | general _ | pointer _ | argument _ | reg _ | label _ => exact hlocated

/-- The value of an operand is brought into a register as an unsigned number. -/
theorem loadUnsigned_ends {r : Reg} (hr : r ∈ callerSavedRegs) (hop : op ∈ i.operands) :
    Ends (s.loadUnsigned i.opcode r op w) (s.EmitsAll i) (s.Rejects i) := by
  unfold loadUnsigned
  split
  next hw =>
    split
    next v =>
      refine Ends.pure ?_
      simpa using Emits.bits hr hw v
    case h_2 | h_3 | h_4 =>
      refine (location_ends hop).bind fun loc hloc => Ends.pure ?_
      simpa using Emits.zeroExtend hr hw (.located hop hloc)
    next => exact unsupported_ends hop
  next => exact loadInto_ends hr hop

/-- A constant is a second operand if it fits, and is loaded otherwise. -/
theorem rightOperand_imm {opcode : Opcode} {v : Int64} :
    s.rightOperand opcode (.imm v) w =
      .ok (if fitsSigned32 (w.widen.signExtend v) then ([], .imm (w.widen.signExtend v))
        else ([.mov (.reg scratch2 w.widen) (.imm (w.widen.signExtend v))],
          .reg scratch2 w.widen)) := by
  unfold rightOperand
  dsimp only
  split <;> rfl

/-- A constant as a second operand. -/
theorem rightOperand_imm_ends {opcode : Opcode} {v : Int64} :
    Ends (s.rightOperand opcode (.imm v) w)
      (fun r => s.EmitsAll i r.1 ∧ s.Right i w.widen r.2) (s.Rejects i) := by
  rw [rightOperand_imm]
  split
  next hv => exact ⟨emitsAll_nil, .imm hv⟩
  next =>
    refine ⟨?_, .value (.temp scratch2_mem)⟩
    simpa using Emits.constant scratch2_mem w v

/-- A second operand of arithmetic. -/
theorem rightOperand_ends (hop : op ∈ i.operands) :
    Ends (s.rightOperand i.opcode op w)
      (fun r => s.EmitsAll i r.1 ∧ s.Right i w.widen r.2) (s.Rejects i) := by
  have hscratch : Ends (do return (← s.loadInto i.opcode scratch2 op w, .reg scratch2 w.widen))
      (fun r : Code × X86.Operand => s.EmitsAll i r.1 ∧ s.Right i w.widen r.2)
      (s.Rejects i) :=
    (loadInto_ends scratch2_mem hop).bind fun load hload =>
      Ends.pure ⟨hload, .value (.temp scratch2_mem)⟩
  have hlocated : Ends (do return ([], (← s.location i.opcode op).operand w.widen))
      (fun r : Code × X86.Operand => s.EmitsAll i r.1 ∧ s.Right i w.widen r.2)
      (s.Rejects i) :=
    (location_ends hop).bind fun loc hloc =>
      Ends.pure ⟨emitsAll_nil, .value (.located hop hloc)⟩
  cases op with
  | imm v => exact rightOperand_imm_ends
  | general _ | pointer _ | argument _ =>
      unfold rightOperand
      dsimp only
      split
      · exact hscratch
      · exact hlocated
  | reg _ | label _ | string _ | slot _ _ => exact hscratch

/-! ### Memory and results -/

/-- Memory behind the pointer of the instruction. -/
theorem memoryAt_ends {ptr : Operand} {disp : Nat} (hptr : i.pointer? = some ptr)
    (hdisp : disp + w.bytes ≤ i.dataType.size) :
    Ends (s.memoryAt i.opcode ptr disp w)
      (fun r => s.EmitsAll i r.1 ∧ s.Memory i w r.2) (s.Rejects i) := by
  have hop := Instruction.mem_operands_of_pointer? hptr
  -- whatever the memory is, it is the memory of the instruction
  suffices haddress : Ends (s.memoryAt i.opcode ptr disp w) (fun r => s.EmitsAll i r.1)
      (s.Rejects i) from
    haddress.with_eq.mono fun r hr => ⟨hr.2, ptr, disp, r.1, hptr, hdisp, hr.1⟩
  cases ptr with
  | slot name offset =>
      refine Ends.bind (Q := fun _ => True) (Ends.liftM (fun _ _ => trivial) fun f hf => ?_)
        fun place _ => Ends.pure emitsAll_nil
      exact .slotAccess hptr (by omega) hf
  | string c => exact (loadInto_ends scratch_mem hop).bind fun load hload => Ends.pure hload
  | general _ | pointer _ | argument _ | reg _ | label _ | imm _ =>
      rw [memoryAt_of_located (by simp) (by simp)]
      refine (location_ends hop).bind fun loc hloc => ?_
      cases loc with
      | reg r => exact Ends.pure emitsAll_nil
      | slot offset =>
          have hmove : s.Emits i (.mov (.qword scratch) (.slotAt offset .qword)) :=
            .copy scratch_mem (.located hop hloc)
          exact Ends.pure (emitsAll_cons.mpr ⟨hmove, emitsAll_nil⟩)

/-- A result is written where the destination is kept. -/
theorem storeResult_ends {src : Reg} (hsrc : src ∈ callerSavedRegs) :
    Ends (s.storeResult i.opcode i.dest src w) (s.EmitsAll i) (s.Rejects i) := by
  refine required_ends.bind fun dest hdest => ?_
  have hop : dest ∈ i.operands := Instruction.mem_operands_of_dest hdest
  refine (location_ends hop).bind fun loc hloc => ?_
  split
  · exact Ends.pure emitsAll_nil
  · refine Ends.pure ?_
    simpa using Emits.result hdest hloc hsrc w

/-- A value is loaded into the destination. -/
theorem loadToDest_ends {mem : X86.Operand} (hmem : s.Memory i w mem) :
    Ends (s.loadToDest i.opcode i.dest mem w) (s.EmitsAll i) (s.Rejects i) := by
  refine required_ends.bind fun dest hdest => ?_
  have hop : dest ∈ i.operands := Instruction.mem_operands_of_dest hdest
  refine (location_ends hop).bind fun loc hloc => ?_
  cases loc with
  | reg r => exact Ends.pure fun x hx => .loaded hdest hloc hmem hx
  | slot offset =>
      refine (storeResult_ends scratch_mem).bind fun store hstore => Ends.pure ?_
      exact emitsAll_append.mpr ⟨emitsAll_loadFrom scratch_mem (.memory hmem), hstore⟩

/-- A value is stored to memory. -/
theorem storeValue_ends {mem : X86.Operand} (hmem : s.Memory i w mem) (hop : op ∈ i.operands) :
    Ends (s.storeValue i.opcode mem op w) (s.EmitsAll i) (s.Rejects i) := by
  have hstore : s.Emits i (.mov mem (.reg scratch2 w)) := .storeReg hmem (.temp scratch2_mem)
  have hscratch : Ends (do
      return (← s.loadInto i.opcode scratch2 op w) ++ [.mov mem (.reg scratch2 w)])
      (s.EmitsAll i) (s.Rejects i) := by
    refine (loadInto_ends scratch2_mem hop).bind fun load hload => Ends.pure ?_
    simpa using ⟨hload, hstore⟩
  cases op with
  | imm v =>
      unfold storeValue
      dsimp only
      split
      next hv =>
        refine Ends.pure ?_
        simpa using Emits.storeImm hmem hv
      next => exact hscratch
  | general _ | pointer _ =>
      refine (location_ends hop).bind fun loc hloc => ?_
      cases loc with
      | reg r =>
          refine Ends.pure ?_
          simpa using Emits.storeReg hmem (.located hop hloc)
      | slot offset =>
          refine Ends.pure ?_
          simpa using ⟨Emits.copy scratch2_mem (.located hop hloc), hstore⟩
  | argument _ | reg _ | label _ | string _ | slot _ _ => exact hscratch

/-- A field that an index selects is inside the type. -/
theorem fieldAt_ends (index : Nat) :
    Ends (do
      match i.dataType.fieldOffset? index, i.dataType.fieldType? index with
      | some offset, some type => return (offset, ← s.valueWidth i.opcode type)
      | _, _ => s.unsupportedType i.opcode i.dataType)
      (fun r => r.1 + r.2.bytes ≤ i.dataType.size) (s.Rejects i) := by
  split
  next offset type hoffset htype =>
    refine valueWidth_ends.bind fun w hw => Ends.pure ?_
    rw [hw]
    exact Ty.fieldOffset_add_size_le hoffset htype
  next => exact Rejects.type _

/-- The field that an instruction selects. -/
theorem field_ends :
    Ends (s.field i) (fun r => r.1 + r.2.bytes ≤ i.dataType.size) (s.Rejects i) := by
  refine required_ends.bind fun x hx => ?_
  have hop := Instruction.mem_operands_of_source hx (.inr (.inl rfl))
  cases x with
  | imm v =>
      dsimp only
      split
      · exact (Ends.pure (Q := fun _ => True) trivial).bind fun index _ => fieldAt_ends index
      · exact (unsupported_ends (Q := fun _ => True) hop).bind fun index _ => fieldAt_ends index
  | general _ | pointer _ | argument _ | reg _ | label _ | string _ | slot _ _ =>
      exact (unsupported_ends (Q := fun _ => True) hop).bind fun index _ => fieldAt_ends index

/-- The address of an element. -/
theorem scaleIndex_ends (hgep : i.opcode = .gep) (hop : op ∈ i.operands) :
    Ends (s.scaleIndex i.opcode op (Int64.ofNat i.dataType.size)) (s.EmitsAll i)
      (s.Rejects i) := by
  have hadd : ∀ {right}, s.Right i .qword right → s.Emits i (.alu .add (.qword scratch) right) :=
    fun hright => .alu (w := .qword) .add scratch_mem hright
  have hscaled : Ends (do
      let load ← s.loadInto i.opcode scratch2 op .qword
      let scale : Code :=
        if Int64.ofNat i.dataType.size = 1 then []
        else [.imul3 (.qword scratch2) (.qword scratch2) (Int64.ofNat i.dataType.size)]
      return load ++ scale ++ [.alu .add (.qword scratch) (.qword scratch2)])
      (s.EmitsAll i) (s.Rejects i) := by
    refine (loadInto_ends scratch2_mem hop).bind fun load hload => Ends.pure ?_
    have hscale : s.Emits i
        (.imul3 (.qword scratch2) (.qword scratch2) (Int64.ofNat i.dataType.size)) :=
      .scale .qword scratch2_mem (.inr ⟨hgep, rfl⟩)
    have hlast := hadd (.value (.temp scratch2_mem))
    simp only [emitsAll_append, emitsAll_cons]
    refine ⟨⟨hload, ?_⟩, hlast, emitsAll_nil⟩
    split
    · exact emitsAll_nil
    · exact emitsAll_cons.mpr ⟨hscale, emitsAll_nil⟩
  cases op with
  | imm n =>
      unfold scaleIndex
      dsimp only
      split
      · exact Ends.pure emitsAll_nil
      · refine rightOperand_imm_ends.bind fun r hright => ?_
        obtain ⟨hload, hright⟩ := hright
        refine Ends.pure ?_
        simpa using ⟨hload, hadd hright⟩
  | general _ | pointer _ | argument _ | reg _ | label _ | string _ | slot _ _ => exact hscaled

/-! ### Instructions -/

/-- Arithmetic in a register is one instruction. -/
theorem emits_arithInstr {o : ArithOp} {r : Reg} {right : X86.Operand}
    (hr : r ∈ callerSavedRegs) (hright : s.Right i w.widen right) :
    s.Emits i (arithInstr o (.reg r w.widen) right) := by
  cases right with
  | imm v =>
      have hv : fitsSigned32 v = true := by
        cases hright with
        | imm hv => exact hv
        | value hsrc => exact absurd rfl (hsrc.ne_imm v)
      cases o with
      | add | sub | and | or | xor => exact .alu _ hr hright
      | smul | umul => exact .scale w hr (.inl hv)
  | reg _ _ | mem _ _ _ | rip _ => cases o <;> exact .alu _ hr hright

/-- The code of an arithmetic operation on two operands. -/
theorem arithmetic_ends {o : ArithOp} :
    Ends (s.arithmetic o i) (s.Shape i isLast) (s.Rejects i) := by
  refine intWidth_ends.bind fun w _ => ?_
  refine required_ends.bind fun left hleft => ?_
  refine required_ends.bind fun right hright => ?_
  have hopLeft := Instruction.mem_operands_of_source hleft (.inl rfl)
  have hopRight := Instruction.mem_operands_of_source hright (.inr (.inl rfl))
  refine (loadInto_ends scratch_mem hopLeft).bind fun loadLeft hloadLeft => ?_
  refine (rightOperand_ends hopRight).bind fun r hr => ?_
  obtain ⟨hloadRight, hvalue⟩ := hr
  refine (storeResult_ends scratch_mem).bind fun store hstore => Ends.pure (.plain ?_)
  simp only [emitsAll_append, emitsAll_cons]
  exact ⟨⟨⟨⟨hloadLeft, hloadRight⟩, emits_arithInstr scratch_mem hvalue, emitsAll_nil⟩,
    emitsAll_normalize scratch_mem⟩, hstore⟩

/-- The division itself. -/
theorem emitsAll_divideCode {signed : Bool} : s.EmitsAll i (divideCode signed w) := by
  have hrdx : Reg.rdx ∈ callerSavedRegs := by decide
  unfold divideCode
  split
  · refine emitsAll_cons.mpr ⟨.signRax ?_, emitsAll_cons.mpr ⟨?_, emitsAll_nil⟩⟩
    · split
      · exact .inr rfl
      · exact .inl rfl
    · exact .divide scratch_mem (.inl rfl)
  · refine emitsAll_cons.mpr ⟨?_, emitsAll_cons.mpr ⟨?_, emitsAll_nil⟩⟩
    · exact .alu (w := .dword) .xor hrdx (.value (.temp hrdx))
    · exact .divide scratch_mem (.inr rfl)

/-- Code that keeps `rax` on the stack meanwhile, or does not. -/
theorem shape_keepingRax {inner rest : Code} (keep : Bool) (hinner : s.EmitsAll i inner)
    (hrest : s.EmitsAll i rest) :
    s.Shape i isLast ((if keep then [.push (.qword .rax)] else []) ++ inner
      ++ (if keep then [.pop (.qword .rax)] else []) ++ rest) := by
  cases keep with
  | true => exact .division hinner hrest
  | false =>
      refine .plain ?_
      simpa using ⟨hinner, hrest⟩

/-- The code of a division. -/
theorem division_ends {o : DivOp} :
    Ends (s.division o i) (s.Shape i isLast) (s.Rejects i) := by
  have hrax : Reg.rax ∈ callerSavedRegs := by decide
  refine intWidth_ends.bind fun w _ => ?_
  refine required_ends.bind fun dividend hdividend => ?_
  refine required_ends.bind fun divisor hdivisor => ?_
  refine required_ends.bind fun dest hdest => ?_
  refine (location_ends (Instruction.mem_operands_of_dest hdest)).bind fun loc _ => ?_
  -- signed and unsigned operands are loaded alike
  have hload : ∀ {r : Reg} {op : Operand}, r ∈ callerSavedRegs → op ∈ i.operands →
      Ends ((if o.isSigned then s.loadInto i.opcode else s.loadUnsigned i.opcode) r op w)
        (s.EmitsAll i) (s.Rejects i) := by
    intro r op hr hop
    split
    · exact loadInto_ends hr hop
    · exact loadUnsigned_ends hr hop
  refine (hload scratch_mem
    (Instruction.mem_operands_of_source hdivisor (.inr (.inl rfl)))).bind fun load₁ hload₁ => ?_
  refine (hload hrax
    (Instruction.mem_operands_of_source hdividend (.inl rfl))).bind fun load₂ hload₂ => ?_
  refine (storeResult_ends scratch_mem).bind fun store hstore => Ends.pure ?_
  have hresult : (if o.isQuotient then Reg.rax else Reg.rdx) ∈ callerSavedRegs := by
    split <;> decide
  generalize (if o.isQuotient then Reg.rax else Reg.rdx) = result at hresult ⊢
  have hinner : s.EmitsAll i (load₁ ++ load₂ ++ divideCode o.isSigned w
      ++ [.mov (.reg scratch w.widen) (.reg result w.widen)]) := by
    simp only [emitsAll_append, emitsAll_cons]
    exact ⟨⟨⟨hload₁, hload₂⟩, emitsAll_divideCode⟩, .copy scratch_mem (.temp hresult),
      emitsAll_nil⟩
  have hrest : s.EmitsAll i (normalize scratch w ++ store) :=
    emitsAll_append.mpr ⟨emitsAll_normalize scratch_mem, hstore⟩
  simpa only [List.append_assoc] using shape_keepingRax (loc != .reg .rax) hinner hrest

/-- The code of an operation on one operand. -/
theorem unary_ends {o : UnaryOp} :
    Ends (s.unary o i) (s.Shape i isLast) (s.Rejects i) := by
  refine intWidth_ends.bind fun w _ => ?_
  refine required_ends.bind fun src hsrc => ?_
  have hop := Instruction.mem_operands_of_source hsrc (.inl rfl)
  refine (loadInto_ends scratch_mem hop).bind fun load hload => ?_
  refine (storeResult_ends scratch_mem).bind fun store hstore => Ends.pure (.plain ?_)
  simp only [emitsAll_append, emitsAll_cons]
  exact ⟨⟨⟨hload, .unary o scratch_mem w, emitsAll_nil⟩, emitsAll_normalize scratch_mem⟩, hstore⟩

/-- The code of a load. -/
theorem load_ends (hop : i.opcode = .load) :
    Ends (s.load i) (s.Shape i isLast) (s.Rejects i) := by
  refine valueWidth_ends.bind fun w hw => ?_
  refine required_ends.bind fun src hsrc => ?_
  have hptr : i.pointer? = some src := by rw [Instruction.pointer?, hop, hsrc]
  refine (memoryAt_ends hptr (by omega)).bind fun r hr => ?_
  refine (loadToDest_ends hr.2).bind fun load hload => Ends.pure (.plain ?_)
  exact emitsAll_append.mpr ⟨hr.1, hload⟩

/-- The code of a store. -/
theorem store_ends (hop : i.opcode = .store) :
    Ends (s.store i) (s.Shape i isLast) (s.Rejects i) := by
  refine valueWidth_ends.bind fun w hw => ?_
  refine required_ends.bind fun value hvalue => ?_
  refine required_ends.bind fun dest hdest => ?_
  have hptr : i.pointer? = some dest := by rw [Instruction.pointer?, hop, hdest]
  refine (memoryAt_ends hptr (by omega)).bind fun r hr => ?_
  have hopValue := Instruction.mem_operands_of_source hvalue (.inl rfl)
  refine (storeValue_ends hr.2 hopValue).bind fun store hstore => Ends.pure (.plain ?_)
  exact emitsAll_append.mpr ⟨hr.1, hstore⟩

/-- The code of a load of a field. -/
theorem structLoad_ends (hop : i.opcode = .structLoad) :
    Ends (s.structLoad i) (s.Shape i isLast) (s.Rejects i) := by
  refine field_ends.bind fun field hfield => ?_
  refine required_ends.bind fun src hsrc => ?_
  have hptr : i.pointer? = some src := by rw [Instruction.pointer?, hop, hsrc]
  refine (memoryAt_ends hptr hfield).bind fun r hr => ?_
  refine (loadToDest_ends hr.2).bind fun load hload => Ends.pure (.plain ?_)
  exact emitsAll_append.mpr ⟨hr.1, hload⟩

/-- The code of a store to a field. -/
theorem structStore_ends (hop : i.opcode = .structStore) :
    Ends (s.structStore i) (s.Shape i isLast) (s.Rejects i) := by
  refine field_ends.bind fun field hfield => ?_
  refine required_ends.bind fun ptr hsrc => ?_
  refine required_ends.bind fun value hvalue => ?_
  have hptr : i.pointer? = some ptr := by rw [Instruction.pointer?, hop, hsrc]
  refine (memoryAt_ends hptr hfield).bind fun r hr => ?_
  have hopValue := Instruction.mem_operands_of_source hvalue (.inr (.inr rfl))
  refine (storeValue_ends hr.2 hopValue).bind fun store hstore => Ends.pure (.plain ?_)
  exact emitsAll_append.mpr ⟨hr.1, hstore⟩

/-- The code of an address of an element. -/
theorem gep_ends (hgep : i.opcode = .gep) :
    Ends (s.gep i) (s.Shape i isLast) (s.Rejects i) := by
  refine required_ends.bind fun ptr hptr => ?_
  refine required_ends.bind fun index hindex => ?_
  have hopPtr := Instruction.mem_operands_of_source hptr (.inl rfl)
  have hopIndex := Instruction.mem_operands_of_source hindex (.inr (.inl rfl))
  refine (loadInto_ends scratch_mem hopPtr).bind fun load hload => ?_
  refine (scaleIndex_ends hgep hopIndex).bind fun scale hscale => ?_
  refine (storeResult_ends scratch_mem).bind fun store hstore => Ends.pure (.plain ?_)
  simp only [emitsAll_append]
  exact ⟨⟨hload, hscale⟩, hstore⟩

/-! ### Control flow -/

/-- The label that a branch names. -/
theorem target_ends {src : Option Operand} (hsrc : src = i.src1 ∨ src = i.src2 ∨ src = i.src3)
    (htarget : i.branch? = src) :
    Ends (s.target i.opcode src) (s.Target i isLast) (s.Rejects i) := by
  refine required_ends.bind fun op hop => ?_
  have hmem := Instruction.mem_operands_of_source hop hsrc
  cases op with
  | label name =>
      dsimp only
      split
      next hblock => exact Ends.pure (.block (htarget.trans hop) hblock)
      next hblock => exact Rejects.block (htarget.trans hop) (by simpa using hblock)
  | imm _ | reg _ | string _ | slot _ _ | general _ | argument _ | pointer _ =>
      exact unsupported_ends hmem

/-- The code of a jump. -/
theorem jump_ends (hop : i.opcode = .br) :
    Ends (s.jump i) (s.Shape i isLast) (s.Rejects i) := by
  have htarget : Ends (s.target i.opcode i.src1) (s.Target i isLast) (s.Rejects i) :=
    target_ends (.inl rfl) (by simp only [Instruction.branch?, hop])
  refine htarget.bind fun target htarget => Ends.pure ?_
  have hshape : s.Shape i isLast ([] ++ [.jmp target]) := .jump emitsAll_nil rfl htarget
  exact hshape

/-- The code of a conditional branch. -/
theorem branch_ends {rel : Relation} (hop : i.opcode = .branch rel) :
    Ends (s.branch rel i) (s.Shape i isLast) (s.Rejects i) := by
  refine intWidth_ends.bind fun w _ => ?_
  refine required_ends.bind fun left hleft => ?_
  refine required_ends.bind fun right hright => ?_
  have htarget : Ends (s.target i.opcode i.src3) (s.Target i isLast) (s.Rejects i) :=
    target_ends (.inr (.inr rfl)) (by simp only [Instruction.branch?, hop])
  refine htarget.bind fun target htarget => ?_
  have hopLeft := Instruction.mem_operands_of_source hleft (.inl rfl)
  have hopRight := Instruction.mem_operands_of_source hright (.inr (.inl rfl))
  refine (loadInto_ends scratch_mem hopLeft).bind fun loadLeft hloadLeft => ?_
  refine (rightOperand_ends hopRight).bind fun r hr => Ends.pure ?_
  have hcode : s.EmitsAll i (loadLeft ++ r.1 ++ [.cmp (.reg scratch w.widen) r.2]) := by
    simp only [emitsAll_append, emitsAll_cons]
    exact ⟨⟨hloadLeft, hr.1⟩, .compare scratch_mem hr.2, emitsAll_nil⟩
  have hshape := Shape.jump (x := .jcc (condition rel) target) hcode rfl htarget
  simpa using hshape

/-- A return jumps to the epilogue, or falls into it. -/
theorem shape_leave (hop : i.opcode = .ret ∨ i.opcode = .retVoid) (hcode : s.EmitsAll i code) :
    s.Shape i isLast (code ++ s.leave isLast) := by
  unfold leave
  split
  next =>
    rw [List.append_nil]
    exact .plain hcode
  next hlast =>
    refine .jump hcode rfl (.epilogue ?_)
    obtain hop | hop := hop <;> simp [isEarlyReturn, hop, hlast]

/-- The code of a return with a value. -/
theorem ret_ends (hop : i.opcode = .ret) :
    Ends (s.ret i isLast) (s.Shape i isLast) (s.Rejects i) := by
  have hrax : returnReg ∈ callerSavedRegs := by decide
  refine valueWidth_ends.bind fun w _ => ?_
  refine required_ends.bind fun value hvalue => ?_
  have hopValue := Instruction.mem_operands_of_source hvalue (.inl rfl)
  dsimp only
  split
  · refine (Ends.pure (emitsAll_nil (s := s) (i := i))).bind fun load hload => ?_
    exact Ends.pure (shape_leave (.inl hop) hload)
  · refine (loadInto_ends hrax hopValue).bind fun load hload => ?_
    exact Ends.pure (shape_leave (.inl hop) hload)

/-! ### Calls -/

/-- The code that pushes an argument. -/
theorem pushArg_ends (hop : op ∈ i.operands) :
    Ends (s.pushArg i.opcode op) (s.Pushes i) (s.Rejects i) := by
  have hscratch : Ends (do
      return (← s.loadInto i.opcode scratch op .qword) ++ [.push (.qword scratch)])
      (s.Pushes i) (s.Rejects i) :=
    (loadInto_ends scratch_mem hop).bind fun load hload =>
      Ends.pure (.loaded hload scratch_mem)
  cases op with
  | imm v =>
      unfold pushArg
      dsimp only
      split
      next hv => exact Ends.pure (.imm hv)
      next => exact hscratch
  | general _ | pointer _ | argument _ | reg _ | label _ | string _ | slot _ _ => exact hscratch

/-- The code of a call. -/
theorem call_ends (hop : i.opcode = .call) :
    Ends (s.call i) (s.Shape i isLast) (s.Rejects i) := by
  unfold call
  split
  next => exact Rejects.missing
  next c hc =>
    have hargs : ∀ {arg : Operand}, arg ∈ c.args → arg ∈ i.operands := by
      intro arg harg
      simp [Instruction.operands, Instruction.args, hc, harg]
    have hregs : ∀ r ∈ argRegs, r ∈ callerSavedRegs := by decide
    have hrax : returnReg ∈ callerSavedRegs := by decide
    dsimp only
    refine (Ends.mapM fun arg harg => pushArg_ends (hargs ?_)).bind fun pushes hpushes => ?_
    · exact List.mem_of_mem_drop (List.mem_reverse.mp harg)
    refine (Ends.mapM (R := s.EmitsAll i) fun p hp => ?_).bind fun loads hloads => ?_
    · obtain ⟨hr, harg⟩ := List.of_mem_zip hp
      exact loadInto_ends (hregs _ hr) (hargs harg)
    have hlen : pushes.length = (c.args.drop maxRegArgs).length := by
      rw [hpushes.1, List.length_reverse]
    have hcount : pushes.length = (i.args.drop maxRegArgs).length := by
      rw [hlen, Instruction.args, hc]
    have hinner : s.EmitsAll i
        (loads.flatten ++ [.alu .xor (.reg returnReg .dword) (.reg returnReg .dword)]) := by
      refine emitsAll_append.mpr ⟨?_, emitsAll_cons.mpr ⟨?_, emitsAll_nil⟩⟩
      · intro x hx
        obtain ⟨load, hload, hx⟩ := List.mem_flatten.mp hx
        exact hloads.2 load hload x hx
      · exact .alu (w := .dword) .xor hrax (.value (.temp hrax))
    rw [← hlen]
    have hshape : ∀ {store : Code}, s.EmitsAll i store →
        s.Shape i isLast (adjustStack .sub (callPadding pushes.length) ++ pushes.flatten
          ++ loads.flatten ++ [.alu .xor (.reg returnReg .dword) (.reg returnReg .dword),
            .call c.callee]
          ++ adjustStack .add (8 * pushes.length + callPadding pushes.length) ++ store) := by
      intro store hstore
      simpa using @Shape.call s i isLast c.callee pushes _ _ hpushes.2 hinner hstore hop hcount
    split
    · refine valueWidth_ends.bind fun w _ => ?_
      exact (storeResult_ends hrax).bind fun store hstore => Ends.pure (hshape hstore)
    · exact Ends.pure (hshape emitsAll_nil)

/-- **Selection.** The code of an instruction has one of the shapes, or the instruction is
rejected for one of the reasons. -/
theorem selectRaw_ends : Ends (s.selectRaw i isLast) (s.Shape i isLast) (s.Rejects i) := by
  unfold selectRaw
  split
  next hop => exact ret_ends hop
  next hop =>
    have hshape : s.Shape i isLast ([] ++ s.leave isLast) := shape_leave (.inr hop) emitsAll_nil
    exact Ends.pure hshape
  next => exact Ends.pure (.plain emitsAll_nil)
  next hop => exact load_ends hop
  next hop => exact store_ends hop
  next hop => exact structLoad_ends hop
  next hop => exact structStore_ends hop
  next hop => exact gep_ends hop
  next => exact arithmetic_ends
  next => exact division_ends
  next => exact unary_ends
  next hop => exact jump_ends hop
  next hop => exact branch_ends hop
  next hop => exact call_ends hop

end Scope

/-- Every piece of the code of a function has the shape of the code of an instruction. -/
theorem Func.shape_of_mem {f : Func} {c : FuncCode} {code : Code} (h : f.select = .ok c)
    (hcode : code ∈ c.code) :
    ∃ i ∈ f.instructions, ∃ isLast,
      Scope.Shape { func := f, frame := c.frame } i isLast code := by
  obtain ⟨i, hi, isLast, hraw⟩ := Func.select_mem h hcode
  exact ⟨i, hi, isLast, Scope.selectRaw_ends.of_ok hraw⟩

end RegIR
