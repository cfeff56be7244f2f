import RegIR.Proofs.Frame.Isolation
import RegIR.Proofs.Select.Demand
import RegIR.Proofs.Select.Emitted
import RegIR.Proofs.Storage.Substitution

/-!
# Callee-saved registers

A function must leave some machine registers as it found them. Those that it uses are stored in
its frame on entry and loaded again at the end. The registers in use are counted by the scan of
the operands, so every register that the code of the body writes is among them; and what the
body stores in the frame stays clear of the places where they are kept.

## Main results

* `X86.Frame.keeps_of_mem_saved`: a register in use is stored once the frame is set up and
  loaded again before it is left.
* `Func.mem_saved_of_writes`: the code of a body writes no callee-saved register but those in
  use.
* `Func.store_disjoint_saveSlot`: what the body stores in the frame overlaps no saved register.
* `Module.calleeSaved_preserved`: all three for a lowered function.
-/

namespace RegIR

open X86

/-! ### Frames -/

/-- The two pointers are not among the callee-saved registers. -/
theorem X86.Reg.ne_pointers_of_isCalleeSaved {r : Reg} (h : r.isCalleeSaved = true) :
    ¬ (r = .rsp ∨ r = .rbp) := by
  rintro (rfl | rfl) <;> cases h

namespace X86.Frame

variable {f : Frame} {r : Reg} {w : UInt32} {x : Instr}

/-- A general register that has been counted is in use. -/
theorem mem_saved_of_general {index : UInt32} (h : generalRegs[index.toNat]? = some r)
    (hlt : index < f.general) (hr : r.isCalleeSaved = true) : r ∈ f.saved := by
  refine List.mem_filter.mpr ⟨List.mem_append_left _ ?_, hr⟩
  refine List.mem_of_getElem? (i := index.toNat) ?_
  rw [List.getElem?_take_of_lt (UInt32.lt_iff_toNat_lt.mp hlt), h]

/-- A pointer register that has been counted is in use. -/
theorem mem_saved_of_pointer {index : UInt32} (h : pointerRegs[index.toNat]? = some r)
    (hlt : index < f.pointer) (hr : r.isCalleeSaved = true) : r ∈ f.saved := by
  refine List.mem_filter.mpr ⟨List.mem_append_right _ ?_, hr⟩
  refine List.mem_of_getElem? (i := index.toNat) ?_
  rw [List.getElem?_take_of_lt (UInt32.lt_iff_toNat_lt.mp hlt), h]

/-- A register is saved once. -/
theorem nodup_saved (f : Frame) : f.saved.Nodup := by
  have hall : (generalRegs ++ pointerRegs).Nodup := by decide
  refine (hall.sublist ?_).filter _
  exact (List.take_sublist _ _).append (List.take_sublist _ _)

/-- The place of a register in use is the word of its number. -/
theorem saveSlot_of_getElem? {i : Nat} (h : f.saved[i]? = some r) :
    f.saveSlot r = some (wordAt f.savesBase i) := by
  obtain ⟨hi, hget⟩ := List.getElem?_eq_some_iff.mp h
  have hfind : f.saved.findIdx? (· == r) = some i := by
    refine List.findIdx?_eq_some_iff_getElem.mpr ⟨hi, by simp [hget], fun j hj => ?_⟩
    simp only [Bool.not_eq_true, beq_eq_false_iff_ne]
    intro heq
    -- the same register at two positions is the same position
    have hsame : j = i := by
      refine (List.getElem?_inj (by omega) f.nodup_saved).mp ?_
      rw [h, List.getElem?_eq_getElem (by omega), heq]
    omega
  rw [saveSlot, hfind]
  rfl

/-- `f.Keeps r w`: the frame keeps the register `r` in the word `w`. The prologue stores it
there, as the caller left it, and the epilogue loads it from there, and from nowhere else. -/
structure Keeps (f : Frame) (r : Reg) (w : UInt32) : Prop where
  slot : f.saveSlot r = some w
  /-- The register is stored once the frame is set up; from there on the prologue changes none. -/
  stored : ∃ (size : Int64) (before after : List Instr),
    f.prologue = [.push (.qword .rbp), .mov (.qword .rbp) (.qword .rsp),
        .alu .sub (.qword .rsp) (.imm size)] ++ before ++
      .mov (.slotAt w .qword) (.qword r) :: after ∧
    ∀ x ∈ before ++ after, x.writes = []
  untouched : ∀ x ∈ f.prologue, r ∉ x.writes
  /-- It is loaded before the frame is given up, while the frame pointer is where it was. -/
  loaded : ∃ before after : List Instr,
    f.epilogue = before ++ .mov (.qword r) (.slotAt w .qword) :: after ++ [.leave, .ret] ∧
    ∀ x ∈ before ++ after, .rbp ∉ x.writes
  only : ∀ x ∈ f.epilogue, r ∈ x.writes → x = .mov (.qword r) (.slotAt w .qword)

/-- What the prologue stores changes no register. -/
theorem writes_stores (hx : x ∈ f.saveCode ++ f.homeCode) : x.writes = [] := by
  rw [List.mem_append, saveCode, homeCode, List.mem_mapIdx, List.mem_mapIdx] at hx
  obtain ⟨i, _, rfl⟩ | ⟨i, _, rfl⟩ := hx
  · rfl
  · rfl

/-- The prologue changes the stack pointer and the frame pointer. -/
theorem writes_prologue (hx : x ∈ f.prologue) (hr : r ∈ x.writes) : r = .rsp ∨ r = .rbp := by
  rw [prologue, List.append_assoc, List.mem_append] at hx
  obtain hx | hx := hx
  · simp only [List.mem_cons, List.not_mem_nil, or_false] at hx
    obtain rfl | rfl | rfl := hx
    · exact .inl (List.mem_singleton.mp hr)
    · exact .inr (List.mem_singleton.mp hr)
    · exact .inl (List.mem_singleton.mp hr)
  · rw [writes_stores hx] at hr
    cases hr

/-- What is loaded again changes the registers in use. -/
theorem writes_restoreCode (hx : x ∈ f.restoreCode) (hr : r ∈ x.writes) :
    ∃ i, f.saved[i]? = some r ∧
      x = .mov (.qword r) (.slotAt (wordAt f.savesBase i) .qword) := by
  obtain ⟨i, hi, rfl⟩ := List.mem_mapIdx.mp hx
  obtain rfl := List.mem_singleton.mp hr
  exact ⟨i, List.getElem?_eq_getElem hi, rfl⟩

/-- The epilogue changes the registers in use, the stack pointer and the frame pointer. -/
theorem writes_epilogue (hx : x ∈ f.epilogue) (hr : r ∈ x.writes) :
    (r = .rsp ∨ r = .rbp) ∨ ∃ i, f.saved[i]? = some r ∧
      x = .mov (.qword r) (.slotAt (wordAt f.savesBase i) .qword) := by
  simp only [epilogue, List.mem_append, List.mem_cons, List.not_mem_nil, or_false] at hx
  obtain hx | rfl | rfl := hx
  · exact .inr (writes_restoreCode hx hr)
  · have hleave : r ∈ [Reg.rsp, .rbp] := hr
    exact .inl (by simpa using hleave)
  · exact .inl (.inl (List.mem_singleton.mp hr))

/-- **Saved registers.** A register in use is stored and loaded again. -/
theorem keeps_of_mem_saved (h : r ∈ f.saved) : ∃ w, f.Keeps r w := by
  obtain ⟨i, hi⟩ := List.getElem?_of_mem h
  obtain ⟨hlt, hget⟩ := List.getElem?_eq_some_iff.mp hi
  have hpointers : ∀ r' ∈ f.saved, ¬ (r' = .rsp ∨ r' = .rbp) := fun r' hr' =>
    Reg.ne_pointers_of_isCalleeSaved (List.mem_filter.mp hr').2
  refine ⟨wordAt f.savesBase i, saveSlot_of_getElem? hi, ?_, ?_, ?_, ?_⟩
  · have hmem : .mov (.slotAt (wordAt f.savesBase i) .qword) (.qword r) ∈ f.saveCode :=
      List.mem_mapIdx.mpr ⟨i, hlt, by rw [hget]⟩
    obtain ⟨before, after, hsplit⟩ := List.append_of_mem hmem
    refine ⟨Int64.ofNat f.totalSize, before, after ++ f.homeCode, ?_, fun x hx => ?_⟩
    · rw [prologue, hsplit]
      simp only [List.append_assoc, List.cons_append]
    · refine writes_stores (f := f) ?_
      simp only [hsplit, List.mem_append, List.mem_cons] at hx ⊢
      rcases hx with hbefore | hafter | hhome
      · exact .inl (.inl hbefore)
      · exact .inl (.inr (.inr hafter))
      · exact .inr hhome
  · exact fun x hx hr => hpointers r h (writes_prologue hx hr)
  · have hmem : .mov (.qword r) (.slotAt (wordAt f.savesBase i) .qword) ∈ f.restoreCode :=
      List.mem_mapIdx.mpr ⟨i, hlt, by rw [hget]⟩
    obtain ⟨before, after, hsplit⟩ := List.append_of_mem hmem
    refine ⟨before, after, by rw [epilogue, hsplit], fun x hx hrbp => ?_⟩
    have hx : x ∈ f.restoreCode := by
      simp only [hsplit, List.mem_append, List.mem_cons] at hx ⊢
      exact hx.imp_right .inr
    obtain ⟨j, hj, -⟩ := writes_restoreCode hx hrbp
    exact hpointers _ (List.mem_of_getElem? hj) (.inr rfl)
  · intro x hx hr
    obtain hr | ⟨j, hj, rfl⟩ := writes_epilogue hx hr
    · exact absurd hr (hpointers r h)
    · have hsame : j = i := by
        have hlt' := (List.getElem?_eq_some_iff.mp hj).1
        exact (List.getElem?_inj hlt' f.nodup_saved).mp (hj.trans hi.symm)
      rw [hsame]

/-! ### Where registers are saved -/

/-- The places of the registers in use lie between the homes of the arguments and the registers
without a machine register. -/
theorem saveSlot_bounds (h : f.saveSlot r = some w) :
    f.savesBase + slotSize ≤ w.toNat ∧ w.toNat ≤ f.generalBase := by
  obtain ⟨i, hi, rfl⟩ := saveSlot_eq_some h
  obtain ⟨-, -, -, hgenerals, htotal⟩ := f.bases_le
  have hend : f.savesBase + slotSize * f.saved.length = f.generalBase := rfl
  rw [toNat_wordAt (f := f) hi (by omega)]
  simp only [slotSize] at hend ⊢
  omega

/-- Bytes above or below the places of the registers in use overlap none of them. -/
theorem saveSlot_disjoint {a : Span} (h : f.saveSlot r = some w)
    (ha : a.depth ≤ f.savesBase ∨ (f.generalBase : Int) ≤ a.depth - a.size) :
    Disjoint a.bytes (wordSpan w).bytes := by
  obtain ⟨hlow, hhigh⟩ := saveSlot_bounds h
  rw [Set.disjoint_left]
  rintro b ⟨hafter, hbefore⟩ ⟨hword, hword'⟩
  simp only [wordSpan, slotSize] at hlow hword hword'
  omega

end X86.Frame

/-- A value is at most a word wide. -/
theorem X86.Width.bytes_le (w : Width) : w.bytes ≤ slotSize := by
  cases w <;> decide

/-- The words that operands are kept in are not among the places of saved registers. -/
theorem Scope.location_slot_bounds {s : Scope} {opcode : Opcode} {op : Operand} {w : UInt32}
    (h : s.location opcode op = .ok (.slot w)) :
    (w.toNat ≤ s.frame.savesBase ∨ s.frame.generalBase + slotSize ≤ w.toNat) ∧
      w.toNat ≤ s.frame.totalSize := by
  obtain ⟨-, hhomes, hsaves, hgenerals, htotal⟩ := s.frame.bases_le
  obtain ⟨index, -, hloc⟩ | ⟨index, -, hloc⟩ | ⟨index, home, -, hhome, hloc⟩ := location_eq_ok h
  · obtain ⟨hi, rfl⟩ := Frame.generalLocation_eq_slot hloc
    have hend : s.frame.generalBase + slotSize * s.frame.generalOverflow ≤
        s.frame.totalSize := by
      have hpart : s.frame.generalBase + slotSize * s.frame.generalOverflow =
        s.frame.pointerBase := rfl
      omega
    obtain ⟨hlow, hhigh⟩ := Frame.wordAt_bounds hi hend
    exact ⟨.inr hlow, hhigh⟩
  · obtain ⟨hi, rfl⟩ := Frame.pointerLocation_eq_slot hloc
    obtain ⟨hlow, hhigh⟩ := Frame.wordAt_bounds hi htotal
    exact ⟨.inr (by omega), hhigh⟩
  · obtain rfl := Location.slot.inj hloc
    obtain ⟨hi, rfl⟩ := Frame.argHome_eq_ok hhome
    have hend : s.frame.homesBase + slotSize * s.frame.args = s.frame.savesBase := rfl
    rw [Frame.toNat_wordAt (f := s.frame) hi (by omega)]
    simp only [slotSize] at hend ⊢
    omega

/-- A store to the frame overlaps no saved register: the operands that are kept in the frame
have words of their own, and the slots of the variables lie above all words. -/
theorem Scope.Destination.disjoint_saveSlot {s : Scope} {i : Instruction} {o : Option Width}
    {disp : Int32} (h : s.Destination i (.mem o .rbp disp))
    (hslots : ∀ name offset, .slot name offset ∈ i.operands →
      offset.toNat ≤ s.frame.locals.toNat)
    (hsize : i.dataType.size ≤ 0x7fffffff) :
    ∃ w, o = some w ∧ ∀ r slot, s.frame.saveSlot r = some slot →
      Disjoint (accessSpan disp w).bytes (wordSpan slot).bytes := by
  have hmax := s.frame.size_le
  rw [maxFrameSize] at hmax
  generalize hop : X86.Operand.mem o .rbp disp = d at h
  cases h with
  | temp hr w => cases hop
  | @place dest loc hdest hloc w =>
      cases loc with
      | reg r => cases hop
      | slot home =>
          obtain ⟨rfl, -, rfl⟩ := X86.Operand.mem.inj hop
          obtain ⟨hclear, htotal⟩ := Scope.location_slot_bounds hloc
          have hw := w.bytes_le
          have hdepth := toInt_neg_toInt32 (w := home) (by omega)
          refine ⟨w, rfl, fun r slot hslot => Frame.saveSlot_disjoint hslot ?_⟩
          simp only [accessSpan]
          omega
  | @memory w mem hmem =>
      obtain ⟨ptr, n, address, hptr, hn, hmem⟩ := hmem
      obtain ⟨base, place, rfl, hplace⟩ := Scope.memoryAt_eq_ok hmem
      obtain ⟨rfl, rfl, rfl⟩ := X86.Operand.mem.inj hop
      obtain ⟨name, offset, rfl, -, hplace⟩ | hbase := hplace
      · have hoffset := hslots name offset (Instruction.mem_operands_of_pointer? hptr)
        obtain ⟨hlocals, hhomes, -⟩ := s.frame.bases_le
        have htotal := s.frame.locals_le_totalSize
        have hdisp : (Int32.ofNat n).toInt = n := Int32.toInt_ofNat_of_lt (by omega)
        rw [hdisp, toInt_toInt32 (by omega)] at hplace
        refine ⟨w, rfl, fun r slot hslot => Frame.saveSlot_disjoint hslot (.inl ?_)⟩
        simp only [accessSpan]
        omega
      · exact absurd hbase (by decide)

/-! ### The body of a function -/

namespace Func

variable {f : Func} {c : FuncCode} {x : Instr} {r : Reg}

/-- **Registers.** The code of a body writes no callee-saved register but those in use. -/
theorem mem_saved_of_writes (h : f.select = .ok c) (hx : x ∈ c.code.flatten)
    (hr : r ∈ x.writes) (hsaved : r.isCalleeSaved = true) : r ∈ c.frame.saved := by
  obtain ⟨code, hcode, hx⟩ := List.mem_flatten.mp hx
  obtain ⟨i, hi, isLast, hshape⟩ := shape_of_mem h hcode
  have hcounted := (counts_of_makeFrame (makeFrame_of_select h)).1
  have htemp : ∀ r ∈ .rsp :: callerSavedRegs, r.isCalleeSaved = false := by decide
  obtain rfl | hr | ⟨dest, hdest, hloc⟩ := hshape.writes hx hr
  · cases hsaved
  · rw [htemp r (List.mem_cons_of_mem _ hr)] at hsaved
    cases hsaved
  · have hop := hcounted dest (mem_operands hi (Instruction.mem_operands_of_dest hdest))
    obtain ⟨index, rfl, hreg⟩ | ⟨index, rfl, hreg⟩ := Scope.location_eq_reg hloc
    · exact Frame.mem_saved_of_general hreg hop hsaved
    · exact Frame.mem_saved_of_pointer hreg hop hsaved

/-- **Memory.** What the body stores in the frame overlaps no saved register, if the slots of
the variables lie inside the frame and types are not too large. -/
theorem store_disjoint_saveSlot {o : Option Width} {disp : Int32} (h : f.select = .ok c)
    (hslots : ∀ i ∈ f.instructions, ∀ name offset, .slot name offset ∈ i.operands →
      offset.toNat ≤ f.stackSize.toNat)
    (hsize : ∀ i ∈ f.instructions, i.dataType.size ≤ 0x7fffffff)
    (hx : x ∈ c.code.flatten) (hd : x.dst? = some (.mem o .rbp disp)) :
    ∃ w, o = some w ∧ ∀ r slot, c.frame.saveSlot r = some slot →
      Disjoint (accessSpan disp w).bytes (wordSpan slot).bytes := by
  obtain ⟨code, hcode, hx⟩ := List.mem_flatten.mp hx
  obtain ⟨i, hi, isLast, hshape⟩ := shape_of_mem h hcode
  have hlocals : c.frame.locals = f.stackSize := locals_makeFrame (makeFrame_of_select h)
  refine (hshape.mem_dst hx hd).disjoint_saveSlot (fun name offset hop => ?_) (hsize i hi)
  exact hlocals ▸ hslots i hi name offset hop

end Func

/-! ### Modules -/

/-- **Callee-saved registers are preserved.** In a lowered function with types that are not too
large, a callee-saved register that the body writes is kept in the frame; one that is not kept
is written nowhere; and no store to the frame in the body overlaps the place of a register that
is kept. -/
theorem Module.calleeSaved_preserved {m m' : Module} (h : m.lower = .ok m')
    (hplain : ∀ f ∈ m.functions, ∀ i ∈ f.instructions, ∀ op ∈ i.operands,
      op.isHardware = false)
    {f : Func} (hf : f ∈ m'.functions) (hbody : f.isExternal = false)
    (hsize : ∀ i ∈ f.instructions, i.dataType.size ≤ 0x7fffffff) {c : FuncCode}
    (hselect : f.select = .ok c) :
    (∀ x ∈ c.code.flatten, ∀ r ∈ x.writes, r.isCalleeSaved = true → ∃ w, c.frame.Keeps r w) ∧
    (∀ r, r.isCalleeSaved = true → c.frame.saveSlot r = none →
      ∀ x, .instr x ∈ c.lines → r ∉ x.writes) ∧
    ∀ x ∈ c.code.flatten, ∀ o disp, x.dst? = some (.mem o .rbp disp) →
      ∃ w, o = some w ∧ ∀ r slot, c.frame.saveSlot r = some slot →
        Disjoint (accessSpan disp w).bytes (wordSpan slot).bytes := by
  obtain ⟨f₀, hf₀, -, hlower⟩ := Module.exists_lower_of_mem h hf hbody
  have hlowers := Func.lowers_of_lower hlower
  refine ⟨fun x hx r hr hsaved => ?_, fun r hsaved hnone x hx hr => ?_,
    fun x hx o disp hd => ?_⟩
  · exact Frame.keeps_of_mem_saved (Func.mem_saved_of_writes hselect hx hr hsaved)
  · have hunused : r ∉ c.frame.saved := by
      intro hr
      obtain ⟨w, hw⟩ := Frame.keeps_of_mem_saved hr
      rw [hw.slot] at hnone
      cases hnone
    have hpointers := Reg.ne_pointers_of_isCalleeSaved hsaved
    obtain hx | hx | hx := FuncCode.mem_lines hx
    · exact hpointers (Frame.writes_prologue hx hr)
    · exact hunused (Func.mem_saved_of_writes hselect hx hr hsaved)
    · obtain hr | ⟨i, hi, -⟩ := Frame.writes_epilogue hx hr
      · exact hpointers hr
      · exact hunused (List.mem_of_getElem? hi)
  · refine Func.store_disjoint_saveSlot hselect (fun i hi name offset hop => ?_) hsize hx hd
    cases hlowers.place (hplain f₀ hf₀) hi hop rfl with
    | slot hoffset => exact hoffset

/-- A module whose function loads a variable five times and takes an address: it uses four
machine registers for general registers, one for a pointer register, and a word of the frame. -/
def manyRegisters : Module where
  name := "many"
  functions := [{
    name := "main"
    linkage := .exported
    returnType := .i64
    args := [(.i64, .named "n")]
    nextBlockId := 2
    blocks := [{
      name := "entry"
      id := 1
      instructions := [
        { opcode := .alloca, dataType := .i64, dest := some (.reg (.num 0)) },
        { opcode := .store, dataType := .i64, src1 := some (.reg (.named "n")),
          src2 := some (.reg (.num 0)) },
        { opcode := .load, dataType := .i64, dest := some (.reg (.num 1)),
          src1 := some (.reg (.num 0)) },
        { opcode := .load, dataType := .i64, dest := some (.reg (.num 2)),
          src1 := some (.reg (.num 0)) },
        { opcode := .load, dataType := .i64, dest := some (.reg (.num 3)),
          src1 := some (.reg (.num 0)) },
        { opcode := .load, dataType := .i64, dest := some (.reg (.num 4)),
          src1 := some (.reg (.num 0)) },
        { opcode := .load, dataType := .i64, dest := some (.reg (.num 5)),
          src1 := some (.reg (.num 0)) },
        { opcode := .gep, dataType := .i64, dest := some (.reg (.num 6)),
          src1 := some (.reg (.num 0)), src2 := some (.reg (.num 5)) },
        { opcode := .ret, dataType := .i64, src1 := some (.reg (.num 5)) }] }] }]

/-- The second load writes `rbx`, which is kept; `r15` is not in use and stays as it is; and the
fifth load goes to a word of the frame that does not overlap the one that keeps `rbx`. -/
theorem manyRegisters_preserved :
    ∃ m', manyRegisters.lower = .ok m' ∧ ∃ f ∈ m'.functions, f.isExternal = false ∧
      (∀ i ∈ f.instructions, i.dataType.size ≤ 0x7fffffff) ∧ ∃ c, f.select = .ok c ∧
      (∃ x ∈ c.code.flatten, .rbx ∈ x.writes) ∧ (∀ x, .instr x ∈ c.lines → .r15 ∉ x.writes) ∧
      (∃ x ∈ c.code.flatten, x.dst? = some (.deref .rbp (-56) .qword)) ∧
      ∃ slot, c.frame.Keeps .rbx slot ∧
        Disjoint (accessSpan (-56) .qword).bytes (wordSpan slot).bytes := by
  have hends : Ends manyRegisters.lower (fun m' => ∃ f ∈ m'.functions, f.isExternal = false ∧
      (∀ i ∈ f.instructions, i.dataType.size ≤ 0x7fffffff) ∧
      Ends f.select (fun c => (∃ x ∈ c.code.flatten, .rbx ∈ x.writes) ∧
        (∃ x ∈ c.code.flatten, x.dst? = some (.deref .rbp (-56) .qword)) ∧
        c.frame.saveSlot .r15 = none) fun _ => False) fun _ => False := by
    decide +kernel
  obtain ⟨m', hm, f, hf, hbody, hsize, hends⟩ := hends.exists_ok
  obtain ⟨c, hselect, ⟨x, hx, hrbx⟩, ⟨y, hy, hd⟩, hr15⟩ := hends.exists_ok
  obtain ⟨hkept, hunused, hstores⟩ :=
    Module.calleeSaved_preserved hm (by decide) hf hbody hsize hselect
  obtain ⟨slot, hslot⟩ := hkept x hx .rbx hrbx rfl
  obtain ⟨w, hw, hdisjoint⟩ := hstores y hy _ _ hd
  obtain rfl := Option.some.inj hw
  exact ⟨m', hm, f, hf, hbody, hsize, c, hselect, ⟨x, hx, hrbx⟩, hunused .r15 rfl hr15,
    ⟨y, hy, hd⟩, slot, hslot, hdisjoint .rbx slot hslot.slot⟩

end RegIR
