import RegIR.Proofs.Frame.Slots
import RegIR.Proofs.Select.Access

/-!
# Frame isolation

A variable has bytes of the frame to itself. Its slot overlaps no other slot and no word of
the frame, and code that loads or stores through the variable stays inside its slot as long
as the type that is accessed is no larger than the type of the variable.

## Main results

* `Scope.Reaches.within_slot`, `Func.access_within_slot`: an access through a slot stays inside
  it.
* `Module.frame_isolated`: the slots, the words and the accesses of a lowered function.
-/

namespace RegIR

open X86

/-- The bytes that an access at the frame pointer touches. -/
def accessSpan (place : Int32) (w : Width) : Span :=
  ⟨-place.toInt, w.bytes⟩

/-- A span that is not empty and fills part of the top of the frame ends inside it. -/
theorem Tiles.bounds {spans : List Span} {size : Nat} {a : Span} (h : Tiles spans size)
    (ha : a ∈ spans) (hpos : 0 < a.size) : a.size ≤ a.depth ∧ a.depth ≤ size := by
  have hfirst : a.depth - a.size + 1 ∈ a.bytes := ⟨by omega, by omega⟩
  have hlast : a.depth ∈ a.bytes := ⟨by omega, by omega⟩
  have hlow := (h.within a ha hfirst).1
  have hhigh := (h.within a ha hlast).2
  omega

/-- **Accesses.** An access through a slot stays inside it. -/
theorem Scope.Reaches.within_slot {s : Scope} {op : Opcode} {name : RegName} {offset : UInt32}
    {t : Ty} {code : Code} {size : Nat} (h : s.Reaches op (.slot name offset) t code)
    (htype : t.size ≤ size) (hsize : size ≤ offset.toNat) (hoffset : offset.toNat < 0x80000000) :
    ∃ place w, Accesses op (.deref .rbp place w) w code ∧
      (accessSpan place w).bytes ⊆ Span.bytes ⟨offset.toNat, size⟩ := by
  obtain ⟨disp, w, address, mem, rest, hmem, hdisp, rfl, haccess⟩ := h
  obtain ⟨rfl, place, rfl, hplace⟩ := Scope.memoryAt_slot hmem
  refine ⟨place, w, haccess, ?_⟩
  have hdispInt : (Int32.ofNat disp).toInt = disp := Int32.toInt_ofNat_of_lt (by omega)
  rw [hdispInt, toInt_toInt32 hoffset] at hplace
  rintro x ⟨hlow, hhigh⟩
  simp only [accessSpan] at hlow hhigh
  constructor
  · simp only
    omega
  · simp only
    omega

/-- Where the slots of a function fill the top of its frame, the code of an access through a
variable stays inside its slot and the frame. -/
theorem Func.access_within_slot {f : Func} {c : FuncCode} {n : Nat} {i v : Instruction}
    {a : Span} (hselect : f.select = .ok c) (htiles : Tiles f.slots f.stackSize.toNat)
    (hi : f.instructions[n]? = some i) (hv : v ∈ f.instructions) (hslot : v.slot? = some a)
    (hptr : i.pointer? = v.dest) (htype : i.dataType.size ≤ v.dataType.size) :
    ∃ code, c.code[n]? = some code ∧
      ∃ place w, Accesses i.opcode (.deref .rbp place w) w code ∧
        (accessSpan place w).bytes ⊆ a.bytes ∧
        (accessSpan place w).bytes ⊆ Set.Icc 1 (c.frame.totalSize : Int) := by
  obtain ⟨code, hn, isLast, hraw⟩ := Func.select_at hselect hi
  have ha : a ∈ f.slots := List.mem_filterMap.mpr ⟨v, hv, hslot⟩
  obtain ⟨-, name, offset, hdest, rfl⟩ := Instruction.slot?_eq_some.mp hslot
  obtain ⟨hsize, hoffset⟩ := htiles.bounds ha v.dataType.slotSize_pos
  simp only at hsize hoffset
  -- the slot ends inside the frame, so its offset is the same number as a signed word
  have htotal : f.stackSize.toNat ≤ c.frame.totalSize := by
    rw [← Func.locals_makeFrame (Func.makeFrame_of_select hselect)]
    exact c.frame.locals_le_totalSize
  have hmax := c.frame.size_le
  rw [maxFrameSize] at hmax
  have hreaches := Scope.selectRaw_access (hptr.trans hdest) hraw
  obtain ⟨place, w, haccess, hwithin⟩ :=
    hreaches.within_slot (htype.trans v.dataType.size_le_slotSize) (by omega) (by omega)
  refine ⟨code, hn, place, w, haccess, hwithin, ?_⟩
  refine hwithin.trans ((htiles.within _ ha).trans (Set.Icc_subset_Icc_right ?_))
  omega

/-- A variable of a lowered function has a slot, unless its destination is a constant or
missing. -/
theorem Storage.dest_of_slot?_eq_none {s s' : Storage} {i i' : Instruction}
    (hplain : ∀ op ∈ i.operands, op.isHardware = false) (h : s.assign i = .ok (s', i'))
    (hop : i'.opcode = .alloca) (hnone : i'.slot? = none) :
    ∀ op ∈ i'.dest, op.isHardware = false := by
  obtain ⟨dest, hplaces, rfl⟩ := Storage.assign_eq_ok_iff.mp h
  rw [Instruction.opcode_replace] at hop
  cases hplaces with
  | @slot name offset _ _ _ =>
      cases hnone.symm.trans (Instruction.slot?_eq_some.mpr ⟨hop, name, offset, rfl, rfl⟩)
  | pointer hop' _ _ => simp [hop] at hop'
  | general hop' _ _ => simp [hop, Opcode.place?] at hop'
  | kept _ =>
      intro op hdest
      exact hplain op (Instruction.mem_operands_of_dest hdest)

/-- **Isolation.** In a lowered function with a frame, the slots of the variables fill the top
of the frame without overlap, and no word of the frame overlaps a slot. Code for an access
through a variable whose type is large enough touches bytes of its slot only, which all lie
inside the frame. -/
theorem Module.frame_isolated {m m' : Module} (h : m.lower = .ok m')
    (hplain : ∀ f ∈ m.functions, ∀ i ∈ f.instructions, ∀ op ∈ i.operands,
      op.isHardware = false)
    {f : Func} (hf : f ∈ m'.functions) (hbody : f.isExternal = false) {frame : Frame}
    (hframe : f.makeFrame = .ok frame) :
    Tiles f.slots f.stackSize.toNat ∧
    (∀ v ∈ f.instructions, v.opcode = .alloca → v.slot? = none →
      ∀ op ∈ v.dest, op.isReg = false ∧ op.isHardware = false) ∧
    (∀ a ∈ f.slots, ∀ w, frame.Word w → Disjoint a.bytes (wordSpan w).bytes) ∧
    ∀ c, f.select = .ok c → ∀ (n : Nat) (i : Instruction), f.instructions[n]? = some i →
      ∀ v ∈ f.instructions, ∀ a, v.slot? = some a → i.pointer? = v.dest →
        i.dataType.size ≤ v.dataType.size →
        ∃ code, c.code[n]? = some code ∧
          ∃ place w, Accesses i.opcode (.deref .rbp place w) w code ∧
            (accessSpan place w).bytes ⊆ a.bytes ∧
            (accessSpan place w).bytes ⊆ Set.Icc 1 (frame.totalSize : Int) := by
  obtain ⟨f₀, hf₀, hbody₀, hlower⟩ := Module.exists_lower_of_mem h hf hbody
  obtain ⟨s, blocks, hassign, rfl, hnone⟩ := Func.lower_eq_ok_iff.mp hlower
  have hrun := Storage.assignBlocks_flatten hassign
  have htiles := Storage.tiles_assignAll (hplain f₀ hf₀) hrun
  have hlocals : frame.locals = s.offset := Func.locals_makeFrame hframe
  refine ⟨htiles, fun v hv hop hslot op hdest => ?_, fun a ha w hw => ?_, ?_⟩
  · obtain ⟨n, hn⟩ := List.getElem?_of_mem hv
    obtain ⟨i, r, r', hi, -, hi'⟩ := Storage.assignAll_at_result hrun hn
    have hplain' := hplain f₀ hf₀ i (List.mem_of_getElem? hi)
    refine ⟨?_, Storage.dest_of_slot?_eq_none hplain' hi' hop hslot op hdest⟩
    exact Func.firstReg?_eq_none_iff.mp hnone v hv op (Instruction.mem_operands_of_dest hdest)
  · exact hw.disjoint_slot (hlocals ▸ htiles) ha
  · intro c hselect n i hi v hv a hslot hptr htype
    obtain rfl : frame = c.frame :=
      Except.ok.inj (hframe.symm.trans (Func.makeFrame_of_select hselect))
    exact Func.access_within_slot hselect htiles hi hv hslot hptr htype

/-- A module whose function keeps a pair of a byte and a number and a byte of its own, and
writes its argument to the number. -/
def pairAndByte : Module where
  name := "pair"
  functions := [{
    name := "main"
    linkage := .exported
    returnType := .i32
    args := [(.i32, .named "n")]
    nextBlockId := 2
    blocks := [{
      name := "entry"
      id := 1
      instructions := [
        { opcode := .alloca, dataType := .struct "Pair" [.i8, .i32],
          dest := some (.reg (.num 0)) },
        { opcode := .alloca, dataType := .i8, dest := some (.reg (.num 1)) },
        { opcode := .structStore, dataType := .struct "Pair" [.i8, .i32],
          src1 := some (.reg (.num 0)), src2 := some (.imm 1),
          src3 := some (.reg (.named "n")) },
        { opcode := .load, dataType := .i8, dest := some (.reg (.num 2)),
          src1 := some (.reg (.num 1)) },
        { opcode := .ret, dataType := .i8, src1 := some (.reg (.num 2)) }] }] }]

/-- The pair takes eight bytes and the byte the next one; the number is written inside the
pair. -/
theorem pairAndByte_isolated :
    ∃ m', pairAndByte.lower = .ok m' ∧ ∃ f ∈ m'.functions, f.isExternal = false ∧
      ∃ frame, f.makeFrame = .ok frame ∧ f.slots = [⟨8, 8⟩, ⟨9, 1⟩] ∧
      Tiles f.slots f.stackSize.toNat ∧
      (∀ a ∈ f.slots, ∀ w, frame.Word w → Disjoint a.bytes (wordSpan w).bytes) ∧
      ∃ c, f.select = .ok c ∧ ∃ code, c.code[2]? = some code ∧
        ∃ place w, Accesses .structStore (.deref .rbp place w) w code ∧
          (accessSpan place w).bytes ⊆ Span.bytes ⟨8, 8⟩ ∧
          (accessSpan place w).bytes ⊆ Set.Icc 1 (frame.totalSize : Int) := by
  obtain ⟨m', hm, f, hf, hbody, frame, hframe, hslots, c, hselect, hstore⟩ :
      ∃ m', pairAndByte.lower = .ok m' ∧ ∃ f ∈ m'.functions, f.isExternal = false ∧
        ∃ frame, f.makeFrame = .ok frame ∧ f.slots = [⟨8, 8⟩, ⟨9, 1⟩] ∧
        ∃ c, f.select = .ok c ∧ ∃ i, f.instructions[2]? = some i ∧ i.opcode = .structStore ∧
          ∃ v ∈ f.instructions, v.slot? = some ⟨8, 8⟩ ∧ i.pointer? = v.dest ∧
            i.dataType.size ≤ v.dataType.size :=
    ⟨_, rfl, _, List.mem_singleton_self _, rfl, _, rfl, rfl, _, rfl, _, rfl, rfl, _,
      List.mem_cons_self, rfl, rfl, Nat.le_refl _⟩
  obtain ⟨i, hi, hop, v, hv, hslot, hptr, hsize⟩ := hstore
  obtain ⟨htiles, -, hwords, haccess⟩ :=
    Module.frame_isolated hm (by decide) hf hbody hframe
  refine ⟨m', hm, f, hf, hbody, frame, hframe, hslots, htiles, hwords, c, hselect, ?_⟩
  exact hop ▸ haccess c hselect 2 i hi v hv _ hslot hptr hsize

end RegIR
