import RegIR.Proofs.Select.Access
import RegIR.Proofs.Select.Computes
import RegIR.Proofs.Select.Words
import RegIR.Proofs.X86.Trace

/-!
# Loads and stores

The code of a memory access moves one value between memory and an operand. The value is at the
pointer, or at a field behind it, and is as wide as its type. Beside it, only the words of the
operands are accessed, if they are kept in the frame. Pointer and value may each need a scratch
register, and these are never the same.

## Main definitions

* `Instruction.accessed?`: which value is accessed.
* `Instruction.loaded?`, `Instruction.stored?`: the operand at the other end.

## Main results

* `Scope.memoryAt_performs`: the memory behind a pointer is brought into reach.
* `Scope.loadToDest_performs`, `Scope.storeValue_performs`: the value is moved.
* `Scope.access_transfers`: what running the code does.
-/

namespace RegIR

open X86

/-! ### What is accessed -/

/-- The width of a value that fits a register. -/
def Ty.valueWidth? : Ty → Option Width
  | f32 => some .dword
  | f64 => some .qword
  | t => t.width?

/-- The number that a constant is as an index. -/
def Operand.index? : Operand → Option Nat
  | imm v => if 0 ≤ v.toInt then some v.toInt.toNat else none
  | _ => none

namespace Instruction

/-- The field that an instruction selects: how far behind the pointer it is, and its width. -/
def field? (i : Instruction) : Option (Nat × Width) := do
  let index ← (← i.src2).index?
  let offset ← i.dataType.fieldOffset? index
  let type ← i.dataType.fieldType? index
  return (offset, ← type.valueWidth?)

/-- The value that an instruction accesses: how far behind the pointer it is, and its width. -/
def accessed? (i : Instruction) : Option (Nat × Width) :=
  match i.opcode with
  | .load | .store => i.dataType.valueWidth?.map fun w => (0, w)
  | .structLoad | .structStore => i.field?
  | _ => none

/-- The destination of a load. -/
def loaded? (i : Instruction) : Option Operand :=
  match i.opcode with
  | .load | .structLoad => i.dest
  | _ => none

/-- The operand that a store puts into memory. -/
def stored? (i : Instruction) : Option Operand :=
  match i.opcode with
  | .store => i.src1
  | .structStore => i.src3
  | _ => none

end Instruction

/-- `src.IsStorable w`: what can be moved to memory at a width. -/
def X86.Operand.IsStorable (w : Width) (src : X86.Operand) : Prop :=
  (∃ r, src = .reg r w) ∨ ∃ v, src = .imm v ∧ Width.dword.Holds v ∧ (w ≠ .qword → w.Holds v)

namespace Scope

variable {s : Scope} {i : Instruction} {isLast : Bool} {opcode : Opcode} {dest ptr value : Operand}
  {loc : Location} {m : X86.Machine} {w : Width} {r : Reg} {p x : BitVec 64} {offset : Nat}

/-- Values that fit a register are accessed at their widths. -/
theorem valueWidth_of_valueWidth? {t : Ty} (h : t.valueWidth? = some w) :
    s.valueWidth opcode t = .ok w := by
  cases t with
  | void | struct _ _ => cases h
  | i8 | i16 | i32 | i64 | pointer _ | f32 | f64 =>
      cases h
      rfl

/-- The field that an instruction selects is found. -/
theorem field_of_field? (h : i.field? = some (offset, w)) : s.field i = .ok (offset, w) := by
  obtain ⟨op, hop, h⟩ := Option.bind_eq_some_iff.mp h
  obtain ⟨index, hindex, h⟩ := Option.bind_eq_some_iff.mp h
  obtain ⟨offset', hoffset, h⟩ := Option.bind_eq_some_iff.mp h
  obtain ⟨type, htype, h⟩ := Option.bind_eq_some_iff.mp h
  obtain ⟨w', hw, h⟩ := Option.bind_eq_some_iff.mp h
  obtain ⟨rfl, rfl⟩ := Prod.mk.inj (Option.some.inj h)
  refine bind_eq_ok_iff.mpr ⟨op, congrArg _ hop, ?_⟩
  cases op with
  | imm v =>
      rw [Operand.index?] at hindex
      split at hindex
      next hpos =>
        cases hindex
        refine (if_pos hpos).trans (bind_eq_ok_iff.mpr ⟨v.toInt.toNat, rfl, ?_⟩)
        dsimp only
        rw [hoffset, htype]
        exact bind_eq_ok_iff.mpr ⟨w', valueWidth_of_valueWidth? hw, rfl⟩
      next => cases hindex
  | _ => cases hindex

/-! ### The address -/

/-- A small displacement is what it says. -/
theorem signExtend_ofNat {n : Nat} (hn : n ≤ 0x7fffffff) :
    (Int32.ofNat n).toBitVec.signExtend 64 = BitVec.ofNat 64 n := by
  have hexact : (Int32.ofNat n).toInt = n := Int32.toInt_ofNat_of_lt (by omega)
  exact (congrArg (BitVec.ofInt 64) hexact).trans (BitVec.ofInt_natCast 64 n)

/-- The memory behind a pointer that is kept somewhere. -/
theorem memoryAt_of_locate? (h : s.frame.locate? ptr = some loc) :
    s.memoryAt opcode ptr offset w = .ok (match loc with
      | .reg r => ([], .deref r (.ofNat offset) w)
      | .slot n => ([.mov (.qword scratch) (.slotAt n .qword)],
          .deref scratch (.ofNat offset) w)) := by
  have hloc := location_of_locate? h opcode
  obtain ⟨index, rfl, -⟩ | ⟨index, rfl, -⟩ | ⟨index, home, rfl, -⟩ :=
    X86.Frame.locate?_eq_some h <;>
  · refine bind_eq_ok_iff.mpr ⟨loc, hloc, ?_⟩
    cases loc <;> rfl

/-- **Pointers.** The memory behind a pointer is brought into reach, through `r11` at most. -/
theorem memoryAt_performs (opcode : Opcode) (w : Width) (hp : s.frame.address? m ptr = some p)
    (hoffset : offset ≤ 0x7fffffff) (hslot : ptr.InReach) :
    ∃ code base disp, s.memoryAt opcode ptr offset w = .ok (code, .deref base disp w) ∧
      base ≠ scratch2 ∧ Performs code m (s.frame.homeAccesses m ptr .qword) fun m' =>
        m'.address base disp = p + BitVec.ofNat 64 offset ∧ m.SameBut [scratch] m' := by
  obtain ⟨name, n, rfl, rfl⟩ | ⟨constant, rfl, rfl⟩ | ⟨loc, hloc, rfl⟩ :=
    X86.Frame.address?_eq_some hp
  · have hn := hslot name n rfl
    have hdisp : (Int32.ofInt (offset - n.toNat)).toInt = offset - n.toNat :=
      Int32.toInt_ofInt_of_le (by omega) (by omega)
    have hexact : (Int32.ofNat offset).toInt = offset := Int32.toInt_ofNat_of_lt (by omega)
    refine ⟨[], .rbp, .ofInt (offset - n.toNat), ?_, by decide, .nil ⟨?_, .refl _ _⟩⟩
    · refine bind_eq_ok_iff.mpr ⟨_, liftM_eq_ok_iff.mpr (narrowSigned32_eq_ok_iff.mpr ?_), rfl⟩
      rw [hdisp, hexact, toInt_toInt32 (by omega)]
    · have hext : (Int32.ofInt (offset - n.toNat)).toBitVec.signExtend 64 =
          BitVec.ofInt 64 (offset - n.toNat) := congrArg (BitVec.ofInt 64) hdisp
      rw [X86.Machine.address, hext, X86.Machine.slotAddress_eq hn, X86.Machine.frameAddress,
        Int.sub_eq_add_neg, BitVec.ofInt_add, BitVec.ofInt_neg, BitVec.ofInt_natCast,
        BitVec.ofInt_natCast]
      bv_omega
  · refine ⟨_, scratch, .ofNat offset, rfl, by decide, ?_⟩
    refine ((lea_achieves rfl).performs rfl).mono fun m' hm' => ⟨?_, hm'.2⟩
    rw [X86.Machine.address, hm'.1, signExtend_ofNat hoffset]
    rfl
  · rw [X86.Frame.homeAccesses_of_locate? hloc]
    cases loc with
    | reg r =>
        have hne : r ≠ scratch2 := by
          rintro rfl
          exact absurd (X86.Frame.mem_homeRegs hloc) (by decide)
        refine ⟨[], r, .ofNat offset, ?_, hne, .nil ⟨?_, .refl _ _⟩⟩
        · exact memoryAt_of_locate? hloc
        · rw [X86.Machine.address, signExtend_ofNat hoffset]
          rfl
    | slot n =>
        have hvalue := X86.Operand.isValue_mem .rbp (-n.toInt32) .qword
        refine ⟨_, scratch, .ofNat offset, memoryAt_of_locate? hloc, by decide, ?_⟩
        rw [← X86.Machine.toList_access?_operand hloc]
        refine ((Achieves.setReg (Instr.encodable_mov_reg hvalue) rfl (.inl rfl)).performs
          rfl).mono fun m' hm' => ⟨?_, hm'.2⟩
        have hpointer : m'.regs scratch = m.content (.slot n) :=
          X86.Machine.regs_of_reg_qword (hm'.1.trans (X86.Machine.read_operand hloc .qword))
        rw [X86.Machine.address, hpointer, signExtend_ofNat hoffset]

/-! ### Loads -/

/-- A load from memory makes one access. -/
theorem loadFrom_performs {src : X86.Operand} (hsrc : src.IsValue w) :
    Performs (loadFrom r src w) m (m.access? src).toList
      (· = m.setReg r w.widen ((m.read w src).signExtend _)) := by
  have hrun := loadFrom_sets (r := r) (m := m) hsrc
  rw [loadFrom] at hrun ⊢
  split at hrun
  next hw =>
    rw [if_pos hw, ← Instr.accesses_from (.reg r .dword) rfl]
    exact hrun.performs rfl
  next hw =>
    rw [if_neg hw, ← Instr.accesses_from (.reg r w) rfl]
    exact hrun.performs rfl

/-- Writing a result makes the access to its place. -/
theorem storeResult_performs (opcode : Opcode) (w : Width)
    (hloc : s.frame.locate? dest = some loc) (hr : r ∉ X86.Frame.homeRegs) :
    ∃ code, s.storeResult opcode (some dest) r w = .ok code ∧
      ∀ m, Performs code m (s.frame.homeAccesses m dest w.widen)
        (· = m.write w.widen (m.reg r w.widen) (loc.operand w.widen)) := by
  obtain ⟨code, hcode, hrun⟩ := storeResult_achieves opcode w hloc hr
  obtain rfl := Except.ok.inj ((storeResult_of_locate? hloc hr).symm.trans hcode)
  refine ⟨_, hcode, fun m => ?_⟩
  rw [X86.Frame.homeAccesses_of_locate? hloc, ← X86.Machine.toList_access?_operand hloc,
    ← Instr.accesses_to (.reg r w.widen) rfl]
  exact (hrun m).performs rfl

/-- **Loads.** What is in memory gets into the destination. -/
theorem loadToDest_performs (opcode : Opcode) (w : Width) (base : Reg) (disp : Int32)
    (hloc : s.frame.locate? dest = some loc) :
    ∃ code, s.loadToDest opcode (some dest) (.deref base disp w) w = .ok code ∧
      ∀ {m m' : X86.Machine} {a : BitVec 64}, m.SameBut [scratch] m' → m'.address base disp = a →
        Performs code m' (⟨a, w⟩ :: s.frame.homeAccesses m dest w.widen)
          (s.frame.Gives 0 [scratch] dest loc w (m.mem.load a w.bytes) m) := by
  have hload : ∀ (r : Reg) (m : X86.Machine), Performs (loadFrom r (.deref base disp w) w) m
      [⟨m.address base disp, w⟩]
      (· = m.setReg r w.widen ((m.mem.load (m.address base disp) w.bytes).signExtend _)) :=
    fun r m => loadFrom_performs (X86.Operand.isValue_mem base disp w)
  have hrequired : s.required opcode (some dest) = .ok dest := rfl
  have hlocation := location_of_locate? hloc opcode
  cases loc with
  | reg r =>
      refine ⟨loadFrom r (.deref base disp w) w, ?_, ?_⟩
      · exact bind_eq_ok_iff.mpr ⟨dest, hrequired, bind_eq_ok_iff.mpr ⟨_, hlocation, rfl⟩⟩
      · rintro m m' _ hsame rfl
        rw [X86.Frame.homeAccesses_of_locate? hloc]
        refine (hload r m').mono ?_
        rintro _ rfl
        rw [hsame.mem]
        exact .of_write hloc hsame.sameAbove (s.frame.isClear_zero m) (fun r hr => .inl hr)
          (by decide)
  | slot n =>
      obtain ⟨store, hstore, hwrite⟩ :=
        storeResult_performs (r := scratch) opcode w hloc (by decide)
      refine ⟨loadFrom scratch (.deref base disp w) w ++ store, ?_, ?_⟩
      · refine bind_eq_ok_iff.mpr ⟨dest, hrequired, bind_eq_ok_iff.mpr ⟨_, hlocation, ?_⟩⟩
        exact bind_eq_ok_iff.mpr ⟨store, hstore, rfl⟩
      · rintro m m' _ hsame rfl
        rw [← List.singleton_append]
        refine (hload scratch m').append fun m₁ hm₁ => ?_
        have hsame₁ : m.SameBut [scratch] m₁ := by
          rw [hm₁]
          exact hsame.trans .setReg
        rw [← X86.Frame.homeAccesses_of_sameBut hsame₁ (by decide)]
        refine (hwrite m₁).mono ?_
        rintro _ rfl
        have hresult : m₁.reg scratch w.widen =
            (m.mem.load (m'.address base disp) w.bytes).signExtend _ := by
          rw [hm₁, X86.Machine.reg_setReg_self, hsame.mem]
        rw [hresult]
        exact .of_write hloc hsame₁.sameAbove (s.frame.isClear_zero m) (fun r hr => .inl hr)
          (by decide)

/-! ### Stores -/

/-- Loading an operand makes the access to its word. -/
theorem trace_loadInto {code : Code} (h : s.loadInto opcode r value w = .ok code)
    (hx : s.frame.word? m value = some x) : trace code m = s.frame.homeAccesses m value w := by
  obtain ⟨name, n, rfl, hn, -⟩ | ⟨constant, rfl, -⟩ | hvalue := X86.Frame.word?_eq_some hx
  · obtain ⟨disp, -, hcode⟩ := loadInto_slot (s := s) hn
    obtain rfl := Except.ok.inj ((hcode opcode r w name).symm.trans h)
    exact trace_single rfl
  · obtain rfl := Except.ok.inj h
    exact trace_single rfl
  · obtain ⟨v, rfl, -⟩ | ⟨loc, hloc, -⟩ := X86.Frame.value?_eq_some hvalue
    · obtain rfl := Except.ok.inj h
      exact trace_single rfl
    · obtain rfl := Except.ok.inj ((loadInto_of_locate? hloc).symm.trans h)
      rw [X86.Frame.homeAccesses_of_locate? hloc]
      split
      next hthere =>
        rw [hthere.1]
        rfl
      next =>
        rw [← X86.Machine.toList_access?_operand hloc]
        exact (loadFrom_performs (loc.isValue w)).1

/-- The code of a store: what is stored is a constant or gets into a register, through `r10` at
most. -/
theorem storeValue_eq (opcode : Opcode) (mem : X86.Operand) (w : Width)
    (hx : s.frame.word? m value = some x) :
    ∃ load src, s.storeValue opcode mem value w = .ok (load ++ [.mov mem src]) ∧
      src.IsStorable w ∧ ∀ m', s.frame.word? m' value = some x →
        Performs load m' (s.frame.homeAccesses m' value w) fun m'' =>
          m''.read w src = x.setWidth _ ∧ m'.SameBut [scratch2] m'' := by
  -- anything can be loaded
  obtain ⟨load, hload, hrun⟩ := loadWord_achieves opcode scratch2 w hx
  have hscratch : (do
      return (← s.loadInto opcode scratch2 value w) ++ [Instr.mov mem (.reg scratch2 w)]) =
        (.ok (load ++ [.mov mem (.reg scratch2 w)]) : Selected Code) :=
    bind_eq_ok_iff.mpr ⟨load, hload, rfl⟩
  have hthrough : ∀ m', s.frame.word? m' value = some x →
      Performs load m' (s.frame.homeAccesses m' value w) fun m'' =>
        m''.read w (.reg scratch2 w) = x.setWidth _ ∧ m'.SameBut [scratch2] m'' :=
    fun m' hx' => ⟨trace_loadInto hload hx', hrun m' hx'⟩
  cases value with
  | reg _ | label _ => cases hx
  | argument _ | slot _ _ | string _ => exact ⟨load, _, hscratch, .inl ⟨_, rfl⟩, hthrough⟩
  | imm v =>
      by_cases hfits : fitsSigned32 (w.signExtend v) = true
      · refine ⟨[], .imm (w.signExtend v), if_pos hfits, ?_, fun m' hx' => .nil ⟨?_, .refl _ _⟩⟩
        · exact .inr ⟨_, rfl, Width.holds_dword_iff.mpr hfits,
            fun hw => Width.holds_signExtend hw v⟩
        · rw [← Option.some.inj hx']
          exact w.setWidth_toBitVec_signExtend v
      · exact ⟨load, _, (if_neg hfits).trans hscratch, .inl ⟨_, rfl⟩, hthrough⟩
  | general _ | pointer _ =>
      obtain ⟨loc, hloc, -⟩ := Option.map_eq_some_iff.mp hx
      have hlocation := location_of_locate? hloc opcode
      cases loc with
      | reg r =>
          refine ⟨[], .reg r w, bind_eq_ok_iff.mpr ⟨_, hlocation, rfl⟩, .inl ⟨r, rfl⟩, ?_⟩
          intro m' hx'
          obtain rfl := Option.some.inj (hx'.symm.trans (X86.Frame.word?_of_locate? hloc))
          rw [X86.Frame.homeAccesses_of_locate? hloc]
          exact .nil ⟨rfl, .refl _ _⟩
      | slot n =>
          refine ⟨[.mov (.reg scratch2 w) (.slotAt n w)], .reg scratch2 w,
            bind_eq_ok_iff.mpr ⟨_, hlocation, rfl⟩, .inl ⟨_, rfl⟩, ?_⟩
          intro m' hx'
          obtain rfl := Option.some.inj (hx'.symm.trans (X86.Frame.word?_of_locate? hloc))
          rw [X86.Frame.homeAccesses_of_locate? hloc, ← X86.Machine.toList_access?_operand hloc,
            ← Instr.accesses_from (.reg scratch2 w) rfl, ← X86.Machine.read_operand hloc]
          exact (Achieves.setReg (Instr.encodable_mov_reg (X86.Operand.isValue_mem _ _ w)) rfl
            (.inl rfl)).performs rfl

/-- **Stores.** The low bits of a value get into memory. -/
theorem storeValue_performs {base : Reg} (opcode : Opcode) (w : Width) (disp : Int32)
    (hbase : base ≠ scratch2) (hx : s.frame.word? m value = some x) :
    ∃ code, s.storeValue opcode (.deref base disp w) value w = .ok code ∧
      ∀ m', s.frame.word? m' value = some x → ∀ a, m'.address base disp = a →
        Performs code m' (s.frame.homeAccesses m' value w ++ [⟨a, w⟩]) fun m'' =>
          (m'.store a w (x.setWidth _)).SameBut [scratch2] m'' := by
  obtain ⟨load, src, hcode, hsrc, hload⟩ := storeValue_eq opcode (.deref base disp w) w hx
  refine ⟨_, hcode, fun m' hx' a ha => (hload m' hx').append fun m₁ hm₁ => ?_⟩
  obtain ⟨hread, hsame⟩ := hm₁
  -- the value is not loaded over the address
  have ha₁ : m₁.address base disp = a := by
    rw [← ha, X86.Machine.address, X86.Machine.address, hsame.regs base (by simpa using hbase)]
  have hencodable : Instr.Encodable (.mov (.deref base disp w) src) := by
    obtain ⟨r, rfl⟩ | ⟨v, rfl, hv, hw⟩ := hsrc
    · exact Instr.encodable_mov_of_reg (X86.Operand.isValue_mem _ _ w)
    · exact Instr.encodable_store_imm hv hw
  have hnone : m₁.access? src = none := by
    obtain ⟨r, rfl⟩ | ⟨v, rfl, -⟩ := hsrc <;> rfl
  have hstore : Achieves [.mov (.deref base disp w) src] m₁
      (· = m₁.store (m₁.address base disp) w (m₁.read w src)) := .single hencodable rfl rfl
  have haccess : (m₁.access? (.deref base disp w)).toList = [⟨a, w⟩] := by
    rw [← ha₁]
    rfl
  rw [← haccess, ← Instr.accesses_to src hnone]
  refine (hstore.performs rfl).mono ?_
  rintro _ rfl
  rw [ha₁, hread]
  exact hsame.store _

/-! ### The code of an instruction -/

/-- The code of a load, of a value or of a field, gives its destination what is in memory. -/
theorem load_gives (isLast : Bool) (hptr : i.pointer? = some ptr)
    (hp : s.frame.address? m ptr = some p) (haccess : i.accessed? = some (offset, w))
    (hoffset : offset ≤ 0x7fffffff) (hslot : ptr.InReach)
    (hdest : i.loaded? = some dest) (hloc : s.frame.locate? dest = some loc) :
    ∃ code, s.select i isLast = .ok code ∧
      Performs code m (s.frame.homeAccesses m ptr .qword ++ ⟨p + BitVec.ofNat 64 offset, w⟩ ::
          s.frame.homeAccesses m dest w.widen)
        (s.frame.Gives 0 [scratch] dest loc w
          (m.mem.load (p + BitVec.ofNat 64 offset) w.bytes) m) := by
  obtain ⟨address, base, disp, haddress, -, hreach⟩ :=
    memoryAt_performs i.opcode w hp hoffset hslot
  obtain ⟨load, hload, hrun⟩ := loadToDest_performs i.opcode w base disp hloc
  refine ⟨address ++ load, ?_, hreach.append fun m₁ hm₁ => hrun hm₁.2 hm₁.1⟩
  rw [select_eq_selectRaw, selectRaw]
  rw [Instruction.loaded?] at hdest
  rw [Instruction.pointer?] at hptr
  rw [Instruction.accessed?] at haccess
  split at hdest
  next hop =>
    rw [hop] at hptr haccess ⊢
    obtain ⟨w', hw, hsame⟩ := Option.map_eq_some_iff.mp haccess
    obtain ⟨rfl, rfl⟩ := Prod.mk.inj hsame
    refine bind_eq_ok_iff.mpr ⟨w', valueWidth_of_valueWidth? hw, ?_⟩
    refine bind_eq_ok_iff.mpr ⟨ptr, congrArg _ hptr, ?_⟩
    refine bind_eq_ok_iff.mpr ⟨_, haddress, ?_⟩
    rw [hdest]
    exact bind_eq_ok_iff.mpr ⟨load, hload, rfl⟩
  next hop =>
    rw [hop] at hptr haccess ⊢
    refine bind_eq_ok_iff.mpr ⟨_, field_of_field? haccess, ?_⟩
    refine bind_eq_ok_iff.mpr ⟨ptr, congrArg _ hptr, ?_⟩
    refine bind_eq_ok_iff.mpr ⟨_, haddress, ?_⟩
    rw [hdest]
    exact bind_eq_ok_iff.mpr ⟨load, hload, rfl⟩
  next => cases hdest

/-- The code of a store, to a value or to a field, puts the low bits of its value into memory. -/
theorem store_puts (isLast : Bool) (hptr : i.pointer? = some ptr)
    (hp : s.frame.address? m ptr = some p) (haccess : i.accessed? = some (offset, w))
    (hoffset : offset ≤ 0x7fffffff) (hslot : ptr.InReach)
    (hvalue : i.stored? = some value) (hx : s.frame.word? m value = some x) :
    ∃ code, s.select i isLast = .ok code ∧
      Performs code m (s.frame.homeAccesses m ptr .qword ++ (s.frame.homeAccesses m value w ++
          [⟨p + BitVec.ofNat 64 offset, w⟩])) fun m' =>
        (m.store (p + BitVec.ofNat 64 offset) w (x.setWidth _)).SameBut scratchRegs m' := by
  obtain ⟨address, base, disp, haddress, hbase, hreach⟩ :=
    memoryAt_performs i.opcode w hp hoffset hslot
  obtain ⟨store, hstore, hrun⟩ := storeValue_performs i.opcode w disp hbase hx
  refine ⟨address ++ store, ?_, hreach.append fun m₁ hm₁ => ?_⟩
  · rw [select_eq_selectRaw, selectRaw]
    rw [Instruction.stored?] at hvalue
    rw [Instruction.pointer?] at hptr
    rw [Instruction.accessed?] at haccess
    split at hvalue
    next hop =>
      rw [hop] at hptr haccess ⊢
      obtain ⟨w', hw, hsame⟩ := Option.map_eq_some_iff.mp haccess
      obtain ⟨rfl, rfl⟩ := Prod.mk.inj hsame
      refine bind_eq_ok_iff.mpr ⟨w', valueWidth_of_valueWidth? hw, ?_⟩
      refine bind_eq_ok_iff.mpr ⟨value, congrArg _ hvalue, ?_⟩
      refine bind_eq_ok_iff.mpr ⟨ptr, congrArg _ hptr, ?_⟩
      refine bind_eq_ok_iff.mpr ⟨_, haddress, ?_⟩
      exact bind_eq_ok_iff.mpr ⟨store, hstore, rfl⟩
    next hop =>
      rw [hop] at hptr haccess ⊢
      refine bind_eq_ok_iff.mpr ⟨_, field_of_field? haccess, ?_⟩
      refine bind_eq_ok_iff.mpr ⟨ptr, congrArg _ hptr, ?_⟩
      refine bind_eq_ok_iff.mpr ⟨value, congrArg _ hvalue, ?_⟩
      refine bind_eq_ok_iff.mpr ⟨_, haddress, ?_⟩
      exact bind_eq_ok_iff.mpr ⟨store, hstore, rfl⟩
    next => cases hvalue
  · obtain ⟨ha, hsame⟩ := hm₁
    have hx₁ := X86.Frame.word?_of_sameBut hsame (by decide) hx
    rw [← X86.Frame.homeAccesses_of_sameBut hsame (by decide)]
    refine (hrun m₁ hx₁ _ ha).mono fun m₂ hm₂ => ?_
    exact ((hsame.store _).mono (by decide)).trans (hm₂.mono (by decide))

/-- **Memory accesses.** A load or a store, of a value or of a selected field, has code whenever the
pointer is a slot, a string or kept somewhere, the slot and the field are within reach of a
displacement, and the value fits a register. Its single access to data is to the value at the
pointer, or at the field behind it; before and after it, only the words of its operands are
accessed, if they are in the frame. A load leaves in the low bits of its destination, 32 or more,
the sign extension of what is there, and a store puts the low bits of its value there. Apart from
that only the scratch registers and the flags may have changed. -/
theorem access_transfers (isLast : Bool) (hptr : i.pointer? = some ptr)
    (hp : s.frame.address? m ptr = some p) (haccess : i.accessed? = some (offset, w))
    (hoffset : offset ≤ 0x7fffffff) (hslot : ptr.InReach) :
    (∀ dest loc, i.loaded? = some dest → s.frame.locate? dest = some loc →
      ∃ code, s.select i isLast = .ok code ∧
        Performs code m (s.frame.homeAccesses m ptr .qword ++ ⟨p + BitVec.ofNat 64 offset, w⟩ ::
            s.frame.homeAccesses m dest w.widen)
          (s.frame.Assigns [.r11] dest loc w (m.mem.load (p + BitVec.ofNat 64 offset) w.bytes) m)) ∧
    ∀ value x, i.stored? = some value → s.frame.word? m value = some x →
      ∃ code, s.select i isLast = .ok code ∧
        Performs code m (s.frame.homeAccesses m ptr .qword ++ (s.frame.homeAccesses m value w ++
            [⟨p + BitVec.ofNat 64 offset, w⟩])) fun m' =>
          (m.store (p + BitVec.ofNat 64 offset) w (x.setWidth _)).SameBut [.r11, .r10] m' := by
  constructor
  · intro dest loc hdest hloc
    obtain ⟨code, hcode, hrun⟩ := load_gives isLast hptr hp haccess hoffset hslot hdest hloc
    exact ⟨code, hcode, hrun.mono fun _ h => h.assigns⟩
  · intro value x hvalue hx
    exact store_puts isLast hptr hp haccess hoffset hslot hvalue hx

end Scope

/-- Store to the second field of a structure. Its value and the pointer are registers that are kept
in the frame. -/
def setSecondField : Instruction where
  opcode := .structStore
  dataType := .struct "pair" [.i8, .i16]
  src1 := some (.general 5)
  src2 := some (.imm 1)
  src3 := some (.general 4)

/-- The field is two bytes behind the pointer, which is loaded whole; of the value, 16 bits are
loaded. -/
theorem setSecondField_transfers :
    setSecondField.accessed? = some (2, .word) ∧
    twoSpilled.frame.address? filledMachine (.general 5) = some 0x8181818181818181 ∧
    twoSpilled.frame.word? filledMachine (.general 4) = some 0x8181818181818181 ∧
    ∃ code, twoSpilled.select setSecondField false = .ok code ∧
      Performs code filledMachine
        [⟨0xfc8, .qword⟩, ⟨0xfd0, .word⟩, ⟨0x8181818181818183, .word⟩] fun m' =>
          (filledMachine.store 0x8181818181818183 .word 0x8181).SameBut [.r11, .r10] m' := by
  have haccess : setSecondField.accessed? = some (2, .word) := by decide +kernel
  have hp : twoSpilled.frame.address? filledMachine (.general 5) = some 0x8181818181818181 := by
    decide +kernel
  have hx : twoSpilled.frame.word? filledMachine (.general 4) = some 0x8181818181818181 := by
    decide +kernel
  have htrace : twoSpilled.frame.homeAccesses filledMachine (.general 5) .qword ++
      (twoSpilled.frame.homeAccesses filledMachine (.general 4) .word ++
        [⟨0x8181818181818183, .word⟩]) =
      [⟨0xfc8, .qword⟩, ⟨0xfd0, .word⟩, ⟨0x8181818181818183, .word⟩] := by
    decide +kernel
  refine ⟨haccess, hp, hx, ?_⟩
  rw [← htrace]
  exact (Scope.access_transfers false rfl hp haccess (by decide) nofun).2 _ _ rfl hx

end RegIR
