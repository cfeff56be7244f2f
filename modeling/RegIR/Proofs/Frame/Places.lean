import RegIR.Proofs.Frame.Saved
import RegIR.Proofs.X86.Machine

/-!
# Places

Each register of the IR and each argument has a place of its own, which is a machine register or a
word of the frame. In a machine a place has a content. A result that is written to a place changes
the content of no other one, since machine registers are given out once and the words of a frame
do not overlap.

## Main definitions

* `X86.Frame.locate?`: where an operand is kept.
* `X86.Machine.content`: the whole word that is kept there.
* `X86.Machine.SameBut`: machines that differ in some registers only.
* `X86.Frame.Assigns`: machines that differ in the value of an operand.

## Main results

* `X86.Frame.reg_ne_of_ne`, `X86.Frame.slot_apart_of_ne`: operands are kept apart.
* `X86.Machine.content_write_self`, `X86.Machine.content_write_of_ne`: what writing to a place
  changes, and what it does not.
-/

namespace RegIR

open X86

namespace X86.Frame

variable {f : Frame} {op op' : RegIR.Operand} {loc loc' : Location} {r r' : Reg} {n n' : UInt32}

/-! ### Where operands are kept -/

/-- Where an operand is kept, if it is a register of the IR or an argument that the frame has. -/
def locate? (f : Frame) : RegIR.Operand → Option Location
  | .general index => (f.generalLocation index).toOption
  | .pointer index => (f.pointerLocation index).toOption
  | .argument index => (f.argHome index.toUInt64).toOption.map .slot
  | _ => none

/-- The machine registers that operands are kept in. -/
def homeRegs : List Reg :=
  generalRegs ++ pointerRegs

/-- These, and the registers that say where the frame is. -/
def pinnedRegs : List Reg :=
  .rsp :: .rbp :: homeRegs

/-- What is kept somewhere is a register of the IR or an argument. -/
theorem locate?_eq_some (h : f.locate? op = some loc) :
    (∃ index, op = .general index ∧ f.generalLocation index = .ok loc) ∨
    (∃ index, op = .pointer index ∧ f.pointerLocation index = .ok loc) ∨
    ∃ index home, op = .argument index ∧ f.argHome index.toUInt64 = .ok home ∧
      loc = .slot home := by
  have hok : ∀ {ε α : Type} {x : Except ε α} {a : α}, x.toOption = some a → x = .ok a := by
    intro ε α x a hx
    cases x with
    | ok b => exact congrArg _ (Option.some.inj hx)
    | error e => cases hx
  cases op with
  | general index => exact .inl ⟨index, rfl, hok h⟩
  | pointer index => exact .inr (.inl ⟨index, rfl, hok h⟩)
  | argument index =>
      obtain ⟨home, hhome, hloc⟩ := Option.map_eq_some_iff.mp h
      exact .inr (.inr ⟨index, home, rfl, hok hhome, hloc.symm⟩)
  | reg _ | imm _ | label _ | string _ | slot _ _ => cases h

/-- The first general registers are in machine registers, the others in the frame. -/
theorem generalLocation_cases {index : UInt32} (h : f.generalLocation index = .ok loc) :
    (∃ r, generalRegs[index.toNat]? = some r ∧ loc = .reg r) ∨
      generalRegs.length ≤ index.toNat ∧ ∃ n, loc = .slot n := by
  rw [generalLocation] at h
  split at h
  next r hr => exact .inl ⟨r, hr, (Except.ok.inj h).symm⟩
  next hnone =>
    split at h
    next => exact .inr ⟨List.getElem?_eq_none_iff.mp hnone, _, (Except.ok.inj h).symm⟩
    next => cases h

/-- The first pointer registers are in machine registers, the others in the frame. -/
theorem pointerLocation_cases {index : UInt32} (h : f.pointerLocation index = .ok loc) :
    (∃ r, pointerRegs[index.toNat]? = some r ∧ loc = .reg r) ∨
      pointerRegs.length ≤ index.toNat ∧ ∃ n, loc = .slot n := by
  rw [pointerLocation] at h
  split at h
  next r hr => exact .inl ⟨r, hr, (Except.ok.inj h).symm⟩
  next hnone =>
    split at h
    next => exact .inr ⟨List.getElem?_eq_none_iff.mp hnone, _, (Except.ok.inj h).symm⟩
    next => cases h

/-- An operand in a machine register, by the number of the register. -/
theorem locate?_eq_reg (h : f.locate? op = some (.reg r)) :
    ∃ k, homeRegs[k]? = some r ∧
      ((∃ index, op = .general index ∧ index.toNat < generalRegs.length ∧ k = index.toNat) ∨
        ∃ index, op = .pointer index ∧ k = generalRegs.length + index.toNat) := by
  obtain ⟨index, rfl, hloc⟩ | ⟨index, rfl, hloc⟩ | ⟨_, _, -, -, hloc⟩ := locate?_eq_some h
  · obtain ⟨_, hr, ⟨⟩⟩ | ⟨-, _, hslot⟩ := generalLocation_cases hloc
    · have hlt := (List.getElem?_eq_some_iff.mp hr).1
      refine ⟨index.toNat, ?_, .inl ⟨index, rfl, hlt, rfl⟩⟩
      rw [homeRegs, List.getElem?_append_left hlt, hr]
    · cases hslot
  · obtain ⟨_, hr, ⟨⟩⟩ | ⟨-, _, hslot⟩ := pointerLocation_cases hloc
    · refine ⟨_, ?_, .inr ⟨index, rfl, rfl⟩⟩
      rw [homeRegs, List.getElem?_append_right (Nat.le_add_right _ _), Nat.add_sub_cancel_left, hr]
    · cases hslot
  · cases hloc

/-- An operand in the frame, by the part of the frame that it is in. -/
theorem locate?_eq_slot (h : f.locate? op = some (.slot n)) :
    (∃ index, op = .argument index ∧ n.toNat = f.homesBase + slotSize * (index.toNat + 1) ∧
      n.toNat ≤ f.savesBase) ∨
    (∃ index, op = .general index ∧ generalRegs.length ≤ index.toNat ∧
      n.toNat = f.generalBase + slotSize * (index.toNat - generalRegs.length + 1) ∧
      n.toNat ≤ f.pointerBase) ∨
    ∃ index, op = .pointer index ∧ pointerRegs.length ≤ index.toNat ∧
      n.toNat = f.pointerBase + slotSize * (index.toNat - pointerRegs.length + 1) ∧
      n.toNat ≤ f.totalSize := by
  obtain ⟨-, -, hsaves, hgenerals, htotal⟩ := f.bases_le
  obtain ⟨index, rfl, hloc⟩ | ⟨index, rfl, hloc⟩ | ⟨index, home, rfl, hhome, hloc⟩ :=
    locate?_eq_some h
  · obtain ⟨hk, rfl⟩ := generalLocation_eq_slot hloc
    have hend : f.generalBase + slotSize * f.generalOverflow = f.pointerBase := rfl
    have hlow : generalRegs.length ≤ index.toNat := by
      obtain ⟨_, -, hreg⟩ | ⟨hlow, -⟩ := generalLocation_cases hloc
      · cases hreg
      · exact hlow
    have hwithin : f.generalBase + slotSize * f.generalOverflow ≤ f.totalSize := by omega
    have hexact := toNat_wordAt hk hwithin
    refine .inr (.inl ⟨index, rfl, hlow, hexact, ?_⟩)
    rw [hexact, ← hend, slotSize]
    omega
  · obtain ⟨hk, rfl⟩ := pointerLocation_eq_slot hloc
    have hlow : pointerRegs.length ≤ index.toNat := by
      obtain ⟨_, -, hreg⟩ | ⟨hlow, -⟩ := pointerLocation_cases hloc
      · cases hreg
      · exact hlow
    have hexact := toNat_wordAt hk htotal
    refine .inr (.inr ⟨index, rfl, hlow, hexact, ?_⟩)
    rw [slotSize] at htotal hexact
    omega
  · obtain rfl := Location.slot.inj hloc
    obtain ⟨hk, rfl⟩ := argHome_eq_ok hhome
    have hend : f.homesBase + slotSize * f.args = f.savesBase := rfl
    have hwithin : f.homesBase + slotSize * f.args ≤ f.totalSize := by omega
    have hexact := toNat_wordAt hk hwithin
    rw [UInt32.toNat_toUInt64] at hk hexact
    refine .inl ⟨index, rfl, hexact, ?_⟩
    rw [UInt32.toNat_toUInt64, hexact, ← hend, slotSize]
    omega

/-! ### Operands are kept apart -/

/-- The frame is within reach of a displacement. -/
theorem slot_le (h : f.locate? op = some (.slot n)) : n.toNat ≤ maxFrameSize := by
  obtain ⟨-, -, hsaves, hgenerals, htotal⟩ := f.bases_le
  have hsize := f.size_le
  obtain ⟨_, -, -, hn⟩ | ⟨_, -, -, -, hn⟩ | ⟨_, -, -, -, hn⟩ := locate?_eq_slot h <;> omega

/-- Operands in machine registers. -/
theorem mem_homeRegs (h : f.locate? op = some (.reg r)) : r ∈ homeRegs := by
  obtain ⟨k, hk, -⟩ := locate?_eq_reg h
  exact List.mem_of_getElem? hk

/-- No two operands are kept in one machine register. -/
theorem reg_ne_of_ne (h : f.locate? op = some (.reg r)) (h' : f.locate? op' = some (.reg r'))
    (hne : op' ≠ op) : r' ≠ r := by
  rintro rfl
  obtain ⟨k, hk, hop⟩ := locate?_eq_reg h
  obtain ⟨k', hk', hop'⟩ := locate?_eq_reg h'
  have hnodup : homeRegs.Nodup := by decide
  -- a register stands once in the list, so the numbers are the same
  obtain rfl : k = k' :=
    (List.getElem?_inj (List.getElem?_eq_some_iff.mp hk).1 hnodup).mp (hk.trans hk'.symm)
  rcases hop with ⟨i, rfl, hi, hki⟩ | ⟨i, rfl, hki⟩ <;>
    rcases hop' with ⟨j, rfl, hj, hkj⟩ | ⟨j, rfl, hkj⟩
  · exact hne (congrArg _ (UInt32.toNat_inj.mp (hkj.symm.trans hki)))
  · omega
  · omega
  · exact hne (congrArg _ (UInt32.toNat_inj.mp (by omega)))

/-- The words of two operands do not overlap. -/
theorem slot_apart_of_ne (h : f.locate? op = some (.slot n)) (h' : f.locate? op' = some (.slot n'))
    (hne : op' ≠ op) : n.toNat + slotSize ≤ n'.toNat ∨ n'.toNat + slotSize ≤ n.toNat := by
  obtain ⟨-, -, hsaves, hgenerals, -⟩ := f.bases_le
  have hindex : ∀ (i j : UInt32) (g : UInt32 → RegIR.Operand), op = g i → op' = g j →
      i.toNat ≠ j.toNat := by
    rintro i j g rfl rfl heq
    exact hne (congrArg g (UInt32.toNat_inj.mp heq.symm))
  have hslots := locate?_eq_slot h
  have hslots' := locate?_eq_slot h'
  simp only [slotSize] at hslots hslots' ⊢
  rcases hslots with ⟨i, hi, hn⟩ | ⟨i, hi, hn⟩ | ⟨i, hi, hn⟩ <;>
    rcases hslots' with ⟨j, hj, hn'⟩ | ⟨j, hj, hn'⟩ | ⟨j, hj, hn'⟩
  · have := hindex i j _ hi hj
    omega
  · omega
  · omega
  · omega
  · have := hindex i j _ hi hj
    omega
  · omega
  · omega
  · omega
  · have := hindex i j _ hi hj
    omega

end X86.Frame

/-- Selection finds operands where they are kept. -/
theorem Scope.location_of_locate? {s : Scope} {op : Operand} {loc : Location}
    (h : s.frame.locate? op = some loc) (opcode : Opcode) : s.location opcode op = .ok loc := by
  obtain ⟨index, rfl, hloc⟩ | ⟨index, rfl, hloc⟩ | ⟨index, home, rfl, hhome, rfl⟩ :=
    X86.Frame.locate?_eq_some h
  · rw [location, hloc]
    rfl
  · rw [location, hloc]
    rfl
  · rw [location, hhome]
    rfl

/-! ### Contents -/

namespace X86.Machine

variable {f : Frame} {op op' : RegIR.Operand} {loc loc' : Location} {m m' m'' : Machine}
  {w : Width} {v : BitVec w.bits} {n : UInt32} {r : Reg} {rs rs' : List Reg}

/-- The address of a word of the frame. -/
def frameAddress (m : Machine) (n : UInt32) : BitVec 64 :=
  m.regs .rbp - BitVec.ofNat 64 n.toNat

/-- The whole word that is kept at a place. -/
def content (m : Machine) : Location → BitVec 64
  | .reg r => m.regs r
  | .slot n => m.mem.load (m.frameAddress n) 8

/-- Accesses to the frame go where its words are. -/
theorem addressOf_slotAt (hn : n.toNat ≤ maxFrameSize) (w : Width) :
    m.addressOf (.slotAt n w) = m.frameAddress n := by
  rw [maxFrameSize] at hn
  have hdisp : (-n.toInt32).toBitVec.toInt = -(n.toNat : Int) := toInt_neg_toInt32 (by omega)
  change m.regs .rbp + (-n.toInt32).toBitVec.signExtend 64 = _
  rw [BitVec.signExtend, hdisp, BitVec.ofInt_neg, BitVec.ofInt_natCast, frameAddress,
    BitVec.sub_eq_add_neg]

/-- Reading a place at a width gives the low bits of its content. -/
theorem read_operand (h : f.locate? op = some loc) (w : Width) :
    m.read w (loc.operand w) = (m.content loc).setWidth w.bits := by
  cases loc with
  | reg r => rfl
  | slot n =>
      change m.mem.load (m.addressOf (.slotAt n w)) w.bytes = _
      rw [addressOf_slotAt (Frame.slot_le h)]
      exact (Memory.setWidth_load w.bytes_le).symm

/-- Writing to a word of the frame. -/
theorem write_slot (hn : n.toNat ≤ maxFrameSize) :
    m.write w v (Location.operand (.slot n) w) = m.store (m.frameAddress n) w v := by
  rw [← addressOf_slotAt hn w]
  rfl

/-- What is written to a place is found there. -/
theorem content_write_self (h : f.locate? op = some loc) :
    ((m.write w v (loc.operand w)).content loc).setWidth w.bits = v := by
  cases loc with
  | reg r =>
      change ((m.setReg r w v).regs r).setWidth w.bits = v
      rw [regs_setReg_self, Width.setWidth_insert]
  | slot n =>
      rw [write_slot (Frame.slot_le h)]
      refine (Memory.setWidth_load w.bytes_le).trans (Memory.load_store ?_ v)
      exact w.bytes_le.trans (by decide)

/-- Other places keep their content. -/
theorem content_write_of_ne (h : f.locate? op = some loc) (h' : f.locate? op' = some loc')
    (hne : op' ≠ op) : (m.write w v (loc.operand w)).content loc' = m.content loc' := by
  cases loc with
  | reg r =>
      change (m.setReg r w v).content loc' = _
      cases loc' with
      | reg r' => exact regs_setReg_of_ne (Frame.reg_ne_of_ne h h' hne)
      | slot n' =>
          -- the frame pointer is not a register of the IR
          have hrbp : Reg.rbp ≠ r := by
            rintro rfl
            have hmem := Frame.mem_homeRegs h
            revert hmem
            decide
          rw [content, content, frameAddress, frameAddress, regs_setReg_of_ne hrbp]
          rfl
  | slot n =>
      rw [write_slot (Frame.slot_le h)]
      cases loc' with
      | reg r' => rfl
      | slot n' =>
          refine Memory.load_store_of_apart fun i hi => ?_
          have hapart := Frame.slot_apart_of_ne h h' hne
          have hle := Frame.slot_le h
          have hle' := Frame.slot_le h'
          have hbytes := w.bytes_le
          simp only [maxFrameSize, slotSize] at hapart hle hle' hbytes
          change w.bytes ≤ (m.frameAddress n' + BitVec.ofNat 64 i - m.frameAddress n).toNat
          rw [frameAddress, frameAddress]
          bv_omega

/-- Other registers are as they were. -/
theorem regs_write_of_ne (h : f.locate? op = some loc) (hr : loc ≠ .reg r) :
    (m.write w v (loc.operand w)).regs r = m.regs r := by
  cases loc with
  | reg r' => exact regs_setReg_of_ne fun heq => hr (congrArg _ heq.symm)
  | slot n => rfl

/-- Other bytes are as they were. -/
theorem mem_write_of_le (h : f.locate? op = some loc) {a : BitVec 64}
    (ha : ∀ n, loc = .slot n → w.bytes ≤ (a - m.frameAddress n).toNat) :
    (m.write w v (loc.operand w)).mem a = m.mem a := by
  cases loc with
  | reg r => rfl
  | slot n =>
      rw [write_slot (Frame.slot_le h)]
      exact Memory.store_of_le (ha n rfl)

theorem symbols_write (x : Operand) : (m.write w v x).symbols = m.symbols := by
  cases x <;> rfl

/-! ### Scratch registers -/

/-- `m.SameBut rs m'`: the machines differ in the registers `rs` and in the flags at most. -/
structure SameBut (rs : List Reg) (m m' : Machine) : Prop where
  regs : ∀ r ∉ rs, m'.regs r = m.regs r
  mem : m'.mem = m.mem
  symbols : m'.symbols = m.symbols

namespace SameBut

theorem refl (rs : List Reg) (m : Machine) : SameBut rs m m :=
  ⟨fun _ _ => rfl, rfl, rfl⟩

theorem trans (h : SameBut rs m m') (h' : SameBut rs m' m'') : SameBut rs m m'' :=
  ⟨fun r hr => (h'.regs r hr).trans (h.regs r hr), h'.mem.trans h.mem,
    h'.symbols.trans h.symbols⟩

theorem mono (h : SameBut rs m m') (hrs : rs ⊆ rs') : SameBut rs' m m' :=
  ⟨fun r hr => h.regs r fun hmem => hr (hrs hmem), h.mem, h.symbols⟩

theorem setReg : SameBut [r] m (m.setReg r w v) :=
  ⟨fun _ hr => regs_setReg_of_ne fun heq => hr (List.mem_singleton.mpr heq), rfl, rfl⟩

/-- The flags are not looked at. -/
theorem forgetFlags (h : SameBut rs m m') : SameBut rs m m'.forgetFlags :=
  ⟨h.regs, h.mem, h.symbols⟩

/-- A register at a width is as it was if the register is. -/
theorem reg (h : SameBut rs m m') (hr : r ∉ rs) (w : Width) : m'.reg r w = m.reg r w := by
  rw [Machine.reg, Machine.reg, h.regs r hr]

/-- The same value is put at the same place. -/
theorem store {a : BitVec 64} (h : SameBut rs m m') (v : BitVec w.bits) :
    SameBut rs (m.store a w v) (m'.store a w v) :=
  ⟨h.regs, congrArg (Memory.store · a w.bytes v) h.mem, h.symbols⟩

/-- Registers that must not be touched are as they were. -/
theorem pinned (h : SameBut rs m m') (hrs : ∀ r ∈ rs, r ∉ Frame.pinnedRegs)
    (hr : r ∈ Frame.pinnedRegs) : m'.regs r = m.regs r :=
  h.regs r fun hmem => hrs r hmem hr

/-- Operands keep their contents if neither their registers nor the frame pointer are touched. -/
theorem content (h : SameBut rs m m') (hrs : ∀ r ∈ rs, r ∉ Frame.pinnedRegs)
    (hloc : f.locate? op = some loc) : m'.content loc = m.content loc := by
  cases loc with
  | reg r =>
      refine h.pinned hrs ?_
      exact List.mem_cons_of_mem _ (List.mem_cons_of_mem _ (Frame.mem_homeRegs hloc))
  | slot n =>
      have hrbp := h.pinned hrs (r := .rbp) (by decide)
      rw [Machine.content, Machine.content, frameAddress, frameAddress, h.mem, hrbp]

end SameBut

end X86.Machine

/-- An instruction that writes a register, and the flags at most. -/
theorem X86.Achieves.setReg {x : Instr} {m m₁ : X86.Machine} {r : Reg} {w : Width}
    {v : BitVec w.bits} (hx : x.Encodable) (heffect : x.effect? m = some m₁)
    (hm₁ : m₁ = m.setReg r w v ∨ m₁ = (m.setReg r w v).forgetFlags) :
    Achieves [x] m fun m' => m'.reg r w = v ∧ m.SameBut [r] m' := by
  refine .single hx heffect ?_
  rcases hm₁ with rfl | rfl
  · exact ⟨X86.Machine.reg_setReg_self, .setReg⟩
  · exact ⟨X86.Machine.reg_setReg_self, X86.Machine.SameBut.setReg.forgetFlags⟩

/-! ### Assignments -/

namespace X86.Frame

/-- `f.Assigns rs dest loc w v m m'`: the operand `dest`, which is kept at `loc`, has been given the
value `v`. Beside it, the registers `rs` and the flags may have changed, and nothing else has. -/
structure Assigns (f : Frame) (rs : List Reg) (dest : RegIR.Operand) (loc : Location) (w : Width)
    (v : BitVec w.bits) (m m' : Machine) : Prop where
  result : (m'.content loc).setWidth w.widen.bits = v.signExtend _
  others : ∀ op ≠ dest, ∀ loc', f.locate? op = some loc' → m'.content loc' = m.content loc'
  stack : m'.regs .rsp = m.regs .rsp ∧ m'.regs .rbp = m.regs .rbp
  regs : ∀ r ∉ rs, loc ≠ .reg r → m'.regs r = m.regs r
  mem : ∀ a, (∀ n, loc = .slot n → w.widen.bytes ≤ (a - m.frameAddress n).toNat) →
    m'.mem a = m.mem a
  symbols : m'.symbols = m.symbols

end X86.Frame

end RegIR
