import Mathlib.Tactic.Ring
import RegIR.Proofs.Frame.Places
import RegIR.Proofs.Select.Faults

/-!
# The words of a frame

Each argument of a function, each register that it saves, and each register of the IR without a
machine register behind it has a word of the frame to itself. They are laid out in this order in
four parts, and four queries find them, each by adding up the parts before its own. Seen together
the words are numbered without a gap, from the first one behind the stack slots to the last one in
the frame, and a word is where its number says. That the words do not overlap, that they are
aligned, and that the frame is no larger than it has to be all follows from the numbers.

## Main definitions

* `X86.Frame.location`: where a register of either class is kept.
* `X86.Tenant`: what has a word to itself, and `X86.Frame.Houses`, which of them a frame has.
* `X86.Frame.Answers`: what the query for a tenant answers.
* `X86.Frame.number`: the number of a tenant's word.
* `X86.Frame.IsLaidOut`: the layout of a frame, as the queries tell it.

## Main results

* `X86.Frame.location_inj`, `X86.Frame.mem_saved_iff`: registers have places of their own, and
  which machine registers are saved for that.
* `X86.Frame.number_inj`, `X86.Frame.exists_number`: the tenants are numbered one by one.
* `X86.Frame.answers_iff`, `X86.Frame.toNat_of_answers`: the query for a tenant answers the word
  of its number.
* `X86.Frame.make_laid_out`: every frame is laid out.
-/

namespace RegIR

namespace X86

/-! ### Registers of the IR

General and pointer registers are kept alike: the first few in machine registers, the others in
words of the frame as far as they are in use. -/

namespace RegClass

/-- The machine registers behind the first registers of a class. -/
def regs : RegClass → List Reg
  | general => generalRegs
  | pointer => pointerRegs

/-- A register of a class as an operand. -/
def operand : RegClass → UInt32 → RegIR.Operand
  | general, index => .general index
  | pointer, index => .pointer index

/-- Registers are told apart by class and index. -/
theorem operand_inj {c c' : RegClass} {index index' : UInt32}
    (h : c.operand index = c'.operand index') : c = c' ∧ index = index' := by
  cases c <;> cases c' <;> cases h <;> exact ⟨rfl, rfl⟩

end RegClass

namespace Frame

section Registers

variable {f : Frame} {r : Reg} {c c' : RegClass} {index index' : UInt32} {loc : Location}

/-- How many registers of a class are in use. -/
def count (f : Frame) : RegClass → UInt32
  | .general => f.general
  | .pointer => f.pointer

/-- Where the words for the registers of a class start. -/
def spillBase (f : Frame) : RegClass → Nat
  | .general => f.generalBase
  | .pointer => f.pointerBase

/-- Where a register of a class is kept. -/
def location (f : Frame) : RegClass → UInt32 → Except AbiError Location
  | .general => f.generalLocation
  | .pointer => f.pointerLocation

/-- Both classes are kept alike. -/
theorem location_eq (f : Frame) (c : RegClass) (index : UInt32) :
    f.location c index = match c.regs[index.toNat]? with
      | some r => .ok (.reg r)
      | none =>
          if index < f.count c then
            .ok (.slot (wordAt (f.spillBase c) (index.toNat - c.regs.length)))
          else
            .error (.unreservedSlot c index) := by
  cases c <;> rfl

/-- The first registers of a class are in machine registers. -/
theorem location_eq_reg_iff :
    f.location c index = .ok (.reg r) ↔ c.regs[index.toNat]? = some r := by
  rw [location_eq]
  split
  next r' hr => rw [hr, Except.ok.injEq, Location.reg.injEq, Option.some_inj]
  next hnone =>
    rw [hnone]
    split <;> simp only [reduceCtorEq, Except.ok.injEq]

/-- The others are in the frame. -/
theorem location_eq_slot_iff {w : UInt32} (hlow : c.regs.length ≤ index.toNat)
    (hlt : index < f.count c) :
    f.location c index = .ok (.slot w) ↔
      wordAt (f.spillBase c) (index.toNat - c.regs.length) = w := by
  rw [location_eq, List.getElem?_eq_none hlow]
  simp only [if_pos hlt, Except.ok.injEq, Location.slot.injEq]

/-- Every register that is in use is kept somewhere. -/
theorem exists_location (h : index < f.count c) : ∃ loc, f.location c index = .ok loc := by
  rcases Nat.lt_or_ge index.toNat c.regs.length with hlt | hge
  · exact ⟨_, location_eq_reg_iff.mpr (List.getElem?_eq_getElem hlt)⟩
  · exact ⟨_, (location_eq_slot_iff hge h).mpr rfl⟩

/-- A register is located as an operand. -/
theorem locate?_operand (h : f.location c index = .ok loc) :
    f.locate? (c.operand index) = some loc := by
  cases c with
  | general => exact congrArg Except.toOption h
  | pointer => exact congrArg Except.toOption h

/-- **Places.** Two registers that are kept in one place are one. -/
theorem location_inj (h : f.location c index = .ok loc) (h' : f.location c' index' = .ok loc) :
    c = c' ∧ index = index' := by
  have hop := locate?_operand h
  have hop' := locate?_operand h'
  by_contra hne
  replace hne : c.operand index ≠ c'.operand index' := fun heq => hne (RegClass.operand_inj heq)
  cases loc with
  | reg r => exact reg_ne_of_ne hop' hop hne rfl
  | slot n =>
      have hapart := slot_apart_of_ne hop' hop hne
      rw [slotSize] at hapart
      omega

/-- A register is among the first ones if one of the first indices leads to it. -/
theorem mem_take_iff {regs : List Reg} {n : UInt32} :
    r ∈ regs.take n.toNat ↔ ∃ index : UInt32, index < n ∧ regs[index.toNat]? = some r := by
  constructor
  · intro h
    obtain ⟨k, hk, hget⟩ := List.mem_take_iff_getElem.mp h
    have hn := n.toNat_lt_size
    have hindex : (UInt32.ofNat k).toNat = k := UInt32.toNat_ofNat_of_lt' (by omega)
    refine ⟨UInt32.ofNat k, UInt32.lt_iff_toNat_lt.mpr (by omega), ?_⟩
    rw [hindex]
    exact List.getElem?_eq_some_iff.mpr ⟨by omega, hget⟩
  · rintro ⟨index, hlt, hget⟩
    refine List.mem_of_getElem? (i := index.toNat) ?_
    rw [List.getElem?_take_of_lt (UInt32.lt_iff_toNat_lt.mp hlt), hget]

/-- **Saved registers** are the callee-saved registers that something in use is kept in. -/
theorem mem_saved_iff :
    r ∈ f.saved ↔ r.isCalleeSaved = true ∧
      ∃ c index, index < f.count c ∧ f.location c index = .ok (.reg r) := by
  have hclass : r ∈ generalRegs.take f.general.toNat ++ pointerRegs.take f.pointer.toNat ↔
      ∃ c : RegClass, r ∈ c.regs.take (f.count c).toNat := by
    rw [List.mem_append]
    constructor
    · rintro (h | h)
      · exact ⟨.general, h⟩
      · exact ⟨.pointer, h⟩
    · rintro ⟨c, h⟩
      cases c with
      | general => exact .inl h
      | pointer => exact .inr h
  rw [Demand.saved, List.mem_filter, hclass, and_comm]
  simp only [mem_take_iff, location_eq_reg_iff]

end Registers

end Frame

/-! ### Tenants -/

/-- What can have a word of a frame to itself: an argument, a callee-saved register, or a register
of the IR that has no machine register. -/
inductive Tenant where
  | argument (index : UInt64)
  | saved (r : Reg)
  | spilled (c : RegClass) (index : UInt32)
deriving DecidableEq, Repr

namespace Frame

variable {f : Frame} {t t' : Tenant} {w w' : UInt32} {r : Reg}

/-- The tenants of a frame: its arguments, the registers that it saves, and the registers of the IR
that are in use and have no machine register. -/
def Houses (f : Frame) : Tenant → Prop
  | .argument index => index.toNat < f.args
  | .saved r => r ∈ f.saved
  | .spilled c index => c.regs.length ≤ index.toNat ∧ index < f.count c

/-- The query for a tenant answers the word `w`. -/
def Answers (f : Frame) (w : UInt32) : Tenant → Prop
  | .argument index => f.argHome index = .ok w
  | .saved r => f.saveSlot r = some w
  | .spilled c index => f.location c index = .ok (.slot w)

/-- Where the part of the frame starts that a tenant belongs to. -/
def base (f : Frame) : Tenant → Nat
  | .argument _ => f.homesBase
  | .saved _ => f.savesBase
  | .spilled c _ => f.spillBase c

/-- The same, added up in 32-bit words. -/
def baseWord (f : Frame) : Tenant → Checked UInt32
  | .argument _ => f.homesWord
  | .saved _ => f.savesWord
  | .spilled .general _ => f.generalWord
  | .spilled .pointer _ => f.pointerWord

/-- How many words there are before this part. -/
def before (f : Frame) : Tenant → Nat
  | .argument _ => 0
  | .saved _ => f.args
  | .spilled .general _ => f.args + f.saved.length
  | .spilled .pointer _ => f.args + f.saved.length + f.generalOverflow

/-- The position of a tenant in its part. -/
def position (f : Frame) : Tenant → Nat
  | .argument index => index.toNat
  | .saved r => f.saved.idxOf r
  | .spilled c index => index.toNat - c.regs.length

/-- How many words there are in this part. -/
def capacity (f : Frame) : Tenant → Nat
  | .argument _ => f.args
  | .saved _ => f.saved.length
  | .spilled c _ => (f.count c).toNat - c.regs.length

/-- The number of a tenant's word among the words of the frame. -/
def number (f : Frame) (t : Tenant) : Nat :=
  f.before t + f.position t

/-- The sums by which a tenant's word is found, in 32-bit words. -/
def findWord (f : Frame) (t : Tenant) : Checked UInt32 := do
  addWords (← f.baseWord t) (f.position t + 1)

/-- A part starts behind the words before it. -/
theorem base_eq (f : Frame) (t : Tenant) : f.base t = f.homesBase + slotSize * f.before t := by
  rcases t with _ | _ | ⟨_ | _, _⟩ <;>
    simp only [base, spillBase, before, Demand.pointerBase, Demand.generalBase,
      Demand.savesBase] <;>
    ring

/-- A part starts there in 32-bit arithmetic too, if that is in range. -/
theorem baseWord_eq_ok_iff : f.baseWord t = .ok w ↔ w.toNat = f.base t := by
  rcases t with _ | _ | ⟨_ | _, _⟩
  · exact Demand.homesWord_eq_ok_iff
  · exact Demand.savesWord_eq_ok_iff
  · exact Demand.generalWord_eq_ok_iff
  · exact Demand.pointerWord_eq_ok_iff

/-- A tenant has a position in its part. -/
theorem position_lt (h : f.Houses t) : f.position t < f.capacity t := by
  cases t with
  | argument index => exact h
  | saved r => exact List.idxOf_lt_length_of_mem h
  | spilled c index => exact Nat.sub_lt_sub_right h.1 (UInt32.lt_iff_toNat_lt.mp h.2)

/-- A part ends where the words of the frame do, or before. -/
theorem before_add_capacity_le (f : Frame) (t : Tenant) :
    f.before t + f.capacity t ≤ f.words := by
  rcases t with _ | _ | ⟨_ | _, _⟩ <;>
    simp only [before, capacity, Demand.words, Demand.generalOverflow, Demand.pointerOverflow,
      count, RegClass.regs] <;>
    omega

/-! ### Numbers -/

/-- A number is the number of a word. -/
theorem number_lt (h : f.Houses t) : f.number t < f.words := by
  have hposition := position_lt h
  have hend := f.before_add_capacity_le t
  rw [number]
  omega

/-- Indices beyond the machine registers are told apart by where they are beyond them. -/
theorem index_inj {n : Nat} {i j : UInt32} (hi : n ≤ i.toNat) (hj : n ≤ j.toNat)
    (h : i.toNat - n = j.toNat - n) : i = j :=
  UInt32.toNat_inj.mp (by omega)

/-- Two tenants with one number are one. -/
theorem number_inj (h : f.Houses t) (h' : f.Houses t') (heq : f.number t = f.number t') :
    t = t' := by
  have hposition := position_lt h
  have hposition' := position_lt h'
  rw [number, number] at heq
  -- two parts have no number in common, so the tenants are of one kind
  rcases t with i | r | ⟨_ | _, i⟩ <;> rcases t' with j | r' | ⟨_ | _, j⟩ <;>
    simp only [before, capacity, Demand.generalOverflow, count, RegClass.regs]
      at heq hposition hposition' <;>
    try omega
  all_goals have hsame := Nat.add_left_cancel heq
  · exact congrArg _ (UInt64.toNat_inj.mp hsame)
  · exact congrArg _ ((List.idxOf_inj h).mp hsame)
  · exact congrArg _ (index_inj h.1 h'.1 hsame)
  · exact congrArg _ (index_inj h.1 h'.1 hsame)

/-- A register that is in use and has no machine register has an index. -/
theorem exists_index {count : UInt32} {n k : Nat} (hk : k < count.toNat - n) :
    ∃ index : UInt32, (n ≤ index.toNat ∧ index < count) ∧ index.toNat - n = k := by
  have hcount := count.toNat_lt_size
  have hindex : (UInt32.ofNat (n + k)).toNat = n + k := UInt32.toNat_ofNat_of_lt' (by omega)
  refine ⟨UInt32.ofNat (n + k), ⟨?_, ?_⟩, ?_⟩
  · omega
  · rw [UInt32.lt_iff_toNat_lt]
    omega
  · omega

/-- Every number is the number of a tenant. -/
theorem exists_number {k : Nat} (hk : k < f.words) : ∃ t, f.Houses t ∧ f.number t = k := by
  rw [Demand.words] at hk
  by_cases harg : k < f.args
  · have hlt : k < UInt64.size := (harg.trans_le f.args_le).trans (by decide)
    have hindex : (UInt64.ofNat k).toNat = k := UInt64.toNat_ofNat_of_lt' hlt
    exact ⟨.argument _, lt_of_eq_of_lt hindex harg, (Nat.zero_add _).trans hindex⟩
  obtain ⟨k, rfl⟩ := Nat.exists_eq_add_of_le (Nat.le_of_not_lt harg)
  by_cases hsaved : k < f.saved.length
  · refine ⟨.saved f.saved[k], List.getElem_mem hsaved, ?_⟩
    exact congrArg _ (f.nodup_saved.idxOf_getElem k hsaved)
  obtain ⟨k, rfl⟩ := Nat.exists_eq_add_of_le (Nat.le_of_not_lt hsaved)
  by_cases hgeneral : k < f.generalOverflow
  · obtain ⟨index, hhouses, rfl⟩ := exists_index hgeneral
    exact ⟨.spilled .general index, hhouses, Nat.add_assoc _ _ _⟩
  obtain ⟨k, rfl⟩ := Nat.exists_eq_add_of_le (Nat.le_of_not_lt hgeneral)
  have hpointer : k < f.pointerOverflow := by omega
  obtain ⟨index, hhouses, rfl⟩ := exists_index hpointer
  refine ⟨.spilled .pointer index, hhouses, ?_⟩
  simp only [number, before, position, RegClass.regs]
  omega

/-! ### Queries -/

/-- The end of a tenant's word, counted from where the words start. -/
theorem base_add_position (f : Frame) (t : Tenant) :
    f.base t + slotSize * (f.position t + 1) = f.homesBase + slotSize * (f.number t + 1) := by
  rw [base_eq, number]
  ring

/-- The words of a frame end inside it. -/
theorem homesBase_add_number_le (h : f.Houses t) :
    f.homesBase + slotSize * (f.number t + 1) ≤ f.totalSize := by
  have hlt : slotSize * (f.number t + 1) ≤ slotSize * f.words :=
    Nat.mul_le_mul_left slotSize (number_lt h)
  have hend : f.homesBase + slotSize * f.words ≤ f.totalSize := f.isLeast_totalSize.1.2
  omega

/-- **Queries.** The query for a tenant answers the word at its position. -/
theorem answers_iff (h : f.Houses t) :
    f.Answers w t ↔ wordAt (f.base t) (f.position t) = w := by
  cases t with
  | argument index =>
      have hindex : index.toNat < f.args := h
      rw [Answers, argHome, if_pos hindex]
      exact pure_eq_ok_iff
  | saved r =>
      have hget : f.saved[f.saved.idxOf r]? = some r := List.getElem?_idxOf h
      rw [Answers, saveSlot_of_getElem? hget]
      exact Option.some_inj
  | spilled c index => exact location_eq_slot_iff h.1 h.2

/-- The word is where its number says. -/
theorem toNat_of_answers (h : f.Houses t) (hw : f.Answers w t) :
    w.toNat = f.homesBase + slotSize * (f.number t + 1) := by
  obtain rfl := (answers_iff h).mp hw
  have hend := homesBase_add_number_le h
  rw [← base_add_position] at hend ⊢
  exact toNat_wordAt (f := f) (Nat.lt_succ_self _) hend

/-- The sums that find a tenant's word are exact, and nothing overflows. -/
theorem findWord_of_answers (h : f.Houses t) (hw : f.Answers w t) : f.findWord t = .ok w := by
  refine (addWords_eq_ok_iff fun _ => baseWord_eq_ok_iff).mpr ?_
  rw [base_add_position]
  exact toNat_of_answers h hw

/-- The words of two tenants do not overlap. -/
theorem disjoint_of_answers (h : f.Houses t) (h' : f.Houses t') (hne : t ≠ t')
    (hw : f.Answers w t) (hw' : f.Answers w' t') :
    Disjoint (wordSpan w).bytes (wordSpan w').bytes := by
  have hnumber : f.number t ≠ f.number t' := fun heq => hne (number_inj h h' heq)
  have hoffset := toNat_of_answers h hw
  have hoffset' := toNat_of_answers h' hw'
  rw [Set.disjoint_left]
  rintro x ⟨hlow, hhigh⟩ ⟨hlow', hhigh'⟩
  simp only [wordSpan, slotSize] at *
  omega

/-- **No waste.** The frame ends at the first multiple of sixteen behind the slots and the words
of all tenants. -/
theorem isLeast_size_of_answers (f : Frame) :
    IsLeast {n | 16 ∣ n ∧ f.locals.toNat ≤ n ∧ ∀ t w, f.Houses t → f.Answers w t → w.toNat ≤ n}
      f.totalSize := by
  refine ⟨⟨f.isLeast_totalSize.1.1, f.locals_le_totalSize, fun t w h hw => ?_⟩, ?_⟩
  · rw [toNat_of_answers h hw]
    exact homesBase_add_number_le h
  · rintro n ⟨hdvd, hlocals, hwords⟩
    refine f.isLeast_totalSize.2 ⟨hdvd, ?_⟩
    obtain hnone | hsome := Nat.eq_zero_or_pos f.words
    · rw [hnone]
      exact f.isLeast_homesBase.2 ⟨Nat.dvd_trans (by decide) hdvd, hlocals⟩
    · -- the last word is there for some tenant, and all others lie above it
      obtain ⟨t, h, hlast⟩ := exists_number (f := f) (Nat.sub_lt hsome Nat.one_pos)
      have hw : f.Answers _ t := (answers_iff h).mpr rfl
      have hle := hwords t _ h hw
      rw [toNat_of_answers h hw, hlast, Nat.sub_add_cancel hsome] at hle
      exact hle

/-! ### Code -/

/-- The instruction stores a register in the word of a tenant. -/
def Stores (f : Frame) (t : Tenant) (r : Reg) (x : Instr) : Prop :=
  ∃ w place, f.Answers w t ∧ Operand.frameSlot w .qword = .ok place ∧ x = .mov place (.qword r)

/-- The instruction loads a register from the word of a tenant. -/
def Loads (f : Frame) (t : Tenant) (r : Reg) (x : Instr) : Prop :=
  ∃ w place, f.Answers w t ∧ Operand.frameSlot w .qword = .ok place ∧ x = .mov (.qword r) place

/-- The indices of the arguments. -/
def arguments (f : Frame) : List UInt64 :=
  (List.range f.args).map UInt64.ofNat

/-- A word is within reach of a displacement. -/
theorem toNat_le_of_answers (h : f.Houses t) (hw : f.Answers w t) : w.toNat ≤ 0x7fffffff := by
  rw [toNat_of_answers h hw]
  exact (homesBase_add_number_le h).trans f.size_le

/-- A word is accessed at the negative of its offset. -/
theorem frameSlot_of_answers (h : f.Houses t) (hw : f.Answers w t) :
    Operand.frameSlot w .qword = .ok (.slotAt w .qword) := by
  have hle := toNat_le_of_answers h hw
  rw [Operand.frameSlot, Operand.frameDisp_eq_ok (by omega)]
  rfl

/-- A list and its image under a function that sees positions. -/
theorem forall₂_mapIdx {α β : Type} {R : α → β → Prop} {g : Nat → α → β} {xs : List α}
    (h : ∀ i a, xs[i]? = some a → R a (g i a)) : List.Forall₂ R xs (xs.mapIdx g) := by
  refine List.forall₂_iff_get.mpr ⟨(List.length_mapIdx).symm, fun i hi _ => ?_⟩
  rw [List.get_eq_getElem, List.get_eq_getElem, List.getElem_mapIdx]
  exact h i _ (List.getElem?_eq_getElem hi)

/-- The word of a saved register, by its position. -/
theorem answers_saved {i : Nat} (h : f.saved[i]? = some r) :
    f.Houses (.saved r) ∧ f.Answers (wordAt f.savesBase i) (.saved r) :=
  ⟨List.mem_of_getElem? h, saveSlot_of_getElem? h⟩

/-- Each register in use is stored in its word, -/
theorem forall₂_saveCode (f : Frame) :
    List.Forall₂ (fun r => f.Stores (.saved r) r) f.saved f.saveCode := by
  refine forall₂_mapIdx fun i r hr => ?_
  obtain ⟨hhouses, hw⟩ := answers_saved hr
  exact ⟨_, _, hw, frameSlot_of_answers hhouses hw, rfl⟩

/-- and loaded from there again. -/
theorem forall₂_restoreCode (f : Frame) :
    List.Forall₂ (fun r => f.Loads (.saved r) r) f.saved f.restoreCode := by
  refine forall₂_mapIdx fun i r hr => ?_
  obtain ⟨hhouses, hw⟩ := answers_saved hr
  exact ⟨_, _, hw, frameSlot_of_answers hhouses hw, rfl⟩

/-- An argument comes in the register of its index, if there is one. -/
theorem argReg_of_getElem? {index : UInt64} (h : argRegs[index.toNat]? = some r) :
    argReg index = .ok r := by
  have hlt : index.toNat < 6 := (List.getElem?_eq_some_iff.mp h).1
  have hcount : argCountAt index = .ok (index.toNat + 1) := by
    rw [argCountAt, if_pos]
    exact (Nat.succ_le_of_lt hlt).trans_lt (by decide)
  rw [argReg, hcount, h]
  rfl

/-- Each argument is stored in its home from the register that it comes in. -/
theorem forall₂_homeCode (f : Frame) :
    List.Forall₂ (fun index x => ∃ r, argReg index = .ok r ∧ f.Stores (.argument index) r x)
      f.arguments f.homeCode := by
  have hregs : f.args ≤ argRegs.length := f.args_le
  have hlength : f.arguments.length = f.homeCode.length := by
    simp only [arguments, homeCode, List.length_map, List.length_range, List.length_mapIdx,
      List.length_take]
    omega
  refine List.forall₂_iff_get.mpr ⟨hlength, fun i hi hi' => ?_⟩
  have hargs : i < f.args := by simpa [arguments] using hi
  have hindex : (UInt64.ofNat i).toNat = i :=
    UInt64.toNat_ofNat_of_lt' ((hargs.trans_le hregs).trans (by decide))
  have hhouses : f.Houses (.argument (UInt64.ofNat i)) := lt_of_eq_of_lt hindex hargs
  have hw : f.Answers (wordAt f.homesBase i) (.argument (UInt64.ofNat i)) := by
    rw [answers_iff hhouses, position, hindex]
    rfl
  have hreg : argRegs[(UInt64.ofNat i).toNat]? = some argRegs[i] := by
    rw [hindex]
    exact List.getElem?_eq_getElem _
  simp only [arguments, homeCode, List.get_eq_getElem, List.getElem_map, List.getElem_range,
    List.getElem_mapIdx, List.getElem_take]
  exact ⟨argRegs[i], argReg_of_getElem? hreg, _, _, hw, frameSlot_of_answers hhouses hw, rfl⟩

/-! ### Frames -/

/-- `f.IsLaidOut`: the words that the queries answer are the layout of the frame, and the code
around a function uses them. -/
structure IsLaidOut (f : Frame) : Prop where
  /-- The parts of the frame are added up without an overflow. -/
  fits : f.checkWords = .ok ()
  /-- The query for a tenant answers a word, and nothing overflows on the way. -/
  answered : ∀ t, f.Houses t → ∃ w, f.Answers w t ∧ f.findWord t = .ok w
  /-- The word lies behind the stack slots and inside the frame. -/
  within : ∀ t w, f.Houses t → f.Answers w t →
    (wordSpan w).bytes ⊆ Set.Ioc (f.locals.toNat : Int) f.totalSize
  /-- Its offset is a multiple of eight and fits a signed 32-bit word. -/
  aligned : ∀ t w, f.Houses t → f.Answers w t → 8 ∣ w.toNat ∧ w.toNat ≤ 0x7fffffff
  /-- The words of two tenants do not overlap. -/
  apart : ∀ t t' w w', f.Houses t → f.Houses t' → t ≠ t' → f.Answers w t → f.Answers w' t' →
    Disjoint (wordSpan w).bytes (wordSpan w').bytes
  /-- The frame is as small as a multiple of sixteen with all of this in it can be. -/
  tight : IsLeast
    {n | 16 ∣ n ∧ f.locals.toNat ≤ n ∧ ∀ t w, f.Houses t → f.Answers w t → w.toNat ≤ n}
    f.totalSize
  /-- Every register in use is kept somewhere, -/
  located : ∀ c index, index < f.count c → ∃ loc, f.location c index = .ok loc
  /-- and no two registers, of one class or of both, are kept in one place. -/
  distinct : ∀ c c' index index' loc, f.location c index = .ok loc →
    f.location c' index' = .ok loc → c = c' ∧ index = index'
  /-- The callee-saved registers that something in use is kept in are saved, and no others. -/
  saves : ∀ r, r ∈ f.saved ↔ r.isCalleeSaved = true ∧
    ∃ c index, index < f.count c ∧ f.location c index = .ok (.reg r)
  /-- A word is accessed at the negative of its offset. -/
  reached : ∀ t w, f.Houses t → f.Answers w t → ∃ disp : Int32,
    disp.toInt = -(w.toNat : Int) ∧
      Operand.frameSlot w .qword = .ok (.mem (some .qword) .rbp disp)
  /-- The prologue stores the saved registers and the arguments in their words, -/
  enters : ∃ (size : Int64) (saves homes : List Instr), size.toInt = f.totalSize ∧
    f.prologue = [.push (.qword .rbp), .mov (.qword .rbp) (.qword .rsp),
      .alu .sub (.qword .rsp) (.imm size)] ++ saves ++ homes ∧
    List.Forall₂ (fun r => f.Stores (.saved r) r) f.saved saves ∧
    List.Forall₂ (fun index x => ∃ r, argReg index = .ok r ∧ f.Stores (.argument index) r x)
      f.arguments homes
  /-- and the epilogue loads the saved registers from there. -/
  leaves : ∃ loads : List Instr, f.epilogue = loads ++ [.leave, .ret] ∧
    List.Forall₂ (fun r => f.Loads (.saved r) r) f.saved loads

/-- **The layout of a frame.** Whatever is demanded, a frame that meets the demand is laid out: its
words are apart, aligned and inside the frame, the frame is no larger than they need, registers
have places of their own, and the code around a function saves and restores what is in use. -/
theorem make_laid_out {d : Demand} (h : make d = .ok f) : f.toDemand = d ∧ f.IsLaidOut := by
  refine ⟨make_eq_ok h, ?_⟩
  have hbase := f.isLeast_homesBase.1
  constructor
  case fits => exact Demand.checkWords_eq_ok f.size_le
  case answered =>
    intro t ht
    have hw : f.Answers _ t := (answers_iff ht).mpr rfl
    exact ⟨_, hw, findWord_of_answers ht hw⟩
  case within =>
    rintro t w ht hw x ⟨hlow, hhigh⟩
    have hoffset := toNat_of_answers ht hw
    have hend := homesBase_add_number_le ht
    have hlocals := hbase.2
    simp only [wordSpan, slotSize] at *
    exact ⟨by omega, by omega⟩
  case aligned =>
    intro t w ht hw
    refine ⟨?_, toNat_le_of_answers ht hw⟩
    rw [toNat_of_answers ht hw]
    exact Nat.dvd_add hbase.1 (Nat.dvd_mul_right _ _)
  case apart => exact fun t t' w w' ht ht' hne hw hw' => disjoint_of_answers ht ht' hne hw hw'
  case tight => exact f.isLeast_size_of_answers
  case located => exact fun c index hlt => exists_location hlt
  case distinct => exact fun c c' index index' loc hloc hloc' => location_inj hloc hloc'
  case saves => exact fun r => mem_saved_iff
  case reached =>
    intro t w ht hw
    have hle := toNat_le_of_answers ht hw
    exact ⟨_, toInt_neg_toInt32 (by omega), frameSlot_of_answers ht hw⟩
  case enters =>
    have hsize : (Int64.ofNat f.totalSize).toInt = f.totalSize :=
      Int64.toInt_ofNat_of_lt (f.size_le.trans_lt (by decide))
    exact ⟨_, _, _, hsize, rfl, f.forall₂_saveCode, f.forall₂_homeCode⟩
  case leaves => exact ⟨_, rfl, f.forall₂_restoreCode⟩

/-- What a function with three pointers, six general registers, two arguments and twelve bytes of
variables asks for. -/
def mixedDemand : Demand where
  locals := 12
  args := 2
  general := 6
  pointer := 3

/-- Five registers are saved, behind the two arguments and before the two general registers and the
pointer register that have no machine register; the frame takes 96 bytes. -/
theorem mixedDemand_laid_out :
    ∃ f, make mixedDemand = .ok f ∧ f.toDemand = mixedDemand ∧ f.IsLaidOut ∧ f.totalSize = 96 ∧
      f.argHome 1 = .ok 32 ∧ f.saveSlot .r15 = some 72 ∧
      f.generalLocation 5 = .ok (.slot 88) ∧ f.pointerLocation 2 = .ok (.slot 96) := by
  have hmake := make_of_le (d := mixedDemand) (by decide) (by decide)
  obtain ⟨hdemand, hlaid⟩ := make_laid_out hmake
  exact ⟨_, hmake, hdemand, hlaid, by decide, by decide, by decide, by decide, by decide⟩

end Frame

end X86

end RegIR
