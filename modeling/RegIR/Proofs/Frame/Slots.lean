import Mathlib.Algebra.GroupWithZero.Nat
import Mathlib.Data.Int.ConditionallyCompleteOrder
import Mathlib.Order.CompletePartialOrder
import Mathlib.Order.ConditionallyCompleteLattice.Basic
import RegIR.Proofs.Ty.Layout
import RegIR.Proofs.Storage.Faithful
import RegIR.Select.Function

/-!
# The parts of a frame

A frame is measured in bytes below the frame pointer. The slots of the variables come first
and fill the top of the frame without a gap; the words of the frame, for arguments, saved
registers and registers without a machine register, all lie below them.

## Main results

* `Tiles.snoc`: one more span below those that fill the top of the frame.
* `Storage.tiles_assignAll`: the slots of a function fill the top of its frame.
* `X86.Frame.Word.bounds`, `X86.Frame.Word.disjoint_slot`: the words lie inside the frame, and
  below the slots.
-/

namespace RegIR

/-! ### Spans -/

/-- Consecutive bytes of a frame, the lowest of them `depth` bytes below the frame pointer. -/
structure Span where
  depth : Int
  size : Nat
deriving DecidableEq, Repr

/-- The bytes of a span, each by how far it is below the frame pointer. -/
def Span.bytes (a : Span) : Set Int :=
  Set.Ioc (a.depth - a.size) a.depth

/-- The spans fill the first `size` bytes below the frame pointer without overlap. -/
structure Tiles (spans : List Span) (size : Nat) : Prop where
  disjoint : spans.Pairwise fun a b => Disjoint a.bytes b.bytes
  within : ∀ a ∈ spans, a.bytes ⊆ Set.Icc 1 (size : Int)
  sum : size = (spans.map Span.size).sum

/-- Without spans there is nothing to fill. -/
theorem Tiles.nil : Tiles [] 0 :=
  ⟨List.Pairwise.nil, nofun, rfl⟩

/-- One more span, below the others. -/
theorem Tiles.snoc {spans : List Span} {size : Nat} (h : Tiles spans size) {a : Span}
    (ha : a.depth = size + a.size) : Tiles (spans ++ [a]) (size + a.size) := by
  have hbytes : ∀ x ∈ a.bytes, (size : Int) < x ∧ x ≤ size + a.size := by
    rintro x ⟨hlow, hhigh⟩
    omega
  refine ⟨?_, ?_, ?_⟩
  · rw [List.pairwise_append]
    refine ⟨h.disjoint, List.pairwise_singleton _ _, fun b hb c hc => ?_⟩
    rw [List.mem_singleton] at hc
    subst hc
    rw [Set.disjoint_left]
    intro x hxb hxc
    have hold := (h.within b hb hxb).2
    have hnew := (hbytes x hxc).1
    omega
  · rw [List.forall_mem_append, List.forall_mem_singleton]
    constructor
    · intro b hb x hx
      obtain ⟨hlow, hhigh⟩ := h.within b hb hx
      exact ⟨hlow, by omega⟩
    · intro x hx
      obtain ⟨hlow, hhigh⟩ := hbytes x hx
      exact ⟨by omega, by omega⟩
  · rw [List.map_append, List.sum_append, ← h.sum]
    rfl

/-! ### Slots -/

/-- The slot of a variable that has one. -/
def Instruction.slot? (i : Instruction) : Option Span :=
  match i.opcode, i.dest with
  | .alloca, some (.slot _ offset) => some ⟨offset.toNat, i.dataType.slotSize⟩
  | _, _ => none

/-- A slot, read off the destination. -/
theorem Instruction.slot?_eq_some {i : Instruction} {a : Span} :
    i.slot? = some a ↔
      i.opcode = .alloca ∧ ∃ name offset, i.dest = some (.slot name offset) ∧
        a = ⟨offset.toNat, i.dataType.slotSize⟩ := by
  rw [slot?]
  constructor
  · intro h
    split at h
    next name offset hop hdest => exact ⟨hop, name, offset, hdest, (Option.some.inj h).symm⟩
    next => cases h
  · rintro ⟨hop, name, offset, hdest, rfl⟩
    rw [hop, hdest]

/-- The slots of the variables of a function, in layout order. -/
def Func.slots (f : Func) : List Span :=
  f.instructions.filterMap Instruction.slot?

namespace Storage

variable {s s' t : Storage} {i i' : Instruction} {dest : Option Operand}

/-- A new slot lies below the slots before it; other instructions take no bytes. -/
theorem slot?_assign (hplain : ∀ op ∈ i.operands, op.isHardware = false)
    (h : s.assign i = .ok (s', i')) :
    (i'.slot? = none ∧ s'.offset = s.offset) ∨
      ∃ a, i'.slot? = some a ∧ s'.offset.toNat = s.offset.toNat + a.size ∧
        a.depth = s'.offset.toNat := by
  obtain ⟨dest, hplaces, rfl⟩ := assign_eq_ok_iff.mp h
  have hnone : (∀ name offset, dest ≠ some (.slot name offset)) →
      (i.replace dest (s'.sourceMap i.opcode) (s.argMap i.opcode)).slot? = none := by
    intro hdest
    rw [Option.eq_none_iff_forall_ne_some]
    intro a ha
    obtain ⟨-, name, offset, hslot, -⟩ := Instruction.slot?_eq_some.mp ha
    exact hdest name offset hslot
  cases hplaces with
  | slot hop _ hoffset =>
      refine .inr ⟨_, Instruction.slot?_eq_some.mpr ⟨hop, _, _, rfl, rfl⟩, hoffset, rfl⟩
  | pointer _ _ _ | general _ _ _ => exact .inl ⟨hnone nofun, rfl⟩
  | kept _ =>
      refine .inl ⟨hnone fun name offset hdest => ?_, offset_released s i.opcode⟩
      cases hplain _ (Instruction.mem_operands_of_dest hdest)

/-- **Slots.** The slots of a function fill the top of its frame. -/
theorem tiles_assignAll {args : List (Ty × RegName)} {is js : List Instruction}
    (hplain : ∀ i ∈ is, ∀ op ∈ i.operands, op.isHardware = false)
    (h : (ofArgs args).assignAll is = .ok (t, js)) :
    Tiles (js.filterMap Instruction.slot?) t.offset.toNat := by
  revert hplain
  refine assignAll_induction (s := ofArgs args)
    (P := fun is js r => (∀ i ∈ is, ∀ op ∈ i.operands, op.isHardware = false) →
      Tiles (js.filterMap Instruction.slot?) r.offset.toNat) (fun _ => Tiles.nil) ?_ h
  intro is js r i r' i' _ ih hi hplain
  rw [List.forall_mem_append, List.forall_mem_singleton] at hplain
  rw [List.filterMap_append]
  obtain ⟨hnone, hoffset⟩ | ⟨a, hsome, hoffset, hdepth⟩ := slot?_assign hplain.2 hi
  · rw [List.filterMap_cons_none hnone, hoffset, List.filterMap_nil, List.append_nil]
    exact ih hplain.1
  · rw [List.filterMap_cons_some hsome, hoffset]
    refine (ih hplain.1).snoc ?_
    omega

end Storage

/-! ### Words -/

namespace X86

open Demand

/-- The word of a frame at an offset. -/
def wordSpan (offset : UInt32) : Span :=
  ⟨offset.toNat, slotSize⟩

namespace Frame

variable {f : Frame} {w : UInt32} {base count i : Nat}

/-- `f.Word w`: at the offset `w` there is the home of an argument, a saved register, or a
register without a machine register. -/
inductive Word (f : Frame) (w : UInt32) : Prop
  | argHome {index : UInt64} (h : f.argHome index = .ok w)
  | saveSlot {r : Reg} (h : f.saveSlot r = some w)
  | general {index : UInt32} (h : f.generalLocation index = .ok (.slot w))
  | pointer {index : UInt32} (h : f.pointerLocation index = .ok (.slot w))

/-- The parts of a frame follow one another. -/
theorem bases_le (f : Frame) :
    f.locals.toNat ≤ f.homesBase ∧ f.homesBase ≤ f.savesBase ∧ f.savesBase ≤ f.generalBase ∧
      f.generalBase ≤ f.pointerBase ∧
      f.pointerBase + slotSize * f.pointerOverflow ≤ f.totalSize :=
  ⟨le_alignUp _ _, Nat.le_add_right _ _, Nat.le_add_right _ _, Nat.le_add_right _ _,
    le_alignUp _ _⟩

/-- The slots of the variables lie inside the frame. -/
theorem locals_le_totalSize (f : Frame) : f.locals.toNat ≤ f.totalSize := by
  obtain ⟨hlocals, hhomes, hsaves, hgenerals, htotal⟩ := f.bases_le
  omega

/-- The words of a part of the frame are where they were counted to be. -/
theorem toNat_wordAt (hi : i < count) (hend : base + slotSize * count ≤ f.totalSize) :
    (wordAt base i).toNat = base + slotSize * (i + 1) := by
  have hsize := f.size_le
  simp only [slotSize, maxFrameSize] at hend hsize
  have hlt : base + slotSize * (i + 1) < 2 ^ 32 := by
    rw [slotSize]
    omega
  exact UInt32.toNat_ofNat_of_lt' hlt

/-- The words of a part of the frame start behind its base and end inside the frame. -/
theorem wordAt_bounds (hi : i < count) (hend : base + slotSize * count ≤ f.totalSize) :
    base + slotSize ≤ (wordAt base i).toNat ∧ (wordAt base i).toNat ≤ f.totalSize := by
  rw [toNat_wordAt hi hend]
  simp only [slotSize] at hend ⊢
  omega

/-- The home of an argument. -/
theorem argHome_eq_ok {index : UInt64} (h : f.argHome index = .ok w) :
    index.toNat < f.args ∧ w = wordAt f.homesBase index.toNat := by
  rw [argHome] at h
  split at h
  next hindex => exact ⟨hindex, (pure_eq_ok_iff.mp h).symm⟩
  next =>
    obtain ⟨_, -, hfail⟩ := bind_eq_ok_iff.mp h
    cases hfail

/-- The place of a saved register. -/
theorem saveSlot_eq_some {r : Reg} (h : f.saveSlot r = some w) :
    ∃ i < f.saved.length, w = wordAt f.savesBase i := by
  obtain ⟨i, hfind, rfl⟩ := Option.map_eq_some_iff.mp h
  obtain ⟨hi, -⟩ := List.findIdx?_eq_some_iff_getElem.mp hfind
  exact ⟨i, hi, rfl⟩

/-- The place of a general register without a machine register. -/
theorem generalLocation_eq_slot {index : UInt32}
    (h : f.generalLocation index = .ok (.slot w)) :
    index.toNat - generalRegs.length < f.generalOverflow ∧
      w = wordAt f.generalBase (index.toNat - generalRegs.length) := by
  rw [generalLocation] at h
  split at h
  next => cases h
  next hnone =>
    rw [List.getElem?_eq_none_iff] at hnone
    split at h
    next hlt =>
      rw [UInt32.lt_iff_toNat_lt] at hlt
      rw [generalOverflow]
      exact ⟨by omega, (Location.slot.inj (Except.ok.inj h)).symm⟩
    next => cases h

/-- The place of a pointer register without a machine register. -/
theorem pointerLocation_eq_slot {index : UInt32}
    (h : f.pointerLocation index = .ok (.slot w)) :
    index.toNat - pointerRegs.length < f.pointerOverflow ∧
      w = wordAt f.pointerBase (index.toNat - pointerRegs.length) := by
  rw [pointerLocation] at h
  split at h
  next => cases h
  next hnone =>
    rw [List.getElem?_eq_none_iff] at hnone
    split at h
    next hlt =>
      rw [UInt32.lt_iff_toNat_lt] at hlt
      rw [pointerOverflow]
      exact ⟨by omega, (Location.slot.inj (Except.ok.inj h)).symm⟩
    next => cases h

/-- Where a part of the frame starts. -/
def bases (f : Frame) : List Nat :=
  [f.homesBase, f.savesBase, f.generalBase, f.pointerBase]

/-- A word belongs to a part, which starts behind the slots and ends where the next part does or
inside the frame. -/
theorem Word.part (h : f.Word w) :
    ∃ base ∈ f.bases, ∃ count i, f.locals.toNat ≤ base ∧ i < count ∧
      base + slotSize * count ≤ f.totalSize ∧ w = wordAt base i := by
  obtain ⟨hlocals, hhomes, hsaves, hgenerals, htotal⟩ := f.bases_le
  cases h with
  | argHome h =>
      obtain ⟨hi, hw⟩ := argHome_eq_ok h
      have hend : f.homesBase + slotSize * f.args = f.savesBase := rfl
      exact ⟨f.homesBase, by simp [bases], _, _, hlocals, hi, by omega, hw⟩
  | saveSlot h =>
      obtain ⟨i, hi, hw⟩ := saveSlot_eq_some h
      have hend : f.savesBase + slotSize * f.saved.length = f.generalBase := rfl
      exact ⟨f.savesBase, by simp [bases], _, _, by omega, hi, by omega, hw⟩
  | general h =>
      obtain ⟨hi, hw⟩ := generalLocation_eq_slot h
      have hend : f.generalBase + slotSize * f.generalOverflow = f.pointerBase := rfl
      exact ⟨f.generalBase, by simp [bases], _, _, by omega, hi, by omega, hw⟩
  | pointer h =>
      obtain ⟨hi, hw⟩ := pointerLocation_eq_slot h
      exact ⟨f.pointerBase, by simp [bases], _, _, by omega, hi, htotal, hw⟩

/-- **Words** lie below the slots of the variables, and inside the frame. -/
theorem Word.bounds (h : f.Word w) :
    f.locals.toNat + slotSize ≤ w.toNat ∧ w.toNat ≤ f.totalSize := by
  obtain ⟨base, -, count, i, hbase, hi, hend, rfl⟩ := h.part
  obtain ⟨hlow, hhigh⟩ := wordAt_bounds hi hend
  exact ⟨by omega, hhigh⟩

/-- A slot of a variable has no byte in common with a word of the frame. -/
theorem Word.disjoint_slot {spans : List Span} {a : Span} (h : f.Word w)
    (hspans : Tiles spans f.locals.toNat) (ha : a ∈ spans) :
    Disjoint a.bytes (wordSpan w).bytes := by
  obtain ⟨hlow, -⟩ := h.bounds
  rw [Set.disjoint_left]
  rintro x hx ⟨hword, -⟩
  have hslot := (hspans.within a ha hx).2
  simp only [wordSpan] at hword
  omega

/-- A frame is laid out for the demand that was made. -/
theorem make_eq_ok {d : Demand} (h : make d = .ok f) : f.toDemand = d := by
  rw [make] at h
  split at h
  next =>
    obtain ⟨_, -, hsize⟩ := bind_eq_ok_iff.mp h
    split at hsize
    next => rw [← pure_eq_ok_iff.mp hsize]
    next => cases hsize
  next => cases h

end Frame

end X86

namespace Func

variable {f : Func} {frame : X86.Frame}

/-- The frame of a function is laid out for what the function demands. -/
theorem demand_of_makeFrame (h : f.makeFrame = .ok frame) : f.demand = .ok frame.toDemand := by
  obtain ⟨d, hdemand, hmake⟩ := bind_eq_ok_iff.mp h
  split at hmake
  next frame' hframe =>
    obtain rfl := pure_eq_ok_iff.mp hmake
    rw [hdemand, X86.Frame.make_eq_ok hframe]
  next => cases hmake
  next => cases hmake

/-- The frame of a function starts with its slots. -/
theorem locals_makeFrame (h : f.makeFrame = .ok frame) : frame.locals = f.stackSize := by
  obtain ⟨⟨general, pointer⟩, -, hdemand⟩ := bind_eq_ok_iff.mp (demand_of_makeFrame h)
  exact congrArg X86.Demand.locals (pure_eq_ok_iff.mp hdemand).symm

end Func

end RegIR
