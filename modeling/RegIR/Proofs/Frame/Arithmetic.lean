import RegIR.Proofs.Frame.Slots

/-!
# The arithmetic of frames

The size of a frame is a sum over the naturals. A frame is laid out in machine arithmetic, and the
two part ways for large demands. All parts of a frame but the last are added up in 32-bit words,
before the size is compared with what a displacement can reach; so a demand whose parts do not fit
such a word ends in a fault, although its size could have been reported.

## Convention

The *words* of a frame are its eight-byte places: argument homes, saved registers, and registers
without a machine register. They start where the stack slots end, rounded up to a word.

## Main definitions

* `X86.Demand.words`: how many words a frame has.
* `X86.Demand.HasSize`: the size of a frame, said without the functions that compute it.
* `X86.Demand.overflow?`: the first operation that leaves 32 bits.
* `X86.addWords`: the sums that locate a word, in 32-bit arithmetic.

## Main results

* `X86.Demand.checkWords_eq`: which fault a large demand ends in.
* `X86.Frame.make_decides`: what laying out a frame answers, for every demand.
* `X86.large_locals_fault`: a demand that is too large and not reported.
-/

namespace RegIR

namespace X86

namespace Demand

variable {d : Demand} {size : Nat}

/-! ### The size of a frame -/

/-- How many words a frame has. -/
def words (d : Demand) : Nat :=
  d.args + d.saved.length + d.generalOverflow + d.pointerOverflow

/-- `d.HasSize size`: the stack slots are rounded up to a word and the words are added, and all of
it is rounded up to sixteen bytes. -/
def HasSize (d : Demand) (size : Nat) : Prop :=
  ∃ base, IsLeast {m | 8 ∣ m ∧ d.locals.toNat ≤ m} base ∧
    IsLeast {m | 16 ∣ m ∧ base + 8 * d.words ≤ m} size

/-- The words lie side by side. -/
theorem homesBase_add_words (d : Demand) :
    d.homesBase + slotSize * d.words = d.pointerBase + slotSize * d.pointerOverflow := by
  simp only [words, pointerBase, generalBase, savesBase, Nat.mul_add, Nat.add_assoc]

/-- The words start at the first multiple of eight behind the slots. -/
theorem isLeast_homesBase (d : Demand) : IsLeast {m | 8 ∣ m ∧ d.locals.toNat ≤ m} d.homesBase :=
  isLeast_alignUp _ (by decide)

/-- The frame ends at the first multiple of sixteen behind its words. -/
theorem isLeast_totalSize (d : Demand) :
    IsLeast {m | 16 ∣ m ∧ d.homesBase + 8 * d.words ≤ m} d.totalSize := by
  have hused : d.homesBase + 8 * d.words = d.pointerBase + slotSize * d.pointerOverflow :=
    d.homesBase_add_words
  rw [hused, totalSize]
  exact isLeast_alignUp _ (by decide)

/-- The size that is computed is the size of the frame. -/
theorem hasSize_totalSize (d : Demand) : d.HasSize d.totalSize :=
  ⟨_, d.isLeast_homesBase, d.isLeast_totalSize⟩

/-- Each part of a frame starts where the one before it ends. -/
theorem parts_le (d : Demand) :
    d.homesBase ≤ d.savesBase ∧ d.savesBase ≤ d.generalBase ∧ d.generalBase ≤ d.pointerBase ∧
      slotSize * d.generalOverflow ≤ d.pointerBase ∧
      d.pointerBase + slotSize * d.pointerOverflow ≤ d.totalSize :=
  ⟨Nat.le_add_right _ _, Nat.le_add_right _ _, Nat.le_add_right _ _, Nat.le_add_left _ _,
    le_alignUp _ _⟩

/-- The size of a frame fits a 64-bit word. -/
theorem totalSize_lt (hargs : d.args ≤ maxRegArgs) : d.totalSize < UInt64.size := by
  have hlocals := d.locals.toNat_lt_size
  have hgeneral := d.general.toNat_lt_size
  have hpointer := d.pointer.toNat_lt_size
  have hsaved : d.saved.length ≤ (generalRegs ++ pointerRegs).length :=
    (List.length_filter_le _ _).trans
      ((List.take_sublist _ _).append (List.take_sublist _ _)).length_le
  have hbase : d.homesBase ≤ UInt32.size := d.isLeast_homesBase.2 ⟨by decide, hlocals.le⟩
  have hwords : d.homesBase + 8 * d.words ≤ 20 * UInt32.size := by
    simp only [words, generalOverflow, pointerOverflow, generalRegs, pointerRegs, maxRegArgs,
      List.length_append, List.length_cons, List.length_nil, UInt32.size] at *
    omega
  calc d.totalSize ≤ 20 * UInt32.size := d.isLeast_totalSize.2 ⟨by decide, hwords⟩
    _ < UInt64.size := by decide

/-! ### Overflow -/

/-- The first operation, in the order in which a frame is added up, whose result does not fit a
32-bit word: rounding the slots multiplies, and so does counting the general registers. -/
def overflow? (d : Demand) : Option Arithmetic :=
  if UInt32.size ≤ d.homesBase then some .multiply
  else if UInt32.size ≤ d.generalBase then some .add
  else if UInt32.size ≤ slotSize * d.generalOverflow then some .multiply
  else if UInt32.size ≤ d.pointerBase then some .add
  else none

/-- Nothing overflows exactly if all parts but the last fit a word together. -/
theorem overflow?_eq_none_iff : d.overflow? = none ↔ d.pointerBase < UInt32.size := by
  obtain ⟨hhomes, hsaves, hgenerals, hproduct, -⟩ := d.parts_le
  rw [overflow?]
  split_ifs <;> simp only [false_iff, true_iff] <;> omega

/-- **Faults.** A large demand ends in the fault of its first operation that overflows. -/
theorem checkWords_eq (d : Demand) :
    d.checkWords = match d.overflow? with
      | some operation => .error (.overflow operation)
      | none => .ok () := by
  obtain ⟨hhomes, hsaves, hgenerals, hproduct, -⟩ := d.parts_le
  have hfits : ∀ operation n, n < UInt32.size → ∃ w, narrow32 operation n = .ok w :=
    fun operation n hn => ⟨_, narrow32_eq_ok_iff.mpr (UInt32.toNat_ofNat_of_lt' hn)⟩
  have hfault : ∀ {operation n}, UInt32.size ≤ n →
      narrow32 operation n = .error (.overflow operation) :=
    fun hn => narrow32_eq_error_iff.mpr ⟨hn, rfl⟩
  rw [checkWords, overflow?]
  split_ifs with h₁ h₂ h₃ h₄
  · rw [hfault h₁]
    rfl
  · obtain ⟨w₁, hw₁⟩ := hfits .multiply d.homesBase (by omega)
    rw [hw₁]
    -- the sum is too large already with the arguments, or becomes so with the saved registers
    by_cases hargs : UInt32.size ≤ d.savesBase
    · rw [hfault hargs]
      rfl
    · obtain ⟨w₂, hw₂⟩ := hfits .add d.savesBase (by omega)
      rw [hw₂, hfault h₂]
      rfl
  all_goals
    obtain ⟨w₁, hw₁⟩ := hfits .multiply d.homesBase (by omega)
    obtain ⟨w₂, hw₂⟩ := hfits .add d.savesBase (by omega)
    obtain ⟨w₃, hw₃⟩ := hfits .add d.generalBase (by omega)
    rw [hw₁, hw₂, hw₃]
  · rw [hfault h₃]
    rfl
  · obtain ⟨w₄, hw₄⟩ := hfits .multiply (slotSize * d.generalOverflow) (by omega)
    rw [hw₄, hfault h₄]
    rfl
  · obtain ⟨w₄, hw₄⟩ := hfits .multiply (slotSize * d.generalOverflow) (by omega)
    obtain ⟨w₅, hw₅⟩ := hfits .add d.pointerBase (by omega)
    rw [hw₄, hw₅]
    rfl

/-- Nothing overflows in a frame that is small enough. -/
theorem overflow?_of_totalSize_le (h : d.totalSize ≤ maxFrameSize) : d.overflow? = none := by
  have hmax : maxFrameSize < UInt32.size := by decide
  obtain ⟨-, -, -, -, htotal⟩ := d.parts_le
  rw [overflow?_eq_none_iff]
  omega

/-- **Parts.** The parts of a frame that is small enough fit a word, each when it is added. -/
theorem checkWords_eq_ok (h : d.totalSize ≤ maxFrameSize) : d.checkWords = .ok () := by
  rw [checkWords_eq, overflow?_of_totalSize_le h]

end Demand

/-! ### Locating a word

A word is located by adding up the parts before it once more, again in 32-bit words. -/

/-- So many words behind a place. First the product and then the sum has to fit. -/
def addWords (base : UInt32) (count : Nat) : Checked UInt32 := do
  let size ← narrow32 .multiply (slotSize * count)
  narrow32 .add (base.toNat + size.toNat)

/-- Words are added exactly, if all of it fits. -/
theorem addWords_eq_ok_iff {x : Checked UInt32} {base count : Nat} {w : UInt32}
    (hx : ∀ u, x = .ok u ↔ u.toNat = base) :
    (do addWords (← x) count) = .ok w ↔ w.toNat = base + slotSize * count := by
  simp only [addWords, bind_eq_ok_iff, hx, narrow32_eq_ok_iff]
  constructor
  · rintro ⟨u, rfl, size, hsize, hw⟩
    rw [hw, hsize]
  · intro hw
    have hlt := w.toNat_lt_size
    have hbase : (UInt32.ofNat base).toNat = base := UInt32.toNat_ofNat_of_lt' (by omega)
    have hsize : (UInt32.ofNat (slotSize * count)).toNat = slotSize * count :=
      UInt32.toNat_ofNat_of_lt' (by omega)
    exact ⟨_, hbase, _, hsize, by rw [hw, hbase, hsize]⟩

namespace Demand

variable {d : Demand} {w : UInt32}

/-- Where the argument homes start, in words. -/
def homesWord (d : Demand) : Checked UInt32 :=
  narrow32 .multiply d.homesBase

/-- Where the saved registers start. -/
def savesWord (d : Demand) : Checked UInt32 := do
  addWords (← d.homesWord) d.args

/-- Where the general registers without a machine register start. -/
def generalWord (d : Demand) : Checked UInt32 := do
  addWords (← d.savesWord) d.saved.length

/-- Where the pointer registers without a machine register start. -/
def pointerWord (d : Demand) : Checked UInt32 := do
  addWords (← d.generalWord) d.generalOverflow

/-- The homes start where they do over the naturals. -/
theorem homesWord_eq_ok_iff : d.homesWord = .ok w ↔ w.toNat = d.homesBase :=
  narrow32_eq_ok_iff

/-- So do the saved registers, -/
theorem savesWord_eq_ok_iff : d.savesWord = .ok w ↔ w.toNat = d.savesBase :=
  addWords_eq_ok_iff fun _ => homesWord_eq_ok_iff

/-- the general registers, -/
theorem generalWord_eq_ok_iff : d.generalWord = .ok w ↔ w.toNat = d.generalBase :=
  addWords_eq_ok_iff fun _ => savesWord_eq_ok_iff

/-- and the pointer registers. -/
theorem pointerWord_eq_ok_iff : d.pointerWord = .ok w ↔ w.toNat = d.pointerBase :=
  addWords_eq_ok_iff fun _ => generalWord_eq_ok_iff

end Demand

/-! ### Laying out -/

namespace Frame

variable {d : Demand}

/-- Too many arguments are reported before anything is computed. -/
theorem make_of_args (h : maxRegArgs < d.args) :
    make d = Outcome.fail (.tooManyArguments d.args maxRegArgs) := by
  rw [make, dif_neg (Nat.not_le.mpr h)]

/-- An operation that overflows is a fault. -/
theorem make_of_overflow (hargs : d.args ≤ maxRegArgs) {operation : Arithmetic}
    (h : d.overflow? = some operation) : make d = .error (.fault (.overflow operation)) := by
  rw [make, dif_pos hargs, Demand.checkWords_eq, h]
  rfl

/-- A frame that is too large is reported, if nothing overflows. -/
theorem make_of_size (hargs : d.args ≤ maxRegArgs) (h : d.overflow? = none)
    (hsize : maxFrameSize < d.totalSize) :
    make d = Outcome.fail (.frameTooLarge d.totalSize) := by
  rw [make, dif_pos hargs, Demand.checkWords_eq, h]
  exact dif_neg (Nat.not_le.mpr hsize)

/-- A demand within the limits is met. -/
theorem make_of_le (hargs : d.args ≤ maxRegArgs) (hsize : d.totalSize ≤ maxFrameSize) :
    make d = .ok { toDemand := d, args_le := hargs, size_le := hsize } := by
  rw [make, dif_pos hargs, Demand.checkWords_eq_ok hsize]
  exact dif_pos hsize

/-- **Laying out a frame.** More than six arguments are reported. Otherwise a frame of at most
`0x7fffffff` bytes is laid out with its exact size, and a larger one is reported with its exact
size, unless its parts without the last one do not fit a 32-bit word: then the demand ends in the
fault of the first operation that overflows. -/
theorem make_decides (d : Demand) :
    ∃ size, d.HasSize size ∧
      (6 < d.args → make d = Outcome.fail (.tooManyArguments d.args 6)) ∧
      (d.args ≤ 6 → size ≤ 0x7fffffff →
        ∃ f, make d = .ok f ∧ f.toDemand = d ∧ f.totalSize = size) ∧
      (d.args ≤ 6 → 0x7fffffff < size → d.pointerBase < 0x100000000 →
        size < UInt64.size ∧ make d = Outcome.fail (.frameTooLarge size)) ∧
      (d.args ≤ 6 → 0x100000000 ≤ d.pointerBase →
        0x7fffffff < size ∧ ∃ operation, d.overflow? = some operation ∧
          make d = .error (.fault (.overflow operation))) := by
  refine ⟨d.totalSize, d.hasSize_totalSize, make_of_args, fun hargs hsize => ?_,
    fun hargs hsize hfits => ?_, fun hargs hlarge => ?_⟩
  · exact ⟨_, make_of_le hargs hsize, rfl, rfl⟩
  · exact ⟨Demand.totalSize_lt hargs,
      make_of_size hargs (Demand.overflow?_eq_none_iff.mpr hfits) hsize⟩
  · have hsome : d.overflow? ≠ none := by
      rw [Ne, Demand.overflow?_eq_none_iff]
      exact Nat.not_lt.mpr hlarge
    obtain ⟨operation, hoperation⟩ := Option.ne_none_iff_exists'.mp hsome
    obtain ⟨-, -, -, -, htotal⟩ := d.parts_le
    exact ⟨by omega, operation, hoperation, make_of_overflow hargs hoperation⟩

end Frame

/-- A demand for as many bytes of stack slots as a 32-bit word can count. -/
def largeLocals : Demand where
  locals := 0xffffffff
  args := 0
  general := 0
  pointer := 0

/-- It asks for `0x100000000` bytes, more than a displacement can reach, and this is not reported:
rounding the slots up overflows. -/
theorem large_locals_fault :
    largeLocals.args ≤ 6 ∧ largeLocals.HasSize 0x100000000 ∧
      Frame.make largeLocals ≠ Outcome.fail (.frameTooLarge 0x100000000) ∧
      Frame.make largeLocals = .error (.fault (.overflow .multiply)) := by
  have hmake : Frame.make largeLocals = .error (.fault (.overflow .multiply)) :=
    Frame.make_of_overflow (by decide) (by decide)
  refine ⟨by decide, largeLocals.hasSize_totalSize, ?_, hmake⟩
  rw [hmake]
  nofun

end X86

end RegIR
