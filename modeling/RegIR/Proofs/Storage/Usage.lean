import RegIR.Proofs.Storage.Run

/-!
# How much storage is used

Storage keeps its counters in words. Here the same counters are kept as exact numbers, as a
function of the instructions alone: bytes of stack slots, pointer registers, and general
registers since they were last released. Assigning storage follows the exact counters as
long as they fit, and faults when one of them does not.

## Main results

* `Storage.usage_assignAll`: the counters of storage are the exact ones.
* `Storage.exists_assignAll`: storage is assigned whenever the exact counters fit at every
  point.
-/

namespace RegIR

/-- How much storage of each kind is used. -/
structure Usage where
  /-- Bytes of stack slots. -/
  bytes : Nat := 0
  /-- Pointer registers. -/
  pointers : Nat := 0
  /-- General registers since they were last released. -/
  generals : Nat := 0
deriving DecidableEq, Repr

/-- The bytes that the slot of a variable takes: even one without a size has an address. -/
def Ty.slotSize (t : Ty) : Nat :=
  max t.size 1

/-- A value fits the slot of its type. -/
theorem Ty.size_le_slotSize (t : Ty) : t.size ≤ t.slotSize :=
  Nat.le_max_left _ _

/-- A slot is not empty. -/
theorem Ty.slotSize_pos (t : Ty) : 0 < t.slotSize :=
  Nat.le_max_right _ _

namespace Usage

/-- Usage after a release of the general registers, if the opcode is one. -/
def released (u : Usage) (op : Opcode) : Usage :=
  if op.releases then { u with generals := 0 } else u

/-- Usage after an instruction. -/
def step (u : Usage) (i : Instruction) : Usage :=
  match i.opcode.place?, i.defines? with
  | some .slot, some _ => { u with bytes := u.bytes + i.dataType.slotSize }
  | some .pointer, some _ => { u with pointers := u.pointers + 1 }
  | some .general, some _ => { u with generals := (u.released i.opcode).generals + 1 }
  | _, _ => u.released i.opcode

/-- Do all counters fit a word? -/
def Fits (u : Usage) : Prop :=
  u.bytes < UInt32.size ∧ u.pointers < UInt32.size ∧ u.generals < UInt32.size

instance (u : Usage) : Decidable u.Fits :=
  inferInstanceAs (Decidable (_ ∧ _ ∧ _))

end Usage

/-- The exact counters of a function fit at every point. -/
def Func.Fits (f : Func) : Prop :=
  ∀ n ≤ f.instructions.length, ((f.instructions.take n).foldl Usage.step {}).Fits

instance (f : Func) : Decidable f.Fits :=
  inferInstanceAs (Decidable (∀ n ≤ _, _))

namespace Storage

/-- The counters of storage. -/
def usage (s : Storage) : Usage :=
  { bytes := s.offset.toNat, pointers := s.nextPointer.toNat, generals := s.nextGeneral.toNat }

/-- A release as it is counted. -/
theorem usage_released (s : Storage) (op : Opcode) :
    (s.released op).usage = s.usage.released op := by
  rw [released, Usage.released]
  split <;> rfl

variable {s s' t : Storage} {i i' : Instruction}

/-- Placing a destination follows the exact counters. -/
theorem Places.usage_eq {dest : Option Operand} (h : s.Places i s' dest) :
    s'.usage = s.usage.step i := by
  cases h with
  | slot hop hdest hoffset =>
      simp [usage, Usage.step, hop, Opcode.place?, Instruction.defines?_eq_some.mpr hdest,
        hoffset, Ty.slotSize]
  | pointer hop hdest hnext =>
      simp [usage, Usage.step, hop, Opcode.place?, Instruction.defines?_eq_some.mpr hdest, hnext]
  | general hop hdest hnext =>
      have hgenerals := congrArg Usage.generals (usage_released s i.opcode)
      simp only [usage] at hgenerals
      simp [usage, Usage.step, hop, Instruction.defines?_eq_some.mpr hdest, hnext, hgenerals]
  | kept h =>
      rw [usage_released]
      obtain hplace | hnone := h
      · simp [Usage.step, hplace]
      · simp [Usage.step, hnone]

/-- One instruction follows the exact counters. -/
theorem usage_assign (h : s.assign i = .ok (s', i')) : s'.usage = s.usage.step i := by
  obtain ⟨dest, hplaces, -⟩ := assign_eq_ok_iff.mp h
  exact hplaces.usage_eq

/-- **The counters are exact.** -/
theorem usage_assignAll {is js : List Instruction} (h : s.assignAll is = .ok (t, js)) :
    t.usage = is.foldl Usage.step s.usage :=
  assignAll_induction (P := fun is _ r => r.usage = is.foldl Usage.step s.usage) rfl
    (fun _ ih hi => by rw [usage_assign hi, ih, List.foldl_append]; rfl) h

/-- An instruction after which the counters fit can be assigned storage. -/
theorem exists_assign (h : (s.usage.step i).Fits) : ∃ s' i', s.assign i = .ok (s', i') := by
  suffices hplaces : ∃ s' dest, s.Places i s' dest by
    obtain ⟨s', dest, hplaces⟩ := hplaces
    exact ⟨s', _, assign_eq_ok_iff.mpr ⟨dest, hplaces, rfl⟩⟩
  cases hname : i.defines? with
  | none => exact ⟨_, _, .kept (.inr hname)⟩
  | some name =>
      have hdest := Instruction.defines?_eq_some.mp hname
      cases hplace : i.opcode.place? with
      | none => exact ⟨_, _, .kept (.inl hplace)⟩
      | some kind =>
          obtain ⟨hbytes, hpointers, hgenerals⟩ := h
          cases kind with
          | slot =>
              simp only [Usage.step, hplace, hname] at hbytes
              exact ⟨_, _, .slot (Opcode.place?_eq_slot.mp hplace) hdest
                (UInt32.toNat_ofNat_of_lt' hbytes)⟩
          | pointer =>
              simp only [Usage.step, hplace, hname] at hpointers
              exact ⟨_, _, .pointer (Opcode.place?_eq_pointer.mp hplace) hdest
                (UInt32.toNat_ofNat_of_lt' hpointers)⟩
          | general =>
              simp only [Usage.step, hplace, hname, ← usage_released] at hgenerals
              exact ⟨_, _, .general hplace hdest (UInt32.toNat_ofNat_of_lt' hgenerals)⟩

/-- **No fault without overflow.** Instructions are assigned storage if the exact counters
fit after each of them. -/
theorem exists_assignAll {is : List Instruction}
    (h : ∀ n ≤ is.length, ((is.take n).foldl Usage.step s.usage).Fits) :
    ∃ t js, s.assignAll is = .ok (t, js) := by
  induction is generalizing s with
  | nil => exact ⟨s, [], rfl⟩
  | cons i is ih =>
      obtain ⟨r, i', hi⟩ := exists_assign (s := s) (i := i) (by simpa using h 1)
      obtain ⟨t, js, his⟩ := ih (s := r) (fun n hn => by
        rw [usage_assign hi]
        simpa using h (n + 1) (Nat.succ_le_succ hn))
      exact ⟨t, i' :: js, assignAll_cons_eq_ok_iff.mpr ⟨r, i', js, hi, his, rfl⟩⟩

end Storage

end RegIR
