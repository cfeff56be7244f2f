import RegIR.Proofs.Frame.Slots

/-!
# What a function asks of its frame

Before any code is selected, one scan over all operands counts the registers that need a place.
Afterwards every register that occurs has been counted, so the frame has a place for it; and if
the scan fails, it does so at the first operand that it cannot count.

## Main results

* `Func.demand_eq_error_iff`: the scan fails at the first operand that cannot be counted.
* `Func.counts_of_makeFrame`: every operand of a function with a frame has been counted.
* `Func.makeFrame_eq_error`: why a function has no frame.
-/

namespace RegIR

open X86

/-- A fold fails at the first element that makes it fail, if the elements decide that alone. -/
theorem foldlM_eq_error_iff {ε α β : Type} {f : β → α → Except ε β} {failure? : α → Option ε}
    (hf : ∀ b a e, f b a = .error e ↔ failure? a = some e) {b : β} {xs : List α} {e : ε} :
    xs.foldlM f b = .error e ↔ xs.findSome? failure? = some e := by
  induction xs generalizing b with
  | nil => simp [pure, Except.pure]
  | cons a xs ih =>
      rw [List.foldlM_cons, bind_eq_error_iff, hf, List.findSome?_cons]
      cases ha : failure? a with
      | some e' =>
          have hstop : ∀ b', f b a ≠ .ok b' := by
            intro b' hb'
            have herror := (hf b a e').mpr ha
            rw [hb'] at herror
            cases herror
          simp [hstop]
      | none =>
          obtain ⟨b', hb'⟩ : ∃ b', f b a = .ok b' := by
            cases hb : f b a with
            | ok b' => exact ⟨b', rfl⟩
            | error e' =>
                rw [hf, ha] at hb
                cases hb
          simp [hb', ih]

/-! ### One operand -/

/-- Does the number of registers up to this one not fit a word? -/
def Operand.isUncountable : Operand → Bool
  | .general index | .pointer index => index.toNat + 1 == UInt32.size
  | _ => false

/-- Why an operand cannot be counted. -/
def countFailure? (function : String) (op : Operand) : Option (Failure CodeError) :=
  if op.isReg then some (.error ⟨function, .unassigned op.text⟩)
  else if op.isUncountable then some (.fault (.overflow .add))
  else none

/-- Everything can be counted but virtual registers and the last registers of a class. -/
theorem countFailure?_eq_none_iff {function : String} {op : Operand} :
    countFailure? function op = none ↔ op.isReg = false ∧ op.isUncountable = false := by
  rw [countFailure?]
  split
  next hreg => simp [hreg]
  next hreg => simp [hreg]

/-- Only a virtual register is an error. -/
theorem countFailure?_eq_error_iff {function : String} {op : Operand} {e : CodeError} :
    countFailure? function op = some (.error e) ↔
      ∃ name, op = .reg name ∧ e = ⟨function, .unassigned op.text⟩ := by
  rw [countFailure?]
  constructor
  · intro h
    split at h
    next hreg =>
      obtain ⟨name, hname⟩ := Option.isSome_iff_exists.mp hreg
      refine ⟨name, Operand.reg?_eq_some.mp hname, ?_⟩
      cases h
      rfl
    next => split at h <;> cases h
  · rintro ⟨name, rfl, rfl⟩
    rfl

/-- The counts cover an operand: no virtual register, and no register beyond those counted. -/
def Operand.CountedBy (counts : UInt32 × UInt32) : Operand → Prop
  | .reg _ => False
  | .general index => index < counts.1
  | .pointer index => index < counts.2
  | _ => True

/-- Larger counts cover more. -/
theorem Operand.CountedBy.mono {c c' : UInt32 × UInt32} {op : Operand} (h : op.CountedBy c)
    (hgeneral : c.1 ≤ c'.1) (hpointer : c.2 ≤ c'.2) : op.CountedBy c' := by
  cases op with
  | reg _ => exact h
  | general index => exact UInt32.lt_of_lt_of_le h hgeneral
  | pointer index => exact UInt32.lt_of_lt_of_le h hpointer
  | _ => trivial

/-- A counter has no successor exactly at the end of its range. -/
theorem successor32_eq_error_iff {n : UInt32} {f : Fault} :
    successor32 n = .error f ↔ n.toNat + 1 = UInt32.size ∧ f = .overflow .add := by
  have hn := n.toNat_lt_size
  have hlast : UInt32.size ≤ n.toNat + 1 ↔ n.toNat + 1 = UInt32.size := by omega
  rw [successor32, narrow32_eq_error_iff, hlast]

section Count

variable {function : String} {c c' : UInt32 × UInt32} {op : Operand} {e : Failure CodeError}

/-- Counting one more operand fails if the operand cannot be counted. -/
theorem countOperand_eq_error_iff :
    countOperand function c op = .error e ↔ countFailure? function op = some e := by
  have hindex : ∀ {index : UInt32} {g : UInt32 → UInt32 × UInt32},
      (do let count ← successor32 index; return g count) =
        (.error e : Selected (UInt32 × UInt32)) ↔
      (if (index.toNat + 1 == UInt32.size) = true then some (Failure.fault (.overflow .add))
        else none) = some e := by
    intro index g
    rw [bind_eq_error_iff, liftM_eq_error_iff]
    by_cases hlast : index.toNat + 1 = UInt32.size
    · simp [successor32_eq_error_iff, hlast, pure, Except.pure, @eq_comm _ _ e]
    · simp [successor32_eq_error_iff, hlast, pure, Except.pure]
  cases op with
  | reg name =>
      exact ⟨fun h => congrArg _ (Except.error.inj h), fun h => congrArg _ (Option.some.inj h)⟩
  | general index => exact hindex
  | pointer index => exact hindex
  | _ => exact ⟨nofun, nofun⟩

/-- Counting one more operand covers it, and what was covered before. -/
theorem countOperand_eq_ok (h : countOperand function c op = .ok c') :
    op.CountedBy c' ∧ c.1 ≤ c'.1 ∧ c.2 ≤ c'.2 := by
  have hmax : ∀ {index count n : UInt32}, successor32 index = .ok count →
      index < max n count ∧ n ≤ max n count := by
    intro index count n hcount
    rw [successor32_eq_ok_iff] at hcount
    have hdef : max n count = if n ≤ count then count else n := rfl
    rw [hdef]
    split
    next hle =>
      rw [UInt32.lt_iff_toNat_lt]
      exact ⟨by omega, hle⟩
    next hle =>
      rw [UInt32.le_iff_toNat_le] at hle
      rw [UInt32.lt_iff_toNat_lt]
      exact ⟨by omega, UInt32.le_refl n⟩
  cases op with
  | reg name => cases h
  | general index =>
      obtain ⟨count, hcount, h⟩ := bind_eq_ok_iff.mp h
      obtain rfl := pure_eq_ok_iff.mp h
      obtain ⟨hlt, hle⟩ := hmax (n := c.1) (liftM_eq_ok_iff.mp hcount)
      exact ⟨hlt, hle, UInt32.le_refl _⟩
  | pointer index =>
      obtain ⟨count, hcount, h⟩ := bind_eq_ok_iff.mp h
      obtain rfl := pure_eq_ok_iff.mp h
      obtain ⟨hlt, hle⟩ := hmax (n := c.2) (liftM_eq_ok_iff.mp hcount)
      exact ⟨hlt, UInt32.le_refl _, hle⟩
  | imm | label | string | slot | argument =>
      obtain rfl := pure_eq_ok_iff.mp h
      exact ⟨trivial, UInt32.le_refl _, UInt32.le_refl _⟩

/-- A scan covers every operand. -/
theorem counts_of_foldlM {ops : List Operand} (h : ops.foldlM (countOperand function) c = .ok c') :
    (∀ op ∈ ops, op.CountedBy c') ∧ c.1 ≤ c'.1 ∧ c.2 ≤ c'.2 := by
  induction ops generalizing c with
  | nil =>
      obtain rfl := pure_eq_ok_iff.mp h
      exact ⟨fun _ hop => absurd hop List.not_mem_nil, UInt32.le_refl _, UInt32.le_refl _⟩
  | cons op ops ih =>
      rw [List.foldlM_cons] at h
      obtain ⟨d, hop, hrest⟩ := bind_eq_ok_iff.mp h
      obtain ⟨hcounted, hgeneral, hpointer⟩ := countOperand_eq_ok hop
      obtain ⟨hall, hgeneral', hpointer'⟩ := ih hrest
      refine ⟨List.forall_mem_cons.mpr ⟨hcounted.mono hgeneral' hpointer', hall⟩, ?_, ?_⟩
      · exact UInt32.le_trans hgeneral hgeneral'
      · exact UInt32.le_trans hpointer hpointer'

end Count

/-! ### Functions -/

/-- A demand is refused because of its arguments or because of its size. -/
theorem X86.Frame.make_eq_error {d : Demand} {a : AbiError} (h : Frame.make d = .error (.error a)) :
    (maxRegArgs < d.args ∧ a = .tooManyArguments d.args maxRegArgs) ∨
      ∃ bytes, a = .frameTooLarge bytes := by
  rw [make] at h
  split at h
  next =>
    obtain h | ⟨_, -, h⟩ := bind_eq_error_iff.mp h
    · exact absurd h liftM_ne_error
    · split at h
      next => cases h
      next =>
        cases h
        exact .inr ⟨_, rfl⟩
  next hargs =>
    cases h
    exact .inl ⟨Nat.lt_of_not_le hargs, rfl⟩

namespace Func

variable {f : Func} {frame : Frame} {op : Operand} {e : Failure CodeError}

/-- The operands of a function are those of its instructions. -/
theorem operands_eq (f : Func) : f.operands = f.instructions.flatMap Instruction.operands := by
  rw [operands, instructions, List.flatMap_assoc]

/-- An operand of an instruction is one of the function. -/
theorem mem_operands {i : Instruction} (hi : i ∈ f.instructions) (hop : op ∈ i.operands) :
    op ∈ f.operands := by
  rw [operands_eq]
  exact List.mem_flatMap.mpr ⟨i, hi, hop⟩

/-- **The scan** fails at the first operand that cannot be counted. -/
theorem demand_eq_error_iff :
    f.demand = .error e ↔ f.operands.findSome? (countFailure? f.name) = some e := by
  have hscan : f.operands.foldlM (countOperand f.name) (0, 0) = .error e ↔
      f.operands.findSome? (countFailure? f.name) = some e := by
    refine foldlM_eq_error_iff ?_
    intro counts op e
    exact countOperand_eq_error_iff
  rw [← hscan, demand, bind_eq_error_iff]
  refine ⟨fun h => ?_, .inl⟩
  obtain h | ⟨_, -, h⟩ := h
  · exact h
  · cases h

/-- Every operand of a function with a frame has been counted, and so have its arguments. -/
theorem counts_of_makeFrame (h : f.makeFrame = .ok frame) :
    (∀ op ∈ f.operands, op.CountedBy (frame.general, frame.pointer)) ∧
      frame.args = f.args.length := by
  obtain ⟨counts, hscan, hdemand⟩ := bind_eq_ok_iff.mp (demand_of_makeFrame h)
  have hframe := pure_eq_ok_iff.mp hdemand
  rw [← hframe]
  exact ⟨(counts_of_foldlM hscan).1, rfl⟩

/-- **No frame.** A function has no frame because the scan fails, because it has too many
arguments, because a part of the frame does not fit a word, or because the frame is too
large. -/
theorem makeFrame_eq_error (h : f.makeFrame = .error e) :
    f.demand = .error e ∨
    (6 < f.args.length ∧ e = .error ⟨f.name, .tooManyArguments f.args.length 6⟩) ∨
    (∃ fault, e = .fault fault) ∨
    ∃ bytes, e = .error ⟨f.name, .abi (.frameTooLarge bytes)⟩ := by
  obtain h | ⟨d, hdemand, h⟩ := bind_eq_error_iff.mp h
  · exact .inl h
  refine .inr ?_
  have hargs : d.args = f.args.length := by
    obtain ⟨counts, -, hd⟩ := bind_eq_ok_iff.mp hdemand
    rw [← pure_eq_ok_iff.mp hd]
  split at h
  next => cases h
  next a ha =>
    obtain rfl := Except.error.inj h
    obtain ⟨hlt, rfl⟩ | ⟨bytes, rfl⟩ := Frame.make_eq_error ha
    · rw [hargs] at hlt ⊢
      exact .inl ⟨hlt, rfl⟩
    · exact .inr (.inr ⟨bytes, rfl⟩)
  next fault _ =>
    obtain rfl := Except.error.inj h
    exact .inr (.inl ⟨fault, rfl⟩)

end Func

end RegIR
