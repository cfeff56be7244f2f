import RegIR.Proofs.Checked
import RegIR.Storage

/-!
# Storage assignment, step by step

What storage assignment does to one instruction is said once, as a relation between the
storage before and after it; every fact about whole functions is derived from that.

An instruction is treated in three parts. Its opcode may end the life of the values in
general registers (`Storage.released`). Its destination may get a place
(`Storage.Places`). Its sources are read with the storage after that, its call arguments
with the storage before (`Instruction.replace`).

## Main results

* `Storage.place_eq_ok_iff`: placing a destination, as the relation `Storage.Places`.
* `Storage.assign_eq_place`: assigning storage is placing and replacing.
* `Storage.assign_eq_ok_iff`: assigning storage to an instruction, as that relation.
-/

namespace RegIR

/-! ### Instructions -/

/-- The kinds of places for the values of registers. -/
inductive PlaceKind where
  | slot
  | pointer
  | general
deriving DecidableEq, Repr

/-- The kind of place that the result of an opcode gets; the other opcodes have no result. -/
def Opcode.place? : Opcode → Option PlaceKind
  | alloca => some .slot
  | gep => some .pointer
  | load | structLoad | arith _ | divide _ | unary _ | call => some .general
  | ret | retVoid | br | branch _ | store | structStore => none

/-- Only variables get stack slots. -/
theorem Opcode.place?_eq_slot {op : Opcode} : op.place? = some .slot ↔ op = .alloca := by
  cases op <;> simp [place?]

/-- Only element addresses get pointer registers. -/
theorem Opcode.place?_eq_pointer {op : Opcode} : op.place? = some .pointer ↔ op = .gep := by
  cases op <;> simp [place?]

/-- Does the opcode start the numbering of general registers again? -/
def Opcode.releases : Opcode → Bool
  | call | store | structStore => true
  | _ => false

namespace Instruction

/-- The register that an instruction names as its destination. -/
def defines? (i : Instruction) : Option RegName :=
  i.dest.bind Operand.reg?

/-- The operands that an instruction reads: its sources and its call arguments. -/
def reads (i : Instruction) : List Operand :=
  i.sources ++ i.args

/-- An instruction with another destination, its sources and call arguments replaced. -/
def replace (i : Instruction) (dest : Option Operand) (source arg : Operand → Operand) :
    Instruction :=
  { i with
    dest := dest
    src1 := i.src1.map source
    src2 := i.src2.map source
    src3 := i.src3.map source
    call := i.call.map fun c => { c with args := c.args.map arg } }

section Replace

variable (i : Instruction) (dest : Option Operand) (source arg : Operand → Operand)

@[simp] theorem opcode_replace : (i.replace dest source arg).opcode = i.opcode := rfl

@[simp] theorem dest_replace : (i.replace dest source arg).dest = dest := rfl

@[simp] theorem sources_replace :
    (i.replace dest source arg).sources = i.sources.map source := by
  have hmap : ∀ op : Option Operand, (op.map source).toList = op.toList.map source := by
    intro op
    cases op <;> rfl
  simp [replace, sources, hmap]

@[simp] theorem args_replace : (i.replace dest source arg).args = i.args.map arg := by
  simp only [replace, args]
  cases i.call <;> rfl

/-- Replacing only the destination. -/
theorem replace_id : i.replace dest id id = { i with dest := dest } := by
  obtain ⟨opcode, dataType, _, src1, src2, src3, call⟩ := i
  cases call <;> simp [replace]

/-- Replacing twice is replacing once. -/
@[simp] theorem replace_replace (dest' : Option Operand) (source' arg' : Operand → Operand) :
    (i.replace dest source arg).replace dest' source' arg' =
      i.replace dest' (source' ∘ source) (arg' ∘ arg) := by
  obtain ⟨opcode, dataType, _, src1, src2, src3, call⟩ := i
  cases call <;> simp [replace]

end Replace

/-- A destination register, read off the destination. -/
theorem defines?_eq_some {i : Instruction} {name : RegName} :
    i.defines? = some name ↔ i.dest = some (.reg name) := by
  rw [defines?]
  rw [Option.bind_eq_some_iff]
  constructor
  · rintro ⟨op, hop, hname⟩
    cases op with
    | reg n =>
        obtain rfl : n = name := Option.some.inj hname
        exact hop
    | _ => cases hname
  · intro h
    exact ⟨_, h, rfl⟩

/-- What an instruction reads is among its operands. -/
theorem mem_operands_of_reads {i : Instruction} {op : Operand} (h : op ∈ i.reads) :
    op ∈ i.operands := by
  rw [operands, List.append_assoc]
  exact List.mem_append_right _ h

/-- The destination of an instruction is among its operands. -/
theorem mem_operands_of_dest {i : Instruction} {op : Operand} (h : i.dest = some op) :
    op ∈ i.operands := by
  rw [operands, List.append_assoc, h]
  exact List.mem_cons_self

end Instruction

/-! ### One instruction -/

namespace Storage

/-- Storage when the destination of an instruction is about to be placed. -/
def released (s : Storage) (op : Opcode) : Storage :=
  if op.releases then s.releaseGenerals else s

/-- Other opcodes release nothing. -/
theorem released_eq_self {s : Storage} {op : Opcode} (h : op.releases = false) :
    s.released op = s := by
  simp [released, h]

/-- Only the numbering of general registers is changed by a release. -/
theorem released_update {s : Storage} {op : Opcode} {name : RegName} {index next : UInt32} :
    { s.released op with
      generals := (name, index) :: (s.released op).generals, nextGeneral := next } =
    { s with generals := (name, index) :: s.generals, nextGeneral := next } := by
  rw [released]
  split <;> rfl

/-- A release does not change what the names stand for. -/
@[simp] theorem rename_releaseGenerals (s : Storage) : s.releaseGenerals.rename = s.rename := by
  funext op
  cases op <;> rfl

/-- How the sources of an instruction are replaced; those of a variable are left alone. -/
def sourceMap (s : Storage) (op : Opcode) : Operand → Operand :=
  if op = .alloca then id else s.rename

/-- How the arguments in an instruction are replaced; only a call has any. -/
def argMap (s : Storage) (op : Opcode) : Operand → Operand :=
  if op = .call then s.rename else id

/-- `s.Places i s' dest`: the destination of `i` becomes `dest`, and what the names stand for
goes from `s` to `s'`. The destination gets a place if it is a register and the opcode has a
result, and is kept otherwise. -/
inductive Places (s : Storage) (i : Instruction) : Storage → Option Operand → Prop
  | slot {name : RegName} {offset : UInt32} (hop : i.opcode = .alloca)
      (hdest : i.dest = some (.reg name))
      (hoffset : offset.toNat = s.offset.toNat + max i.dataType.size 1) :
      Places s i { s with slots := (name, offset) :: s.slots, offset := offset }
        (some (.slot name offset))
  | pointer {name : RegName} {next : UInt32} (hop : i.opcode = .gep)
      (hdest : i.dest = some (.reg name)) (hnext : next.toNat = s.nextPointer.toNat + 1) :
      Places s i { s with pointers := (name, s.nextPointer) :: s.pointers, nextPointer := next }
        (some (.pointer s.nextPointer))
  | general {name : RegName} {next : UInt32} (hop : i.opcode.place? = some .general)
      (hdest : i.dest = some (.reg name))
      (hnext : next.toNat = (s.released i.opcode).nextGeneral.toNat + 1) :
      Places s i
        { s with generals := (name, (s.released i.opcode).nextGeneral) :: s.generals
                 nextGeneral := next }
        (some (.general (s.released i.opcode).nextGeneral))
  | kept (h : i.opcode.place? = none ∨ i.defines? = none) :
      Places s i (s.released i.opcode) i.dest

variable {s s' : Storage} {i i' : Instruction}

/-- What the three kinds of places have in common: a destination register is replaced once a
word has been computed, any other destination is kept. -/
def placeDest (s : Storage) (i : Instruction) (word : Checked UInt32)
    (update : RegName → UInt32 → Storage) (place : RegName → UInt32 → Operand) :
    Checked (Storage × Instruction) :=
  match i.dest with
  | some (.reg name) => do
      let w ← word
      return (update name w, { i with dest := some (place name w) })
  | _ => return (s, i)

/-- A destination is replaced if it is a register, and kept otherwise. -/
theorem placeDest_eq_ok_iff {word : Checked UInt32} {update : RegName → UInt32 → Storage}
    {place : RegName → UInt32 → Operand} :
    s.placeDest i word update place = .ok (s', i') ↔
      (∃ name w, i.dest = some (.reg name) ∧ word = .ok w ∧ s' = update name w ∧
        i' = { i with dest := some (place name w) }) ∨
      (i.defines? = none ∧ s' = s ∧ i' = i) := by
  rw [placeDest]
  split
  next name hdest =>
    have hsome : i.defines? ≠ none := by
      simp [Instruction.defines?_eq_some.mpr hdest]
    simp only [bind_eq_ok_iff, pure_eq_ok_iff, Prod.mk.injEq, hsome, false_and, or_false]
    constructor
    · rintro ⟨w, hw, rfl, rfl⟩
      exact ⟨name, w, hdest, hw, rfl, rfl⟩
    · rintro ⟨name', w, hdest', hw, rfl, rfl⟩
      obtain rfl : name = name' := by simpa [hdest] using hdest'
      exact ⟨w, hw, rfl, rfl⟩
  next hdest =>
    have hnone : i.defines? = none := by
      rw [Option.eq_none_iff_forall_ne_some]
      exact fun name hname => hdest name (Instruction.defines?_eq_some.mp hname)
    simp only [pure_eq_ok_iff, Prod.mk.injEq, hnone, true_and]
    constructor
    · rintro ⟨rfl, rfl⟩
      exact .inr ⟨rfl, rfl⟩
    · rintro (⟨name, _, hname, -⟩ | ⟨rfl, rfl⟩)
      · exact absurd hname (hdest name)
      · exact ⟨rfl, rfl⟩

/-- Placing a variable: the next slot below those before it. -/
theorem takeSlot_eq_ok_iff :
    s.takeSlot i = .ok (s', i') ↔
      (∃ name offset, i.dest = some (.reg name) ∧
        offset.toNat = s.offset.toNat + max i.dataType.size 1 ∧
        s' = { s with slots := (name, offset) :: s.slots, offset := offset } ∧
        i' = { i with dest := some (.slot name offset) }) ∨
      (i.defines? = none ∧ s' = s ∧ i' = i) := by
  simp only [← @narrow32_eq_ok_iff .add]
  exact placeDest_eq_ok_iff

/-- Placing an element address: the next pointer register. -/
theorem takePointer_eq_ok_iff :
    s.takePointer i = .ok (s', i') ↔
      (∃ name next, i.dest = some (.reg name) ∧ next.toNat = s.nextPointer.toNat + 1 ∧
        s' = { s with pointers := (name, s.nextPointer) :: s.pointers, nextPointer := next } ∧
        i' = { i with dest := some (.pointer s.nextPointer) }) ∨
      (i.defines? = none ∧ s' = s ∧ i' = i) := by
  simp only [← successor32_eq_ok_iff]
  exact placeDest_eq_ok_iff

/-- Placing any other value: the next general register. -/
theorem takeGeneral_eq_ok_iff :
    s.takeGeneral i = .ok (s', i') ↔
      (∃ name next, i.dest = some (.reg name) ∧ next.toNat = s.nextGeneral.toNat + 1 ∧
        s' = { s with generals := (name, s.nextGeneral) :: s.generals, nextGeneral := next } ∧
        i' = { i with dest := some (.general s.nextGeneral) }) ∨
      (i.defines? = none ∧ s' = s ∧ i' = i) := by
  simp only [← successor32_eq_ok_iff]
  exact placeDest_eq_ok_iff

/-- Replacing the sources alone. -/
theorem renameSources_eq (s : Storage) (i : Instruction) :
    s.renameSources i = i.replace i.dest s.rename id := by
  obtain ⟨opcode, dataType, dest, src1, src2, src3, call⟩ := i
  cases call <;> simp [renameSources, Instruction.replace]

/-- Replacing the call arguments alone. -/
theorem renameArgs_eq (s : Storage) (i : Instruction) :
    s.renameArgs i = i.replace i.dest id s.rename := by
  simp [renameArgs, Instruction.replace]

/-- Placing the destination of an instruction, by the kind of place it gets. -/
def place (s : Storage) (i : Instruction) : Checked (Storage × Instruction) :=
  match i.opcode.place? with
  | some .slot => s.takeSlot i
  | some .pointer => s.takePointer i
  | some .general => (s.released i.opcode).takeGeneral i
  | none => return (s.released i.opcode, i)

/-- Placing a destination is the relation `Places`. -/
theorem place_eq_ok_iff :
    s.place i = .ok (s', i') ↔ ∃ dest, s.Places i s' dest ∧ i' = { i with dest := dest } := by
  rw [place]
  constructor
  · intro h
    split at h
    next hplace =>
      have hop : i.opcode = .alloca := Opcode.place?_eq_slot.mp hplace
      obtain ⟨name, offset, hdest, hoffset, rfl, rfl⟩ | ⟨hnone, rfl, rfl⟩ :=
        takeSlot_eq_ok_iff.mp h
      · exact ⟨_, .slot hop hdest hoffset, rfl⟩
      · refine ⟨_, ?_, rfl⟩
        simpa [released, hop, Opcode.releases] using Places.kept (s := s') (.inr hnone)
    next hplace =>
      have hop : i.opcode = .gep := Opcode.place?_eq_pointer.mp hplace
      obtain ⟨name, next, hdest, hnext, rfl, rfl⟩ | ⟨hnone, rfl, rfl⟩ :=
        takePointer_eq_ok_iff.mp h
      · exact ⟨_, .pointer hop hdest hnext, rfl⟩
      · refine ⟨_, ?_, rfl⟩
        simpa [released, hop, Opcode.releases] using Places.kept (s := s') (.inr hnone)
    next hplace =>
      obtain ⟨name, next, hdest, hnext, rfl, rfl⟩ | ⟨hnone, rfl, rfl⟩ :=
        takeGeneral_eq_ok_iff.mp h
      · rw [released_update]
        exact ⟨_, .general hplace hdest hnext, rfl⟩
      · exact ⟨_, .kept (.inr hnone), rfl⟩
    next hplace =>
      obtain ⟨rfl, rfl⟩ := Prod.mk.inj (pure_eq_ok_iff.mp h)
      exact ⟨_, .kept (.inl hplace), rfl⟩
  · rintro ⟨dest, hplaces, rfl⟩
    cases hplaces with
    | slot hop hdest hoffset =>
        rw [Opcode.place?_eq_slot.mpr hop]
        exact takeSlot_eq_ok_iff.mpr (.inl ⟨_, _, hdest, hoffset, rfl, rfl⟩)
    | pointer hop hdest hnext =>
        rw [Opcode.place?_eq_pointer.mpr hop]
        exact takePointer_eq_ok_iff.mpr (.inl ⟨_, _, hdest, hnext, rfl, rfl⟩)
    | general hplace hdest hnext =>
        rw [hplace]
        refine takeGeneral_eq_ok_iff.mpr (.inl ⟨_, _, hdest, hnext, ?_, rfl⟩)
        exact released_update.symm
    | kept h =>
        obtain hplace | hnone := h
        · rw [hplace]
          rfl
        · split
          next hplace =>
            rw [released_eq_self (by rw [Opcode.place?_eq_slot.mp hplace]; rfl)]
            exact takeSlot_eq_ok_iff.mpr (.inr ⟨hnone, rfl, rfl⟩)
          next hplace =>
            rw [released_eq_self (by rw [Opcode.place?_eq_pointer.mp hplace]; rfl)]
            exact takePointer_eq_ok_iff.mpr (.inr ⟨hnone, rfl, rfl⟩)
          next => exact takeGeneral_eq_ok_iff.mpr (.inr ⟨hnone, rfl, rfl⟩)
          next => rfl

/-- The arguments of a call are replaced alike before and after its result is placed. -/
theorem takeGeneral_renameArgs (s t : Storage) (i : Instruction) :
    s.takeGeneral (t.renameArgs i) =
      (do let (s, i) ← s.takeGeneral i; return (s, t.renameArgs i)) := by
  have hdest : (t.renameArgs i).dest = i.dest := rfl
  simp only [takeGeneral]
  rw [hdest]
  split
  next name _ => cases successor32 s.nextGeneral <;> rfl
  next => rfl

/-- An instruction is assigned storage by placing its destination and replacing what it
reads. -/
theorem assign_eq_place (s : Storage) (i : Instruction) :
    s.assign i =
      (do let (t, j) ← s.place i
          return (t, j.replace j.dest (t.sourceMap i.opcode) (s.argMap i.opcode))) := by
  rw [assign, place]
  cases hop : i.opcode with
  | alloca => simp [Opcode.place?, sourceMap, argMap, Instruction.replace_id]
  | call =>
      dsimp only
      rw [takeGeneral_renameArgs]
      simp [Opcode.place?, sourceMap, argMap, released, Opcode.releases, renameSources_eq,
        renameArgs_eq]
  | _ =>
      simp [Opcode.place?, sourceMap, argMap, released, Opcode.releases, renameSources_eq]

/-- Assigning storage to one instruction: its destination is placed, its sources are read
with the storage after that and its call arguments with the storage before. -/
theorem assign_eq_ok_iff :
    s.assign i = .ok (s', i') ↔
      ∃ dest, s.Places i s' dest ∧
        i' = i.replace dest (s'.sourceMap i.opcode) (s.argMap i.opcode) := by
  simp only [assign_eq_place, bind_eq_ok_iff, pure_eq_ok_iff, Prod.exists, Prod.mk.injEq,
    place_eq_ok_iff]
  constructor
  · rintro ⟨t, j, ⟨dest, hplaces, rfl⟩, rfl, rfl⟩
    exact ⟨dest, hplaces, rfl⟩
  · rintro ⟨dest, hplaces, rfl⟩
    exact ⟨_, _, ⟨dest, hplaces, rfl⟩, rfl, rfl⟩

end Storage

end RegIR
