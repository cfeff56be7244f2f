import Mathlib.Data.Finset.Card
import RegIR.Proofs.Storage.Usage

/-!
# How registers are numbered

Pointer registers are numbered through a function: the first element address gets the first of them,
and so on. General registers are numbered from zero again after every store and at every call, and
the result of the call is the first value after that. Where blocks begin and end makes no
difference.

Both numbers are given here in closed form, by positions in layout order alone. A general
destination at position `p` counts for one at a later position `n` if no instruction behind `p`,
up to and including `n`, starts the numbering again.

## Main definitions

* `Func.gepsBefore`, `Func.generalsSince`: the two numbers.
* `Func.NumbersRegisters`: the destinations of a lowered function have these numbers.

## Main results

* `Func.pointers_usage`, `Func.generals_usage`: the counters of storage in closed form.
* `Module.registers_numbered`: lowering numbers registers in this way.
-/

namespace RegIR

/-! ### Numbers by position -/

namespace Instruction

/-- Does the instruction define a value for a general register? -/
def definesGeneral (i : Instruction) : Bool :=
  i.opcode.place? = some .general && i.dest.isSome

/-- An instruction with a result has a register as its destination, but a call may have none; any
other instruction has no destination. -/
structure HasOwnDest (i : Instruction) : Prop where
  result : i.opcode.place?.isSome = true →
    i.defines?.isSome = true ∨ i.opcode = .call ∧ i.dest = none
  other : i.opcode.place? = none → i.dest = none

instance (i : Instruction) : Decidable i.HasOwnDest :=
  decidable_of_iff (_ ∧ _) ⟨fun h => ⟨h.1, h.2⟩, fun h => ⟨h.1, h.2⟩⟩

/-- It defines a register and has a kind of place for it, or it defines nothing. -/
theorem HasOwnDest.cases {i : Instruction} (h : i.HasOwnDest) :
    (∃ name kind, i.defines? = some name ∧ i.opcode.place? = some kind) ∨
    i.defines? = none ∧ i.dest = none ∧ (i.opcode.place? = none ∨ i.opcode = .call) := by
  have hnone : i.dest = none → i.defines? = none := fun hdest => by rw [defines?, hdest]; rfl
  rcases hplace : i.opcode.place? with - | kind
  · have hdest := h.other hplace
    exact .inr ⟨hnone hdest, hdest, .inl rfl⟩
  · rcases h.result (Option.isSome_of_eq_some hplace) with hname | ⟨hop, hdest⟩
    · obtain ⟨name, hname⟩ := Option.isSome_iff_exists.mp hname
      exact .inl ⟨name, kind, hname, rfl⟩
    · exact .inr ⟨hnone hdest, hdest, .inr hop⟩

end Instruction

namespace Func

/-- Is a value for a general register defined at a position? -/
def definesGeneralAt (f : Func) (n : Nat) : Bool :=
  f.instructions[n]?.any Instruction.definesGeneral

/-- Does the numbering of general registers start again at a position? -/
def releasesAt (f : Func) (n : Nat) : Bool :=
  f.instructions[n]?.any fun i => i.opcode.releases

/-- How many element addresses stand before a position. -/
def gepsBefore (f : Func) (n : Nat) : Nat :=
  (f.instructions.take n).countP fun i => i.opcode = .gep

/-- The positions before `n` with a value that is still counted at `n`: the numbering has not
started again since. -/
def countedAt (f : Func) (n : Nat) : Finset Nat :=
  (Finset.range n).filter fun p =>
    f.definesGeneralAt p = true ∧ ∀ q ≤ n, p < q → f.releasesAt q = false

/-- How many general destinations precede a position since the numbering last started. -/
def generalsSince (f : Func) (n : Nat) : Nat :=
  (f.countedAt n).card

/-- The destination at a position. -/
def dest? (f : Func) (n : Nat) : Option Operand :=
  f.instructions[n]?.bind Instruction.dest

/-- `f.NumbersRegisters g`: the destinations of `g` are those of `f`, numbered in layout order. -/
structure NumbersRegisters (f g : Func) : Prop where
  /-- Every instruction is where it was. -/
  opcodes : g.instructions.map Instruction.opcode = f.instructions.map Instruction.opcode
  /-- An element address is in the pointer register of its number. -/
  pointer : ∀ (n : Nat) (i : Instruction), f.instructions[n]? = some i → i.opcode = .gep →
    ∃ index : UInt32, g.dest? n = some (.pointer index) ∧ index.toNat = f.gepsBefore n
  /-- Any other value is in the general register of its number since the last start. -/
  general : ∀ (n : Nat) (i : Instruction), f.instructions[n]? = some i →
    i.opcode.place? = some .general → i.dest.isSome = true →
    ∃ index : UInt32, g.dest? n = some (.general index) ∧ index.toNat = f.generalsSince n
  /-- The result of a call is in the first one. -/
  call : ∀ (n : Nat) (i : Instruction), f.instructions[n]? = some i → i.opcode = .call →
    i.dest.isSome = true → g.dest? n = some (.general 0)
  /-- A general register is used again only if the numbering has started again. -/
  reused : ∀ (p n : Nat) (index : UInt32), p < n → g.dest? p = some (.general index) →
    g.dest? n = some (.general index) → ∃ q, p < q ∧ q ≤ n ∧ f.releasesAt q = true
  /-- A pointer register is never used again. -/
  distinct : ∀ (p n : Nat) (index : UInt32), g.dest? p = some (.pointer index) →
    g.dest? n = some (.pointer index) → p = n

/-! ### The numbers, step by step -/

variable {f g : Func} {n : Nat}

/-- Another element address has the next number. -/
theorem gepsBefore_succ {i : Instruction} (hi : f.instructions[n]? = some i) :
    f.gepsBefore (n + 1) = f.gepsBefore n + if i.opcode = .gep then 1 else 0 := by
  rw [gepsBefore, List.take_add_one, hi, List.countP_append]
  simp [gepsBefore, List.countP_cons]

/-- Nothing is counted where the numbering starts again. -/
theorem generalsSince_of_releases (h : f.releasesAt n = true) : f.generalsSince n = 0 := by
  rw [generalsSince, Finset.card_eq_zero, Finset.eq_empty_iff_forall_notMem]
  intro p hp
  obtain ⟨hlt, -, hsince⟩ := Finset.mem_filter.mp hp
  have hnot := hsince n (Nat.le_refl n) (Finset.mem_range.mp hlt)
  rw [h] at hnot
  cases hnot

/-- Where it does not, one more is counted if a value is defined right before. -/
theorem countedAt_succ (h : f.releasesAt (n + 1) = false) :
    f.countedAt (n + 1) =
      if f.definesGeneralAt n then insert n (f.countedAt n) else f.countedAt n := by
  have hsplit : ∀ p, (∀ q ≤ n + 1, p < q → f.releasesAt q = false) ↔
      ∀ q ≤ n, p < q → f.releasesAt q = false := by
    intro p
    constructor
    · intro hall q hq
      exact hall q (Nat.le_succ_of_le hq)
    · intro hall q hq hpq
      rcases Nat.le_succ_iff.mp hq with hle | rfl
      · exact hall q hle hpq
      · exact h
  have hself : (f.definesGeneralAt n = true ∧ ∀ q ≤ n, n < q → f.releasesAt q = false) ↔
      f.definesGeneralAt n = true :=
    and_iff_left fun q hq hlt => by omega
  rw [countedAt, countedAt, Finset.range_add_one, Finset.filter_insert]
  simp only [hsplit, hself]

/-- One more value is numbered. -/
theorem generalsSince_succ (h : f.releasesAt (n + 1) = false) :
    f.generalsSince (n + 1) = f.generalsSince n + if f.definesGeneralAt n then 1 else 0 := by
  rw [generalsSince, countedAt_succ h, generalsSince]
  split
  · refine Finset.card_insert_of_notMem fun hn => ?_
    exact absurd (Finset.mem_range.mp (Finset.mem_filter.mp hn).1) (Nat.lt_irrefl n)
  · rfl

/-- Between two element addresses the number grows. -/
theorem gepsBefore_lt {p : Nat} {i : Instruction} (hi : f.instructions[p]? = some i)
    (hop : i.opcode = .gep) (hlt : p < n) : f.gepsBefore p < f.gepsBefore n := by
  have hmono : f.gepsBefore (p + 1) ≤ f.gepsBefore n :=
    (List.take_sublist_take_left hlt).countP_le
  rw [gepsBefore_succ hi, if_pos hop] at hmono
  exact hmono

/-- Between two values the number grows if the numbering does not start again. -/
theorem generalsSince_lt {p : Nat} (hp : f.definesGeneralAt p = true) (hlt : p < n)
    (h : ∀ q, p < q → q ≤ n → f.releasesAt q = false) : f.generalsSince p < f.generalsSince n := by
  induction n, hlt using Nat.le_induction with
  | base =>
      rw [generalsSince_succ (h (p + 1) (Nat.lt_succ_self p) (Nat.le_refl _)), if_pos hp]
      exact Nat.lt_succ_self _
  | succ n hlt ih =>
      rw [generalsSince_succ (h (n + 1) (Nat.lt_succ_of_lt hlt) (Nat.le_refl _))]
      have := ih fun q hpq hq => h q hpq (Nat.le_succ_of_le hq)
      omega

end Func

/-! ### The counters of storage -/

namespace Usage

variable {i : Instruction}

/-- An instruction that defines nothing may only start the numbering again. -/
theorem step_of_none (u : Usage) (h : i.defines? = none) : u.step i = u.released i.opcode := by
  rw [step, h]
  rcases i.opcode.place? with - | (- | - | -) <;> rfl

/-- A release leaves the pointer registers alone. -/
theorem pointers_released (u : Usage) (op : Opcode) : (u.released op).pointers = u.pointers := by
  rw [released]
  split <;> rfl

/-- An instruction takes a pointer register if it is an element address. -/
theorem pointers_step (u : Usage) (h : i.HasOwnDest) :
    (u.step i).pointers = u.pointers + if i.opcode = .gep then 1 else 0 := by
  simp only [← Opcode.place?_eq_pointer]
  rcases h.cases with ⟨name, kind, hname, hplace⟩ | ⟨hnone, -, hplace⟩
  · rw [step, hplace, hname]
    cases kind <;> rfl
  · have hpointer : i.opcode.place? ≠ some .pointer := by
      rcases hplace with hplace | hop
      · simp [hplace]
      · simp [hop, Opcode.place?]
    rw [step_of_none u hnone, pointers_released, if_neg hpointer]
    rfl

/-- An instruction takes a general register if it defines a value for one, after it has started
the numbering again. -/
theorem generals_step (u : Usage) (h : i.HasOwnDest) :
    (u.step i).generals =
      (u.released i.opcode).generals + if i.definesGeneral then 1 else 0 := by
  rcases h.cases with ⟨name, kind, hname, hplace⟩ | ⟨hnone, hdest, -⟩
  · rw [Instruction.definesGeneral, Instruction.defines?_eq_some.mp hname, step, hplace, hname]
    cases kind with
    | slot => rw [Opcode.place?_eq_slot.mp hplace]; rfl
    | pointer => rw [Opcode.place?_eq_pointer.mp hplace]; rfl
    | general => rfl
  · rw [step_of_none u hnone, Instruction.definesGeneral, hdest]
    simp

end Usage

namespace Func

variable {f g : Func} {n : Nat} {i : Instruction}

/-- **Pointer registers** that are taken before a position. -/
theorem pointers_usage (h : ∀ i ∈ f.instructions, i.HasOwnDest) (hn : n ≤ f.instructions.length) :
    ((f.instructions.take n).foldl Usage.step {}).pointers = f.gepsBefore n := by
  induction n with
  | zero => rfl
  | succ n ih =>
      have hi := List.getElem?_eq_getElem hn
      rw [gepsBefore_succ hi, ← ih (Nat.le_of_lt hn), List.take_add_one, hi, List.foldl_append]
      exact Usage.pointers_step _ (h _ (List.mem_of_getElem? hi))

/-- **General registers** that are taken before an instruction, when it is about to be placed. -/
theorem generals_usage (h : ∀ i ∈ f.instructions, i.HasOwnDest)
    (hi : f.instructions[n]? = some i) :
    (((f.instructions.take n).foldl Usage.step {}).released i.opcode).generals =
      f.generalsSince n := by
  induction n generalizing i with
  | zero =>
      rw [Usage.released]
      split <;> rfl
  | succ n ih =>
      have hreleases : f.releasesAt (n + 1) = i.opcode.releases := by
        rw [releasesAt, hi]
        rfl
      by_cases hop : i.opcode.releases = true
      · rw [generalsSince_of_releases (hreleases.trans hop), Usage.released, if_pos hop]
      · -- The numbering goes on, with what the instruction before adds to it.
        obtain ⟨hn, -⟩ := List.getElem?_eq_some_iff.mp hi
        have hj := List.getElem?_eq_getElem (Nat.lt_of_succ_lt hn)
        have hdefines : f.definesGeneralAt n = (f.instructions[n]).definesGeneral := by
          rw [definesGeneralAt, hj]
          rfl
        rw [generalsSince_succ (by simpa [hreleases] using hop), ← ih hj, hdefines,
          Usage.released, if_neg hop, List.take_add_one, hj, List.foldl_append]
        exact Usage.generals_step _ (h _ (List.mem_of_getElem? hj))

/-! ### Destinations -/

/-- What a lowered function is made from. -/
theorem assignAll_of_lower (h : f.lower = .ok g) :
    ∃ s, (Storage.ofArgs f.args).assignAll f.instructions = .ok (s, g.instructions) := by
  obtain ⟨s, blocks, hassign, rfl, -⟩ := Func.lower_eq_ok_iff.mp h
  exact ⟨s, Storage.assignBlocks_flatten hassign⟩

/-- Instructions keep their opcodes and their order. -/
theorem map_opcode_of_lower (h : f.lower = .ok g) :
    g.instructions.map Instruction.opcode = f.instructions.map Instruction.opcode := by
  obtain ⟨s, hrun⟩ := assignAll_of_lower h
  refine Storage.assignAll_induction
    (P := fun is js _ => js.map Instruction.opcode = is.map Instruction.opcode) rfl ?_ hrun
  intro is js r i r' j _ ih hassign
  obtain ⟨dest, -, rfl⟩ := Storage.assign_eq_ok_iff.mp hassign
  rw [List.map_append, List.map_append, ih]
  rfl

/-- The destination at a position is placed with the storage that the instructions before leave. -/
theorem exists_places (h : f.lower = .ok g) (hi : f.instructions[n]? = some i) :
    ∃ (s s' : Storage) (dest : Option Operand), s.Places i s' dest ∧ g.dest? n = dest ∧
      s.usage = (f.instructions.take n).foldl Usage.step {} := by
  obtain ⟨t, hrun⟩ := assignAll_of_lower h
  obtain ⟨s, s', j, htake, hassign, hj⟩ := Storage.assignAll_at hrun hi
  obtain ⟨dest, hplaces, rfl⟩ := Storage.assign_eq_ok_iff.mp hassign
  refine ⟨s, s', dest, hplaces, ?_, Storage.usage_assignAll htake⟩
  rw [dest?, hj]
  rfl

/-- `f.NumbersAt g n i`: what the destination of the instruction `i`, at position `n` of `f`, has
become in `g`. -/
inductive NumbersAt (f g : Func) (n : Nat) (i : Instruction) : Prop
  | slot {name : RegName} {offset : UInt32} (hop : i.opcode = .alloca)
      (hdest : g.dest? n = some (.slot name offset))
  | pointer {index : UInt32} (hop : i.opcode = .gep) (hdest : g.dest? n = some (.pointer index))
      (hindex : index.toNat = f.gepsBefore n)
  | general {index : UInt32} (hdefines : i.definesGeneral = true)
      (hdest : g.dest? n = some (.general index)) (hindex : index.toNat = f.generalsSince n)
  | none (hop : i.opcode ≠ .gep) (hnone : i.dest = none) (hdest : g.dest? n = none)

/-- **One destination.** -/
theorem numbersAt_of_lower (h : f.lower = .ok g) (hown : ∀ i ∈ f.instructions, i.HasOwnDest)
    (hi : f.instructions[n]? = some i) : f.NumbersAt g n i := by
  obtain ⟨hn, -⟩ := List.getElem?_eq_some_iff.mp hi
  obtain ⟨s, s', dest, hplaces, hdest, husage⟩ := exists_places h hi
  cases hplaces with
  | slot hop _ _ => exact .slot hop hdest
  | pointer hop _ _ =>
      refine .pointer hop hdest ?_
      rw [← pointers_usage hown (Nat.le_of_lt hn), ← husage]
      rfl
  | general hplace hreg _ =>
      refine .general ?_ hdest ?_
      · simp [Instruction.definesGeneral, hplace, hreg]
      · rw [← generals_usage hown hi, ← husage, ← Storage.usage_released]
        rfl
  | kept hkept =>
      have hop : i.opcode ≠ .gep ∧ i.dest = none := by
        rcases (hown i (List.mem_of_getElem? hi)).cases with
          ⟨name, kind, hname, hplace⟩ | ⟨-, hnone, hplace⟩
        · rcases hkept with hkept | hkept
          · cases hkept.symm.trans hplace
          · cases hkept.symm.trans hname
        · refine ⟨fun hop => ?_, hnone⟩
          rw [hop] at hplace
          rcases hplace with hplace | hplace <;> cases hplace
      exact .none hop.1 hop.2 (hdest.trans hop.2)

/-- A position with a destination has an instruction. -/
theorem exists_of_dest? {op : Operand} (h : f.lower = .ok g) (hdest : g.dest? n = some op) :
    ∃ i, f.instructions[n]? = some i := by
  obtain ⟨s, hrun⟩ := assignAll_of_lower h
  obtain ⟨j, hj, -⟩ := Option.bind_eq_some_iff.mp hdest
  obtain ⟨i, -, -, hi, -⟩ := Storage.assignAll_at_result hrun hj
  exact ⟨i, hi⟩

/-- A pointer register is the destination of an element address, and has its number. -/
theorem gep_of_dest? {index : UInt32} (h : f.lower = .ok g)
    (hown : ∀ i ∈ f.instructions, i.HasOwnDest) (hdest : g.dest? n = some (.pointer index)) :
    ∃ i, f.instructions[n]? = some i ∧ i.opcode = .gep ∧ index.toNat = f.gepsBefore n := by
  obtain ⟨i, hi⟩ := exists_of_dest? h hdest
  cases numbersAt_of_lower h hown hi with
  | slot _ hdest' | general _ hdest' _ | none _ _ hdest' => cases hdest.symm.trans hdest'
  | pointer hop hdest' hindex =>
      cases hdest.symm.trans hdest'
      exact ⟨i, hi, hop, hindex⟩

/-- A general register is the destination of an instruction that defines a value for one, and has
its number. -/
theorem general_of_dest? {index : UInt32} (h : f.lower = .ok g)
    (hown : ∀ i ∈ f.instructions, i.HasOwnDest) (hdest : g.dest? n = some (.general index)) :
    f.definesGeneralAt n = true ∧ index.toNat = f.generalsSince n := by
  obtain ⟨i, hi⟩ := exists_of_dest? h hdest
  cases numbersAt_of_lower h hown hi with
  | slot _ hdest' | pointer _ hdest' _ | none _ _ hdest' => cases hdest.symm.trans hdest'
  | general hdefines hdest' hindex =>
      cases hdest.symm.trans hdest'
      refine ⟨?_, hindex⟩
      rw [definesGeneralAt, hi]
      exact hdefines

/-- **All destinations** of a function are numbered in layout order. -/
theorem numbersRegisters_of_lower (h : f.lower = .ok g)
    (hown : ∀ i ∈ f.instructions, i.HasOwnDest) : f.NumbersRegisters g := by
  have hgeneral : ∀ (n : Nat) (i : Instruction), f.instructions[n]? = some i →
      i.opcode.place? = some .general → i.dest.isSome = true →
      ∃ index : UInt32, g.dest? n = some (.general index) ∧ index.toNat = f.generalsSince n := by
    intro n i hi hplace hsome
    cases numbersAt_of_lower h hown hi with
    | slot hop _ | pointer hop _ _ =>
        rw [hop] at hplace
        cases hplace
    | general _ hdest hindex => exact ⟨_, hdest, hindex⟩
    | none _ hnone _ =>
        rw [hnone] at hsome
        cases hsome
  refine ⟨map_opcode_of_lower h, ?_, hgeneral, ?_, ?_, ?_⟩
  · intro n i hi hop
    cases numbersAt_of_lower h hown hi with
    | pointer _ hdest hindex => exact ⟨_, hdest, hindex⟩
    | slot hop' _ => cases hop.symm.trans hop'
    | general hdefines _ _ =>
        rw [Instruction.definesGeneral, hop] at hdefines
        cases hdefines
    | none hne _ _ => exact absurd hop hne
  · intro n i hi hop hsome
    have hreleases : f.releasesAt n = true := by
      rw [releasesAt, hi, Option.any_some, hop]
      rfl
    obtain ⟨index, hdest, hindex⟩ := hgeneral n i hi (by rw [hop]; rfl) hsome
    rw [generalsSince_of_releases hreleases] at hindex
    obtain rfl : index = 0 := UInt32.toNat_inj.mp hindex
    exact hdest
  · intro p n index hlt hp hn
    obtain ⟨hdefines, hindex⟩ := general_of_dest? h hown hp
    obtain ⟨-, hindex'⟩ := general_of_dest? h hown hn
    by_contra hnone
    have hgrows := generalsSince_lt hdefines hlt fun q hpq hq => by
      by_contra hreleases
      exact hnone ⟨q, hpq, hq, by simpa using hreleases⟩
    omega
  · intro p n index hp hn
    obtain ⟨i, hi, hop, hindex⟩ := gep_of_dest? h hown hp
    obtain ⟨j, hj, hop', hindex'⟩ := gep_of_dest? h hown hn
    rcases Nat.lt_trichotomy p n with hlt | heq | hlt
    · have := gepsBefore_lt hi hop hlt
      omega
    · exact heq
    · have := gepsBefore_lt hj hop' hlt
      omega

end Func

/-- **Numbering.** When a module is lowered, the destinations of every function with a body are
numbered in layout order, if each instruction that has a result names a register for it: element
addresses through the whole function, all other values from zero again after each store and at each
call. -/
theorem Module.registers_numbered {m m' : Module} (h : m.lower = .ok m') :
    List.Forall₂ (fun f g => f.isExternal = false → (∀ i ∈ f.instructions, i.HasOwnDest) →
      f.NumbersRegisters g) m.functions m'.functions := by
  obtain ⟨-, functions, rfl, hall⟩ := Module.lower_eq_ok_iff.mp h
  refine hall.imp fun f g hlower hbody hown => ?_
  rw [Func.lowerBody_eq_lower hbody] at hlower
  exact Func.numbersRegisters_of_lower hlower hown

/-- A function of two blocks with a store in the first and a call in the second. -/
def numberAgain : Module where
  name := "number"
  functions := [
    { name := "main"
      linkage := .exported
      returnType := .i32
      args := [(.pointer .i32, .num 0)]
      nextBlockId := 3
      blocks := [
        { name := "entry", id := 1, instructions := [
            { opcode := .gep, dataType := .i32, dest := some (.reg (.num 1)),
              src1 := some (.reg (.num 0)), src2 := some (.imm 1) },
            { opcode := .load, dataType := .i32, dest := some (.reg (.num 2)),
              src1 := some (.reg (.num 1)) },
            { opcode := .load, dataType := .i32, dest := some (.reg (.num 3)),
              src1 := some (.reg (.num 1)) },
            { opcode := .store, dataType := .i32, src1 := some (.reg (.num 3)),
              src2 := some (.reg (.num 0)) },
            { opcode := .load, dataType := .i32, dest := some (.reg (.num 4)),
              src1 := some (.reg (.num 0)) }] },
        { name := "next", id := 2, instructions := [
            { opcode := .gep, dataType := .i32, dest := some (.reg (.num 5)),
              src1 := some (.reg (.num 0)), src2 := some (.imm 2) },
            { opcode := .load, dataType := .i32, dest := some (.reg (.num 6)),
              src1 := some (.reg (.num 5)) },
            { opcode := .call, dataType := .i32, dest := some (.reg (.num 7)),
              call := some { callee := "main", args := [.reg (.num 5)] } },
            { opcode := .arith .add, dataType := .i32, dest := some (.reg (.num 8)),
              src1 := some (.reg (.num 7)), src2 := some (.imm 1) },
            { opcode := .ret, dataType := .i32, src1 := some (.reg (.num 8)) }] }] }]

/-- The store starts the numbering again, the end of the first block does not, and the call does
so before its own result. The element addresses are numbered through. -/
theorem numberAgain_numbered :
    ∃ m' f g, numberAgain.lower = .ok m' ∧ numberAgain.functions[0]? = some f ∧
      m'.functions[0]? = some g ∧ f.isExternal = false ∧
      (∀ i ∈ f.instructions, i.HasOwnDest) ∧ f.NumbersRegisters g ∧
      (List.range 10).map g.dest? =
        [some (.pointer 0), some (.general 0), some (.general 1), none, some (.general 0),
          some (.pointer 1), some (.general 1), some (.general 0), some (.general 1), none] := by
  obtain ⟨m', hm, f, hf, hbody, hown⟩ :
      ∃ m', numberAgain.lower = .ok m' ∧ ∃ f, numberAgain.functions[0]? = some f ∧
        f.isExternal = false ∧ ∀ i ∈ f.instructions, i.HasOwnDest :=
    ⟨_, rfl, _, rfl, rfl, by decide⟩
  obtain ⟨g, hg, hnumbers⟩ := exists_getElem?_of_forall₂ (Module.registers_numbered hm) hf
  refine ⟨m', f, g, hm, hf, hg, hbody, hown, hnumbers hbody hown, ?_⟩
  obtain rfl : _ = m' := Except.ok.inj hm
  obtain rfl : _ = g := Option.some.inj hg
  rfl

end RegIR
