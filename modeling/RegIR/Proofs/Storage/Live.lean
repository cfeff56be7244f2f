import RegIR.Proofs.Storage.Names

/-!
# Live names

General registers are numbered from the last release, so at any point the general registers
that still hold their value are the last `nextGeneral` ones that were given out. Stack
slots, arguments and pointer registers hold their values to the end. The names of these
places are the live ones; a new place differs from the places of all live names.

## Main results

* `Storage.resolve_of_live`: the place of a live name is one that storage has given out.
* `Storage.Bounded.places`, `Storage.bounded_assignAll`: places given out are below the
  counters.
* `Storage.Bounded.reserved_of_live`, `Storage.Places.not_reserved`: live names have cells
  that have been given out, and a new place is not among them.
* `Storage.mem_kept_assignAll`, `Storage.mem_current_of_unreleased`: which names are live
  after a run.
-/

namespace RegIR

/-- Where a value can be kept: in a virtual register or in a place in hardware. A stack slot
is its offset, whatever variable it belongs to. -/
inductive Cell where
  | reg (name : RegName)
  | slot (offset : UInt32)
  | argument (index : UInt32)
  | pointer (index : UInt32)
  | general (index : UInt32)
deriving DecidableEq, Repr

/-- The cell that an operand names; constants, labels and strings name none. -/
def Operand.cell? : Operand → Option Cell
  | reg name => some (.reg name)
  | slot _ offset => some (.slot offset)
  | argument index => some (.argument index)
  | pointer index => some (.pointer index)
  | general index => some (.general index)
  | imm _ | label _ | string _ => none

namespace Storage

/-- The names whose places last to the end of the function. -/
def kept (s : Storage) : List RegName :=
  (s.slots ++ s.arguments ++ s.pointers).map Prod.fst

/-- The general registers given out since the last release, the last one first. -/
def current (s : Storage) : List (RegName × UInt32) :=
  s.generals.take s.nextGeneral.toNat

/-- The names whose places hold their values. -/
def live (s : Storage) : List RegName :=
  s.kept ++ s.current.map Prod.fst

variable {s s' t : Storage} {i : Instruction} {dest : Option Operand} {name : RegName}

/-- A value in a map is an entry of it. -/
theorem mem_of_lookup {index : UInt32} {entries : List (RegName × UInt32)}
    (h : entries.lookup name = some index) : (name, index) ∈ entries := by
  obtain ⟨before, after, rfl, -⟩ := List.lookup_eq_some_iff.mp h
  simp

/-- A name among the first entries of a map gets its value from them. -/
theorem lookup_of_mem_take {n : Nat} {entries : List (RegName × UInt32)}
    (h : name ∈ (entries.take n).map Prod.fst) :
    ∃ index, entries.lookup name = some index ∧ (name, index) ∈ entries.take n := by
  cases htake : (entries.take n).lookup name with
  | none => exact absurd h (lookup_eq_none.mp htake)
  | some index =>
      refine ⟨index, ?_, mem_of_lookup htake⟩
      rw [← List.take_append_drop n entries, List.lookup_append, htake]
      rfl

/-- A live name stands for a place that storage has given out. -/
theorem resolve_of_live (h : name ∈ s.live) :
    (∃ offset, (name, offset) ∈ s.slots ∧ s.resolve name = .slot name offset) ∨
    (∃ index, (name, index) ∈ s.arguments ∧ s.resolve name = .argument index) ∨
    (∃ index, (name, index) ∈ s.pointers ∧ s.resolve name = .pointer index) ∨
    (∃ index, (name, index) ∈ s.current ∧ s.resolve name = .general index) := by
  rw [live, kept, List.mem_append, List.map_append, List.map_append, List.mem_append,
    List.mem_append] at h
  obtain ⟨offset, hslot, hres⟩ | ⟨index, -, harg, hres⟩ | ⟨index, -, -, hpointer, hres⟩ |
    ⟨index, hslots, hargs, hpointers, hgeneral, hres⟩ | ⟨hunknown, -⟩ := s.resolve_cases name
  · exact .inl ⟨offset, mem_of_lookup hslot, hres⟩
  · exact .inr (.inl ⟨index, mem_of_lookup harg, hres⟩)
  · exact .inr (.inr (.inl ⟨index, mem_of_lookup hpointer, hres⟩))
  · rw [lookup_eq_none] at hslots hargs hpointers
    obtain ((hslot | harg) | hpointer) | hcurrent := h
    · exact absurd hslot hslots
    · exact absurd harg hargs
    · exact absurd hpointer hpointers
    · obtain ⟨index', hlookup, hmem⟩ := lookup_of_mem_take hcurrent
      obtain rfl : index = index' := Option.some.inj (hgeneral.symm.trans hlookup)
      exact .inr (.inr (.inr ⟨index, hmem, hres⟩))
  · rw [names, List.map_append, List.map_append, List.map_append, List.mem_append,
      List.mem_append, List.mem_append] at hunknown
    refine absurd (h.imp_right fun hcurrent => ?_) hunknown
    exact List.map_subset _ (List.take_subset _ _) hcurrent

/-! ### Places given out -/

/-- Every place that storage has given out is below its counter. -/
structure Bounded (s : Storage) : Prop where
  slots : ∀ e ∈ s.slots, e.2.toNat ≤ s.offset.toNat
  pointers : ∀ e ∈ s.pointers, e.2.toNat < s.nextPointer.toNat
  generals : ∀ e ∈ s.current, e.2.toNat < s.nextGeneral.toNat

/-- At the start no place has been given out. -/
theorem bounded_ofArgs (args : List (Ty × RegName)) : (ofArgs args).Bounded :=
  ⟨nofun, nofun, nofun⟩

/-- After a release no general register is in use. -/
theorem current_releaseGenerals (s : Storage) : s.releaseGenerals.current = [] := by
  simp [current, releaseGenerals]

/-- A release gives nothing out. -/
theorem Bounded.released (h : s.Bounded) (op : Opcode) : (s.released op).Bounded := by
  rw [Storage.released]
  split
  · refine ⟨h.slots, h.pointers, fun e he => ?_⟩
    rw [current_releaseGenerals] at he
    cases he
  · exact h

/-- Giving out one more general register. -/
theorem current_cons {index next : UInt32} (h : next.toNat = s.nextGeneral.toNat + 1) :
    current { s with generals := (name, index) :: s.generals, nextGeneral := next } =
      (name, index) :: s.current := by
  simp [current, h]

/-- Placing a destination keeps the bounds. -/
theorem Bounded.places (hs : s.Bounded) (h : s.Places i s' dest) : s'.Bounded := by
  cases h with
  | slot hop hdest hoffset =>
      refine ⟨?_, hs.pointers, hs.generals⟩
      rintro e (_ | ⟨_, he⟩)
      · exact Nat.le_refl _
      · have := hs.slots e he
        simp only
        omega
  | pointer hop hdest hnext =>
      refine ⟨hs.slots, ?_, hs.generals⟩
      rintro e (_ | ⟨_, he⟩)
      · simp only
        omega
      · have := hs.pointers e he
        simp only
        omega
  | general hop hdest hnext =>
      have ht := hs.released i.opcode
      rw [← released_update]
      refine ⟨ht.slots, ht.pointers, ?_⟩
      rw [current_cons hnext]
      rintro e (_ | ⟨_, he⟩)
      · simp only
        omega
      · have := ht.generals e he
        simp only
        omega
  | kept _ => exact hs.released i.opcode

/-- Places stay below the counters along a run. -/
theorem bounded_assignAll {args : List (Ty × RegName)} {is js : List Instruction}
    (h : (ofArgs args).assignAll is = .ok (t, js)) : t.Bounded := by
  refine assignAll_induction (P := fun _ _ r => r.Bounded) (bounded_ofArgs args) ?_ h
  intro is js r i r' i' _ hr hi
  obtain ⟨dest, hplaces, -⟩ := assign_eq_ok_iff.mp hi
  exact hr.places hplaces

/-! ### What a new place leaves alone -/

/-- An entry for another name changes nothing. -/
theorem lookup_cons_of_ne {name' : RegName} {index : UInt32}
    {entries : List (RegName × UInt32)} (h : name ≠ name') :
    ((name', index) :: entries).lookup name = entries.lookup name := by
  rw [List.lookup_cons, beq_false_of_ne h]

/-- A name that an instruction does not define is not its destination. -/
theorem ne_of_dest {name' : RegName} (hne : i.defines? ≠ some name)
    (hdest : i.dest = some (.reg name')) : name ≠ name' := by
  rintro rfl
  exact hne (Instruction.defines?_eq_some.mpr hdest)

/-- A release does not change what a name stands for. -/
theorem resolve_released (s : Storage) (op : Opcode) :
    (s.released op).resolve name = s.resolve name := by
  rw [released]
  split <;> rfl

/-- A name that an instruction does not define stands for what it stood for. -/
theorem Places.resolve_of_ne (h : s.Places i s' dest) (hne : i.defines? ≠ some name) :
    s'.resolve name = s.resolve name := by
  cases h with
  | slot _ hdest _ | pointer _ hdest _ | general _ hdest _ =>
      simp only [resolve, lookup_cons_of_ne (ne_of_dest hne hdest)]
  | kept _ => exact resolve_released s i.opcode

/-- A new name stands for its new place. -/
theorem Places.resolve_dest (h : s.Places i s' dest) (hname : i.result? = some name)
    (hfresh : name ∉ s.names) : dest = some (s'.resolve name) := by
  simp only [names, List.map_append, List.mem_append, not_or, ← lookup_eq_none] at hfresh
  obtain ⟨⟨⟨hslots, hargs⟩, hpointers⟩, -⟩ := hfresh
  have hdefines := Instruction.defines?_of_result? hname
  have heq : ∀ {name'}, i.dest = some (.reg name') → name' = name := fun hdest =>
    Option.some.inj ((Instruction.defines?_eq_some.mpr hdest).symm.trans hdefines)
  cases h with
  | slot hop hdest _ =>
      obtain rfl := heq hdest
      simp [resolve]
  | pointer hop hdest _ =>
      obtain rfl := heq hdest
      simp [resolve, hslots, hargs]
  | general hop hdest _ =>
      obtain rfl := heq hdest
      simp [resolve, hslots, hargs, hpointers]
  | kept h =>
      obtain hplace | hnone := h
      · simp [Instruction.result?, hplace] at hname
      · simp [hnone] at hdefines

/-- A release does not change which names last to the end. -/
theorem kept_released (s : Storage) (op : Opcode) : (s.released op).kept = s.kept := by
  rw [released]
  split <;> rfl

/-- Which names last to the end: those before, and the new name of a slot or a pointer
register. -/
theorem Places.mem_kept (h : s.Places i s' dest) :
    name ∈ s'.kept ↔
      name ∈ s.kept ∨ i.result? = some name ∧ i.opcode.place? ≠ some .general := by
  cases h with
  | slot hop hdest _ | pointer hop hdest _ =>
      rw [Instruction.result?_eq_some (by rw [hop]; rfl) hdest]
      simp only [Storage.kept, hop, Opcode.place?, List.map_append, List.map_cons,
        List.mem_append, List.mem_cons, Option.some.injEq, ne_eq, reduceCtorEq,
        not_false_eq_true, and_true]
      tauto
  | general hop _ _ =>
      simp only [hop, ne_eq, not_true_eq_false, and_false, or_false]
      rfl
  | kept h =>
      simp only [Instruction.result?_eq_none h, reduceCtorEq, false_and, or_false, kept_released]

/-- Which general registers are in use: those that were not released, and the new one. -/
theorem Places.current_eq (h : s.Places i s' dest) :
    s'.current = (s.released i.opcode).current ∨
      ∃ name, i.result? = some name ∧ i.opcode.place? = some .general ∧
        s'.current = (name, (s.released i.opcode).nextGeneral) ::
          (s.released i.opcode).current := by
  cases h with
  | slot hop _ _ | pointer hop _ _ =>
      rw [released_eq_self (by rw [hop]; rfl)]
      exact .inl rfl
  | @general name _ hop hdest hnext =>
      refine .inr ⟨name, Instruction.result?_eq_some (by rw [hop]; rfl) hdest, hop, ?_⟩
      rw [← released_update, current_cons hnext]
  | kept _ => exact .inl rfl

/-- A release only ends lives. -/
theorem live_released_subset (s : Storage) (op : Opcode) : (s.released op).live ⊆ s.live := by
  rw [released]
  split
  · intro name hname
    rw [live, current_releaseGenerals, List.map_nil, List.append_nil] at hname
    exact List.mem_append_left _ hname
  · exact List.Subset.refl _

/-- A name that is live after an instruction is its result, or was live before it and has not
been released. -/
theorem Places.live_of_live (h : s.Places i s' dest) (hlive : name ∈ s'.live)
    (hne : i.defines? ≠ some name) : name ∈ (s.released i.opcode).live := by
  have hresult : i.result? ≠ some name := fun hname =>
    hne (Instruction.defines?_of_result? hname)
  rw [live, List.mem_append] at hlive ⊢
  obtain hold | hcurrent := hlive
  · rw [kept_released]
    exact .inl ((h.mem_kept.mp hold).resolve_right fun hnew => hresult hnew.1)
  · right
    obtain heq | ⟨name', hname', -, heq⟩ := h.current_eq
    · rwa [heq] at hcurrent
    · rw [heq, List.map_cons, List.mem_cons] at hcurrent
      obtain rfl | hcurrent := hcurrent
      · exact absurd hname' hresult
      · exact hcurrent

/-- The cells that storage has given out and not released. -/
def Reserved (s : Storage) : Cell → Prop
  | .reg _ => False
  | .slot offset => offset.toNat ≤ s.offset.toNat
  | .argument _ => True
  | .pointer index => index.toNat < s.nextPointer.toNat
  | .general index => index.toNat < s.nextGeneral.toNat

/-- A live name is kept in a cell that has been given out. -/
theorem Bounded.reserved_of_live (hs : s.Bounded) (h : name ∈ s.live) :
    ∃ c, (s.resolve name).cell? = some c ∧ s.Reserved c := by
  obtain ⟨offset, hmem, hres⟩ | ⟨index, -, hres⟩ | ⟨index, hmem, hres⟩ | ⟨index, hmem, hres⟩ :=
    resolve_of_live h
  · exact ⟨_, congrArg _ hres, hs.slots _ hmem⟩
  · exact ⟨_, congrArg _ hres, trivial⟩
  · exact ⟨_, congrArg _ hres, hs.pointers _ hmem⟩
  · exact ⟨_, congrArg _ hres, hs.generals _ hmem⟩

/-- **A new place is new.** It has not been given out. -/
theorem Places.not_reserved (h : s.Places i s' dest) (hresult : i.result?.isSome) :
    ∃ c, dest.bind Operand.cell? = some c ∧ ¬ (s.released i.opcode).Reserved c := by
  cases h with
  | slot hop _ hoffset =>
      rw [released_eq_self (by rw [hop]; rfl)]
      refine ⟨_, rfl, ?_⟩
      rw [Reserved, hoffset]
      omega
  | pointer hop _ _ =>
      rw [released_eq_self (by rw [hop]; rfl)]
      exact ⟨_, rfl, Nat.lt_irrefl _⟩
  | general _ _ _ => exact ⟨_, rfl, Nat.lt_irrefl _⟩
  | kept h => simp [Instruction.result?_eq_none h] at hresult

/-! ### Live names after a run -/

/-- **Names that last.** After a run these are the arguments and the results in slots and
pointer registers. -/
theorem mem_kept_assignAll {args : List (Ty × RegName)} {is js : List Instruction}
    (h : (ofArgs args).assignAll is = .ok (t, js)) :
    name ∈ t.kept ↔ name ∈ args.map Prod.snd ∨
      ∃ i ∈ is, i.result? = some name ∧ i.opcode.place? ≠ some .general := by
  refine assignAll_induction
    (P := fun is _ r => name ∈ r.kept ↔ name ∈ args.map Prod.snd ∨
      ∃ i ∈ is, i.result? = some name ∧ i.opcode.place? ≠ some .general) ?_ ?_ h
  · have hnames : name ∈ (ofArgs args).names ↔ name ∈ args.map Prod.snd := mem_names_ofArgs
    simpa [names, kept, ofArgs] using hnames
  · intro is js r i r' i' _ ih hi
    obtain ⟨dest, hplaces, -⟩ := assign_eq_ok_iff.mp hi
    rw [hplaces.mem_kept, ih]
    simp only [List.mem_append, List.mem_singleton, or_and_right, exists_or, exists_eq_left,
      or_assoc]

/-- A general register stays in use until the next release. -/
theorem mem_current_assignAll {is js : List Instruction} (h : s.assignAll is = .ok (t, js))
    (hrelease : ∀ i ∈ is, i.opcode.releases = false)
    (hname : name ∈ s.current.map Prod.fst) : name ∈ t.current.map Prod.fst := by
  revert hrelease
  refine assignAll_induction (P := fun is _ r => (∀ i ∈ is, i.opcode.releases = false) →
    name ∈ r.current.map Prod.fst) (fun _ => hname) ?_ h
  intro is js r i r' i' _ ih hi hrelease
  rw [List.forall_mem_append, List.forall_mem_singleton] at hrelease
  obtain ⟨dest, hplaces, -⟩ := assign_eq_ok_iff.mp hi
  have hr := ih hrelease.1
  have hcurrent := hplaces.current_eq
  rw [released_eq_self hrelease.2] at hcurrent
  obtain heq | ⟨_, -, -, heq⟩ := hcurrent
  · rwa [heq]
  · rw [heq]
    exact List.mem_cons_of_mem _ hr

/-- **Names that may be released.** A result in a general register is live as long as no
release follows it. -/
theorem mem_current_of_unreleased {before after js : List Instruction}
    (h : s.assignAll (before ++ i :: after) = .ok (t, js)) (hname : i.result? = some name)
    (hgeneral : i.opcode.place? = some .general)
    (hrelease : ∀ j ∈ after, j.opcode.releases = false) :
    name ∈ t.current.map Prod.fst := by
  obtain ⟨r, _, _, -, hrest, -⟩ := assignAll_append_eq_ok_iff.mp h
  obtain ⟨r', _, _, hi, hafter, -⟩ := assignAll_cons_eq_ok_iff.mp hrest
  refine mem_current_assignAll hafter hrelease ?_
  obtain ⟨dest, hplaces, -⟩ := assign_eq_ok_iff.mp hi
  cases hplaces with
  | slot hop _ _ | pointer hop _ _ => simp [hop, Opcode.place?] at hgeneral
  | @general name' _ hop hdest hnext =>
      obtain rfl : name' = name := Option.some.inj
        ((Instruction.result?_eq_some (by rw [hop]; rfl) hdest).symm.trans hname)
      rw [← released_update, current_cons hnext]
      exact List.mem_cons_self
  | kept h => simp [Instruction.result?_eq_none h] at hname

end Storage

end RegIR
