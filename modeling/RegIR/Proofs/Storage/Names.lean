import RegIR.Proofs.Storage.Usage

/-!
# Definition before use

A function is accepted when no virtual register is left after storage assignment. Here that
is expressed by the function alone: which destinations, sources and call arguments can be
replaced, given the registers that are defined before the instruction.

The destination of an instruction is placed before its sources are replaced, and only the
arguments of a call are replaced earlier. A source that names the destination of its own
instruction is therefore replaced too, although nothing has been written there yet.

## Main results

* `Storage.mem_names_assignAll`: the names that storage knows are the arguments and the
  results so far.
* `Func.resolved_iff`: a function to which storage can be assigned is accepted exactly when
  every instruction is resolvable from the registers defined before it.
* `Module.reads_defined_or_own_dest`: the registers that an accepted module reads.
* `Module.lower_complete_and_error_exact`: which modules are accepted, and which register is
  reported otherwise.
-/

namespace RegIR

/-! ### Known names -/

/-- The register that an instruction gives a place. -/
def Instruction.result? (i : Instruction) : Option RegName :=
  if i.opcode.place?.isSome then i.defines? else none

/-- A result is a destination. -/
theorem Instruction.defines?_of_result? {i : Instruction} {name : RegName}
    (h : i.result? = some name) : i.defines? = some name := by
  rw [result?] at h
  split at h
  · exact h
  · cases h

/-- A destination that is kept is no result. -/
theorem Instruction.result?_eq_none {i : Instruction}
    (h : i.opcode.place? = none ∨ i.defines? = none) : i.result? = none := by
  obtain hplace | hnone := h
  · simp [result?, hplace]
  · simp [result?, hnone]

/-- A destination that gets a place is a result. -/
theorem Instruction.result?_eq_some {i : Instruction} {name : RegName}
    (hplace : i.opcode.place?.isSome) (hdest : i.dest = some (.reg name)) :
    i.result? = some name := by
  rw [result?, if_pos hplace, defines?_eq_some.mpr hdest]

namespace Storage

/-- The names that stand for something. -/
def names (s : Storage) : List RegName :=
  (s.slots ++ s.arguments ++ s.pointers ++ s.generals).map Prod.fst

/-- A map has no value for a name without an entry. -/
theorem lookup_eq_none {name : RegName} {entries : List (RegName × UInt32)} :
    entries.lookup name = none ↔ name ∉ entries.map Prod.fst := by
  rw [List.lookup_eq_none_iff, List.mem_map]
  constructor
  · rintro h ⟨e, he, rfl⟩
    simpa using h e he
  · intro h e he
    rw [bne_iff_ne]
    exact fun heq => h ⟨e, he, heq.symm⟩

/-- A name stands for what it is in the first of the four classes that has it. -/
theorem resolve_cases (s : Storage) (name : RegName) :
    (∃ offset, s.slots.lookup name = some offset ∧ s.resolve name = .slot name offset) ∨
    (∃ index, s.slots.lookup name = none ∧ s.arguments.lookup name = some index ∧
      s.resolve name = .argument index) ∨
    (∃ index, s.slots.lookup name = none ∧ s.arguments.lookup name = none ∧
      s.pointers.lookup name = some index ∧ s.resolve name = .pointer index) ∨
    (∃ index, s.slots.lookup name = none ∧ s.arguments.lookup name = none ∧
      s.pointers.lookup name = none ∧ s.generals.lookup name = some index ∧
      s.resolve name = .general index) ∨
    (name ∉ s.names ∧ s.resolve name = .reg name) := by
  rw [resolve]
  split
  next h₁ => exact .inl ⟨_, h₁, rfl⟩
  next h₁ h₂ => exact .inr (.inl ⟨_, h₁, h₂, rfl⟩)
  next h₁ h₂ h₃ => exact .inr (.inr (.inl ⟨_, h₁, h₂, h₃, rfl⟩))
  next h₁ h₂ h₃ h₄ => exact .inr (.inr (.inr (.inl ⟨_, h₁, h₂, h₃, h₄, rfl⟩)))
  next h₁ h₂ h₃ h₄ =>
    refine .inr (.inr (.inr (.inr ⟨?_, rfl⟩)))
    rw [lookup_eq_none] at h₁ h₂ h₃ h₄
    simp only [names, List.map_append, List.mem_append, not_or]
    exact ⟨⟨⟨h₁, h₂⟩, h₃⟩, h₄⟩

/-- A name with a value in a map has an entry there. -/
theorem mem_keys_of_lookup {name : RegName} {index : UInt32}
    {entries : List (RegName × UInt32)} (h : entries.lookup name = some index) :
    name ∈ entries.map Prod.fst := by
  by_contra hmem
  rw [lookup_eq_none.mpr hmem] at h
  cases h

/-- A name is replaced exactly when it is known. -/
theorem isReg_resolve {s : Storage} {name : RegName} :
    (s.resolve name).isReg = false ↔ name ∈ s.names := by
  simp only [names, List.map_append, List.mem_append]
  obtain ⟨_, h, hres⟩ | ⟨_, -, h, hres⟩ | ⟨_, -, -, h, hres⟩ | ⟨_, -, -, -, h, hres⟩ | ⟨h, hres⟩ :=
    s.resolve_cases name
  · simp [hres, Operand.isReg, Operand.reg?, mem_keys_of_lookup h]
  · simp [hres, Operand.isReg, Operand.reg?, mem_keys_of_lookup h]
  · simp [hres, Operand.isReg, Operand.reg?, mem_keys_of_lookup h]
  · simp [hres, Operand.isReg, Operand.reg?, mem_keys_of_lookup h]
  · simp only [names, List.map_append, List.mem_append] at h
    simp only [hres, Operand.isReg, Operand.reg?, Option.isSome_some, h, reduceCtorEq]

/-- Replacing an operand leaves a register only if it is an unknown one. -/
theorem isReg_rename {s : Storage} {op : Operand} :
    (s.rename op).isReg = false ↔ ∀ name, op = .reg name → name ∈ s.names := by
  cases op with
  | reg name => simp [rename, isReg_resolve]
  | _ => simp [rename, Operand.isReg, Operand.reg?]

/-- At the start the arguments are known. -/
theorem mem_names_ofArgs {args : List (Ty × RegName)} {name : RegName} :
    name ∈ (ofArgs args).names ↔ name ∈ args.map Prod.snd := by
  have hkeys : (args.mapIdx fun i arg => (arg.2, UInt32.ofNat i)).map Prod.fst =
      args.map Prod.snd := by
    apply List.ext_getElem?
    intro n
    simp [Function.comp_def]
  simp [names, ofArgs, hkeys]

/-- A release does not change which names are known. -/
theorem names_released (s : Storage) (op : Opcode) : (s.released op).names = s.names := by
  rw [released]
  split <;> rfl

variable {s s' t : Storage} {i i' : Instruction} {name : RegName}

/-- Placing a destination makes its name known, and no other. -/
theorem Places.mem_names {dest : Option Operand} (h : s.Places i s' dest) :
    name ∈ s'.names ↔ name ∈ s.names ∨ i.result? = some name := by
  cases h with
  | slot hop hdest _ | pointer hop hdest _ | general hop hdest _ =>
      rw [Instruction.result?_eq_some (by rw [hop]; rfl) hdest]
      simp only [names, List.map_append, List.map_cons, List.mem_append, List.mem_cons,
        Option.some.injEq]
      tauto
  | kept h => simp [names_released, Instruction.result?_eq_none h]

/-- **Known names.** After a run the arguments are known and the results so far. -/
theorem mem_names_assignAll {args : List (Ty × RegName)} {is js : List Instruction}
    (h : (ofArgs args).assignAll is = .ok (t, js)) :
    name ∈ t.names ↔ name ∈ args.map Prod.snd ∨ ∃ i ∈ is, i.result? = some name := by
  refine assignAll_induction
    (P := fun is _ r => name ∈ r.names ↔ name ∈ args.map Prod.snd ∨ ∃ i ∈ is, i.result? = some name)
    ?_ ?_ h
  · simp [mem_names_ofArgs]
  · intro is js r i r' i' _ ih hi
    obtain ⟨dest, hplaces, -⟩ := assign_eq_ok_iff.mp hi
    rw [hplaces.mem_names, ih]
    simp only [List.mem_append, List.mem_singleton, or_and_right, exists_or, exists_eq_left,
      or_assoc]

end Storage

/-! ### Resolvable instructions -/

/-- `i.Resolvable known`: no register is left in `i` once storage has been assigned, if the
names in `known` stand for something before it. -/
structure Instruction.Resolvable (i : Instruction) (known : RegName → Prop) : Prop where
  /-- A destination register needs an opcode with a result. -/
  dest : ∀ name, i.defines? = some name → i.opcode.place?.isSome
  /-- A source is known before, or is the destination of the instruction itself. -/
  sources : ∀ name, .reg name ∈ i.sources →
    i.opcode ≠ .alloca ∧ (known name ∨ i.defines? = some name)
  /-- A call argument is known before. -/
  args : ∀ name, .reg name ∈ i.args → i.opcode = .call ∧ known name

namespace Instruction.Resolvable

variable {i : Instruction} {known known' : RegName → Prop}

/-- More names resolve more instructions. -/
theorem mono (h : i.Resolvable known) (hsub : ∀ name, known name → known' name) :
    i.Resolvable known' where
  dest := h.dest
  sources name hname := ⟨(h.sources name hname).1, (h.sources name hname).2.imp_left (hsub name)⟩
  args name hname := ⟨(h.args name hname).1, hsub name (h.args name hname).2⟩

/-- Every destination register of a resolvable instruction gets a place. -/
theorem result?_eq (h : i.Resolvable known) : i.result? = i.defines? := by
  rw [Instruction.result?]
  cases hname : i.defines? with
  | none => simp
  | some name => simp [h.dest name hname]

end Instruction.Resolvable

namespace Storage

variable {s s' : Storage} {i i' : Instruction}

/-- A destination is left only if it is a register without a place. -/
theorem Places.isReg_dest {dest : Option Operand} (h : s.Places i s' dest) :
    (∀ op ∈ dest.toList, op.isReg = false) ↔
      ∀ name, i.defines? = some name → i.opcode.place?.isSome := by
  cases h with
  | slot hop _ _ | pointer hop _ _ => simp [hop, Opcode.place?, Operand.isReg, Operand.reg?]
  | general hop _ _ => simp [hop, Operand.isReg, Operand.reg?]
  | kept h =>
      obtain hplace | hnone := h
      · cases hdest : i.dest with
        | none => simp [Instruction.defines?, hdest]
        | some op =>
            cases op <;>
              simp [Instruction.defines?, hdest, hplace, Operand.isReg, Operand.reg?]
      · cases hdest : i.dest with
        | none => simp [hnone]
        | some op =>
            have hreg : op.reg? = none := by simpa [Instruction.defines?, hdest] using hnone
            simpa [hnone] using Operand.reg?_eq_none.mp hreg

/-- No operand is a register. -/
theorem forall_isReg_false {ops : List Operand} :
    (∀ x ∈ ops, x.isReg = false) ↔ ∀ name, .reg name ∉ ops := by
  constructor
  · intro h name hname
    cases h _ hname
  · intro h x hx
    cases x with
    | reg name => exact absurd hx (h name)
    | _ => rfl

/-- No register is left among operands whose registers are all known. -/
theorem forall_isReg_rename {ops : List Operand} :
    (∀ x ∈ ops.map s.rename, x.isReg = false) ↔ ∀ name, .reg name ∈ ops → name ∈ s.names := by
  rw [List.forall_mem_map]
  simp only [isReg_rename]
  constructor
  · intro h name hname
    exact h _ hname name rfl
  · rintro h x hx name rfl
    exact h name hx

/-- Sources are left only if they are unknown, or those of a variable. -/
theorem forall_isReg_sourceMap {op : Opcode} {ops : List Operand} :
    (∀ x ∈ ops.map (s.sourceMap op), x.isReg = false) ↔
      ∀ name, .reg name ∈ ops → op ≠ .alloca ∧ name ∈ s.names := by
  by_cases h : op = .alloca
  · simp [sourceMap, h, forall_isReg_false]
  · simp only [sourceMap, h, if_false, forall_isReg_rename, ne_eq, not_false_eq_true, true_and]

/-- Arguments are left only if they are unknown, or stand in another instruction than a call. -/
theorem forall_isReg_argMap {op : Opcode} {ops : List Operand} :
    (∀ x ∈ ops.map (s.argMap op), x.isReg = false) ↔
      ∀ name, .reg name ∈ ops → op = .call ∧ name ∈ s.names := by
  by_cases h : op = .call
  · simp only [argMap, h, if_true, forall_isReg_rename, true_and]
  · simp [argMap, h, forall_isReg_false]

/-- **One instruction.** No register is left in it exactly when it is resolvable from the
names known before. -/
theorem assign_resolved_iff (h : s.assign i = .ok (s', i')) :
    (∀ op ∈ i'.operands, op.isReg = false) ↔ i.Resolvable (· ∈ s.names) := by
  obtain ⟨dest, hplaces, rfl⟩ := assign_eq_ok_iff.mp h
  simp only [Instruction.operands, Instruction.dest_replace, Instruction.sources_replace,
    Instruction.args_replace, List.forall_mem_append, hplaces.isReg_dest,
    forall_isReg_sourceMap, forall_isReg_argMap, hplaces.mem_names]
  constructor
  · rintro ⟨⟨hdest, hsources⟩, hargs⟩
    refine ⟨hdest, fun name hname => ?_, hargs⟩
    obtain ⟨hop, hknown | hresult⟩ := hsources name hname
    · exact ⟨hop, .inl hknown⟩
    · exact ⟨hop, .inr (Instruction.defines?_of_result? hresult)⟩
  · intro hres
    refine ⟨⟨hres.dest, fun name hname => ?_⟩, hres.args⟩
    rw [hres.result?_eq]
    exact hres.sources name hname

end Storage

/-! ### Resolvable functions -/

namespace Func

/-- The register is an argument, or the destination of an instruction before position `n` in
layout order. -/
def DefinedBefore (f : Func) (n : Nat) (name : RegName) : Prop :=
  name ∈ f.args.map Prod.snd ∨ ∃ i ∈ f.instructions.take n, i.defines? = some name

instance (f : Func) (n : Nat) (name : RegName) : Decidable (f.DefinedBefore n name) :=
  inferInstanceAs (Decidable (_ ∨ _))

/-- Every register is defined once: the arguments and the destinations have names of their
own. -/
def DistinctNames (f : Func) : Prop :=
  (f.args.map Prod.snd ++ f.instructions.filterMap Instruction.defines?).Nodup

instance (f : Func) : Decidable f.DistinctNames :=
  inferInstanceAs (Decidable (List.Nodup _))

/-- A register is not defined before its definition. -/
theorem DistinctNames.not_definedBefore {f : Func} {n : Nat} {i : Instruction} {name : RegName}
    (h : f.DistinctNames) (hi : f.instructions[n]? = some i) (hname : i.defines? = some name) :
    ¬ f.DefinedBefore n name := by
  rw [DistinctNames, ← take_append_cons_drop hi, List.filterMap_append,
    List.filterMap_cons_some hname, ← List.append_assoc, List.nodup_append] at h
  rintro (harg | ⟨j, hj, hdefines⟩)
  · exact h.2.2 name (List.mem_append_left _ harg) name List.mem_cons_self rfl
  · refine h.2.2 name (List.mem_append_right _ ?_) name List.mem_cons_self rfl
    exact List.mem_filterMap.mpr ⟨j, hj, hdefines⟩

/-- Every instruction is resolvable from the registers defined before it. -/
def Resolvable (f : Func) : Prop :=
  ∀ (n : Nat) (i : Instruction), f.instructions[n]? = some i → i.Resolvable (f.DefinedBefore n)

variable {f : Func} {s : Storage} {js : List Instruction}

/-- What is known at a point has been defined before it. -/
theorem definedBefore_of_mem_names {n : Nat} {name : RegName}
    (h : (Storage.ofArgs f.args).assignAll (f.instructions.take n) = .ok (s, js))
    (hname : name ∈ s.names) : f.DefinedBefore n name := by
  obtain harg | ⟨j, hj, hresult⟩ := (Storage.mem_names_assignAll h).mp hname
  · exact .inl harg
  · exact .inr ⟨j, hj, Instruction.defines?_of_result? hresult⟩

/-- In a resolvable function every destination is a result. -/
theorem Resolvable.result?_eq {i : Instruction} (h : f.Resolvable) (hi : i ∈ f.instructions) :
    i.result? = i.defines? := by
  obtain ⟨n, hn⟩ := List.getElem?_of_mem hi
  exact (h n i hn).result?_eq

/-- In a resolvable function what has been defined before a point is known there. -/
theorem Resolvable.mem_names {n : Nat} {name : RegName} (hres : f.Resolvable)
    (h : (Storage.ofArgs f.args).assignAll (f.instructions.take n) = .ok (s, js))
    (hname : f.DefinedBefore n name) : name ∈ s.names := by
  rw [Storage.mem_names_assignAll h]
  obtain harg | ⟨j, hj, hdefines⟩ := hname
  · exact .inl harg
  · exact .inr ⟨j, hj, (hres.result?_eq (List.mem_of_mem_take hj)).trans hdefines⟩

/-- **Whole functions.** No register is left exactly when the function is resolvable. -/
theorem resolved_iff (h : (Storage.ofArgs f.args).assignAll f.instructions = .ok (s, js)) :
    (∀ j ∈ js, ∀ op ∈ j.operands, op.isReg = false) ↔ f.Resolvable := by
  constructor
  · intro hall n i hi
    obtain ⟨r, r', i', hpre, hi', hn⟩ := Storage.assignAll_at h hi
    have hres := (Storage.assign_resolved_iff hi').mp (hall i' (List.mem_of_getElem? hn))
    exact hres.mono fun name => definedBefore_of_mem_names hpre
  · intro hres j hj
    obtain ⟨n, hn⟩ := List.getElem?_of_mem hj
    obtain ⟨i, r, r', hi, hpre, hassign⟩ := Storage.assignAll_at_result h hn
    refine (Storage.assign_resolved_iff hassign).mpr ((hres n i hi).mono fun name => ?_)
    exact hres.mem_names hpre

/-- A function that is accepted is resolvable. -/
theorem resolvable_of_lower {g : Func} (h : f.lower = .ok g) : f.Resolvable := by
  obtain ⟨s, blocks, hassign, rfl, hnone⟩ := Func.lower_eq_ok_iff.mp h
  have hflat := Storage.assignBlocks_flatten hassign
  exact (resolved_iff hflat).mp (Func.firstReg?_eq_none_iff.mp hnone)

/-- A function that is resolvable is accepted, if its counters fit. -/
theorem exists_lower (hfits : f.Fits) (hres : f.Resolvable) : ∃ g, f.lower = .ok g := by
  obtain ⟨s, js, hall⟩ := Storage.exists_assignAll (s := Storage.ofArgs f.args) hfits
  obtain ⟨blocks, hassign⟩ := Storage.exists_assignBlocks hall
  refine ⟨_, Func.lower_eq_ok_iff.mpr ⟨s, blocks, hassign, rfl, ?_⟩⟩
  have hflat := Storage.assignBlocks_flatten hassign
  exact Func.firstReg?_eq_none_iff.mpr ((resolved_iff hflat).mpr hres)

end Func

/-! ### Reads of an accepted module -/

/-- A module is accepted if its functions are resolvable and their counters fit. -/
theorem Module.exists_lower_of_resolvable {m : Module} (hm : m.lowered = false)
    (h : ∀ f ∈ m.functions, f.isExternal = false → f.Resolvable ∧ f.Fits) :
    ∃ m', m.lower = .ok m' := by
  refine Module.exists_lower hm fun f hf => ?_
  cases hbody : f.isExternal with
  | true => exact ⟨f, by simp [Func.lowerBody, hbody, pure, Except.pure]⟩
  | false =>
      obtain ⟨hres, hfits⟩ := h f hf hbody
      rw [Func.lowerBody_eq_lower hbody]
      exact Func.exists_lower hfits hres

/-- **Reads.** In an accepted module every register among the arguments of a call is an
argument of the function or the destination of an earlier instruction. A source is one of
these, or it is the destination of the very instruction that reads it. This is exact: being
resolvable in this sense is enough to be accepted, if the counters fit. -/
theorem Module.reads_defined_or_own_dest {m : Module} (hm : m.lowered = false) :
    (∀ m', m.lower = .ok m' → ∀ f ∈ m.functions, f.isExternal = false →
      ∀ (n : Nat) (i : Instruction), f.instructions[n]? = some i → ∀ name,
        (.reg name ∈ i.args → f.DefinedBefore n name) ∧
        (.reg name ∈ i.sources → f.DefinedBefore n name ∨ i.dest = some (.reg name))) ∧
    ((∀ f ∈ m.functions, f.isExternal = false → f.Resolvable ∧ f.Fits) →
      ∃ m', m.lower = .ok m') := by
  refine ⟨fun m' h f hf hbody n i hi name => ?_, Module.exists_lower_of_resolvable hm⟩
  obtain ⟨k, hk⟩ := List.getElem?_of_mem hf
  obtain ⟨g, -, hlower⟩ := Module.exists_function_at h hk
  rw [Func.lowerBody_eq_lower hbody] at hlower
  have hres := Func.resolvable_of_lower hlower n i hi
  refine ⟨fun hname => (hres.args name hname).2, fun hname => ?_⟩
  rw [← Instruction.defines?_eq_some]
  exact (hres.sources name hname).2

/-- A module whose function returns the sum of one and that sum: its first instruction reads
the register that it defines. -/
def ownSource : Module where
  name := "own"
  functions := [{
    name := "main"
    linkage := .exported
    returnType := .i32
    nextBlockId := 2
    blocks := [{
      name := "entry"
      id := 1
      instructions := [
        { opcode := .arith .add, dataType := .i32, dest := some (.reg (.num 0)),
          src1 := some (.reg (.num 0)), src2 := some (.imm 1) },
        { opcode := .ret, dataType := .i32, src1 := some (.reg (.num 0)) }] }] }]

/-- A register that is defined nowhere before can be read in an accepted module. -/
theorem undefined_read_accepted :
    (∃ m', ownSource.lower = .ok m') ∧
    ∃ f ∈ ownSource.functions, f.isExternal = false ∧ ∃ i, f.instructions[0]? = some i ∧
      .reg (.num 0) ∈ i.reads ∧ ¬ f.DefinedBefore 0 (.num 0) := by
  refine ⟨⟨_, rfl⟩, _, List.mem_singleton_self _, rfl, _, rfl, ?_, ?_⟩
  · decide
  · decide

/-- The second instruction of that module reads a register that is defined, the first one
only its own destination. -/
theorem ownSource_reads :
    ∃ f ∈ ownSource.functions, f.isExternal = false ∧
      (∃ i, f.instructions[0]? = some i ∧ .reg (.num 0) ∈ i.sources ∧
        (f.DefinedBefore 0 (.num 0) ∨ i.dest = some (.reg (.num 0)))) ∧
      ∃ i, f.instructions[1]? = some i ∧ .reg (.num 0) ∈ i.sources ∧
        (f.DefinedBefore 1 (.num 0) ∨ i.dest = some (.reg (.num 0))) := by
  obtain ⟨m', hm⟩ : ∃ m', ownSource.lower = .ok m' := ⟨_, rfl⟩
  have hf : ownSource.functions[0] ∈ ownSource.functions := List.mem_singleton_self _
  refine ⟨_, hf, rfl, ⟨_, rfl, by decide, ?_⟩, _, rfl, by decide, ?_⟩
  · exact ((Module.reads_defined_or_own_dest rfl).1 m' hm _ hf rfl 0 _ rfl _).2 (by decide)
  · exact ((Module.reads_defined_or_own_dest rfl).1 m' hm _ hf rfl 1 _ rfl _).2 (by decide)

/-! ### Acceptance and rejection -/

/-- A function in which every register has a definition before it is used, and every
definition an opcode with a result. -/
structure Func.WellDefined (f : Func) : Prop where
  /-- A destination register stands on an opcode with a result. -/
  dests : ∀ i ∈ f.instructions, ∀ name, i.dest = some (.reg name) → i.opcode.place?.isSome
  /-- A variable has no register sources. -/
  slots : ∀ i ∈ f.instructions, i.opcode = .alloca → ∀ name, .reg name ∉ i.sources
  /-- Only a call has a callee and arguments. -/
  calls : ∀ i ∈ f.instructions, i.call.isSome → i.opcode = .call
  /-- What is read has been defined. -/
  reads : ∀ (n : Nat) (i : Instruction), f.instructions[n]? = some i →
    ∀ name, .reg name ∈ i.reads → f.DefinedBefore n name

/-- Well-definedness, operand by operand. -/
theorem Func.wellDefined_iff {f : Func} :
    f.WellDefined ↔
      (∀ i ∈ f.instructions, ∀ name ∈ i.defines?, i.opcode.place?.isSome) ∧
      (∀ i ∈ f.instructions, i.opcode = .alloca → ∀ op ∈ i.sources, op.isReg = false) ∧
      (∀ i ∈ f.instructions, i.call.isSome → i.opcode = .call) ∧
      ∀ p ∈ f.instructions.zipIdx, ∀ op ∈ p.1.reads, ∀ name ∈ op.reg?,
        f.DefinedBefore p.2 name := by
  simp only [Option.mem_def, Instruction.defines?_eq_some, Storage.forall_isReg_false,
    Operand.reg?_eq_some, Prod.forall, List.mem_zipIdx_iff_getElem?]
  constructor
  · rintro ⟨hdests, hslots, hcalls, hreads⟩
    refine ⟨hdests, hslots, hcalls, ?_⟩
    rintro i n hi op hop name rfl
    exact hreads n i hi name hop
  · rintro ⟨hdests, hslots, hcalls, hreads⟩
    exact ⟨hdests, hslots, hcalls, fun n i hi name hname => hreads i n hi _ hname name rfl⟩

instance (f : Func) : Decidable f.WellDefined :=
  decidable_of_iff' _ Func.wellDefined_iff

/-- A well-defined function is resolvable. -/
theorem Func.WellDefined.resolvable {f : Func} (h : f.WellDefined) : f.Resolvable := by
  intro n i hi
  have hmem := List.mem_of_getElem? hi
  refine ⟨fun name hname => ?_, fun name hname => ⟨fun hop => ?_, ?_⟩, fun name hname => ⟨?_, ?_⟩⟩
  · exact h.dests i hmem name (Instruction.defines?_eq_some.mp hname)
  · exact h.slots i hmem hop name hname
  · exact .inl (h.reads n i hi name (List.mem_append_left _ hname))
  · apply h.calls i hmem
    by_contra hnone
    rw [Option.not_isSome_iff_eq_none] at hnone
    simp [Instruction.args, hnone] at hname
  · exact h.reads n i hi name (List.mem_append_right _ hname)

/-- A function is rejected for the first register that is left, in the order of its blocks
and of the operands in them. -/
theorem Func.lower_eq_unresolved {f : Func} {function block : String} {reg : RegName}
    (h : f.lower = .error (.error (.unresolvedRegister function block reg))) :
    f.name = function ∧
      ∃ s blocks, (Storage.ofArgs f.args).assignBlocks f.blocks = .ok (s, blocks) ∧
        blocks.map Block.name = f.blocks.map Block.name ∧
        ∃ bs b bs', blocks = bs ++ b :: bs' ∧ b.name = block ∧
          (∀ c ∈ bs, ∀ op ∈ c.operands, op.isReg = false) ∧
          ∃ ops ops', b.operands = ops ++ .reg reg :: ops' ∧ ∀ op ∈ ops, op.isReg = false := by
  obtain ⟨s, blocks, b, reg', hassign, hfirst, herr⟩ := Func.lower_eq_error_iff.mp h
  obtain ⟨rfl, rfl, rfl⟩ := LowerError.unresolvedRegister.inj herr
  obtain ⟨bs, bs', hblocks, hreg, hbs⟩ := Func.firstReg?_eq_some_iff.mp hfirst
  obtain ⟨ops, ops', hops, hnone⟩ := Block.firstReg?_eq_some_iff.mp hreg
  refine ⟨rfl, s, blocks, hassign, Storage.map_name_assignBlocks hassign, bs, b, bs', hblocks, rfl,
    fun c hc => ?_, ops, ops', hops, hnone⟩
  exact Block.firstReg?_eq_none_iff.mp (hbs c hc)

/-- **Acceptance and rejection.** A module that is not lowered yet is accepted if its
functions are well-defined and their counters fit. If it is rejected for a register, the
functions before the reported one are accepted, its blocks before the reported one have no
register left, and the register is the first that is left there. -/
theorem Module.lower_complete_and_error_exact {m : Module} (hm : m.lowered = false) :
    ((∀ f ∈ m.functions, f.isExternal = false → f.WellDefined ∧ f.Fits) →
      ∃ m', m.lower = .ok m') ∧
    ∀ function block reg,
      m.lower = .error (.error (.unresolvedRegister function block reg)) →
      ∃ before f after, m.functions = before ++ f :: after ∧ f.name = function ∧
        f.isExternal = false ∧ (∀ g ∈ before, g.isExternal = false → ∃ g', g.lower = .ok g') ∧
        ∃ s blocks, (Storage.ofArgs f.args).assignBlocks f.blocks = .ok (s, blocks) ∧
          blocks.map Block.name = f.blocks.map Block.name ∧
          ∃ bs b bs', blocks = bs ++ b :: bs' ∧ b.name = block ∧
            (∀ c ∈ bs, ∀ op ∈ c.operands, op.isReg = false) ∧
            ∃ ops ops', b.operands = ops ++ .reg reg :: ops' ∧
              ∀ op ∈ ops, op.isReg = false := by
  constructor
  · intro h
    refine Module.exists_lower_of_resolvable hm fun f hf hbody => ?_
    obtain ⟨hdefined, hfits⟩ := h f hf hbody
    exact ⟨hdefined.resolvable, hfits⟩
  · intro function block reg herr
    obtain ⟨before, f, after, heq, hbefore, hf⟩ := (Module.lower_eq_error_iff hm).mp herr
    cases hbody : f.isExternal with
    | true => simp [Func.lowerBody, hbody, pure, Except.pure] at hf
    | false =>
        rw [Func.lowerBody_eq_lower hbody] at hf
        obtain ⟨hname, hleft⟩ := Func.lower_eq_unresolved hf
        refine ⟨before, f, after, heq, hname, hbody, fun g hg hgbody => ?_, hleft⟩
        rw [← Func.lowerBody_eq_lower hgbody]
        exact hbefore g hg

/-- A declaration and a function of two blocks that keeps its argument in a variable, passes
the variable's value on, and adds one to the register `source`. -/
def passAndAdd (source : RegName) : Module where
  name := "pass"
  functions := [
    { name := "f", linkage := .external, returnType := .i32 },
    { name := "main"
      linkage := .exported
      returnType := .i32
      args := [(.i32, .named "n")]
      nextBlockId := 3
      blocks := [
        { name := "entry", id := 1, instructions := [
            { opcode := .alloca, dataType := .i32, dest := some (.reg (.num 0)) },
            { opcode := .store, dataType := .i32, src1 := some (.reg (.named "n")),
              src2 := some (.reg (.num 0)) },
            { opcode := .load, dataType := .i32, dest := some (.reg (.num 1)),
              src1 := some (.reg (.num 0)) },
            { opcode := .call, dataType := .i32, dest := some (.reg (.num 2)),
              call := some { callee := "f", args := [.reg (.num 1)] } }] },
        { name := "exit", id := 2, instructions := [
            { opcode := .arith .add, dataType := .i32, dest := some (.reg (.num 3)),
              src1 := some (.reg source), src2 := some (.imm 1) },
            { opcode := .ret, dataType := .i32, src1 := some (.reg (.num 3)) }] }] }]

/-- Adding to the result of the call is accepted. Adding to a register without a definition
is reported in the second block. -/
theorem passAndAdd_accepted_and_reported :
    (∃ m', (passAndAdd (.num 2)).lower = .ok m') ∧
    ∃ before f after, (passAndAdd (.num 5)).functions = before ++ f :: after ∧
      f.name = "main" ∧ f.isExternal = false ∧
      (∀ g ∈ before, g.isExternal = false → ∃ g', g.lower = .ok g') ∧
      ∃ s blocks, (Storage.ofArgs f.args).assignBlocks f.blocks = .ok (s, blocks) ∧
        blocks.map Block.name = f.blocks.map Block.name ∧
        ∃ bs b bs', blocks = bs ++ b :: bs' ∧ b.name = "exit" ∧
          (∀ c ∈ bs, ∀ op ∈ c.operands, op.isReg = false) ∧
          ∃ ops ops', b.operands = ops ++ .reg (.num 5) :: ops' ∧
            ∀ op ∈ ops, op.isReg = false := by
  constructor
  · exact (Module.lower_complete_and_error_exact rfl).1 (by decide)
  · exact (Module.lower_complete_and_error_exact rfl).2 _ _ _ rfl

end RegIR
