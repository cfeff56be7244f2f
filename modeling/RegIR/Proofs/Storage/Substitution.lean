import RegIR.Proofs.Storage.Faithful

/-!
# Lowering is a substitution

Assigning storage changes nothing of a module but its virtual registers: code keeps its
shape, its constants, labels and strings, and whatever names hardware already. A register
becomes a place that the function has, and where every register is defined once, all of its
uses become the place of its definition.

## Main results

* `Instruction.matches_replace`: replacing operands keeps the shape of an instruction.
* `Storage.matches_assignAll`: a run replaces registers by places, and nothing else.
* `Storage.resolve_assignAll`: a name keeps its place until it is defined again.
* `Func.lowers_of_lower`, `Func.consistent_of_lower`: both facts for a whole function.
* `Module.lower_substitutes`: what lowering keeps of a module, and what it replaces.
-/

namespace RegIR

/-! ### Code of the same shape -/

/-- Calls of one callee, with related arguments in order. -/
structure Call.Matches (R : Operand → Operand → Prop) (c d : Call) : Prop where
  callee : d.callee = c.callee
  args : List.Forall₂ R c.args d.args

/-- `i.Matches D R j`: the instructions have the same shape, with destinations that are
related by `D` and sources and call arguments that are related by `R`. -/
structure Instruction.Matches (D R : Operand → Operand → Prop) (i j : Instruction) : Prop where
  opcode : j.opcode = i.opcode
  dataType : j.dataType = i.dataType
  dest : Option.Rel D i.dest j.dest
  src1 : Option.Rel R i.src1 j.src1
  src2 : Option.Rel R i.src2 j.src2
  src3 : Option.Rel R i.src3 j.src3
  call : Option.Rel (Call.Matches R) i.call j.call

/-- Blocks of one name and number, with instructions that match in order. -/
structure Block.Matches (R : Operand → Operand → Prop) (b c : Block) : Prop where
  name : c.name = b.name
  id : c.id = b.id
  instructions : List.Forall₂ (Instruction.Matches R R) b.instructions c.instructions

/-- Something is related to what it is mapped to, if it is there. -/
theorem optionRel_map {α β : Type} {R : α → β → Prop} {φ : α → β} {o : Option α}
    (h : ∀ a ∈ o, R a (φ a)) : Option.Rel R o (o.map φ) := by
  cases o with
  | none => exact .none
  | some a => exact .some (h a rfl)

/-- Options that are related are related more weakly. -/
theorem optionRel_mono {α β : Type} {R S : α → β → Prop} {o : Option α} {o' : Option β}
    (himp : ∀ {a b}, R a b → S a b) (h : Option.Rel R o o') : Option.Rel S o o' := by
  cases h with
  | none => exact .none
  | some hab => exact .some (himp hab)

/-- Options that are related are related as lists. -/
theorem forall₂_toList {α β : Type} {R : α → β → Prop} {o : Option α} {o' : Option β}
    (h : Option.Rel R o o') : List.Forall₂ R o.toList o'.toList := by
  cases h with
  | none => exact .nil
  | some hab => exact .cons hab .nil

namespace Instruction

variable {i j : Instruction} {D R D' R' : Operand → Operand → Prop} {dest : Option Operand}
  {source arg : Operand → Operand}

/-- Replacing operands by related ones keeps the shape of an instruction. -/
theorem matches_replace (hdest : Option.Rel D i.dest dest)
    (hsources : ∀ op ∈ i.sources, R op (source op)) (hargs : ∀ op ∈ i.args, R op (arg op)) :
    i.Matches D R (i.replace dest source arg) := by
  simp only [sources, List.forall_mem_append, Option.mem_toList] at hsources
  refine ⟨rfl, rfl, hdest, optionRel_map hsources.1.1, optionRel_map hsources.1.2,
    optionRel_map hsources.2, optionRel_map fun c hc => ⟨rfl, ?_⟩⟩
  have hargs' : ∀ op ∈ c.args, R op (arg op) := by
    simpa [args, Option.mem_def.mp hc] using hargs
  exact List.forall₂_map_right_iff.mpr (List.forall₂_same.mpr hargs')

/-- Weaker relations. -/
theorem Matches.mono (h : i.Matches D R j) (hD : ∀ {x y}, D x y → D' x y)
    (hR : ∀ {x y}, R x y → R' x y) : i.Matches D' R' j := by
  refine ⟨h.opcode, h.dataType, optionRel_mono hD h.dest, optionRel_mono hR h.src1,
    optionRel_mono hR h.src2, optionRel_mono hR h.src3,
    optionRel_mono (fun hcall => ⟨hcall.callee, ?_⟩) h.call⟩
  exact hcall.args.imp fun _ _ => hR

/-- Instructions that match have related operands, in order. -/
theorem Matches.operands (h : i.Matches R R j) : List.Forall₂ R i.operands j.operands := by
  have hargs : List.Forall₂ R i.args j.args := by
    have hcall := h.call
    rw [args, args]
    generalize i.call = c at hcall ⊢
    generalize j.call = d at hcall ⊢
    cases hcall with
    | none => exact .nil
    | some hcall => exact hcall.args
  have hsources : List.Forall₂ R i.sources j.sources :=
    List.rel_append (List.rel_append (forall₂_toList h.src1) (forall₂_toList h.src2))
      (forall₂_toList h.src3)
  exact List.rel_append (List.rel_append (forall₂_toList h.dest) hsources) hargs

end Instruction

/-! ### Places -/

/-- A place of a function with so many arguments and so many bytes of stack slots. -/
inductive Place (args size : Nat) : Operand → Prop
  | slot {name : RegName} {offset : UInt32} (h : offset.toNat ≤ size) :
      Place args size (.slot name offset)
  | argument {k : Nat} (h : k < args) : Place args size (.argument (UInt32.ofNat k))
  | pointer (index : UInt32) : Place args size (.pointer index)
  | general (index : UInt32) : Place args size (.general index)

/-- `Substituted args size op op'`: a register becomes a place, anything else stays. -/
inductive Substituted (args size : Nat) : Operand → Operand → Prop
  | kept {op : Operand} (h : op.isReg = false) : Substituted args size op op
  | placed {name : RegName} {op : Operand} (h : Place args size op) :
      Substituted args size (.reg name) op

/-- With more bytes of slots there are more places. -/
theorem Substituted.mono {args size size' : Nat} {op op' : Operand} (hsize : size ≤ size')
    (h : Substituted args size op op') : Substituted args size' op op' := by
  cases h with
  | kept h => exact .kept h
  | placed h =>
      cases h with
      | slot h => exact .placed (.slot (Nat.le_trans h hsize))
      | argument h => exact .placed (.argument h)
      | pointer index => exact .placed (.pointer index)
      | general index => exact .placed (.general index)

namespace Storage

variable {s s' t : Storage} {i i' : Instruction} {dest : Option Operand} {op : Operand}
  {name : RegName} {args : List (Ty × RegName)} {is js : List Instruction}

/-- The arguments stay where they are. -/
theorem Places.arguments_eq (h : s.Places i s' dest) : s'.arguments = s.arguments := by
  cases h with
  | slot _ _ _ | pointer _ _ _ | general _ _ _ => rfl
  | kept _ =>
      rw [released]
      split <;> rfl

/-- The arguments stay where they are, along a run. -/
theorem arguments_assignAll (h : s.assignAll is = .ok (t, js)) : t.arguments = s.arguments := by
  refine assignAll_induction (P := fun _ _ r => r.arguments = s.arguments) rfl ?_ h
  intro is js r i r' i' _ ih hi
  obtain ⟨dest, hplaces, -⟩ := assign_eq_ok_iff.mp hi
  exact hplaces.arguments_eq.trans ih

/-- An argument is numbered by its position. -/
theorem mem_arguments_ofArgs {e : RegName × UInt32} (h : e ∈ (ofArgs args).arguments) :
    ∃ k < args.length, e.2 = UInt32.ofNat k := by
  rw [ofArgs, List.mem_reverse, List.mem_mapIdx] at h
  obtain ⟨k, hk, rfl⟩ := h
  exact ⟨k, hk, rfl⟩

/-- A name that is replaced becomes a place. -/
theorem place_resolve (hs : s.Bounded) (hargs : s.arguments = (ofArgs args).arguments)
    (h : (s.resolve name).isReg = false) :
    Place args.length s.offset.toNat (s.resolve name) := by
  obtain ⟨offset, hslot, hres⟩ | ⟨index, -, harg, hres⟩ | ⟨index, -, -, -, hres⟩ |
    ⟨index, -, -, -, -, hres⟩ | ⟨-, hres⟩ := s.resolve_cases name
  · rw [hres]
    exact .slot (hs.slots _ (mem_of_lookup hslot))
  · rw [hargs] at harg
    obtain ⟨k, hk, rfl⟩ := mem_arguments_ofArgs (mem_of_lookup harg)
    rw [hres]
    exact .argument hk
  · rw [hres]
    exact .pointer index
  · rw [hres]
    exact .general index
  · rw [hres] at h
    cases h

/-- An operand that is renamed without a register being left is substituted. -/
theorem substituted_rename (hs : s.Bounded) (hargs : s.arguments = (ofArgs args).arguments)
    (h : (s.rename op).isReg = false) :
    Substituted args.length s.offset.toNat op (s.rename op) := by
  cases op with
  | reg name => exact .placed (place_resolve hs hargs h)
  | _ => exact .kept rfl

/-- A destination that is placed without a register being left is substituted. -/
theorem Places.substituted (h : s.Places i s' dest)
    (hleft : ∀ op ∈ dest.toList, op.isReg = false) :
    Option.Rel (Substituted args.length s'.offset.toNat) i.dest dest := by
  cases h with
  | slot _ hdest _ =>
      rw [hdest]
      exact .some (.placed (.slot (Nat.le_refl _)))
  | pointer _ hdest _ =>
      rw [hdest]
      exact .some (.placed (.pointer _))
  | general _ hdest _ =>
      rw [hdest]
      exact .some (.placed (.general _))
  | kept _ =>
      cases hdest : i.dest with
      | none => exact .none
      | some op =>
          rw [hdest] at hleft
          exact .some (.kept (hleft op List.mem_cons_self))

/-- Bytes of stack slots are never given back. -/
theorem Places.offset_le (h : s.Places i s' dest) : s.offset.toNat ≤ s'.offset.toNat := by
  rw [h.offset_eq]
  exact Nat.le_add_right _ _

/-- **One instruction.** If no register is left in it, registers have been replaced by places
and nothing else has changed. -/
theorem matches_assign (hs : s.Bounded) (hargs : s.arguments = (ofArgs args).arguments)
    (h : s.assign i = .ok (s', i')) (hleft : ∀ op ∈ i'.operands, op.isReg = false) :
    i.Matches (Substituted args.length s'.offset.toNat)
      (Substituted args.length s'.offset.toNat) i' := by
  obtain ⟨dest, hplaces, rfl⟩ := assign_eq_ok_iff.mp h
  simp only [Instruction.operands, Instruction.dest_replace, Instruction.sources_replace,
    Instruction.args_replace, List.forall_mem_append, List.forall_mem_map] at hleft
  obtain ⟨⟨hdest, hsources⟩, hcall⟩ := hleft
  refine Instruction.matches_replace (hplaces.substituted hdest) (fun op hop => ?_)
    fun op hop => ?_
  · have hop' := hsources op hop
    by_cases halloca : i.opcode = .alloca
    · rw [sourceMap, if_pos halloca] at hop' ⊢
      exact .kept hop'
    · rw [sourceMap, if_neg halloca] at hop' ⊢
      exact substituted_rename (hs.places hplaces) (hplaces.arguments_eq.trans hargs) hop'
  · have hop' := hcall op hop
    by_cases hcalls : i.opcode = .call
    · rw [argMap, if_pos hcalls] at hop' ⊢
      exact (substituted_rename hs hargs hop').mono hplaces.offset_le
    · rw [argMap, if_neg hcalls] at hop' ⊢
      exact .kept hop'

/-- **A run.** If no register is left, registers have been replaced by places and nothing else
has changed. -/
theorem matches_assignAll (h : (ofArgs args).assignAll is = .ok (t, js))
    (hleft : ∀ j ∈ js, ∀ op ∈ j.operands, op.isReg = false) :
    List.Forall₂ (Instruction.Matches (Substituted args.length t.offset.toNat)
      (Substituted args.length t.offset.toNat)) is js := by
  revert hleft
  refine assignAll_induction (s := ofArgs args)
    (P := fun is js r => (∀ j ∈ js, ∀ op ∈ j.operands, op.isReg = false) →
      List.Forall₂ (Instruction.Matches (Substituted args.length r.offset.toNat)
        (Substituted args.length r.offset.toNat)) is js) (fun _ => .nil) ?_ h
  intro is js r i r' i' his ih hi hleft
  rw [List.forall_mem_append, List.forall_mem_singleton] at hleft
  obtain ⟨dest, hplaces, -⟩ := assign_eq_ok_iff.mp hi
  have hlast := matches_assign (bounded_assignAll his) (arguments_assignAll his) hi hleft.2
  refine List.rel_append ((ih hleft.1).imp fun j j' hj => ?_) (.cons hlast .nil)
  exact hj.mono (Substituted.mono hplaces.offset_le) (Substituted.mono hplaces.offset_le)

/-- Blocks keep their names and numbers, and their instructions match if those of the whole
function do. -/
theorem matches_assignBlocks {bs cs : List Block} {R : Operand → Operand → Prop}
    (h : s.assignBlocks bs = .ok (t, cs))
    (hmatch : List.Forall₂ (Instruction.Matches R R) (bs.flatMap Block.instructions)
      (cs.flatMap Block.instructions)) :
    List.Forall₂ (Block.Matches R) bs cs := by
  induction bs generalizing s cs with
  | nil =>
      obtain ⟨-, rfl⟩ := Prod.mk.inj (pure_eq_ok_iff.mp h)
      exact .nil
  | cons b bs ih =>
      obtain ⟨r, is, bs', hb, hbs, rfl⟩ := assignBlocks_cons_eq_ok_iff.mp h
      rw [List.flatMap_cons, List.flatMap_cons] at hmatch
      have hlen : is.length = b.instructions.length := length_assignAll hb
      have hfirst := List.forall₂_take_append _ _ _ hmatch
      have hrest := List.forall₂_drop_append _ _ _ hmatch
      rw [hlen, List.take_left] at hfirst
      rw [hlen, List.drop_left] at hrest
      exact .cons ⟨rfl, rfl, hfirst⟩ (ih hbs hrest)

/-! ### Uses and definitions -/

/-- **A name keeps its place** until it is defined again. -/
theorem resolve_assignAll (h : s.assignAll is = .ok (t, js))
    (hne : ∀ i ∈ is, i.defines? ≠ some name) : t.resolve name = s.resolve name := by
  revert hne
  refine assignAll_induction (P := fun is _ r => (∀ i ∈ is, i.defines? ≠ some name) →
    r.resolve name = s.resolve name) (fun _ => rfl) ?_ h
  intro is js r i r' i' _ ih hi hne
  rw [List.forall_mem_append, List.forall_mem_singleton] at hne
  obtain ⟨dest, hplaces, -⟩ := assign_eq_ok_iff.mp hi
  exact (hplaces.resolve_of_ne hne.2).trans (ih hne.1)

/-- At the start an argument stands for its number. -/
theorem resolve_ofArgs {k : Nat} {arg : Ty × RegName} (hk : args[k]? = some arg)
    (hdistinct : (args.map Prod.snd).Nodup) :
    (ofArgs args).resolve arg.2 = .argument (UInt32.ofNat k) := by
  obtain ⟨_, hslot, -⟩ | ⟨index, -, harg, hres⟩ | ⟨_, -, -, hpointer, -⟩ |
    ⟨_, -, -, -, hgeneral, -⟩ | ⟨hunknown, -⟩ := (ofArgs args).resolve_cases arg.2
  · cases hslot
  · have hmem := mem_of_lookup harg
    rw [ofArgs, List.mem_reverse, List.mem_mapIdx] at hmem
    obtain ⟨n, hn, heq⟩ := hmem
    obtain ⟨hname, rfl⟩ := Prod.mk.inj heq
    obtain ⟨hlt, rfl⟩ := List.getElem?_eq_some_iff.mp hk
    -- the same name at two positions is the same position
    have hsame : n = k := by
      refine (List.getElem?_inj (by simpa using hn) hdistinct).mp ?_
      simp [hn, hlt, hname]
    rw [hres, hsame]
  · cases hpointer
  · cases hgeneral
  · exact absurd (mem_names_ofArgs.mpr (List.mem_map_of_mem (List.mem_of_getElem? hk))) hunknown

/-- **A use becomes the place of its definition**, where the name is defined neither before
nor after it. -/
theorem resolve_of_defined {d : Instruction} {before after : List Instruction}
    (h : s.assignAll (before ++ d :: after) = .ok (t, js)) (hname : d.result? = some name)
    (hfresh : ∀ r is, s.assignAll before = .ok (r, is) → name ∉ r.names)
    (hafter : ∀ i ∈ after, i.defines? ≠ some name) :
    ∃ d', js[before.length]? = some d' ∧ d'.dest = some (t.resolve name) := by
  obtain ⟨r, js₁, _, hbefore, hrest, rfl⟩ := assignAll_append_eq_ok_iff.mp h
  obtain ⟨r', d', js₂, hd, hlast, rfl⟩ := assignAll_cons_eq_ok_iff.mp hrest
  obtain ⟨dest, hplaces, rfl⟩ := assign_eq_ok_iff.mp hd
  have hat : (js₁ ++ d.replace dest (r'.sourceMap d.opcode) (r.argMap d.opcode) ::
      js₂)[before.length]? = some (d.replace dest (r'.sourceMap d.opcode) (r.argMap d.opcode)) := by
    simp [← length_assignAll hbefore]
  refine ⟨_, hat, ?_⟩
  rw [Instruction.dest_replace, resolve_assignAll hlast hafter]
  exact hplaces.resolve_dest hname (hfresh r js₁ hbefore)

end Storage

/-! ### Functions -/

namespace Func

/-- `f.Lowers g`: the function `g` is `f` with places for its registers, and a stack size. -/
structure Lowers (f g : Func) : Prop where
  /-- Nothing but the blocks and the stack size has changed. -/
  rest : g = { f with blocks := g.blocks, stackSize := g.stackSize }
  blocks : List.Forall₂
    (Block.Matches (Substituted g.args.length g.stackSize.toNat)) f.blocks g.blocks
  /-- No register is left. -/
  placed : ∀ i ∈ g.instructions, ∀ op ∈ i.operands, op.isReg = false

/-- `f.ReadsAs g n op op'`: where the instruction at position `n` of `f` reads the register
`op`, the one of `g` reads `op'`, which replaces the destination of the instruction that
defines the register before, or numbers the argument that it is. -/
def ReadsAs (f g : Func) (n : Nat) (op op' : Operand) : Prop :=
  ∀ name, op = .reg name →
    (∀ (k : Nat) (d d' : Instruction), k < n → f.instructions[k]? = some d →
      g.instructions[k]? = some d' → d.dest = some (.reg name) → d'.dest = some op') ∧
    ∀ (k : Nat) (arg : Ty × RegName), f.args[k]? = some arg → arg.2 = name →
      op' = .argument (UInt32.ofNat k)

/-- Every use of a register in `f` has become the place of its definition in `g`. -/
def Consistent (f g : Func) : Prop :=
  ∀ (n : Nat) (i j : Instruction), f.instructions[n]? = some i → g.instructions[n]? = some j →
    i.Matches (fun _ _ => True) (f.ReadsAs g n) j

variable {f g : Func} {s t : Storage} {js : List Instruction} {n : Nat} {i : Instruction}
  {name : RegName}

/-- Lowering replaces registers by places, and nothing else. -/
theorem lowers_of_lower (h : f.lower = .ok g) : f.Lowers g := by
  obtain ⟨s, blocks, hassign, rfl, hnone⟩ := Func.lower_eq_ok_iff.mp h
  have hplaced := Func.firstReg?_eq_none_iff.mp hnone
  have hrun := Storage.assignBlocks_flatten hassign
  exact ⟨rfl, Storage.matches_assignBlocks hassign (Storage.matches_assignAll hrun hplaced),
    hplaced⟩

/-- An instruction of a lowered function matches one of the function before. -/
theorem Lowers.exists_matches (h : f.Lowers g) {j : Instruction} (hj : j ∈ g.instructions) :
    ∃ i ∈ f.instructions, i.Matches (Substituted g.args.length g.stackSize.toNat)
      (Substituted g.args.length g.stackSize.toNat) j := by
  have hall : List.Forall₂ (Instruction.Matches _ _) f.instructions g.instructions :=
    List.rel_flatMap h.blocks fun _ _ hb => hb.instructions
  obtain ⟨n, hn⟩ := List.getElem?_of_mem hj
  obtain ⟨i, hi, hmatch⟩ := exists_getElem?_of_forall₂ hall.flip hn
  exact ⟨i, List.mem_of_getElem? hi, hmatch⟩

/-- What names hardware in a lowered function is a place of it, if the function did not name
hardware before. -/
theorem Lowers.place (h : f.Lowers g)
    (hplain : ∀ i ∈ f.instructions, ∀ op ∈ i.operands, op.isHardware = false)
    {j : Instruction} (hj : j ∈ g.instructions) {op : Operand} (hop : op ∈ j.operands)
    (hhardware : op.isHardware = true) : Place g.args.length g.stackSize.toNat op := by
  obtain ⟨i, hi, hmatch⟩ := h.exists_matches hj
  obtain ⟨k, hk⟩ := List.getElem?_of_mem hop
  obtain ⟨op₀, hop₀, hsub⟩ := exists_getElem?_of_forall₂ hmatch.operands.flip hk
  cases hsub with
  | kept _ =>
      have hnone := hplain i hi op (List.mem_of_getElem? hop₀)
      rw [hhardware] at hnone
      cases hnone
  | placed hplace => exact hplace

/-- A register that has been defined is not defined again. -/
theorem DistinctNames.not_defines (h : f.DistinctNames) {k : Nat}
    (hdefined : f.DefinedBefore k name) (hi : i ∈ f.instructions.drop k) :
    i.defines? ≠ some name := by
  obtain ⟨m, hm⟩ := List.getElem?_of_mem hi
  rw [List.getElem?_drop] at hm
  intro hname
  refine h.not_definedBefore hm hname (hdefined.imp_right ?_)
  rintro ⟨j, hj, hdefines⟩
  exact ⟨j, (List.take_subset_take_left _ (Nat.le_add_right k m)) hj, hdefines⟩

/-- When an instruction is reached, the registers that it reads stand for what they have to
become. -/
theorem readsAs_resolve (hdistinct : f.DistinctNames) (hres : f.Resolvable)
    (htake : (Storage.ofArgs f.args).assignAll (f.instructions.take n) =
      .ok (s, g.instructions.take n)) :
    f.ReadsAs g n (.reg name) (s.resolve name) := by
  intro _ heq
  obtain rfl := Operand.reg.inj heq
  constructor
  · intro k d d' hkn hd hd' hdest
    have hname := Instruction.defines?_eq_some.mpr hdest
    have hk : (f.instructions.take n)[k]? = some d := by rw [List.getElem?_take_of_lt hkn, hd]
    have hdefined : f.DefinedBefore (k + 1) name := by
      refine .inr ⟨d, List.mem_of_getElem? (i := k) ?_, hname⟩
      rw [List.getElem?_take_of_lt (Nat.lt_succ_self k), hd]
    have hbefore : (f.instructions.take n).take k = f.instructions.take k := by
      rw [List.take_take, Nat.min_eq_left (Nat.le_of_lt hkn)]
    rw [← take_append_cons_drop hk, hbefore] at htake
    obtain ⟨d'', hd'', hplace⟩ := Storage.resolve_of_defined htake
      ((hres.result?_eq (List.mem_of_getElem? hd)).trans hname)
      (fun r is hr hknown =>
        hdistinct.not_definedBefore hd hname (definedBefore_of_mem_names hr hknown))
      (fun i hi => by
        rw [List.drop_take] at hi
        exact hdistinct.not_defines hdefined (List.mem_of_mem_take hi))
    have hlen : (f.instructions.take k).length = k :=
      List.length_take_of_le (Nat.le_of_lt (List.getElem?_eq_some_iff.mp hd).1)
    rw [hlen, List.getElem?_take_of_lt hkn, hd', Option.some.injEq] at hd''
    rw [hd'', hplace]
  · rintro k arg harg rfl
    have hdefined : f.DefinedBefore 0 arg.2 :=
      .inl (List.mem_map_of_mem (List.mem_of_getElem? harg))
    rw [Storage.resolve_assignAll htake fun i hi =>
      hdistinct.not_defines hdefined (List.mem_of_mem_take hi)]
    exact Storage.resolve_ofArgs harg (List.nodup_append.mp hdistinct).1

/-- A register that an instruction both defines and reads has no definition before it. -/
theorem readsAs_own (hdistinct : f.DistinctNames) (hi : f.instructions[n]? = some i)
    (hname : i.defines? = some name) (op : Operand) : f.ReadsAs g n (.reg name) op := by
  intro _ heq
  obtain rfl := Operand.reg.inj heq
  have hnew := hdistinct.not_definedBefore hi hname
  constructor
  · intro k d d' hkn hd _ hdest
    refine absurd (.inr ⟨d, List.mem_of_getElem? (i := k) ?_, ?_⟩) hnew
    · rw [List.getElem?_take_of_lt hkn, hd]
    · exact Instruction.defines?_eq_some.mpr hdest
  · rintro k arg harg rfl
    exact absurd (.inl (List.mem_map_of_mem (List.mem_of_getElem? harg))) hnew

/-- Where every register is defined once, its uses become the place of its definition. -/
theorem consistent_of_lower (h : f.lower = .ok g) (hdistinct : f.DistinctNames) :
    f.Consistent g := by
  have hres := resolvable_of_lower h
  obtain ⟨s, blocks, hassign, rfl, hnone⟩ := Func.lower_eq_ok_iff.mp h
  have hplaced := Func.firstReg?_eq_none_iff.mp hnone
  have hrun := Storage.assignBlocks_flatten hassign
  intro n i j hi hj
  obtain ⟨r, r', i', htake, hi', hn⟩ := Storage.assignAll_at hrun hi
  obtain rfl : i' = j := Option.some.inj (hn.symm.trans hj)
  have hmatch := Storage.matches_assign (Storage.bounded_assignAll htake)
    (Storage.arguments_assignAll htake) hi' (hplaced i' (List.mem_of_getElem? hj))
  obtain ⟨dest, hplaces, rfl⟩ := Storage.assign_eq_ok_iff.mp hi'
  refine Instruction.matches_replace (optionRel_mono (fun _ => trivial) hmatch.dest)
    (fun op hop => ?_) fun op hop => ?_
  · cases op with
    | reg name =>
        rw [Storage.sourceMap, if_neg ((hres n i hi).sources name hop).1]
        by_cases hown : i.defines? = some name
        · exact readsAs_own hdistinct hi hown _
        · rw [Storage.rename, hplaces.resolve_of_ne hown]
          exact readsAs_resolve hdistinct hres htake
    | _ =>
        intro _ heq
        cases heq
  · cases op with
    | reg name =>
        rw [Storage.argMap, if_pos ((hres n i hi).args name hop).1]
        exact readsAs_resolve hdistinct hres htake
    | _ =>
        intro _ heq
        cases heq

end Func

/-! ### Modules -/

/-- **Substitution.** Lowering a module changes nothing but its functions and the mark that it
is lowered. A function that is defined elsewhere stays as it is. Any other function keeps
everything but its stack size and its registers, which become places; where all names are
distinct, every use of a register becomes the place of its definition, and every use of an
argument its number. -/
theorem Module.lower_substitutes {m m' : Module} (h : m.lower = .ok m') :
    m' = { m with functions := m'.functions, lowered := true } ∧
    List.Forall₂ (fun f g =>
      (f.isExternal = true → g = f) ∧
      (f.isExternal = false → f.Lowers g ∧ (f.DistinctNames → f.Consistent g)))
      m.functions m'.functions := by
  obtain ⟨-, functions, rfl, hall⟩ := Module.lower_eq_ok_iff.mp h
  refine ⟨rfl, hall.imp fun f g hlower => ⟨fun hext => ?_, fun hbody => ?_⟩⟩
  · rw [Func.lowerBody, if_pos hext] at hlower
    exact (pure_eq_ok_iff.mp hlower).symm
  · rw [Func.lowerBody_eq_lower hbody] at hlower
    exact ⟨Func.lowers_of_lower hlower, Func.consistent_of_lower hlower⟩

/-- The function that passes its argument on is lowered consistently over both of its blocks:
the addition in the second one reads the general register of the call in the first. -/
theorem passAndAdd_substitutes :
    ∃ m', (passAndAdd (.num 2)).lower = .ok m' ∧
      m' = { passAndAdd (.num 2) with functions := m'.functions, lowered := true } ∧
      ∃ f g, (passAndAdd (.num 2)).functions[1]? = some f ∧ m'.functions[1]? = some g ∧
        f.isExternal = false ∧ f.DistinctNames ∧ f.Lowers g ∧ f.Consistent g ∧
        ∃ d j, g.instructions[3]? = some d ∧ g.instructions[4]? = some j ∧
          d.dest = some (.general 0) ∧ j.src1 = d.dest := by
  obtain ⟨m', hm, f, hf, hbody, hdistinct⟩ :
      ∃ m', (passAndAdd (.num 2)).lower = .ok m' ∧
        ∃ f, (passAndAdd (.num 2)).functions[1]? = some f ∧ f.isExternal = false ∧
          f.DistinctNames :=
    ⟨_, rfl, _, rfl, rfl, by decide⟩
  obtain ⟨hrest, hall⟩ := Module.lower_substitutes hm
  obtain ⟨g, hg, -, hlowers⟩ := exists_getElem?_of_forall₂ hall hf
  obtain ⟨hlowers, hconsistent⟩ := hlowers hbody
  refine ⟨m', hm, hrest, f, g, hf, hg, hbody, hdistinct, hlowers, hconsistent hdistinct, ?_⟩
  obtain rfl : _ = m' := Except.ok.inj hm
  obtain rfl : _ = g := Option.some.inj hg
  exact ⟨_, _, rfl, rfl, rfl, rfl⟩

end RegIR
