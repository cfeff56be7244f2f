import RegIR.Proofs.Storage.Run
import Mathlib.Logic.Function.Basic

/-!
# Storage assignment under renaming

Storage assignment compares register names and does nothing else with them. A function whose
registers are renamed by an injective map is therefore given the same storage: every function
of the pass commutes with the renaming, and the only names left in its result are those of
arguments and of the variables that stack slots are for.

Two maps are kept apart. `renameRegs` renames the virtual registers of code that has no storage
yet. `mapNames` renames every register name there is, that of a slot's variable too, and is
what a renaming becomes behind the pass. On code without hardware operands they agree.

## Main results

* `Storage.resolve_mapNames`: what a name stands for, the only place where injectivity counts.
* `Storage.assign_mapNames`, `Storage.assignBlocks_mapNames`: an instruction, the blocks.
* `Func.lower_mapNames`, `Module.lower_renameRegs`: a function, a module.
-/

namespace RegIR

/-! ### Renaming -/

/-- The operand with its virtual register renamed. -/
def Operand.renameReg (ρ : RegName → RegName) : Operand → Operand
  | .reg name => .reg (ρ name)
  | op => op

/-- The operand with its register name renamed, also where it is that of a slot's variable. -/
def Operand.mapName (ρ : RegName → RegName) : Operand → Operand
  | .reg name => .reg (ρ name)
  | .slot name offset => .slot (ρ name) offset
  | op => op

/-- The instruction with all its operands replaced. -/
def Instruction.mapOperands (g : Operand → Operand) (i : Instruction) : Instruction :=
  i.replace (i.dest.map g) g g

/-- The block with all its operands replaced. -/
def Block.mapOperands (g : Operand → Operand) (b : Block) : Block :=
  { b with instructions := b.instructions.map (·.mapOperands g) }

namespace Func

/-- The function with its argument registers renamed and all its operands replaced. -/
def mapRegs (ρ : RegName → RegName) (g : Operand → Operand) (f : Func) : Func :=
  { f with
    args := f.args.map fun arg => (arg.1, ρ arg.2)
    blocks := f.blocks.map (·.mapOperands g) }

/-- The function with its argument registers and its virtual registers renamed. -/
def renameRegs (ρ : RegName → RegName) : Func → Func :=
  mapRegs ρ (Operand.renameReg ρ)

/-- The function with all its register names renamed. -/
def mapNames (ρ : RegName → RegName) : Func → Func :=
  mapRegs ρ (Operand.mapName ρ)

end Func

namespace Module

/-- The module with the virtual registers of each function renamed, by the position of the
function. -/
def renameRegs (ρ : Nat → RegName → RegName) (m : Module) : Module :=
  { m with functions := m.functions.mapIdx fun k f => f.renameRegs (ρ k) }

/-- The module with all register names of each function renamed, by the position of the
function. -/
def mapNames (ρ : Nat → RegName → RegName) (m : Module) : Module :=
  { m with functions := m.functions.mapIdx fun k f => f.mapNames (ρ k) }

end Module

section Operands

variable {g h : Operand → Operand} {ρ : RegName → RegName}

/-- An operand is a virtual register before the renaming if it is one after. -/
@[simp] theorem Operand.isReg_mapName (op : Operand) : (op.mapName ρ).isReg = op.isReg := by
  cases op <;> rfl

/-- Where there is no hardware operand both renamings are one. -/
theorem Operand.renameReg_eq_mapName {op : Operand} (h : op.isHardware = false) :
    op.renameReg ρ = op.mapName ρ := by
  cases op with
  | slot name offset => cases h
  | _ => rfl

/-- The operands of an instruction are replaced in order. -/
@[simp] theorem Instruction.operands_mapOperands (i : Instruction) :
    (i.mapOperands g).operands = i.operands.map g := by
  have hdest : (i.dest.map g).toList = i.dest.toList.map g := by
    cases i.dest <;> rfl
  simp [mapOperands, operands, hdest]

/-- Replacements that agree on the operands of an instruction do the same to it. -/
theorem Instruction.mapOperands_congr {i : Instruction} (heq : ∀ op ∈ i.operands, g op = h op) :
    i.mapOperands g = i.mapOperands h := by
  obtain ⟨opcode, dataType, dest, src1, src2, src3, call⟩ := i
  simp only [operands, sources, args, List.mem_append, Option.mem_toList] at heq
  have hdest : dest.map g = dest.map h :=
    Option.map_congr fun op hop => heq op (.inl (.inl hop))
  have h1 : src1.map g = src1.map h :=
    Option.map_congr fun op hop => heq op (.inl (.inr (.inl (.inl hop))))
  have h2 : src2.map g = src2.map h :=
    Option.map_congr fun op hop => heq op (.inl (.inr (.inl (.inr hop))))
  have h3 : src3.map g = src3.map h :=
    Option.map_congr fun op hop => heq op (.inl (.inr (.inr hop)))
  cases call with
  | none => simp [mapOperands, replace, hdest, h1, h2, h3]
  | some c =>
      have hargs : c.args.map g = c.args.map h :=
        List.map_congr_left fun op hop => heq op (.inr hop)
      simp [mapOperands, replace, hdest, h1, h2, h3, hargs]

/-- Where a function has no hardware operands both renamings are one. -/
theorem Func.renameRegs_eq_mapNames {f : Func}
    (hplain : ∀ i ∈ f.instructions, ∀ op ∈ i.operands, op.isHardware = false) :
    f.renameRegs ρ = f.mapNames ρ := by
  have hblocks : f.blocks.map (·.mapOperands (Operand.renameReg ρ)) =
      f.blocks.map (·.mapOperands (Operand.mapName ρ)) := by
    refine List.map_congr_left fun b hb => ?_
    have hinstructions : b.instructions.map (·.mapOperands (Operand.renameReg ρ)) =
        b.instructions.map (·.mapOperands (Operand.mapName ρ)) := by
      refine List.map_congr_left fun i hi => Instruction.mapOperands_congr fun op hop => ?_
      exact Operand.renameReg_eq_mapName (hplain i (List.mem_flatMap.mpr ⟨b, hb, hi⟩) op hop)
    rw [Block.mapOperands, hinstructions]
    rfl
  rw [renameRegs, mapRegs, hblocks]
  rfl

end Operands

/-! ### What the names stand for -/

namespace Storage

/-- The storage with the names renamed that stand for places. -/
def mapNames (ρ : RegName → RegName) (s : Storage) : Storage :=
  { s with
    slots := s.slots.map (Prod.map ρ id)
    arguments := s.arguments.map (Prod.map ρ id)
    pointers := s.pointers.map (Prod.map ρ id)
    generals := s.generals.map (Prod.map ρ id) }

variable {ρ : RegName → RegName}

/-- The place of a name is that of its image: no other name has the same image. -/
theorem lookup_map (hρ : Function.Injective ρ) (places : List (RegName × UInt32))
    (name : RegName) : (places.map (Prod.map ρ id)).lookup (ρ name) = places.lookup name := by
  induction places with
  | nil => rfl
  | cons entry places ih =>
      have hbeq : (ρ name == ρ entry.1) = (name == entry.1) := by
        rw [Bool.eq_iff_iff, beq_iff_eq, beq_iff_eq]
        exact hρ.eq_iff
      rw [List.map_cons, List.lookup_cons, List.lookup_cons, Prod.map, hbeq, ih, id_eq]

/-- The image of a name stands for the image of what the name stands for. -/
theorem resolve_mapNames (hρ : Function.Injective ρ) (s : Storage) (name : RegName) :
    (s.mapNames ρ).resolve (ρ name) = (s.resolve name).mapName ρ := by
  simp only [resolve, mapNames, lookup_map hρ]
  split <;> rfl

/-- Replacing a register and renaming may be exchanged. -/
theorem rename_mapNames (hρ : Function.Injective ρ) (s : Storage) (op : Operand) :
    (s.mapNames ρ).rename (op.mapName ρ) = (s.rename op).mapName ρ := by
  cases op with
  | reg name => exact resolve_mapNames hρ s name
  | _ => rfl

/-- The arguments are defined under their new names. -/
theorem ofArgs_map (args : List (Ty × RegName)) :
    ofArgs (args.map fun arg => (arg.1, ρ arg.2)) = (ofArgs args).mapNames ρ := by
  have hmap : (args.map fun arg => (arg.1, ρ arg.2)).mapIdx
        (fun i arg => (arg.2, UInt32.ofNat i)) =
      (args.mapIdx fun i arg => (arg.2, UInt32.ofNat i)).map (Prod.map ρ id) := by
    refine List.ext_getElem? fun n => ?_
    simp [Function.comp_def, Prod.map]
  simp [ofArgs, mapNames, hmap]

/-! ### Instructions and blocks -/

variable {s : Storage} {i : Instruction}

/-- Sources are replaced alike, under both names. -/
theorem sourceMap_mapNames (hρ : Function.Injective ρ) (s : Storage) (opcode : Opcode)
    (op : Operand) :
    (s.mapNames ρ).sourceMap opcode (op.mapName ρ) = (s.sourceMap opcode op).mapName ρ := by
  simp only [sourceMap]
  split
  · rfl
  · exact rename_mapNames hρ s op

/-- Call arguments are replaced alike, under both names. -/
theorem argMap_mapNames (hρ : Function.Injective ρ) (s : Storage) (opcode : Opcode)
    (op : Operand) :
    (s.mapNames ρ).argMap opcode (op.mapName ρ) = (s.argMap opcode op).mapName ρ := by
  simp only [argMap]
  split
  · exact rename_mapNames hρ s op
  · rfl

/-- The storage and the instruction behind a step, both renamed. -/
def mapStep (ρ : RegName → RegName) (r : Storage × Instruction) : Storage × Instruction :=
  (r.1.mapNames ρ, r.2.mapOperands (Operand.mapName ρ))

/-- A destination is replaced alike if the word does not depend on names, and the update and
the place follow the renaming. -/
theorem placeDest_mapNames {word : Checked UInt32} {update update' : RegName → UInt32 → Storage}
    {place place' : RegName → UInt32 → Operand}
    (hupdate : ∀ name w, update' (ρ name) w = (update name w).mapNames ρ)
    (hplace : ∀ name w, place' (ρ name) w = (place name w).mapName ρ) :
    Mirrors (mapStep ρ) (s.placeDest i word update place)
      ((s.mapNames ρ).placeDest (i.mapOperands (Operand.mapName ρ)) word update' place') := by
  obtain ⟨opcode, dataType, dest, src1, src2, src3, call⟩ := i
  cases dest with
  | none => exact Mirrors.pure rfl
  | some op =>
      cases op with
      | reg name =>
          refine (Mirrors.refl word).seq fun w => Mirrors.pure ?_
          rw [hupdate, hplace]
          rfl
      | _ => exact Mirrors.pure rfl

/-- A release and a renaming may be exchanged. -/
theorem released_mapNames (s : Storage) (opcode : Opcode) :
    (s.mapNames ρ).released opcode = (s.released opcode).mapNames ρ := by
  rw [released, released]
  split <;> rfl

/-- A destination gets the same place under both names. -/
theorem place_mapNames :
    Mirrors (mapStep ρ) (s.place i)
      ((s.mapNames ρ).place (i.mapOperands (Operand.mapName ρ))) := by
  have hopcode : (i.mapOperands (Operand.mapName ρ)).opcode = i.opcode := rfl
  rw [place, place, hopcode, released_mapNames]
  split
  · exact placeDest_mapNames (fun _ _ => rfl) fun _ _ => rfl
  · exact placeDest_mapNames (fun _ _ => rfl) fun _ _ => rfl
  · exact placeDest_mapNames (fun _ _ => rfl) fun _ _ => rfl
  · exact Mirrors.pure rfl

/-- **One instruction.** It is assigned the same storage under both names. -/
theorem assign_mapNames (hρ : Function.Injective ρ) :
    Mirrors (mapStep ρ) (s.assign i)
      ((s.mapNames ρ).assign (i.mapOperands (Operand.mapName ρ))) := by
  have hopcode : (i.mapOperands (Operand.mapName ρ)).opcode = i.opcode := rfl
  have hsource : ∀ t : Storage, (t.mapNames ρ).sourceMap i.opcode ∘ Operand.mapName ρ =
      Operand.mapName ρ ∘ t.sourceMap i.opcode :=
    fun t => funext (sourceMap_mapNames hρ t i.opcode)
  have harg : (s.mapNames ρ).argMap i.opcode ∘ Operand.mapName ρ =
      Operand.mapName ρ ∘ s.argMap i.opcode :=
    funext (argMap_mapNames hρ s i.opcode)
  rw [assign_eq_place, assign_eq_place]
  refine place_mapNames.bind fun r => Mirrors.pure ?_
  simp only [mapStep, Instruction.mapOperands, Instruction.replace_replace,
    Instruction.dest_replace, Instruction.opcode_replace, hsource, harg]

/-- Instructions in order. -/
theorem assignAll_mapNames (hρ : Function.Injective ρ) (s : Storage) (is : List Instruction) :
    Mirrors (fun r => (r.1.mapNames ρ, r.2.map (·.mapOperands (Operand.mapName ρ))))
      (s.assignAll is)
      ((s.mapNames ρ).assignAll (is.map (·.mapOperands (Operand.mapName ρ)))) := by
  induction is generalizing s with
  | nil => exact Mirrors.pure rfl
  | cons i is ih =>
      refine (assign_mapNames hρ).bind fun r => ?_
      exact (ih r.1).bind fun rs => Mirrors.pure rfl

/-- Blocks in layout order. -/
theorem assignBlocks_mapNames (hρ : Function.Injective ρ) (s : Storage) (bs : List Block) :
    Mirrors (fun r => (r.1.mapNames ρ, r.2.map (·.mapOperands (Operand.mapName ρ))))
      (s.assignBlocks bs)
      ((s.mapNames ρ).assignBlocks (bs.map (·.mapOperands (Operand.mapName ρ)))) := by
  induction bs generalizing s with
  | nil => exact Mirrors.pure rfl
  | cons b bs ih =>
      refine (assignAll_mapNames hρ s b.instructions).bind fun r => ?_
      exact (ih r.1).bind fun rs => Mirrors.pure rfl

end Storage

/-! ### Functions and modules -/

section Lower

/-- The instructions of a renamed function. -/
theorem Func.instructions_mapRegs (f : Func) (ρ : RegName → RegName) (g : Operand → Operand) :
    (f.mapRegs ρ g).instructions = f.instructions.map (·.mapOperands g) := by
  simp [instructions, mapRegs, Block.mapOperands, List.flatMap_map, List.map_flatMap]

/-- A renamed function has a virtual register if the function has one. -/
theorem Func.firstReg?_mapNames {f : Func} {ρ : RegName → RegName} :
    (f.mapNames ρ).firstReg? = none ↔ f.firstReg? = none := by
  rw [firstReg?_eq_none_iff, firstReg?_eq_none_iff, mapNames, instructions_mapRegs]
  simp only [List.forall_mem_map, Instruction.operands_mapOperands, Operand.isReg_mapName]

/-- **A function.** It is given the same storage under both names, or rejected under both. -/
theorem Func.lower_mapNames {ρ : RegName → RegName} (hρ : Function.Injective ρ) (f : Func) :
    Mirrors (Func.mapNames ρ) f.lower (f.mapNames ρ).lower := by
  have hargs : Storage.ofArgs (f.mapNames ρ).args = (Storage.ofArgs f.args).mapNames ρ :=
    Storage.ofArgs_map f.args
  rw [lower, lower, hargs]
  refine (Storage.assignBlocks_mapNames hρ _ f.blocks).liftM.bind fun r => ?_
  have hiff := @firstReg?_mapNames { f with blocks := r.2, stackSize := r.1.offset } ρ
  dsimp only
  split
  next b reg hsome =>
    split
    · trivial
    next hnone => cases hsome.symm.trans (hiff.mp hnone)
  next hnone =>
    split
    next b reg hsome => cases hsome.symm.trans (hiff.mpr hnone)
    · exact Mirrors.pure rfl

/-- A function defined elsewhere is only renamed. -/
theorem Func.lowerBody_mapNames {ρ : RegName → RegName} (hρ : Function.Injective ρ) (f : Func) :
    Mirrors (Func.mapNames ρ) f.lowerBody (f.mapNames ρ).lowerBody := by
  have hexternal : (f.mapNames ρ).isExternal = f.isExternal := rfl
  rw [lowerBody, lowerBody, hexternal]
  split
  · exact Mirrors.pure rfl
  · exact lower_mapNames hρ f

/-- **A module.** It is given the same storage under both names, or rejected under both. -/
theorem Module.lower_renameRegs {ρ : Nat → RegName → RegName} {m : Module}
    (hρ : ∀ k, Function.Injective (ρ k))
    (hplain : ∀ f ∈ m.functions, ∀ i ∈ f.instructions, ∀ op ∈ i.operands,
      op.isHardware = false) :
    Mirrors (Module.mapNames ρ) m.lower (m.renameRegs ρ).lower := by
  have hlowered : (m.renameRegs ρ).lowered = m.lowered := rfl
  rw [lower, lower, hlowered]
  split
  · trivial
  · refine (Mirrors.mapIdxM fun k f hf => ?_).bind fun functions => Mirrors.pure rfl
    rw [Func.renameRegs_eq_mapNames (hplain f hf)]
    exact Func.lowerBody_mapNames (hρ k) f

end Lower

end RegIR
