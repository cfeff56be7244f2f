import Mathlib.Logic.Function.Basic
import RegIR.Proofs.Storage.Live

/-!
# Storage assignment is faithful

Code is executed as straight-line code, before and after storage has been assigned. What
opcodes compute is left open: an operation is given the values of its sources and a world
that stands for memory and everything outside, and yields a value and a new world. Only a
variable is fixed, whose value is the address of its slot.

Both executions perform the same operations on the same values, provided that every register
is defined once, before it is read, and that no general register is read after a release.

## Main results

* `Meaning.Agrees.step`: one instruction keeps the two executions in agreement.
* `Func.agrees_take`: they agree at every point of a function.
* `Module.lower_faithful`: every operand of a lowered function holds, when it is read, the
  value of the register that it replaces.
-/

namespace RegIR

/-! ### Straight-line execution -/

/-- An instruction that has read its operands. -/
structure Operation (V : Type*) where
  opcode : Opcode
  dataType : Ty
  src1 : Option V
  src2 : Option V
  src3 : Option V
  callee : Option String
  args : List V

/-- What operands and opcodes mean. -/
structure Meaning (V W : Type*) where
  /-- The value of an operand that is not kept in a cell. -/
  constant : Operand → V
  /-- The address so many bytes below the frame pointer. -/
  slotAddress : Nat → V
  /-- The result of an operation, and the world after it. -/
  perform : Operation V → W → V × W

/-- The state of an execution. -/
structure Machine (V W : Type*) where
  cells : Cell → V
  /-- Bytes of variables so far. -/
  frame : Nat
  world : W

/-- How far below the frame pointer a variable ends: at its slot if it has one, else below the
variables before it. -/
def Instruction.slotDepth (i : Instruction) (frame : Nat) : Nat :=
  match i.dest with
  | some (.slot _ offset) => offset.toNat
  | _ => frame + i.dataType.slotSize

/-- Before it has a slot, a variable ends below those before it. -/
theorem Instruction.slotDepth_eq (i : Instruction) {frame : Nat} {name : RegName}
    (h : i.result? = some name) : i.slotDepth frame = frame + i.dataType.slotSize := by
  rw [slotDepth, defines?_eq_some.mp (defines?_of_result? h)]

/-- The cell that an instruction writes. -/
def Instruction.target? (i : Instruction) : Option Cell :=
  i.dest.bind Operand.cell?

namespace Meaning

variable {V W : Type*} (M : Meaning V W)

/-- The value of an operand. -/
def read (cells : Cell → V) (op : Operand) : V :=
  match op.cell? with
  | some c => cells c
  | none => M.constant op

/-- Reading the operands of an instruction. -/
def operation (cells : Cell → V) (i : Instruction) : Operation V where
  opcode := i.opcode
  dataType := i.dataType
  src1 := i.src1.map (M.read cells)
  src2 := i.src2.map (M.read cells)
  src3 := i.src3.map (M.read cells)
  callee := i.callee?
  args := i.args.map (M.read cells)

/-- The value that an instruction yields. -/
def result (σ : Machine V W) (i : Instruction) : V :=
  if i.opcode = .alloca then M.slotAddress (i.slotDepth σ.frame)
  else (M.perform (M.operation σ.cells i) σ.world).1

/-- Executing an instruction: everything is read first, then the destination is written. -/
def step (σ : Machine V W) (i : Instruction) : Machine V W where
  cells := match i.target? with
    | some c => Function.update σ.cells c (M.result σ i)
    | none => σ.cells
  frame := if i.opcode = .alloca ∧ i.target?.isSome then i.slotDepth σ.frame else σ.frame
  world := (M.perform (M.operation σ.cells i) σ.world).2

/-- Executing instructions one after the other. -/
def run (σ : Machine V W) (is : List Instruction) : Machine V W :=
  is.foldl M.step σ

variable {M} {s s' : Storage} {i i' : Instruction} {dest : Option Operand}
  {σ τ : Machine V W} {c : Cell} {op : Operand} {name : RegName}

/-- Nothing is written without a target. -/
theorem cells_step_of_none (h : i.target? = none) : (M.step σ i).cells = σ.cells := by
  simp only [step, h]

/-- The result is written to the target. -/
theorem cells_step_of_some (h : i.target? = some c) :
    (M.step σ i).cells = Function.update σ.cells c (M.result σ i) := by
  simp only [step, h]

/-- A variable takes bytes of the frame. -/
theorem frame_step (σ : Machine V W) (i : Instruction) :
    (M.step σ i).frame =
      if i.opcode = .alloca ∧ i.target?.isSome then i.slotDepth σ.frame else σ.frame :=
  rfl

/-- Replacing operands by others of the same values does not change the operation. -/
theorem operation_replace {source arg : Operand → Operand}
    (hsources : ∀ op ∈ i.sources, M.read τ.cells (source op) = M.read σ.cells op)
    (hargs : ∀ op ∈ i.args, M.read τ.cells (arg op) = M.read σ.cells op) :
    M.operation τ.cells (i.replace dest source arg) = M.operation σ.cells i := by
  simp only [Instruction.sources, List.forall_mem_append, Option.mem_toList] at hsources
  have hoption : ∀ o : Option Operand,
      (∀ op ∈ o, M.read τ.cells (source op) = M.read σ.cells op) →
      (o.map source).map (M.read τ.cells) = o.map (M.read σ.cells) := by
    intro o ho
    rw [Option.map_map]
    exact Option.map_congr ho
  have hcallee : (i.replace dest source arg).callee? = i.callee? := by
    simp [Instruction.callee?, Instruction.replace, Function.comp_def]
  have hlist : (i.args.map arg).map (M.read τ.cells) = i.args.map (M.read σ.cells) := by
    rw [List.map_map]
    exact List.map_congr_left hargs
  simp only [operation, hcallee, Instruction.args_replace, hlist]
  simp only [Instruction.replace, hoption _ hsources.1.1, hoption _ hsources.1.2,
    hoption _ hsources.2]

end Meaning

/-! ### One instruction -/

/-- `s.Ready i`: the instruction `i` names no hardware, its registers can all be replaced, its
destination is new and what it reads is live. -/
structure Storage.Ready (s : Storage) (i : Instruction) : Prop where
  plain : ∀ op ∈ i.operands, op.isHardware = false
  resolvable : i.Resolvable (· ∈ s.names)
  fresh : ∀ name, i.defines? = some name → name ∉ s.names
  live : ∀ name, .reg name ∈ i.reads → name ∈ s.live
  reads : ∀ name, .reg name ∈ i.reads → i.defines? ≠ some name

namespace Storage.Ready

variable {s s' : Storage} {i : Instruction} {dest : Option Operand} {op : Operand}

/-- Only registers are written, those that get a place. -/
theorem target?_eq (h : s.Ready i) : i.target? = i.result?.map Cell.reg := by
  rw [h.resolvable.result?_eq, Instruction.target?, Instruction.defines?]
  cases hdest : i.dest with
  | none => rfl
  | some op =>
      have hplain := h.plain op (Instruction.mem_operands_of_dest hdest)
      cases op with
      | imm _ | label _ | string _ | reg _ => rfl
      | slot _ _ | general _ | argument _ | pointer _ => cases hplain

/-- Placing a destination that is not read makes no difference to the sources. -/
theorem sourceMap_eq (h : s.Ready i) (hplaces : s.Places i s' dest) (hop : op ∈ i.sources) :
    s'.sourceMap i.opcode op = s.rename op := by
  rw [sourceMap]
  cases op with
  | reg name =>
      rw [if_neg (h.resolvable.sources name hop).1]
      exact hplaces.resolve_of_ne (h.reads name (List.mem_append_left _ hop))
  | _ => split <;> rfl

/-- Only a call has registers among its arguments. -/
theorem argMap_eq (h : s.Ready i) (hop : op ∈ i.args) : s.argMap i.opcode op = s.rename op := by
  rw [argMap]
  cases op with
  | reg name => rw [if_pos (h.resolvable.args name hop).1]
  | _ => split <;> rfl

/-- Everything that is read is replaced alike. -/
theorem reads_replace (h : s.Ready i) (hplaces : s.Places i s' dest) :
    (i.replace dest (s'.sourceMap i.opcode) (s.argMap i.opcode)).reads =
      i.reads.map s.rename := by
  rw [Instruction.reads, Instruction.reads, List.map_append, Instruction.sources_replace,
    Instruction.args_replace]
  congr 1
  · exact List.map_congr_left fun op hop => h.sourceMap_eq hplaces hop
  · exact List.map_congr_left fun op hop => h.argMap_eq hop

end Storage.Ready

namespace Storage

variable {s s' : Storage} {i : Instruction} {dest : Option Operand} {name : RegName}
  {source arg : Operand → Operand}

/-- A destination without a result is kept. -/
theorem Places.eq_of_result?_eq_none (h : s.Places i s' dest) (hnone : i.result? = none) :
    s' = s.released i.opcode ∧ dest = i.dest := by
  cases h with
  | slot hop hdest _ | pointer hop hdest _ | general hop hdest _ =>
      cases hnone.symm.trans (Instruction.result?_eq_some (by rw [hop]; rfl) hdest)
  | kept _ => exact ⟨rfl, rfl⟩

/-- A release takes no bytes of the frame. -/
theorem offset_released (s : Storage) (op : Opcode) : (s.released op).offset = s.offset := by
  rw [released]
  split <;> rfl

/-- Only a variable with a result takes bytes of the frame. -/
theorem Places.offset_eq (h : s.Places i s' dest) :
    s'.offset.toNat = s.offset.toNat +
      if i.opcode = .alloca ∧ i.result?.isSome then i.dataType.slotSize else 0 := by
  cases h with
  | slot hop hdest hoffset =>
      rw [if_pos ⟨hop, by simp [Instruction.result?_eq_some (by rw [hop]; rfl) hdest]⟩]
      exact hoffset
  | pointer hop _ _ => simp [hop]
  | general hop _ _ =>
      rw [if_neg (by rintro ⟨halloca, -⟩; simp [halloca, Opcode.place?] at hop)]
      rfl
  | kept h => simp [Instruction.result?_eq_none h, offset_released]

/-- The slot of a variable ends below the slots before it. -/
theorem Places.slotDepth_eq {frame : Nat} (h : s.Places i s' dest) (hop : i.opcode = .alloca)
    (hname : i.result? = some name) :
    (i.replace dest source arg).slotDepth frame = s.offset.toNat + i.dataType.slotSize := by
  cases h with
  | slot _ _ hoffset => exact hoffset
  | pointer hop' _ _ => simp [hop] at hop'
  | general hop' _ _ => simp [hop, Opcode.place?] at hop'
  | kept h => simp [Instruction.result?_eq_none h] at hname

/-- A name that stands for a slot has that slot. -/
theorem mem_slots_of_resolve {name' : RegName} {offset : UInt32}
    (h : s.resolve name' = .slot name offset) : (name, offset) ∈ s.slots := by
  obtain ⟨offset', hslot, hres⟩ | ⟨_, -, -, hres⟩ | ⟨_, -, -, -, hres⟩ | ⟨_, -, -, -, -, hres⟩ |
    ⟨-, hres⟩ := s.resolve_cases name'
  · obtain ⟨rfl, rfl⟩ := Operand.slot.inj (hres.symm.trans h)
    exact mem_of_lookup hslot
  all_goals cases hres.symm.trans h

/-- A new slot is the place of a variable. -/
theorem Places.mem_slots {e : RegName × UInt32} (h : s.Places i s' dest) (he : e ∈ s'.slots) :
    e ∈ s.slots ∨
      i.opcode = .alloca ∧ i.result? = some e.1 ∧ dest = some (.slot e.1 e.2) := by
  cases h with
  | slot hop hdest _ =>
      obtain rfl | he := List.mem_cons.mp he
      · exact .inr ⟨hop, Instruction.result?_eq_some (by rw [hop]; rfl) hdest, rfl⟩
      · exact .inl he
  | pointer _ _ _ | general _ _ _ => exact .inl he
  | kept _ =>
      rw [released] at he
      split at he <;> exact .inl he

end Storage

namespace Meaning

/-- `M.Agrees s σ τ`: the execution `τ` of code with storage `s` follows the execution `σ` of
the code without. -/
structure Agrees {V W : Type*} (M : Meaning V W) (s : Storage) (σ τ : Machine V W) : Prop where
  world : τ.world = σ.world
  frame : σ.frame = s.offset.toNat
  /-- The place of a live name holds its value. -/
  live : ∀ name ∈ s.live, M.read τ.cells (s.resolve name) = σ.cells (.reg name)
  /-- The slot of a variable holds its own address. -/
  slots : ∀ e ∈ s.slots, τ.cells (.slot e.2) = M.slotAddress e.2.toNat

variable {V W : Type*} {M : Meaning V W} {s s' : Storage} {i i' : Instruction}
  {dest : Option Operand} {σ τ : Machine V W} {c : Cell} {op : Operand} {name : RegName}
  {source arg : Operand → Operand}

/-- What is read after replacement has the value of what was read before. -/
theorem Agrees.read_rename (h : M.Agrees s σ τ) (hready : s.Ready i) (hop : op ∈ i.reads) :
    M.read τ.cells (s.rename op) = M.read σ.cells op := by
  have hplain := hready.plain op (Instruction.mem_operands_of_reads hop)
  cases op with
  | reg name => exact h.live name (hready.live name hop)
  | imm _ | label _ | string _ => rfl
  | slot _ _ | general _ | argument _ | pointer _ => cases hplain

/-- The same operation is performed before and after. -/
theorem Agrees.operation_eq (h : M.Agrees s σ τ) (hready : s.Ready i)
    (hplaces : s.Places i s' dest) :
    M.operation τ.cells (i.replace dest (s'.sourceMap i.opcode) (s.argMap i.opcode)) =
      M.operation σ.cells i := by
  refine operation_replace (fun op hop => ?_) (fun op hop => ?_)
  · rw [hready.sourceMap_eq hplaces hop]
    exact h.read_rename hready (List.mem_append_left _ hop)
  · rw [hready.argMap_eq hop]
    exact h.read_rename hready (List.mem_append_right _ hop)

/-- **Frame.** Cells that have been given out are left alone. -/
theorem cells_step_of_reserved (hready : s.Ready i) (hplaces : s.Places i s' dest)
    (hc : (s.released i.opcode).Reserved c) :
    (M.step τ (i.replace dest source arg)).cells c = τ.cells c := by
  cases hresult : i.result? with
  | none =>
      obtain ⟨-, rfl⟩ := hplaces.eq_of_result?_eq_none hresult
      rw [cells_step_of_none]
      exact hready.target?_eq.trans (by rw [hresult]; rfl)
  | some name =>
      obtain ⟨d, hd, hnew⟩ := hplaces.not_reserved (by rw [hresult]; rfl)
      have htarget : (i.replace dest source arg).target? = some d := hd
      rw [cells_step_of_some htarget]
      refine Function.update_of_ne ?_ _ _
      rintro rfl
      exact hnew hc

/-- The place of a new name holds the result. -/
theorem read_step_resolve (hready : s.Ready i) (hplaces : s.Places i s' dest)
    (hname : i.result? = some name) :
    M.read (M.step τ (i.replace dest source arg)).cells (s'.resolve name) =
      M.result τ (i.replace dest source arg) := by
  have hdest := hplaces.resolve_dest hname
    (hready.fresh name (Instruction.defines?_of_result? hname))
  obtain ⟨c, hc, -⟩ := hplaces.not_reserved (by rw [hname]; rfl)
  have htarget : (i.replace dest source arg).target? = some c := hc
  rw [hdest, Option.bind_some] at hc
  rw [read, hc, cells_step_of_some htarget]
  exact Function.update_self _ _ _

/-- The register that an instruction defines holds the result. -/
theorem cells_step_result (hready : s.Ready i) (hname : i.result? = some name) :
    (M.step σ i).cells (.reg name) = M.result σ i := by
  have htarget : i.target? = some (.reg name) := by rw [hready.target?_eq, hname]; rfl
  rw [cells_step_of_some htarget]
  exact Function.update_self _ _ _

/-- The registers that an instruction does not define keep their values. -/
theorem cells_step_of_ne (hready : s.Ready i) (hne : i.defines? ≠ some name) :
    (M.step σ i).cells (.reg name) = σ.cells (.reg name) := by
  have htarget := hready.target?_eq
  rw [hready.resolvable.result?_eq] at htarget
  cases hdefines : i.defines? with
  | none =>
      rw [hdefines] at htarget
      rw [cells_step_of_none htarget]
  | some name' =>
      rw [hdefines] at htarget
      rw [cells_step_of_some htarget]
      refine Function.update_of_ne (fun heq => hne ?_) _ _
      rw [hdefines, Cell.reg.inj heq]

/-- The result is the same before and after. -/
theorem Agrees.result_eq (h : M.Agrees s σ τ) (hready : s.Ready i)
    (hplaces : s.Places i s' dest) (hname : i.result? = some name) :
    M.result τ (i.replace dest (s'.sourceMap i.opcode) (s.argMap i.opcode)) = M.result σ i := by
  rw [result, result, h.operation_eq hready hplaces, h.world, Instruction.opcode_replace]
  by_cases hop : i.opcode = .alloca
  · rw [if_pos hop, if_pos hop, hplaces.slotDepth_eq hop hname, i.slotDepth_eq hname, h.frame]
  · rw [if_neg hop, if_neg hop]

/-- **One instruction** keeps the executions in agreement. -/
theorem Agrees.step (hs : s.Bounded) (h : M.Agrees s σ τ) (hready : s.Ready i)
    (hi : s.assign i = .ok (s', i')) : M.Agrees s' (M.step σ i) (M.step τ i') := by
  obtain ⟨dest, hplaces, rfl⟩ := Storage.assign_eq_ok_iff.mp hi
  refine ⟨?_, ?_, fun name hlive => ?_, fun e he => ?_⟩
  · simp only [Meaning.step, h.operation_eq hready hplaces, h.world]
  · rw [hplaces.offset_eq, frame_step, hready.target?_eq, Option.isSome_map]
    split
    next hslot =>
      obtain ⟨name, hname⟩ := Option.isSome_iff_exists.mp hslot.2
      rw [i.slotDepth_eq hname, h.frame]
    next => exact h.frame
  · by_cases hname : i.defines? = some name
    · rw [← hready.resolvable.result?_eq] at hname
      rw [read_step_resolve hready hplaces hname, cells_step_result hready hname,
        h.result_eq hready hplaces hname]
    · have hold := hplaces.live_of_live hlive hname
      obtain ⟨c, hc, hreserved⟩ := (hs.released i.opcode).reserved_of_live hold
      rw [Storage.resolve_released] at hc
      rw [cells_step_of_ne hready hname, hplaces.resolve_of_ne hname, read, hc,
        ← h.live name (Storage.live_released_subset _ _ hold), read, hc]
      exact cells_step_of_reserved hready hplaces hreserved
  · obtain hold | ⟨hop, hname, hdest⟩ := hplaces.mem_slots he
    · rw [cells_step_of_reserved hready hplaces, h.slots e hold]
      rw [Storage.Reserved, Storage.offset_released]
      exact hs.slots e hold
    · rw [hdest, cells_step_of_some (c := .slot e.2) rfl, Function.update_self, result]
      exact if_pos hop

/-- `M.Follows σ τ i i'`: at the state `τ` the instruction `i'`, which has storage, does what
`i` does at the state `σ`. -/
structure Follows (M : Meaning V W) (σ τ : Machine V W) (i i' : Instruction) : Prop where
  /-- No virtual register is left. -/
  placed : ∀ name, .reg name ∉ i'.operands
  /-- Every operand that is read holds the value of the one that it replaces. -/
  reads : M.operation τ.cells i' = M.operation σ.cells i
  world : τ.world = σ.world
  /-- The slot of a variable reads as its address. -/
  slots : ∀ name offset, .slot name offset ∈ i'.reads →
    τ.cells (.slot offset) = M.slotAddress offset.toNat
  /-- The new place of a register then holds its value. -/
  written : ∀ name, i.dest = some (.reg name) → ∃ place, i'.dest = some place ∧
    M.read (M.step τ i').cells place = (M.step σ i).cells (.reg name)

/-- Executions in agreement do the same. -/
theorem Agrees.follows (h : M.Agrees s σ τ) (hready : s.Ready i)
    (hi : s.assign i = .ok (s', i')) : M.Follows σ τ i i' := by
  have hplaced := (Storage.assign_resolved_iff hi).mpr hready.resolvable
  obtain ⟨dest, hplaces, rfl⟩ := Storage.assign_eq_ok_iff.mp hi
  refine ⟨Storage.forall_isReg_false.mp hplaced, h.operation_eq hready hplaces, h.world,
    fun name offset hread => ?_, fun name hdest => ?_⟩
  · rw [hready.reads_replace hplaces] at hread
    obtain ⟨op, hop, hrename⟩ := List.mem_map.mp hread
    have hplain := hready.plain op (Instruction.mem_operands_of_reads hop)
    cases op with
    | reg name' => exact h.slots _ (Storage.mem_slots_of_resolve hrename)
    | imm _ | label _ | string _ => cases hrename
    | slot _ _ | general _ | argument _ | pointer _ => cases hplain
  · have hdefines := Instruction.defines?_eq_some.mpr hdest
    have hname := hready.resolvable.result?_eq.trans hdefines
    refine ⟨_, hplaces.resolve_dest hname (hready.fresh name hdefines), ?_⟩
    rw [read_step_resolve hready hplaces hname, cells_step_result hready hname,
      h.result_eq hready hplaces hname]

end Meaning

/-! ### Whole functions -/

namespace Func

/-- The instruction at position `n` reads the register that the one at position `k` defines. -/
def Uses (f : Func) (k n : Nat) : Prop :=
  ∃ j ∈ f.instructions[k]?, ∃ i ∈ f.instructions[n]?, ∃ name ∈ j.defines?, .reg name ∈ i.reads

instance (f : Func) (k n : Nat) : Decidable (f.Uses k n) :=
  inferInstanceAs (Decidable (∃ j ∈ f.instructions[k]?, _))

/-- If the instruction at position `k` defines a general register, no instruction between it
and position `n` releases it. -/
def Unreleased (f : Func) (k n : Nat) : Prop :=
  ∀ j ∈ f.instructions[k]?, j.opcode.place? = some .general →
    ∀ o ∈ (f.instructions.take n).drop (k + 1), o.opcode.releases = false

instance (f : Func) (k n : Nat) : Decidable (f.Unreleased k n) :=
  inferInstanceAs (Decidable (∀ j ∈ f.instructions[k]?, _))

/-- A function that names no hardware, in which every register is defined once and before it
is read, and no general register is released between its definition and a use. -/
structure ReleaseSafe (f : Func) : Prop where
  plain : ∀ i ∈ f.instructions, ∀ op ∈ i.operands, op.isHardware = false
  distinct : (f.args.map Prod.snd ++ f.instructions.filterMap Instruction.defines?).Nodup
  ordered : ∀ k < f.instructions.length, ∀ n < f.instructions.length, f.Uses k n → k < n
  unreleased : ∀ k < f.instructions.length, ∀ n < f.instructions.length, f.Uses k n →
    f.Unreleased k n

instance (f : Func) : Decidable f.ReleaseSafe :=
  decidable_of_iff
    ((∀ i ∈ f.instructions, ∀ op ∈ i.operands, op.isHardware = false) ∧
      (f.args.map Prod.snd ++ f.instructions.filterMap Instruction.defines?).Nodup ∧
      (∀ k < f.instructions.length, ∀ n < f.instructions.length, f.Uses k n → k < n) ∧
      ∀ k < f.instructions.length, ∀ n < f.instructions.length, f.Uses k n → f.Unreleased k n)
    ⟨fun ⟨hplain, hdistinct, hordered, hunreleased⟩ =>
      ⟨hplain, hdistinct, hordered, hunreleased⟩, fun h =>
      ⟨h.plain, h.distinct, h.ordered, h.unreleased⟩⟩

/-- What holds at the entry of a function: no variable has a slot yet, and the arguments are
where they were passed. -/
structure Starts {V W : Type*} (f : Func) (σ τ : Machine V W) : Prop where
  frame : σ.frame = 0
  world : τ.world = σ.world
  args : ∀ k arg, f.args[k]? = some arg →
    τ.cells (.argument (UInt32.ofNat k)) = σ.cells (.reg arg.2)

variable {V W : Type*} {M : Meaning V W} {f : Func} {s t : Storage} {i : Instruction}
  {js : List Instruction} {σ τ : Machine V W} {n : Nat} {name : RegName}

/-- At the entry the executions agree. -/
theorem Starts.agrees (h : f.Starts σ τ) : M.Agrees (Storage.ofArgs f.args) σ τ := by
  refine ⟨h.world, h.frame, fun name hlive => ?_, nofun⟩
  obtain ⟨_, hmem, -⟩ | ⟨index, hmem, hres⟩ | ⟨_, hmem, -⟩ | ⟨_, hmem, -⟩ :=
    Storage.resolve_of_live hlive
  · cases hmem
  · rw [Storage.ofArgs, List.mem_reverse, List.mem_mapIdx] at hmem
    obtain ⟨k, hk, heq⟩ := hmem
    obtain ⟨rfl, rfl⟩ := Prod.mk.inj heq
    rw [hres]
    exact h.args k _ (List.getElem?_eq_getElem hk)
  · cases hmem
  · cases hmem

/-- What an instruction reads is live when it is reached. -/
theorem ReleaseSafe.mem_live (h : f.ReleaseSafe) (hres : f.Resolvable)
    (hi : f.instructions[n]? = some i)
    (hrun : (Storage.ofArgs f.args).assignAll (f.instructions.take n) = .ok (s, js))
    (hdefined : f.DefinedBefore n name) (hread : .reg name ∈ i.reads) : name ∈ s.live := by
  obtain harg | ⟨j, hj, hname⟩ := hdefined
  · exact List.mem_append_left _ ((Storage.mem_kept_assignAll hrun).mpr (.inl harg))
  have hresult := (hres.result?_eq (List.mem_of_mem_take hj)).trans hname
  by_cases hgeneral : j.opcode.place? = some .general
  · obtain ⟨k, hk⟩ := List.getElem?_of_mem hj
    have hn : n < f.instructions.length := (List.getElem?_eq_some_iff.mp hi).1
    obtain ⟨hkn, hkj⟩ : k < n ∧ f.instructions[k]? = some j := by
      simpa [List.getElem?_take] using hk
    have huses : f.Uses k n := ⟨j, hkj, i, hi, name, hname, hread⟩
    rw [← take_append_cons_drop hk] at hrun
    refine List.mem_append_right _ (Storage.mem_current_of_unreleased hrun hresult hgeneral ?_)
    exact h.unreleased k (Nat.lt_trans hkn hn) n hn huses j hkj hgeneral
  · exact List.mem_append_left _
      ((Storage.mem_kept_assignAll hrun).mpr (.inr ⟨j, hj, hresult, hgeneral⟩))

/-- Every instruction is ready when it is reached. -/
theorem ReleaseSafe.ready (h : f.ReleaseSafe) (hres : f.Resolvable)
    (hi : f.instructions[n]? = some i)
    (hrun : (Storage.ofArgs f.args).assignAll (f.instructions.take n) = .ok (s, js)) :
    s.Ready i := by
  have hn : n < f.instructions.length := (List.getElem?_eq_some_iff.mp hi).1
  have hresolvable := hres n i hi
  have hne : ∀ name, .reg name ∈ i.reads → i.defines? ≠ some name := fun name hread hname =>
    Nat.lt_irrefl n (h.ordered n hn n hn ⟨i, hi, i, hi, name, hname, hread⟩)
  refine ⟨h.plain i (List.mem_of_getElem? hi), hresolvable.mono fun name => hres.mem_names hrun,
    fun name hname hknown => ?_, fun name hread => ?_, hne⟩
  · exact DistinctNames.not_definedBefore h.distinct hi hname
      (definedBefore_of_mem_names hrun hknown)
  · refine h.mem_live hres hi hrun ?_ hread
    obtain hsource | harg := List.mem_append.mp hread
    · exact (hresolvable.sources name hsource).2.resolve_right (hne name hread)
    · exact (hresolvable.args name harg).2

/-- **A run** keeps the executions in agreement, at every point of a function. -/
theorem agrees_take (hsafe : f.ReleaseSafe) (hres : f.Resolvable) (hstart : f.Starts σ τ)
    (hrun : (Storage.ofArgs f.args).assignAll (f.instructions.take n) = .ok (s, js)) :
    M.Agrees s (M.run σ (f.instructions.take n)) (M.run τ js) := by
  refine Storage.assignAll_induction
    (P := fun is js s => is <+: f.instructions → M.Agrees s (M.run σ is) (M.run τ js))
    (fun _ => hstart.agrees) ?_ hrun ⟨_, List.take_append_drop n _⟩
  intro is js r i r' i' his ih hi hsub
  obtain ⟨rest, hrest⟩ := hsub
  have hat : f.instructions[is.length]? = some i := by simp [← hrest]
  have htake : f.instructions.take is.length = is := by simp [← hrest]
  have hready := hsafe.ready hres hat (by rw [htake]; exact his)
  have hagrees := ih ⟨[i] ++ rest, by rw [← hrest, List.append_assoc]⟩
  rw [Meaning.run, Meaning.run, List.foldl_append, List.foldl_append]
  exact hagrees.step (Storage.bounded_assignAll his) hready hi

end Func

/-- **Faithfulness.** Let a function of an accepted module be release-safe, and be executed
from its entry before and after storage has been assigned. Then at every instruction the
operands hold, when they are read, the values of the registers that they replace, and the
place of the result holds its value afterwards. -/
theorem Module.lower_faithful {V W : Type*} (M : Meaning V W) {m m' : Module}
    (h : m.lower = .ok m') {k : Nat} {f : Func} (hf : m.functions[k]? = some f)
    (hbody : f.isExternal = false) (hsafe : f.ReleaseSafe) {σ τ : Machine V W}
    (hstart : f.Starts σ τ) :
    ∃ g, m'.functions[k]? = some g ∧ g.instructions.length = f.instructions.length ∧
      ∀ (n : Nat) (i : Instruction), f.instructions[n]? = some i →
        ∃ i', g.instructions[n]? = some i' ∧
          M.Follows (M.run σ (f.instructions.take n)) (M.run τ (g.instructions.take n)) i i' := by
  obtain ⟨g, hg, hlower⟩ := Module.exists_function_at h hf
  rw [Func.lowerBody_eq_lower hbody] at hlower
  have hres := Func.resolvable_of_lower hlower
  obtain ⟨s, blocks, hassign, rfl, -⟩ := Func.lower_eq_ok_iff.mp hlower
  have hrun := Storage.assignBlocks_flatten hassign
  refine ⟨_, hg, Storage.length_assignAll hrun, fun n i hi => ?_⟩
  obtain ⟨r, r', i', htake, hi', hn⟩ := Storage.assignAll_at hrun hi
  refine ⟨i', hn, ?_⟩
  exact (Func.agrees_take hsafe hres hstart htake).follows (hsafe.ready hres hi htake) hi'

/-- Integer arithmetic with a memory of one cell, and calls that double their argument. -/
def oneCellMeaning : Meaning Int Int where
  constant
    | .imm value => value.toInt
    | _ => 0
  slotAddress depth := -Int.ofNat depth
  perform op memory :=
    match op.opcode with
    | .store => (0, op.src1.getD 0)
    | .load => (memory, memory)
    | .call => (2 * op.args.headD 0, memory)
    | _ => (op.src1.getD 0 + op.src2.getD 0, memory)

/-- An entry at which one cell holds 21. -/
def entryWith (c : Cell) : Machine Int Int where
  cells := Function.update (fun _ => 0) c 21
  frame := 0
  world := 0

/-- The call reuses the general register of the value that it is passed, and the addition
after it still reads the result of the call. -/
theorem passAndAdd_faithful :
    ∃ m', (passAndAdd (.num 2)).lower = .ok m' ∧
    ∃ f, (passAndAdd (.num 2)).functions[1]? = some f ∧ f.isExternal = false ∧
      f.ReleaseSafe ∧ f.Starts (entryWith (.reg (.named "n"))) (entryWith (.argument 0)) ∧
    ∃ g, m'.functions[1]? = some g ∧ g.instructions.length = f.instructions.length ∧
      ∀ (n : Nat) (i : Instruction), f.instructions[n]? = some i →
        ∃ i', g.instructions[n]? = some i' ∧
          oneCellMeaning.Follows
            (oneCellMeaning.run (entryWith (.reg (.named "n"))) (f.instructions.take n))
            (oneCellMeaning.run (entryWith (.argument 0)) (g.instructions.take n)) i i' := by
  obtain ⟨m', hm⟩ : ∃ m', (passAndAdd (.num 2)).lower = .ok m' := ⟨_, rfl⟩
  obtain ⟨f, hf, hbody, hsafe, hstart⟩ :
      ∃ f, (passAndAdd (.num 2)).functions[1]? = some f ∧ f.isExternal = false ∧
        f.ReleaseSafe ∧ f.Starts (entryWith (.reg (.named "n"))) (entryWith (.argument 0)) := by
    refine ⟨_, rfl, rfl, by decide, rfl, rfl, ?_⟩
    rintro (_ | k) arg harg
    · obtain rfl := Option.some.inj harg
      rfl
    · cases harg
  exact ⟨m', hm, f, hf, hbody, hsafe, hstart,
    Module.lower_faithful oneCellMeaning hm hf hbody hsafe hstart⟩

end RegIR
