import RegIR.Proofs.Build.Blocks
import Mathlib.Data.List.Perm.Basic

/-!
# Bookkeeping of blocks

A function numbers its blocks as they are added, and finds them by these numbers whatever is added
or inserted later. Here the operations on the blocks of a function are data, run one after the
other; one that faults is noted with its fault, and the next one goes on from there.

## Editing in place

A function is changed in place: the check, the counter and the list of blocks are touched one after
the other, and whatever has been written when a fault occurs stays written. `Edit` is a computation
of this kind. That the operations, written in this form, agree with `Func.addBlock`,
`Func.addBlockAfter` and `Func.appendTo?` says that every fault comes before the first write.

## Main results

* `BlockOp.runOn_edit`: an operation in place does what it does as a function, and faults before it
  writes.
* `Recorded.step`, `recorded_runAll`: what is known of the blocks from the log of the operations.
-/

namespace RegIR

/-! ### Editing in place -/

/-- A computation that changes a function in place. If it faults, the function stays as it has been
written until then. -/
abbrev Edit (α : Type) := ExceptT Fault (StateM Func) α

namespace Edit

variable {α : Type} {f : Func}

/-- Run a computation: its outcome, and the function that it leaves. -/
def runOn (x : Edit α) (f : Func) : Checked α × Func :=
  StateT.run (ExceptT.run x) f

/-- Take the next number for a block. -/
def takeId : Edit UInt32 := do
  let id := (← get).nextBlockId
  let next ← successor32 id
  modify fun f => { f with nextBlockId := next }
  return id

/-- Number a block and put it at the end. -/
def addBlock (b : Block) : Edit UInt32 := do
  (← get).checkNewBlock b
  let id ← takeId
  modify fun f => { f with blocks := f.blocks ++ [{ b with id := id }] }
  return id

/-- Number a block and insert it behind the block numbered `after`. -/
def addBlockAfter (after : UInt32) (b : Block) : Edit UInt32 := do
  (← get).checkNewBlock b
  match (← get).blocks.findIdx? (·.id == after) with
  | none => throw (.missingBlock (← get).name after)
  | some position =>
    let id ← takeId
    modify fun f => { f with blocks := f.blocks.insertIdx (position + 1) { b with id := id } }
    return id

/-- Add an instruction at the end of the block numbered `id`. -/
def append (id : UInt32) (i : Instruction) : Edit Unit := do
  match (← get).appendTo? id i with
  | some f => set f
  | none => throw (.missingBlock (← get).name id)

/-- A result together with the changed function, or a fault together with the old one. -/
def settle (f : Func) : Checked (α × Func) → Checked α × Func
  | .ok (a, g) => (.ok a, g)
  | .error e => (.error e, f)

/-! ### Running, step by step -/

/-- A second computation goes on with what the first one leaves. -/
theorem runOn_bind_ok {β : Type} {x : Edit α} {k : α → Edit β} {a : α} {g : Func}
    (hx : x.runOn f = (.ok a, g)) : (x >>= k).runOn f = (k a).runOn g := by
  rw [runOn] at hx
  rw [runOn, ExceptT.run_bind, StateT.run_bind, hx]
  rfl

/-- After a fault nothing is done any more. -/
theorem runOn_bind_error {β : Type} {x : Edit α} {k : α → Edit β} {e : Fault} {g : Func}
    (hx : x.runOn f = (.error e, g)) : (x >>= k).runOn f = (.error e, g) := by
  rw [runOn] at hx
  rw [runOn, ExceptT.run_bind, StateT.run_bind, hx]
  rfl

/-- Looking at the function writes nothing. -/
theorem runOn_get {k : Func → Edit α} : (get >>= k).runOn f = (k f).runOn f :=
  runOn_bind_ok rfl

/-- A check writes nothing. -/
theorem runOn_check {β : Type} {x : Checked β} {k : β → Edit α} :
    (liftM x >>= k).runOn f =
      match x with
      | .ok a => (k a).runOn f
      | .error e => (.error e, f) := by
  rcases x with e | a
  · exact runOn_bind_error rfl
  · exact runOn_bind_ok rfl

/-- A number is taken if there is a next one; otherwise nothing is written. -/
theorem runOn_takeId {k : UInt32 → Edit α} :
    (takeId >>= k).runOn f =
      match successor32 f.nextBlockId with
      | .ok next => (k f.nextBlockId).runOn { f with nextBlockId := next }
      | .error e => (.error e, f) := by
  rcases hnext : successor32 f.nextBlockId with e | next
  · refine runOn_bind_error ?_
    rw [takeId, runOn_get, runOn_check, hnext]
  · refine runOn_bind_ok ?_
    rw [takeId, runOn_get, runOn_check, hnext]
    rfl

/-- A block is added in place as it is added to a function, and a fault comes before any write. -/
theorem runOn_addBlock (b : Block) : (addBlock b).runOn f = settle f (f.addBlock b) := by
  rw [addBlock, runOn_get, runOn_check, Func.addBlock]
  rcases f.checkNewBlock b with e | u
  · rfl
  · dsimp only
    rw [runOn_takeId]
    rcases successor32 f.nextBlockId with e | next <;> rfl

/-- The same for a block that is inserted. -/
theorem runOn_addBlockAfter (after : UInt32) (b : Block) :
    (addBlockAfter after b).runOn f = settle f (f.addBlockAfter after b) := by
  rw [addBlockAfter, runOn_get, runOn_check, Func.addBlockAfter]
  rcases f.checkNewBlock b with e | u
  · rfl
  · dsimp only
    rw [runOn_get]
    rcases hposition : f.blocks.findIdx? (·.id == after) with - | position
    · simp only [hposition]
      rfl
    · simp only [hposition]
      rw [runOn_takeId]
      rcases successor32 f.nextBlockId with e | next <;> rfl

/-- An instruction is appended in place as it is appended to a function. -/
theorem runOn_append (id : UInt32) (i : Instruction) :
    (append id i).runOn f =
      settle f (match f.appendTo? id i with
        | some g => .ok ((), g)
        | none => .error (.missingBlock f.name id)) := by
  rw [append, runOn_get]
  rcases f.appendTo? id i with - | g <;> rfl

/-- A result that is only wrapped. -/
theorem runOn_map {β : Type} {x : Edit α} {k : α → β} {r : Checked (α × Func)}
    (hx : x.runOn f = settle f r) :
    (k <$> x).runOn f = settle f (r.map fun p => (k p.1, p.2)) := by
  rw [map_eq_pure_bind]
  rcases r with e | ⟨a, g⟩
  · exact runOn_bind_error hx
  · exact runOn_bind_ok hx

end Edit

/-! ### Operations -/

/-- An operation on the blocks of a function. -/
inductive BlockOp where
  | add (b : Block)
  | addAfter (after : UInt32) (b : Block)
  | append (id : UInt32) (i : Instruction)
deriving DecidableEq, Repr

namespace BlockOp

variable {f g : Func} {op : BlockOp}

/-- Carry out an operation in place. The answer is the number that is given out, if one is. -/
def edit : BlockOp → Edit (Option UInt32)
  | add b => some <$> Edit.addBlock b
  | addAfter after b => some <$> Edit.addBlockAfter after b
  | append id i => (fun _ => none) <$> Edit.append id i

/-- What an operation makes of a function. -/
def apply (f : Func) : BlockOp → Checked (Option UInt32 × Func)
  | add b => (f.addBlock b).map fun p => (some p.1, p.2)
  | addAfter after b => (f.addBlockAfter after b).map fun p => (some p.1, p.2)
  | append id i =>
      match f.appendTo? id i with
      | some g => .ok (none, g)
      | none => .error (.missingBlock f.name id)

/-- **In place.** An operation in place makes of a function what it should, and a fault comes before
any write. -/
theorem runOn_edit (f : Func) (op : BlockOp) : op.edit.runOn f = Edit.settle f (op.apply f) := by
  cases op with
  | add b => exact Edit.runOn_map (Edit.runOn_addBlock b)
  | addAfter after b => exact Edit.runOn_map (Edit.runOn_addBlockAfter after b)
  | append id i =>
      refine (Edit.runOn_map (Edit.runOn_append id i)).trans ?_
      rw [apply]
      rcases f.appendTo? id i with - | g <;> rfl

/-- The block that an operation adds. -/
def block? : BlockOp → Option Block
  | add b | addAfter _ b => some b
  | append _ _ => none

/-- A block that is added gets a number. -/
theorem eq_ok_of_map {x : Checked (UInt32 × Func)} {r : Option UInt32}
    (h : x.map (fun p => (some p.1, p.2)) = .ok (r, g)) : ∃ id, x = .ok (id, g) ∧ r = some id := by
  rcases x with e | ⟨id, g'⟩
  · cases h
  · cases h
    exact ⟨id, rfl, rfl⟩

/-- What an operation that succeeds does: a block is put somewhere, or an instruction is added. -/
theorem apply_eq_ok {r : Option UInt32} (h : op.apply f = .ok (r, g)) :
    (∃ b id, op.block? = some b ∧ r = some id ∧ f.Inserts b id g) ∨
      ∃ id i, op = append id i ∧ r = none ∧ f.Appends id i g := by
  cases op with
  | add b =>
      obtain ⟨id, hadd, rfl⟩ := eq_ok_of_map h
      exact .inl ⟨b, id, rfl, rfl, Func.inserts_of_addBlock hadd⟩
  | addAfter after b =>
      obtain ⟨id, hadd, rfl⟩ := eq_ok_of_map h
      exact .inl ⟨b, id, rfl, rfl, Func.inserts_of_addBlockAfter hadd⟩
  | append id i =>
      rcases happend : f.appendTo? id i with - | g'
      · simp [apply, happend] at h
      · simp only [apply, happend, Except.ok.injEq, Prod.mk.injEq] at h
        obtain ⟨rfl, rfl⟩ := h
        exact .inr ⟨id, i, rfl, rfl, Func.appends_of_appendTo? happend⟩

/-- When an operation may be carried out: a new block needs a function with a body, a new name and
another number after its own, and any other block that is named must be there. -/
def Allowed (f : Func) : BlockOp → Prop
  | add b => f.linkage ≠ .external ∧ (∀ c ∈ f.blocks, c.name ≠ b.name) ∧
      f.nextBlockId.toNat + 1 < UInt32.size
  | addAfter after b => f.linkage ≠ .external ∧ (∀ c ∈ f.blocks, c.name ≠ b.name) ∧
      (∃ c ∈ f.blocks, c.id = after) ∧ f.nextBlockId.toNat + 1 < UInt32.size
  | append id _ => ∃ c ∈ f.blocks, c.id = id

end BlockOp

/-! ### Success -/

/-- Inserting behind an element of a list. -/
theorem insertIdx_behind {α : Type} (before : List α) (x a : α) (rest : List α) :
    (before ++ x :: rest).insertIdx (before.length + 1) a = before ++ x :: a :: rest := by
  rw [insertIdx_eq_append a (by simp)]
  simp [List.take_append, List.drop_append, List.take_of_length_le, List.drop_eq_nil_of_le]

/-- The first position that passes a test, where the list is cut. -/
theorem findIdx?_eq_some_iff_append {α : Type} {p : α → Bool} {xs : List α} {n : Nat} :
    xs.findIdx? p = some n ↔
      ∃ (before : List α) (x : α) (rest : List α), xs = before ++ x :: rest ∧
        before.length = n ∧ p x = true ∧ ∀ a ∈ before, p a = false := by
  constructor
  · intro h
    obtain ⟨hn, hp, hbefore⟩ := List.findIdx?_eq_some_iff_getElem.mp h
    refine ⟨xs.take n, xs[n], xs.drop (n + 1), ?_, ?_, hp, ?_⟩
    · rw [List.getElem_cons_drop, List.take_append_drop]
    · rw [List.length_take]
      omega
    · intro a ha
      obtain ⟨k, hk, rfl⟩ := List.mem_take_iff_getElem.mp ha
      simpa using hbefore k (by omega)
  · rintro ⟨before, x, rest, rfl, rfl, hx, hbefore⟩
    have hnone : before.findIdx? p = none := by simpa using hbefore
    simp [List.findIdx?_append, hnone, List.findIdx?_cons, hx]

namespace Func

variable {f g : Func} {b : Block} {id after : UInt32}

/-- A new block may be added to a function with a body under a new name. -/
theorem checkNewBlock_eq_ok_iff {u : Unit} :
    f.checkNewBlock b = .ok u ↔ f.linkage ≠ .external ∧ ∀ c ∈ f.blocks, c.name ≠ b.name := by
  have hnew : (f.blockNamed? b.name).isSome = false ↔ ∀ c ∈ f.blocks, c.name ≠ b.name := by
    simp [blockNamed?]
  unfold checkNewBlock
  by_cases hext : f.linkage = .external
  · simp [isExternal, hext]
  · by_cases hname : (f.blockNamed? b.name).isSome = true
    · simp [isExternal, hext, hname, ← hnew]
    · simp [isExternal, hext, hname, ← hnew]

/-- Adding a block succeeds where it is allowed, and puts the block at the end. -/
theorem addBlock_eq_ok_iff :
    f.addBlock b = .ok (id, g) ↔
      f.linkage ≠ .external ∧ (∀ c ∈ f.blocks, c.name ≠ b.name) ∧ id = f.nextBlockId ∧
        ∃ next : UInt32, next.toNat = id.toNat + 1 ∧
          g = { f with blocks := f.blocks ++ [{ b with id := id }], nextBlockId := next } := by
  simp only [addBlock, bind_eq_ok_iff, checkNewBlock_eq_ok_iff, successor32_eq_ok_iff,
    pure_eq_ok_iff, Prod.mk.injEq]
  constructor
  · rintro ⟨-, ⟨hext, hname⟩, next, hnext, rfl, rfl⟩
    exact ⟨hext, hname, rfl, next, hnext, rfl⟩
  · rintro ⟨hext, hname, rfl, next, hnext, rfl⟩
    exact ⟨(), ⟨hext, hname⟩, next, hnext, rfl, rfl⟩

/-- Inserting a block succeeds where it is allowed, and puts the block directly behind the first one
that has the number `after`. -/
theorem addBlockAfter_eq_ok_iff :
    f.addBlockAfter after b = .ok (id, g) ↔
      f.linkage ≠ .external ∧ (∀ c ∈ f.blocks, c.name ≠ b.name) ∧ id = f.nextBlockId ∧
        ∃ (before : List Block) (c : Block) (rest : List Block) (next : UInt32),
          f.blocks = before ++ c :: rest ∧ c.id = after ∧ (∀ a ∈ before, a.id ≠ after) ∧
          next.toNat = id.toNat + 1 ∧
          g = { f with blocks := before ++ c :: { b with id := id } :: rest
                       nextBlockId := next } := by
  simp only [addBlockAfter, bind_eq_ok_iff, checkNewBlock_eq_ok_iff]
  constructor
  · rintro ⟨-, ⟨hext, hname⟩, hadd⟩
    rcases hposition : f.blocks.findIdx? (·.id == after) with - | position
    · rw [hposition] at hadd
      cases hadd
    · rw [hposition] at hadd
      obtain ⟨next, hnext, hadd⟩ := bind_eq_ok_iff.mp hadd
      obtain ⟨rfl, rfl⟩ := Prod.mk.inj (pure_eq_ok_iff.mp hadd)
      obtain ⟨before, c, rest, hblocks, rfl, hc, hbefore⟩ :=
        findIdx?_eq_some_iff_append.mp hposition
      refine ⟨hext, hname, rfl, before, c, rest, next, hblocks, by simpa using hc,
        by simpa using hbefore, successor32_eq_ok_iff.mp hnext, ?_⟩
      rw [hblocks, insertIdx_behind]
  · rintro ⟨hext, hname, rfl, before, c, rest, next, hblocks, hc, hbefore, hnext, rfl⟩
    have hposition : f.blocks.findIdx? (·.id == after) = some before.length :=
      findIdx?_eq_some_iff_append.mpr
        ⟨before, c, rest, hblocks, rfl, by simpa using hc, by simpa using hbefore⟩
    refine ⟨(), ⟨hext, hname⟩, ?_⟩
    rw [hposition]
    refine bind_eq_ok_iff.mpr ⟨next, successor32_eq_ok_iff.mpr hnext, ?_⟩
    rw [hblocks, insertIdx_behind]
    rfl

/-- A counter has a successor below the end of its range. -/
theorem exists_successor_iff {n : UInt32} :
    (∃ next : UInt32, next.toNat = n.toNat + 1) ↔ n.toNat + 1 < UInt32.size := by
  constructor
  · rintro ⟨next, hnext⟩
    exact hnext ▸ next.toNat_lt_size
  · intro hlt
    exact ⟨UInt32.ofNat (n.toNat + 1), UInt32.toNat_ofNat_of_lt' hlt⟩

end Func

/-- **Success.** An operation succeeds exactly where it is allowed. -/
theorem BlockOp.exists_apply_iff (f : Func) (op : BlockOp) :
    (∃ r, op.apply f = .ok r) ↔ op.Allowed f := by
  -- what is answered besides the function does not matter
  have hmap : ∀ {x : Checked (UInt32 × Func)} {k : UInt32 × Func → Option UInt32 × Func},
      (∃ r, x.map k = .ok r) ↔ ∃ id g, x = .ok (id, g) := by
    intro x k
    rcases x with e | ⟨id, g⟩ <;> simp [Except.map]
  cases op with
  | add b =>
      rw [apply, hmap]
      simp only [Func.addBlock_eq_ok_iff, Allowed]
      constructor
      · rintro ⟨id, g, hext, hname, rfl, next, hnext, -⟩
        exact ⟨hext, hname, Func.exists_successor_iff.mp ⟨next, hnext⟩⟩
      · rintro ⟨hext, hname, hlt⟩
        obtain ⟨next, hnext⟩ := Func.exists_successor_iff.mpr hlt
        exact ⟨_, _, hext, hname, rfl, next, hnext, rfl⟩
  | addAfter after b =>
      rw [apply, hmap]
      simp only [Func.addBlockAfter_eq_ok_iff, Allowed]
      constructor
      · rintro ⟨id, g, hext, hname, rfl, before, c, rest, next, hblocks, hc, -, hnext, -⟩
        exact ⟨hext, hname, ⟨c, by simp [hblocks], hc⟩, Func.exists_successor_iff.mp ⟨next, hnext⟩⟩
      · rintro ⟨hext, hname, ⟨c, hc, hid⟩, hlt⟩
        obtain ⟨next, hnext⟩ := Func.exists_successor_iff.mpr hlt
        obtain ⟨d, hd⟩ : ∃ d, f.block? after = some d :=
          Option.isSome_iff_exists.mp (by simpa [Func.block?] using ⟨c, hc, hid⟩)
        obtain ⟨hafter, before, rest, hblocks, hbefore⟩ := Func.block?_eq_some_iff.mp hd
        exact ⟨_, _, hext, hname, rfl, before, d, rest, next, hblocks, hafter, hbefore, hnext, rfl⟩
  | append id i =>
      have hblock : (f.block? id).isSome = true ↔ ∃ c ∈ f.blocks, c.id = id := by
        simp [Func.block?]
      rw [Allowed, ← hblock, apply, Func.appendTo?]
      by_cases hsome : (f.block? id).isSome = true
      · simp [hsome]
      · simp [hsome]

/-! ### Logs -/

/-- An operation that was carried out, with its outcome: the number that it gave out, if it gave
one, or its fault. -/
structure BlockEntry where
  op : BlockOp
  outcome : Checked (Option UInt32)

namespace BlockEntry

/-- The block that was added, under its number. -/
def created? (e : BlockEntry) : Option (UInt32 × Block) :=
  match e.op.block?, e.outcome with
  | some b, .ok (some id) => some (id, b)
  | _, _ => none

/-- The instruction that was added to the block of a number. -/
def appended? (id : UInt32) (e : BlockEntry) : Option Instruction :=
  match e.op, e.outcome with
  | .append id' i, .ok _ => if id' = id then some i else none
  | _, _ => none

/-- The blocks that were added, in the order in which they were. -/
def created (log : List BlockEntry) : List (UInt32 × Block) :=
  log.filterMap created?

/-- The instructions that were added to the block of a number, in the order in which they were. -/
def appended (id : UInt32) (log : List BlockEntry) : List Instruction :=
  log.filterMap (appended? id)

/-- What a block that was added must have become. -/
def blockOf (log : List BlockEntry) (p : UInt32 × Block) : Block :=
  { name := p.2.name, id := p.1, instructions := p.2.instructions ++ appended p.1 log }

/-- An entry that adds no instruction. -/
theorem appended_concat {e : BlockEntry} {log : List BlockEntry} (he : ∀ id, e.appended? id = none)
    (id : UInt32) : appended id (log ++ [e]) = appended id log := by
  simp [appended, he]

/-- Blocks are what they were after an entry that adds no instruction. -/
theorem blockOf_concat {e : BlockEntry} {log : List BlockEntry} (he : ∀ id, e.appended? id = none) :
    blockOf (log ++ [e]) = blockOf log := by
  funext p
  rw [blockOf, appended_concat he, blockOf]

end BlockEntry

/-- Carry out operations one after the other, with a log of what came of them. A fault does not keep
the next operation from being carried out. -/
def BlockOp.runAll : List BlockOp → Func → List BlockEntry × Func
  | [], f => ([], f)
  | op :: ops, f =>
      let (outcome, g) := op.edit.runOn f
      let (log, h) := runAll ops g
      ({ op := op, outcome := outcome } :: log, h)

/-! ### What a log says -/

section Log

variable {log : List BlockEntry} {f g : Func} {b : Block} {id : UInt32} {i : Instruction}

/-- `Recorded log f`: the blocks of a function are what the log says they should be. -/
structure Recorded (log : List BlockEntry) (f : Func) : Prop where
  /-- Numbers and names are unambiguous. -/
  numbered : f.Numbered
  /-- Numbers were given out from one on. -/
  order : (BlockEntry.created log).map (·.1.toNat) = List.range' 1 (BlockEntry.created log).length
  next : f.nextBlockId.toNat = (BlockEntry.created log).length + 1
  /-- The blocks are those that were added, with the instructions that were added to them. -/
  blocks : f.blocks.Perm ((BlockEntry.created log).map (BlockEntry.blockOf log))
  /-- Nothing was added to a block before it had its number. -/
  unused : ∀ id : UInt32, f.nextBlockId.toNat ≤ id.toNat → BlockEntry.appended id log = []

/-- At the start there are no blocks. -/
theorem recorded_nil (hblocks : f.blocks = []) (hnext : f.nextBlockId = 1) : Recorded [] f where
  numbered := .of_nil hblocks
  order := rfl
  next := by rw [hnext]; rfl
  blocks := by rw [hblocks]; rfl
  unused _ _ := rfl

/-- A block more. -/
theorem Recorded.inserts {e : BlockEntry} (hf : Recorded log f) (hins : f.Inserts b id g)
    (hcreated : e.created? = some (id, b)) (happended : ∀ id, e.appended? id = none) :
    Recorded (log ++ [e]) g := by
  have hcreated : BlockEntry.created (log ++ [e]) = BlockEntry.created log ++ [(id, b)] := by
    simp [BlockEntry.created, hcreated]
  have hnumbered := hins.numbered hf.numbered
  obtain ⟨-, rfl, before, rest, next, hblocks, hnext, rfl⟩ := hins
  refine ⟨hnumbered, ?_, ?_, ?_, ?_⟩
  · rw [hcreated, List.map_append, hf.order, List.length_append, List.length_singleton,
      List.range'_1_concat]
    simp [hf.next, Nat.add_comm]
  · rw [hnext, hf.next, hcreated, List.length_append, List.length_singleton]
  · -- nothing was added to the new block, whose number has just been given out
    have hnew : BlockEntry.blockOf log (f.nextBlockId, b) = { b with id := f.nextBlockId } := by
      rw [BlockEntry.blockOf, hf.unused _ (Nat.le_refl _), List.append_nil]
    rw [hcreated, BlockEntry.blockOf_concat happended, List.map_append, List.map_singleton, hnew]
    have hperm := hf.blocks
    rw [hblocks] at hperm
    exact List.perm_middle.trans ((hperm.cons _).trans (List.perm_append_singleton _ _).symm)
  · intro id hid
    rw [BlockEntry.appended_concat happended]
    exact hf.unused id (by simp only at hid; omega)

/-- Of an unambiguous function, an instruction is added to the one block of its number. -/
theorem Func.Appends.blocks_eq_map (happ : f.Appends id i g) (hf : f.Numbered) :
    g.blocks = f.blocks.map fun c => if c.id = id then c.append i else c := by
  obtain ⟨before, c, rest, hblocks, rfl, hbefore, rfl⟩ := happ.grown
  have hids := hf.ids
  rw [hblocks, List.map_append, List.map_cons, List.nodup_append, List.nodup_cons] at hids
  have hrest : ∀ a ∈ rest, a.id ≠ c.id := by
    intro a ha hid
    exact hids.2.1.1 (hid ▸ List.mem_map_of_mem ha)
  have hkept : ∀ {others : List Block}, (∀ a ∈ others, a.id ≠ c.id) →
      others.map (fun a => if a.id = c.id then a.append i else a) = others := by
    intro others hothers
    exact (List.map_congr_left fun a ha => if_neg (hothers a ha)).trans (List.map_id' others)
  rw [hblocks, List.map_append, List.map_cons, if_pos rfl, hkept hbefore, hkept hrest]

/-- An instruction more. -/
theorem Recorded.appends (hf : Recorded log f) (happ : f.Appends id i g)
    (r : Option UInt32) : Recorded (log ++ [⟨.append id i, .ok r⟩]) g := by
  have hcreated : BlockEntry.created (log ++ [⟨.append id i, .ok r⟩]) = BlockEntry.created log := by
    simp [BlockEntry.created, BlockEntry.created?, BlockOp.block?]
  have happended : ∀ id', BlockEntry.appended id' (log ++ [⟨.append id i, .ok r⟩]) =
      BlockEntry.appended id' log ++ if id' = id then [i] else [] := by
    intro id'
    by_cases hid : id = id'
    · simp [BlockEntry.appended, BlockEntry.appended?, hid]
    · simp [BlockEntry.appended, BlockEntry.appended?, hid, Ne.symm hid]
  have hblockOf : BlockEntry.blockOf (log ++ [⟨.append id i, .ok r⟩]) =
      fun p => if (BlockEntry.blockOf log p).id = id then (BlockEntry.blockOf log p).append i
        else BlockEntry.blockOf log p := by
    funext p
    by_cases hid : p.1 = id
    · simp [BlockEntry.blockOf, happended, hid, Block.append]
    · simp [BlockEntry.blockOf, happended, hid]
  have hnumbered := happ.numbered hf.numbered
  have hblocks := happ.blocks_eq_map hf.numbered
  obtain ⟨before, c, rest, hc, hid, -, rfl⟩ := happ.grown
  refine ⟨hnumbered, ?_, ?_, ?_, ?_⟩
  · rw [hcreated]
    exact hf.order
  · rw [hcreated]
    exact hf.next
  · rw [hblocks, hcreated, hblockOf]
    have hperm := hf.blocks.map fun c => if c.id = id then c.append i else c
    rwa [List.map_map] at hperm
  · intro id' hid'
    have hlt := hf.numbered.below c (by simp [hc])
    have hne : id' ≠ id := by
      rintro rfl
      rw [hid] at hlt
      exact absurd hid' (Nat.not_le.mpr hlt)
    rw [happended, hf.unused id' hid', if_neg hne]
    rfl

/-- A fault changes neither the function nor what is recorded. -/
theorem Recorded.faults {op : BlockOp} {e : Fault} (hf : Recorded log f) :
    Recorded (log ++ [⟨op, .error e⟩]) f := by
  have hcreated : BlockEntry.created (log ++ [⟨op, .error e⟩]) = BlockEntry.created log := by
    simp [BlockEntry.created, BlockEntry.created?]
  have happended : ∀ id, BlockEntry.appended? id ⟨op, .error e⟩ = none := by
    simp [BlockEntry.appended?]
  refine ⟨hf.numbered, ?_, ?_, ?_, ?_⟩
  · rw [hcreated]
    exact hf.order
  · rw [hcreated]
    exact hf.next
  · rw [hcreated, BlockEntry.blockOf_concat happended]
    exact hf.blocks
  · intro id hid
    rw [BlockEntry.appended_concat happended]
    exact hf.unused id hid

/-- **Steps.** An operation keeps the record right, whatever comes of it. -/
theorem Recorded.step (hf : Recorded log f) (op : BlockOp) :
    Recorded (log ++ [⟨op, (op.edit.runOn f).1⟩]) (op.edit.runOn f).2 := by
  rw [BlockOp.runOn_edit]
  rcases happly : op.apply f with e | ⟨r, g⟩
  · exact hf.faults
  · rcases BlockOp.apply_eq_ok happly with ⟨b, id, hb, rfl, hins⟩ | ⟨id, i, rfl, rfl, happ⟩
    · refine hf.inserts hins (by simp [BlockEntry.created?, hb, Edit.settle]) ?_
      intro id'
      cases op with
      | add | addAfter => rfl
      | append => cases hb
    · exact hf.appends happ none

/-- **Runs.** After any operations, the blocks are what the log says. -/
theorem recorded_runAll (ops : List BlockOp) (hf : Recorded log f) :
    Recorded (log ++ (BlockOp.runAll ops f).1) (BlockOp.runAll ops f).2 := by
  induction ops generalizing log f with
  | nil => simpa [BlockOp.runAll] using hf
  | cons op ops ih => simpa [BlockOp.runAll] using ih (hf.step op)

/-- Every operation is in the log, in order. -/
theorem map_op_runAll (ops : List BlockOp) (f : Func) :
    (BlockOp.runAll ops f).1.map BlockEntry.op = ops := by
  induction ops generalizing f with
  | nil => rfl
  | cons op ops ih => exact congrArg _ (ih _)

/-- A block that was added is found under its number, with all that was added to it. -/
theorem Recorded.block?_eq (hf : Recorded log f) {p : UInt32 × Block}
    (hp : p ∈ BlockEntry.created log) : f.block? p.1 = some (BlockEntry.blockOf log p) :=
  hf.numbered.block?_of_mem (hf.blocks.mem_iff.mpr (List.mem_map_of_mem hp))

/-- Numbers start at one. -/
theorem Recorded.one_le (hf : Recorded log f) (hb : b ∈ f.blocks) : 1 ≤ b.id.toNat := by
  obtain ⟨p, hp, rfl⟩ := List.mem_map.mp (hf.blocks.mem_iff.mp hb)
  have hmem : p.1.toNat ∈ (BlockEntry.created log).map (·.1.toNat) := List.mem_map_of_mem hp
  rw [hf.order, List.mem_range'_1] at hmem
  exact hmem.1

end Log

/-! ### The record of a function -/

/-- **Bookkeeping.** Start with a function without blocks and carry out any operations on its blocks,
some of which may fault. Numbers and names of blocks are unambiguous, numbers were given out from
one on in the order in which blocks were added, and under each of them the block is found that got
it, with its own instructions and behind them those that were added to it. A block that is inserted
behind another stands directly behind it, all else being where it was. An operation succeeds exactly
where it is allowed, and where it faults nothing has been changed. -/
theorem Func.blocks_recorded (name : String) (linkage : Linkage) (returnType : Ty)
    (ops : List BlockOp) :
    let start : Func := { name := name, linkage := linkage, returnType := returnType }
    let log : List BlockEntry := (BlockOp.runAll ops start).1
    let f : Func := (BlockOp.runAll ops start).2
    (log.map BlockEntry.op = ops ∧
      (f.blocks.map Block.id).Nodup ∧
      (∀ b ∈ f.blocks, 1 ≤ b.id.toNat ∧ b.id.toNat < f.nextBlockId.toNat) ∧
      (f.blocks.map Block.name).Nodup ∧
      (BlockEntry.created log).map (·.1.toNat) = List.range' 1 (BlockEntry.created log).length ∧
      f.blocks.Perm ((BlockEntry.created log).map (BlockEntry.blockOf log)) ∧
      ∀ p ∈ BlockEntry.created log, f.block? p.1 = some (BlockEntry.blockOf log p)) ∧
    (∀ (f g : Func) (after : UInt32) (b : Block) (id : UInt32),
      f.addBlockAfter after b = .ok (id, g) →
        ∃ (before : List Block) (c : Block) (rest : List Block),
          f.blocks = before ++ c :: rest ∧ c.id = after ∧ (∀ a ∈ before, a.id ≠ after) ∧
          g = { f with blocks := before ++ c :: { b with id := id } :: rest
                       nextBlockId := g.nextBlockId }) ∧
    (∀ (f : Func) (op : BlockOp), op.edit.runOn f = Edit.settle f (op.apply f)) ∧
    (∀ (f : Func) (op : BlockOp), (∃ r, op.apply f = .ok r) ↔ op.Allowed f) ∧
    ∀ (f g : Func) (op : BlockOp) (e : Fault), op.edit.runOn f = (.error e, g) → g = f := by
  intro start log f
  have hrecord : Recorded log f := by
    simpa using recorded_runAll ops (recorded_nil (f := start) rfl rfl)
  refine ⟨⟨map_op_runAll ops start, hrecord.numbered.ids, ?_, hrecord.numbered.names, hrecord.order,
    hrecord.blocks, fun p hp => hrecord.block?_eq hp⟩, ?_, BlockOp.runOn_edit,
    BlockOp.exists_apply_iff, ?_⟩
  · intro b hb
    exact ⟨hrecord.one_le hb, hrecord.numbered.below b hb⟩
  · intro f g after b id hadd
    obtain ⟨-, -, rfl, before, c, rest, next, hblocks, hc, hbefore, -, rfl⟩ :=
      Func.addBlockAfter_eq_ok_iff.mp hadd
    exact ⟨before, c, rest, hblocks, hc, hbefore, rfl⟩
  · intro f g op e hfault
    rw [BlockOp.runOn_edit] at hfault
    rcases happly : op.apply f with e' | ⟨r, h⟩
    · rw [happly] at hfault
      exact (Prod.mk.inj hfault).2.symm
    · rw [happly] at hfault
      cases hfault

/-- Two blocks, one that is inserted between them, an instruction for the first, and two operations
that fault: a name that is taken and a number that was never given out. -/
def insertBetween : List BlockOp :=
  [.add (.empty "entry"), .add (.empty "exit"), .addAfter 1 (.empty "middle"),
   .append 1 { opcode := .br, dataType := .void, src1 := some (.label "exit") },
   .add (.empty "exit"), .append 4 { opcode := .retVoid, dataType := .void }]

/-- The layout is not the order of the numbers, and the first block has kept its number. -/
theorem insertBetween_recorded :
    let f : Func :=
      (BlockOp.runAll insertBetween
        { name := "main", linkage := .exported, returnType := .void }).2
    f.blocks.map (fun b => (b.name, b.id)) = [("entry", 1), ("middle", 3), ("exit", 2)] ∧
      f.block? 1 = some
        { name := "entry", id := 1,
          instructions := [{ opcode := .br, dataType := .void, src1 := some (.label "exit") }] } :=
  ⟨by decide +kernel,
    (Func.blocks_recorded "main" .exported .void insertBetween).1.2.2.2.2.2.2 (1, .empty "entry")
      (by decide +kernel)⟩

end RegIR
