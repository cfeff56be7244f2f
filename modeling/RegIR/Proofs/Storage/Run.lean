import Mathlib.Data.List.Induction
import RegIR.Proofs.Storage.Step

/-!
# Storage assignment, whole functions

A function is assigned storage instruction by instruction in layout order; where one block
ends and the next begins makes no difference. A function is then accepted when no virtual
register is left in it, and a module when every function with a body is.

## Main results

* `Storage.assignAll_induction`: what holds at the start and is preserved by every
  instruction holds at the end.
* `Storage.assignAll_at`, `Storage.assignAll_at_result`: the storage at which an instruction
  in the middle is reached.
* `Storage.assignBlocks_flatten`, `Storage.exists_assignBlocks`: blocks are assigned like one
  list of instructions.
* `Func.lower_eq_ok_iff`, `Func.lower_eq_error_iff`, `Module.lower_eq_ok_iff`,
  `Module.lower_eq_error_iff`: what it means that a function or a module is accepted, and
  that it is rejected for a register.
-/

namespace RegIR

/-- The instructions of a function in layout order. -/
def Func.instructions (f : Func) : List Instruction :=
  f.blocks.flatMap Block.instructions

/-- A list, split at one of its elements. -/
theorem take_append_cons_drop {α : Type} {xs : List α} {n : Nat} {x : α}
    (h : xs[n]? = some x) : xs.take n ++ x :: xs.drop (n + 1) = xs := by
  obtain ⟨hn, rfl⟩ := List.getElem?_eq_some_iff.mp h
  rw [← List.drop_eq_getElem_cons hn, List.take_append_drop]

namespace Storage

/-! ### Lists of instructions -/

section Lists

variable {s t : Storage} {is js : List Instruction}

/-- The first instruction, then the others. -/
theorem assignAll_cons_eq_ok_iff {i : Instruction} :
    s.assignAll (i :: is) = .ok (t, js) ↔
      ∃ r i' is', s.assign i = .ok (r, i') ∧ r.assignAll is = .ok (t, is') ∧ js = i' :: is' := by
  simp only [assignAll, bind_eq_ok_iff, pure_eq_ok_iff, Prod.exists, Prod.mk.injEq]
  constructor
  · rintro ⟨r, i', hi, _, is', his, rfl, rfl⟩
    exact ⟨r, i', is', hi, his, rfl⟩
  · rintro ⟨r, i', is', hi, his, rfl⟩
    exact ⟨r, i', hi, t, is', his, rfl, rfl⟩

/-- One list of instructions, then another. -/
theorem assignAll_append_eq_ok_iff {is₁ is₂ : List Instruction} :
    s.assignAll (is₁ ++ is₂) = .ok (t, js) ↔
      ∃ r js₁ js₂, s.assignAll is₁ = .ok (r, js₁) ∧ r.assignAll is₂ = .ok (t, js₂) ∧
        js = js₁ ++ js₂ := by
  induction is₁ generalizing s js with
  | nil =>
      constructor
      · intro h
        exact ⟨s, [], js, rfl, h, rfl⟩
      · rintro ⟨r, js₁, js₂, h₁, h₂, rfl⟩
        obtain ⟨rfl, rfl⟩ := Prod.mk.inj (pure_eq_ok_iff.mp h₁)
        exact h₂
  | cons i is₁ ih =>
      simp only [List.cons_append, assignAll_cons_eq_ok_iff, ih]
      constructor
      · rintro ⟨r, i', _, hi, ⟨r', js₁, js₂, h₁, h₂, rfl⟩, rfl⟩
        exact ⟨r', i' :: js₁, js₂, ⟨r, i', js₁, hi, h₁, rfl⟩, h₂, rfl⟩
      · rintro ⟨r', _, js₂, ⟨r, i', js₁, hi, h₁, rfl⟩, h₂, rfl⟩
        exact ⟨r, i', _, hi, ⟨r', js₁, js₂, h₁, h₂, rfl⟩, rfl⟩

/-- A single instruction. -/
theorem assignAll_singleton_eq_ok_iff {i : Instruction} :
    s.assignAll [i] = .ok (t, js) ↔ ∃ i', s.assign i = .ok (t, i') ∧ js = [i'] := by
  rw [assignAll_cons_eq_ok_iff]
  constructor
  · rintro ⟨r, i', is', hi, his, rfl⟩
    obtain ⟨rfl, rfl⟩ := Prod.mk.inj (pure_eq_ok_iff.mp his)
    exact ⟨i', hi, rfl⟩
  · rintro ⟨i', hi, rfl⟩
    exact ⟨t, i', [], hi, rfl, rfl⟩

/-- **Induction along a run.** What holds of the empty prefix and is preserved by every
instruction holds of all of them. -/
theorem assignAll_induction {P : List Instruction → List Instruction → Storage → Prop}
    (nil : P [] [] s)
    (snoc : ∀ {is js r i r' i'}, s.assignAll is = .ok (r, js) → P is js r →
      r.assign i = .ok (r', i') → P (is ++ [i]) (js ++ [i']) r')
    (h : s.assignAll is = .ok (t, js)) : P is js t := by
  induction is using List.reverseRecOn generalizing t js with
  | nil =>
      obtain ⟨rfl, rfl⟩ := Prod.mk.inj (pure_eq_ok_iff.mp h)
      exact nil
  | append_singleton is i ih =>
      obtain ⟨r, js, _, his, hlast, rfl⟩ := assignAll_append_eq_ok_iff.mp h
      obtain ⟨i', hi', rfl⟩ := assignAll_singleton_eq_ok_iff.mp hlast
      exact snoc his (ih his) hi'

/-- Instructions are replaced one by one. -/
theorem length_assignAll (h : s.assignAll is = .ok (t, js)) : js.length = is.length :=
  assignAll_induction (P := fun is js _ => js.length = is.length) rfl
    (fun _ ih _ => by simp [ih]) h

/-- An instruction in the middle is reached after those before it. -/
theorem assignAll_at {n : Nat} {i : Instruction} (h : s.assignAll is = .ok (t, js))
    (hi : is[n]? = some i) :
    ∃ r r' i', s.assignAll (is.take n) = .ok (r, js.take n) ∧ r.assign i = .ok (r', i') ∧
      js[n]? = some i' := by
  have hn : n < is.length := (List.getElem?_eq_some_iff.mp hi).1
  rw [← take_append_cons_drop hi] at h
  obtain ⟨r, js₁, _, h₁, h₂, rfl⟩ := assignAll_append_eq_ok_iff.mp h
  obtain ⟨r', i', js₂, hi', -, rfl⟩ := assignAll_cons_eq_ok_iff.mp h₂
  have hlen : js₁.length = n := by
    rw [length_assignAll h₁, List.length_take_of_le (Nat.le_of_lt hn)]
  refine ⟨r, r', i', ?_, hi', ?_⟩
  · rw [← hlen, List.take_left, hlen]
    exact h₁
  · rw [← hlen, List.getElem?_append_right (Nat.le_refl _)]
    simp

/-- Every instruction of the result comes from the one at its position. -/
theorem assignAll_at_result {n : Nat} {j : Instruction} (h : s.assignAll is = .ok (t, js))
    (hj : js[n]? = some j) :
    ∃ i r r', is[n]? = some i ∧ s.assignAll (is.take n) = .ok (r, js.take n) ∧
      r.assign i = .ok (r', j) := by
  have hn : n < is.length := length_assignAll h ▸ (List.getElem?_eq_some_iff.mp hj).1
  have hi : is[n]? = some is[n] := List.getElem?_eq_getElem hn
  obtain ⟨r, r', i', htake, hassign, hi'⟩ := assignAll_at h hi
  obtain rfl : i' = j := Option.some.inj (hi'.symm.trans hj)
  exact ⟨_, r, r', hi, htake, hassign⟩

end Lists

/-! ### Blocks -/

section Blocks

variable {s t : Storage} {bs cs : List Block}

/-- The first block, then the others. -/
theorem assignBlocks_cons_eq_ok_iff {b : Block} :
    s.assignBlocks (b :: bs) = .ok (t, cs) ↔
      ∃ r is bs', s.assignAll b.instructions = .ok (r, is) ∧
        r.assignBlocks bs = .ok (t, bs') ∧ cs = { b with instructions := is } :: bs' := by
  simp only [assignBlocks, bind_eq_ok_iff, pure_eq_ok_iff, Prod.exists, Prod.mk.injEq]
  constructor
  · rintro ⟨r, is, hb, _, bs', hbs, rfl, rfl⟩
    exact ⟨r, is, bs', hb, hbs, rfl⟩
  · rintro ⟨r, is, bs', hb, hbs, rfl⟩
    exact ⟨r, is, hb, t, bs', hbs, rfl, rfl⟩

/-- The boundaries between blocks make no difference to their instructions. -/
theorem assignBlocks_flatten (h : s.assignBlocks bs = .ok (t, cs)) :
    s.assignAll (bs.flatMap Block.instructions) = .ok (t, cs.flatMap Block.instructions) := by
  induction bs generalizing s cs with
  | nil =>
      obtain ⟨rfl, rfl⟩ := Prod.mk.inj (pure_eq_ok_iff.mp h)
      rfl
  | cons b bs ih =>
      obtain ⟨r, is, bs', hb, hbs, rfl⟩ := assignBlocks_cons_eq_ok_iff.mp h
      rw [List.flatMap_cons, List.flatMap_cons]
      exact assignAll_append_eq_ok_iff.mpr ⟨r, is, _, hb, ih hbs, rfl⟩

/-- Blocks keep their names and their order. -/
theorem map_name_assignBlocks (h : s.assignBlocks bs = .ok (t, cs)) :
    cs.map Block.name = bs.map Block.name := by
  induction bs generalizing s cs with
  | nil =>
      obtain ⟨-, rfl⟩ := Prod.mk.inj (pure_eq_ok_iff.mp h)
      rfl
  | cons b bs ih =>
      obtain ⟨r, is, bs', -, hbs, rfl⟩ := assignBlocks_cons_eq_ok_iff.mp h
      rw [List.map_cons, List.map_cons, ih hbs]

/-- Blocks whose instructions can be assigned storage can be. -/
theorem exists_assignBlocks {js : List Instruction}
    (h : s.assignAll (bs.flatMap Block.instructions) = .ok (t, js)) :
    ∃ cs, s.assignBlocks bs = .ok (t, cs) := by
  induction bs generalizing s js with
  | nil =>
      obtain ⟨rfl, -⟩ := Prod.mk.inj (pure_eq_ok_iff.mp h)
      exact ⟨[], rfl⟩
  | cons b bs ih =>
      rw [List.flatMap_cons] at h
      obtain ⟨r, is, _, hb, hbs, -⟩ := assignAll_append_eq_ok_iff.mp h
      obtain ⟨cs, hcs⟩ := ih hbs
      exact ⟨_, assignBlocks_cons_eq_ok_iff.mpr ⟨r, is, cs, hb, hcs, rfl⟩⟩

end Blocks

end Storage

/-! ### Registers that are left -/

namespace Operand

/-- An operand without a register name is no virtual register. -/
theorem reg?_eq_none {op : Operand} : op.reg? = none ↔ op.isReg = false := by
  simp [isReg]

/-- The name of a virtual register. -/
theorem reg?_eq_some {op : Operand} {name : RegName} : op.reg? = some name ↔ op = .reg name := by
  cases op <;> simp [reg?]

end Operand

/-- All operands of a block, in order. -/
def Block.operands (b : Block) : List Operand :=
  b.instructions.flatMap Instruction.operands

/-- The first register of a block is the first among its operands. -/
theorem Block.firstReg?_eq (b : Block) : b.firstReg? = b.operands.findSome? Operand.reg? := by
  rw [firstReg?, operands]
  induction b.instructions with
  | nil => rfl
  | cons i is ih =>
      rw [List.findSome?_cons, List.flatMap_cons, List.findSome?_append, ih]
      cases i.operands.findSome? Operand.reg? <;> rfl

/-- A block has a first register if a register follows operands that are none. -/
theorem Block.firstReg?_eq_some_iff {b : Block} {reg : RegName} :
    b.firstReg? = some reg ↔
      ∃ before after, b.operands = before ++ .reg reg :: after ∧
        ∀ op ∈ before, op.isReg = false := by
  simp only [firstReg?_eq, List.findSome?_eq_some_iff, Operand.reg?_eq_some,
    Operand.reg?_eq_none]
  constructor
  · rintro ⟨before, op, after, heq, rfl, hbefore⟩
    exact ⟨before, after, heq, hbefore⟩
  · rintro ⟨before, after, heq, hbefore⟩
    exact ⟨before, _, after, heq, rfl, hbefore⟩

/-- A block has no first register if none of its operands is one. -/
theorem Block.firstReg?_eq_none_iff {b : Block} :
    b.firstReg? = none ↔ ∀ op ∈ b.operands, op.isReg = false := by
  simp only [firstReg?_eq, List.findSome?_eq_none_iff, Operand.reg?_eq_none]

/-- A function has no first register if none of its operands is one. -/
theorem Func.firstReg?_eq_none_iff {f : Func} :
    f.firstReg? = none ↔ ∀ i ∈ f.instructions, ∀ op ∈ i.operands, op.isReg = false := by
  simp only [firstReg?, List.findSome?_eq_none_iff, Option.map_eq_none_iff,
    Block.firstReg?_eq_none_iff, Block.operands, instructions, List.mem_flatMap]
  constructor
  · rintro h i ⟨b, hb, hi⟩ op hop
    exact h b hb op ⟨i, hi, hop⟩
  · rintro h b hb op ⟨i, hi, hop⟩
    exact h i ⟨b, hb, hi⟩ op hop

/-- A function has a first register if it is the first of a block that follows blocks
without any. -/
theorem Func.firstReg?_eq_some_iff {f : Func} {b : Block} {reg : RegName} :
    f.firstReg? = some (b, reg) ↔
      ∃ before after, f.blocks = before ++ b :: after ∧ b.firstReg? = some reg ∧
        ∀ c ∈ before, c.firstReg? = none := by
  simp only [firstReg?, List.findSome?_eq_some_iff, Option.map_eq_some_iff,
    Option.map_eq_none_iff, Prod.mk.injEq]
  constructor
  · rintro ⟨before, c, after, heq, ⟨name, hname, rfl, rfl⟩, hbefore⟩
    exact ⟨before, after, heq, hname, hbefore⟩
  · rintro ⟨before, after, heq, hreg, hbefore⟩
    exact ⟨before, b, after, heq, ⟨reg, hreg, rfl, rfl⟩, hbefore⟩

/-! ### Functions and modules -/

/-- A function is accepted when its blocks are assigned storage and no register is left. -/
theorem Func.lower_eq_ok_iff {f g : Func} :
    f.lower = .ok g ↔
      ∃ s blocks, (Storage.ofArgs f.args).assignBlocks f.blocks = .ok (s, blocks) ∧
        g = { f with blocks := blocks, stackSize := s.offset } ∧ g.firstReg? = none := by
  simp only [lower, bind_eq_ok_iff, liftM_eq_ok_iff, Prod.exists]
  constructor
  · rintro ⟨s, blocks, hassign, h⟩
    split at h
    · cases h
    next hnone =>
      obtain rfl := pure_eq_ok_iff.mp h
      exact ⟨s, blocks, hassign, rfl, hnone⟩
  · rintro ⟨s, blocks, hassign, rfl, hnone⟩
    refine ⟨s, blocks, hassign, ?_⟩
    rw [hnone]
    rfl

/-- A function is rejected when its blocks are assigned storage and a register is left. -/
theorem Func.lower_eq_error_iff {f : Func} {e : LowerError} :
    f.lower = .error (.error e) ↔
      ∃ s blocks b reg, (Storage.ofArgs f.args).assignBlocks f.blocks = .ok (s, blocks) ∧
        Func.firstReg? { f with blocks := blocks, stackSize := s.offset } = some (b, reg) ∧
        e = .unresolvedRegister f.name b.name reg := by
  simp only [lower, bind_eq_error_iff, liftM_ne_error, liftM_eq_ok_iff, Prod.exists, false_or]
  constructor
  · rintro ⟨s, blocks, hassign, h⟩
    split at h
    next b reg hsome =>
      obtain rfl : _ = e := by simpa [Outcome.fail] using h
      exact ⟨s, blocks, b, reg, hassign, hsome, rfl⟩
    · cases h
  · rintro ⟨s, blocks, b, reg, hassign, hsome, rfl⟩
    refine ⟨s, blocks, hassign, ?_⟩
    rw [hsome]
    rfl

/-- What becomes of a function of a module: one defined elsewhere is left alone. -/
def Func.lowerBody (f : Func) : Outcome LowerError Func :=
  if f.isExternal then return f else f.lower

/-- A function with a body is given storage. -/
theorem Func.lowerBody_eq_lower {f : Func} (h : f.isExternal = false) :
    f.lowerBody = f.lower := by
  simp [lowerBody, h]

/-- A module is accepted when it is not lowered yet and all its functions are accepted. -/
theorem Module.lower_eq_ok_iff {m m' : Module} :
    m.lower = .ok m' ↔
      m.lowered = false ∧ ∃ functions, m' = { m with functions := functions, lowered := true } ∧
        List.Forall₂ (fun f g => f.lowerBody = .ok g) m.functions functions := by
  rw [lower]
  cases m.lowered with
  | true => simp [Outcome.fail]
  | false =>
      simp only [Bool.false_eq_true, if_false, bind_eq_ok_iff, pure_eq_ok_iff, true_and,
        ← mapM_eq_ok_iff]
      constructor
      · rintro ⟨functions, hmap, rfl⟩
        exact ⟨functions, rfl, hmap⟩
      · rintro ⟨functions, rfl, hmap⟩
        exact ⟨functions, hmap, rfl⟩

/-- A module that is not lowered yet is accepted if all its functions are. -/
theorem Module.exists_lower {m : Module} (hm : m.lowered = false)
    (h : ∀ f ∈ m.functions, ∃ g, f.lowerBody = .ok g) : ∃ m', m.lower = .ok m' := by
  cases hmap : m.functions.mapM Func.lowerBody with
  | ok functions =>
      exact ⟨_, Module.lower_eq_ok_iff.mpr ⟨hm, functions, rfl, mapM_eq_ok_iff.mp hmap⟩⟩
  | error e =>
      obtain ⟨before, f, after, heq, -, herr⟩ := mapM_eq_error_iff.mp hmap
      obtain ⟨g, hg⟩ := h f (by simp [heq])
      rw [hg] at herr
      cases herr

/-- A module that is not lowered yet is rejected for the first function that is. -/
theorem Module.lower_eq_error_iff {m : Module} {e : LowerError} (hm : m.lowered = false) :
    m.lower = .error (.error e) ↔
      ∃ before f after, m.functions = before ++ f :: after ∧
        (∀ g ∈ before, ∃ g', g.lowerBody = .ok g') ∧ f.lowerBody = .error (.error e) := by
  rw [lower]
  rw [if_neg (by simp [hm]), bind_eq_error_iff, ← mapM_eq_error_iff]
  constructor
  · rintro (hmap | ⟨functions, -, hpure⟩)
    · exact hmap
    · cases hpure
  · exact .inl

/-- A function keeps its place in the module. -/
theorem Module.exists_function_at {m m' : Module} {k : Nat} {f : Func} (h : m.lower = .ok m')
    (hf : m.functions[k]? = some f) :
    ∃ g, m'.functions[k]? = some g ∧ f.lowerBody = .ok g := by
  obtain ⟨-, functions, rfl, hall⟩ := Module.lower_eq_ok_iff.mp h
  exact exists_getElem?_of_forall₂ hall hf

/-- Every function with a body in a lowered module comes from one of the module before. -/
theorem Module.exists_lower_of_mem {m m' : Module} {g : Func} (h : m.lower = .ok m')
    (hg : g ∈ m'.functions) (hbody : g.isExternal = false) :
    ∃ f ∈ m.functions, f.isExternal = false ∧ f.lower = .ok g := by
  obtain ⟨k, hk⟩ := List.getElem?_of_mem hg
  have hlen : m.functions.length = m'.functions.length := by
    obtain ⟨-, functions, rfl, hall⟩ := Module.lower_eq_ok_iff.mp h
    exact hall.length_eq
  obtain ⟨f, hf⟩ : ∃ f, m.functions[k]? = some f := by
    obtain ⟨hlt, -⟩ := List.getElem?_eq_some_iff.mp hk
    exact ⟨_, List.getElem?_eq_getElem (hlen ▸ hlt)⟩
  obtain ⟨g', hg', hlower⟩ := Module.exists_function_at h hf
  obtain rfl : g' = g := by simpa [hk] using hg'.symm
  refine ⟨f, List.mem_of_getElem? hf, ?_⟩
  cases hext : f.isExternal with
  | false =>
      rw [← Func.lowerBody_eq_lower hext]
      exact ⟨rfl, hlower⟩
  | true =>
      obtain rfl : f = g' := by simpa [Func.lowerBody, hext, pure_eq_ok_iff] using hlower
      rw [hext] at hbody
      cases hbody

end RegIR
