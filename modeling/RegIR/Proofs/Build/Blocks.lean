import Mathlib.Data.List.Nodup
import RegIR.Proofs.Storage.Run

/-!
# Blocks of a function under construction

A function grows in three ways: a block is added at its end, a block is inserted behind another
one, and an instruction is added at the end of a block. None of them removes or renames a block or
takes an instruction away, so a function that has grown *extends* what it was. Blocks are found by
their number or by their name, and both stay unambiguous.

## Main results

* `Func.inserts_of_addBlock`, `Func.inserts_of_addBlockAfter`, `Func.appends_of_appendTo?`: what
  the three do.
* `Func.Inserts.numbered`, `Func.Appends.numbered`: numbers and names stay unambiguous.
* `Func.Inserts.extends`, `Func.Appends.extends`: nothing is lost.
-/

namespace RegIR

/-- Inserting into a list, where it is cut. -/
theorem insertIdx_eq_append {α : Type} {xs : List α} {n : Nat} (a : α) (hn : n ≤ xs.length) :
    xs.insertIdx n a = xs.take n ++ a :: xs.drop n := by
  induction xs generalizing n with
  | nil =>
      obtain rfl := Nat.le_zero.mp hn
      rfl
  | cons x xs ih =>
      rcases n with - | n
      · rfl
      · rw [List.insertIdx_succ_cons, ih (Nat.le_of_succ_le_succ hn)]
        rfl

namespace Func

variable {f g h : Func} {b : Block} {id after : UInt32} {i : Instruction}

/-! ### What growing does -/

/-- `f.Inserts b id g`: the function `g` is `f` with the block `b` put somewhere between its
blocks, under the number `id`, which is the next one. -/
structure Inserts (f : Func) (b : Block) (id : UInt32) (g : Func) : Prop where
  new : f.blockNamed? b.name = none
  number : id = f.nextBlockId
  grown : ∃ (before rest : List Block) (next : UInt32), f.blocks = before ++ rest ∧
    next.toNat = id.toNat + 1 ∧
    g = { f with blocks := before ++ { b with id := id } :: rest, nextBlockId := next }

/-- `f.Appends id i g`: the function `g` is `f` with the instruction `i` at the end of the first
block numbered `id`. -/
structure Appends (f : Func) (id : UInt32) (i : Instruction) (g : Func) : Prop where
  grown : ∃ (before : List Block) (b : Block) (rest : List Block),
    f.blocks = before ++ b :: rest ∧ b.id = id ∧ (∀ a ∈ before, a.id ≠ id) ∧
    g = { f with blocks := before ++ b.append i :: rest }

/-- A block that may be added has a new name. -/
theorem blockNamed?_of_checkNewBlock {u : Unit} (hcheck : f.checkNewBlock b = .ok u) :
    f.blockNamed? b.name = none := by
  unfold checkNewBlock at hcheck
  split at hcheck
  · cases hcheck
  · split at hcheck
    · cases hcheck
    · next hname => simpa using hname

/-- Adding a block at the end. -/
theorem inserts_of_addBlock (hadd : f.addBlock b = .ok (id, g)) : f.Inserts b id g := by
  obtain ⟨_, hcheck, hadd⟩ := bind_eq_ok_iff.mp hadd
  obtain ⟨next, hnext, hadd⟩ := bind_eq_ok_iff.mp hadd
  obtain ⟨rfl, rfl⟩ := Prod.mk.inj (pure_eq_ok_iff.mp hadd)
  exact ⟨blockNamed?_of_checkNewBlock hcheck, rfl, f.blocks, [], next, (List.append_nil _).symm,
    successor32_eq_ok_iff.mp hnext, rfl⟩

/-- Inserting a block behind another one. -/
theorem inserts_of_addBlockAfter (hadd : f.addBlockAfter after b = .ok (id, g)) :
    f.Inserts b id g := by
  obtain ⟨_, hcheck, hadd⟩ := bind_eq_ok_iff.mp hadd
  rcases hposition : f.blocks.findIdx? (·.id == after) with - | position
  · rw [hposition] at hadd
    cases hadd
  · rw [hposition] at hadd
    obtain ⟨next, hnext, hadd⟩ := bind_eq_ok_iff.mp hadd
    obtain ⟨rfl, rfl⟩ := Prod.mk.inj (pure_eq_ok_iff.mp hadd)
    refine ⟨blockNamed?_of_checkNewBlock hcheck, rfl, f.blocks.take (position + 1),
      f.blocks.drop (position + 1), next, (List.take_append_drop _ _).symm,
      successor32_eq_ok_iff.mp hnext, ?_⟩
    have hlt : position < f.blocks.length := (List.findIdx?_eq_some_iff_findIdx_eq.mp hposition).1
    rw [insertIdx_eq_append _ hlt]

/-- What is done to the first block that passes a test. -/
theorem modifyFirst_append {p : Block → Bool} {change : Block → Block} {before rest : List Block}
    (hbefore : ∀ a ∈ before, p a = false) (hb : p b = true) :
    modifyFirst p change (before ++ b :: rest) = before ++ change b :: rest := by
  induction before with
  | nil => simp [modifyFirst, hb]
  | cons a before ih =>
      simp only [List.forall_mem_cons] at hbefore
      simp [modifyFirst, hbefore.1, ih hbefore.2]

/-- Where the block of a number is. -/
theorem block?_eq_some_iff :
    f.block? id = some b ↔
      b.id = id ∧ ∃ before rest, f.blocks = before ++ b :: rest ∧ ∀ a ∈ before, a.id ≠ id := by
  simp [block?, List.find?_eq_some_iff_append]

/-- Adding an instruction. -/
theorem appends_of_appendTo? (happend : f.appendTo? id i = some g) : f.Appends id i g := by
  unfold appendTo? at happend
  split at happend
  next hsome =>
    obtain ⟨b, hblock⟩ := Option.isSome_iff_exists.mp hsome
    obtain ⟨hid, before, rest, hblocks, hbefore⟩ := block?_eq_some_iff.mp hblock
    obtain rfl := Option.some.inj happend
    refine ⟨before, b, rest, hblocks, hid, hbefore, ?_⟩
    rw [hblocks, modifyFirst_append (by simpa using hbefore) (by simpa using hid)]
  next => cases happend

/-! ### Nothing is lost -/

/-- `f.Extends g`: the function `g` has what `f` has. Blocks keep their number, their name and
their instructions, and may have more of these. -/
structure Extends (f g : Func) : Prop where
  name : g.name = f.name
  args : g.args = f.args
  blocks : ∀ b ∈ f.blocks, ∃ b' ∈ g.blocks, b'.id = b.id ∧ b'.name = b.name ∧
    b.instructions <+: b'.instructions

theorem Extends.refl (f : Func) : f.Extends f :=
  ⟨rfl, rfl, fun b hb => ⟨b, hb, rfl, rfl, List.prefix_rfl⟩⟩

theorem Extends.trans (hfg : f.Extends g) (hgh : g.Extends h) : f.Extends h := by
  refine ⟨hgh.name.trans hfg.name, hgh.args.trans hfg.args, ?_⟩
  intro b hb
  obtain ⟨b', hb', hid, hname, hprefix⟩ := hfg.blocks b hb
  obtain ⟨b'', hb'', hid', hname', hprefix'⟩ := hgh.blocks b' hb'
  exact ⟨b'', hb'', hid'.trans hid, hname'.trans hname, hprefix.trans hprefix'⟩

/-- A block more. -/
theorem Inserts.extends (hins : f.Inserts b id g) : f.Extends g := by
  obtain ⟨before, rest, next, hblocks, -, rfl⟩ := hins.grown
  refine ⟨rfl, rfl, ?_⟩
  intro c hc
  refine ⟨c, ?_, rfl, rfl, List.prefix_rfl⟩
  rw [hblocks] at hc
  simp only [List.mem_append, List.mem_cons] at hc ⊢
  rcases hc with hc | hc
  · exact .inl hc
  · exact .inr (.inr hc)

/-- An instruction more. -/
theorem Appends.extends (happ : f.Appends id i g) : f.Extends g := by
  obtain ⟨before, b, rest, hblocks, -, -, rfl⟩ := happ.grown
  refine ⟨rfl, rfl, ?_⟩
  intro c hc
  rw [hblocks] at hc
  simp only [List.mem_append, List.mem_cons] at hc ⊢
  rcases hc with hc | rfl | hc
  · exact ⟨c, .inl hc, rfl, rfl, List.prefix_rfl⟩
  · exact ⟨c.append i, .inr (.inl rfl), rfl, rfl, List.prefix_append _ _⟩
  · exact ⟨c, .inr (.inr hc), rfl, rfl, List.prefix_rfl⟩

/-! ### Numbers and names -/

/-- Blocks are unambiguous: they have distinct numbers, which have been given out, and distinct
names. -/
structure Numbered (f : Func) : Prop where
  ids : (f.blocks.map Block.id).Nodup
  below : ∀ b ∈ f.blocks, b.id.toNat < f.nextBlockId.toNat
  names : (f.blocks.map Block.name).Nodup

/-- A function without blocks. -/
theorem Numbered.of_nil (hblocks : f.blocks = []) : f.Numbered := by
  constructor <;> simp [hblocks]

/-- A name that is new. -/
theorem name_ne_of_blockNamed? {name : String} (hname : f.blockNamed? name = none)
    (hb : b ∈ f.blocks) : b.name ≠ name := by
  simpa using List.find?_eq_none.mp hname b hb

/-- A block under a new number and a new name leaves the others unambiguous. -/
theorem Inserts.numbered (hins : f.Inserts b id g) (hf : f.Numbered) : g.Numbered := by
  obtain ⟨hnew, rfl, before, rest, next, hblocks, hnext, rfl⟩ := hins
  have hperm : (before ++ { b with id := f.nextBlockId } :: rest).Perm
      ({ b with id := f.nextBlockId } :: f.blocks) := by
    rw [hblocks]
    exact List.perm_middle
  refine ⟨(hperm.map Block.id).nodup_iff.mpr ?_, ?_, (hperm.map Block.name).nodup_iff.mpr ?_⟩
  · refine List.nodup_cons.mpr ⟨?_, hf.ids⟩
    intro hmem
    obtain ⟨c, hc, hid⟩ := List.mem_map.mp hmem
    have hlt := hf.below c hc
    simp only [hid] at hlt
    omega
  · intro c hc
    have hlt : c.id.toNat ≤ f.nextBlockId.toNat := by
      rcases List.mem_cons.mp (hperm.mem_iff.mp hc) with rfl | hc
      · exact Nat.le_refl _
      · exact Nat.le_of_lt (hf.below c hc)
    exact hnext ▸ Nat.lt_succ_of_le hlt
  · refine List.nodup_cons.mpr ⟨?_, hf.names⟩
    intro hmem
    obtain ⟨c, hc, hname⟩ := List.mem_map.mp hmem
    exact name_ne_of_blockNamed? hnew hc hname

/-- An instruction more changes no number and no name. -/
theorem Appends.numbered (happ : f.Appends id i g) (hf : f.Numbered) : g.Numbered := by
  obtain ⟨before, b, rest, hblocks, -, -, rfl⟩ := happ.grown
  have hids : (before ++ b.append i :: rest).map Block.id = f.blocks.map Block.id := by
    simp [hblocks, Block.append]
  have hnames : (before ++ b.append i :: rest).map Block.name = f.blocks.map Block.name := by
    simp [hblocks, Block.append]
  refine ⟨hids ▸ hf.ids, ?_, hnames ▸ hf.names⟩
  intro c hc
  have hmem : c.id ∈ f.blocks.map Block.id := hids ▸ List.mem_map_of_mem hc
  obtain ⟨d, hd, hid⟩ := List.mem_map.mp hmem
  exact hid ▸ hf.below d hd

/-- Of an unambiguous function, a block is found by its number. -/
theorem Numbered.block?_of_mem (hf : f.Numbered) (hb : b ∈ f.blocks) : f.block? b.id = some b := by
  obtain ⟨before, rest, hblocks⟩ := List.append_of_mem hb
  refine block?_eq_some_iff.mpr ⟨rfl, before, rest, hblocks, ?_⟩
  intro a ha hid
  have hids := hf.ids
  rw [hblocks, List.map_append, List.nodup_append] at hids
  exact hids.2.2 a.id (List.mem_map_of_mem ha) b.id (by simp) hid

/-- Of an unambiguous function, a block is the only one of its name. -/
theorem Numbered.eq_of_name (hf : f.Numbered) {c : Block} (hb : b ∈ f.blocks) (hc : c ∈ f.blocks)
    (hname : b.name = c.name) : b = c :=
  List.inj_on_of_nodup_map hf.names hb hc hname

/-- Of an unambiguous function, a block is found by its name. -/
theorem Numbered.blockNamed?_of_mem (hf : f.Numbered) (hb : b ∈ f.blocks) :
    f.blockNamed? b.name = some b := by
  rcases hfind : f.blockNamed? b.name with - | c
  · exact absurd rfl (name_ne_of_blockNamed? hfind hb)
  · have hname : c.name = b.name := by simpa using List.find?_some hfind
    rw [hf.eq_of_name (List.mem_of_find?_eq_some hfind) hb hname]

/-- The block of a number in a function that has grown is the one that it was. -/
theorem Extends.block? (hext : f.Extends g) (hg : g.Numbered) (hb : f.block? id = some b) :
    ∃ b', g.block? id = some b' ∧ b'.name = b.name ∧ b.instructions <+: b'.instructions := by
  obtain ⟨rfl, -⟩ := block?_eq_some_iff.mp hb
  obtain ⟨b', hb', hid, hname, hprefix⟩ := hext.blocks b (List.mem_of_find?_eq_some hb)
  exact ⟨b', hid ▸ hg.block?_of_mem hb', hname, hprefix⟩

/-! ### Instructions -/

/-- A block without instructions adds none. -/
theorem Inserts.mem_instructions_iff (hins : f.Inserts b id g) (hb : b.instructions = []) :
    i ∈ g.instructions ↔ i ∈ f.instructions := by
  obtain ⟨before, rest, next, hblocks, -, rfl⟩ := hins.grown
  simp [instructions, hblocks, hb]

/-- An instruction that is added is there, with the others. -/
theorem Appends.mem_instructions_iff {j : Instruction} (happ : f.Appends id i g) :
    j ∈ g.instructions ↔ j ∈ f.instructions ∨ j = i := by
  obtain ⟨before, b, rest, hblocks, -, -, rfl⟩ := happ.grown
  simp only [instructions, hblocks, List.flatMap_append, List.flatMap_cons, Block.append,
    List.mem_append, List.mem_singleton]
  tauto

end Func

end RegIR
