import RegIR.Proofs.Build.Command
import RegIR.Proofs.Select.Access

/-!
# Where branches go while a function is built

A branch is built towards the number of a block and keeps its name. Blocks are inserted before and
behind it later on, but none is renamed and none gets a name that is taken, so the name goes on to
mean that block and no other.

This is so for commands that build all there is: functions are added without blocks, and no
instruction is added as it is.

## Main results

* `Builder.Step.sound`, `Command.sound_of_runAll`: blocks stay unambiguous, and every label is that
  of a block.
* `Command.branchesTo_of_runAll`: a branch goes to the block it was built for, whatever follows.
-/

namespace RegIR

/-! ### Labels of blocks -/

namespace Func

variable {f g : Func} {i : Instruction}

/-- Every label that an instruction branches to is that of a block. -/
def Resolved (f : Func) : Prop :=
  ∀ i ∈ f.instructions, ∀ name, i.branch? = some (.label name) → ∃ b ∈ f.blocks, b.name = name

/-- `f.BranchesTo id n target name`: the instruction `n` of the block numbered `id` branches to the
block numbered `target`, which is called `name` and is the only one of that name. -/
structure BranchesTo (f : Func) (id : UInt32) (n : Nat) (target : UInt32) (name : String) : Prop
    where
  source : ∃ block i, f.block? id = some block ∧ block.instructions[n]? = some i ∧
    i.branch? = some (.label name)
  target : ∃ block, f.block? target = some block ∧ f.blockNamed? name = some block ∧
    ∀ b ∈ f.blocks, b.name = name → b = block

/-- Labels of blocks stay labels of blocks. -/
theorem Extends.exists_name {name : String} (hext : f.Extends g)
    (h : ∃ b ∈ f.blocks, b.name = name) : ∃ b ∈ g.blocks, b.name = name := by
  obtain ⟨b, hb, rfl⟩ := h
  obtain ⟨b', hb', -, hname, -⟩ := hext.blocks b hb
  exact ⟨b', hb', hname⟩

/-- The block of a number is the only one of its name. -/
theorem Numbered.only {id : UInt32} {b : Block} (hf : f.Numbered) (hb : f.block? id = some b) :
    f.blockNamed? b.name = some b ∧ ∀ c ∈ f.blocks, c.name = b.name → c = b := by
  have hmem : b ∈ f.blocks := List.mem_of_find?_eq_some hb
  exact ⟨hf.blockNamed?_of_mem hmem, fun c hc hname => hf.eq_of_name hc hmem hname⟩

/-- A branch stays what it is while its function grows. -/
theorem BranchesTo.mono {id target : UInt32} {n : Nat} {name : String}
    (h : f.BranchesTo id n target name) (hext : f.Extends g) (hg : g.Numbered) :
    g.BranchesTo id n target name := by
  obtain ⟨⟨src, i, hsrc, hi, hbranch⟩, block, hblock, hnamed, -⟩ := h
  obtain rfl : block.name = name := by simpa using List.find?_some hnamed
  constructor
  · obtain ⟨src', hsrc', -, hprefix⟩ := hext.block? hg hsrc
    obtain ⟨rest, hrest⟩ := hprefix
    refine ⟨src', i, hsrc', ?_, hbranch⟩
    obtain ⟨hn, -⟩ := List.getElem?_eq_some_iff.mp hi
    rw [← hrest, List.getElem?_append_left hn, hi]
  · obtain ⟨block', hblock', hname, -⟩ := hext.block? hg hblock
    exact ⟨block', hblock', hname ▸ hg.only hblock'⟩

end Func

/-! ### Commands that build all there is -/

namespace Command

variable {c : Command} {i : Instruction} {label : Option Operand}

/-- Does a command only build? A function is added without blocks, and no instruction as it
is. -/
def isPlain : Command → Bool
  | append _ => false
  | addFunction f => f.blocks.isEmpty
  | _ => true

/-- What computes a value does not branch. -/
theorem branch?_of_compute? (h : c.compute? = some i) : i.branch? = none := by
  cases c <;> simp only [compute?, Option.some.injEq, reduceCtorEq] at h <;> (subst h; rfl)

/-- A command with a target branches to the label that it is given. -/
theorem branch?_of_target? {target : UInt32} (htarget : c.target? = some target)
    (h : c.perform? label = some i) : i.branch? = label := by
  cases c with
  | br _ =>
      obtain rfl := Option.some.inj h
      rfl
  | branch rel type left right _ =>
      rw [perform?_branch] at h
      split at h
      · obtain rfl := Option.some.inj h
        rfl
      · obtain rfl := Option.some.inj h
        rfl
  | _ => cases htarget

/-- A command without a target does not branch. -/
theorem branch?_of_perform? (hplain : c.isPlain = true) (htarget : c.target? = none)
    (h : c.perform? label = some i) : i.branch? = none := by
  cases c with
  | br _ | branch _ _ _ _ _ => cases htarget
  | append _ => cases hplain
  | store _ _ _ | structStore _ _ _ _ | callVoid _ _ | ret _ _ | retVoid =>
      obtain rfl := Option.some.inj h
      rfl
  | _ => cases h

end Command

namespace Builder

variable {b b' : Builder} {c : Command} {a : Answer} {f g : Func}

/-- A label that a command puts into an instruction is that of a block. -/
theorem Adds.exists_name {i : Instruction} {name : String} (hplain : c.isPlain = true)
    (h : b.Adds c f i) (hi : i.branch? = some (.label name)) : ∃ b ∈ f.blocks, b.name = name := by
  cases h with
  | @value j hj =>
      have hnone : j.branch? = none := Command.branch?_of_compute? hj
      have hsame : ({ j with dest := some (.reg (.num b.nextReg)) } : Instruction).branch? =
          j.branch? := rfl
      rw [hsame, hnone] at hi
      cases hi
  | effect hj hlabel =>
      rcases htarget : c.target? with - | target
      · rw [Command.branch?_of_perform? hplain htarget hj] at hi
        cases hi
      · obtain ⟨block, hblock, rfl⟩ := hlabel target htarget
        rw [Command.branch?_of_target? htarget hj] at hi
        cases hi
        exact ⟨block, List.mem_of_find?_eq_some hblock, rfl⟩

/-- Labels stay those of blocks while a function grows. -/
theorem Grows.resolved (hplain : c.isPlain = true) (h : b.Grows c f g) (hf : f.Resolved) :
    g.Resolved := by
  intro i hi name hname
  refine h.extends.exists_name ?_
  cases h with
  | block hempty hg => exact hf i ((hg.mem_instructions_iff hempty).mp hi) name hname
  | instruction _ hadds hg =>
      rcases hg.mem_instructions_iff.mp hi with hi | rfl
      · exact hf i hi name hname
      · exact hadds.exists_name hplain hname

/-- In every function blocks are unambiguous, and labels are those of blocks. -/
def Sound (b : Builder) : Prop :=
  ∀ f ∈ b.module.functions, f.Numbered ∧ f.Resolved

/-- **One step** of building all there is. -/
theorem Step.sound (hplain : c.isPlain = true) (h : b.Step c a b') (hb : b.Sound) : b'.Sound := by
  intro f' hf'
  rcases h.functions with hsame | ⟨f, rfl, hadd⟩ | ⟨p, f, g, hat, hset, hgrows⟩
  · exact hb f' (hsame ▸ hf')
  · rw [hadd, List.mem_append, List.mem_singleton] at hf'
    rcases hf' with hf' | rfl
    · exact hb f' hf'
    · have hnil : f'.blocks = [] := List.isEmpty_iff.mp hplain
      exact ⟨.of_nil hnil, by simp [Func.Resolved, Func.instructions, hnil]⟩
  · rw [hset] at hf'
    rcases List.mem_or_eq_of_mem_set hf' with hf' | rfl
    · exact hb f' hf'
    · obtain ⟨hnumbered, hresolved⟩ := hb f (List.mem_of_getElem? hat.function)
      exact ⟨hgrows.numbered hnumbered, hgrows.resolved hplain hresolved⟩

/-- A command with a target adds a branch to it. -/
theorem Step.branchesTo {target : UInt32} (h : b.Step c a b') (htarget : c.target? = some target)
    (hb' : b'.Sound) :
    ∃ p f g id src block, b.At p f ∧ b.insertPoint = some id ∧ f.block? id = some src ∧
      f.block? target = some block ∧ b'.module.functions[p]? = some g ∧ g.name = f.name ∧
      g.BranchesTo id src.instructions.length target block.name := by
  cases h with
  | @perform _ label i p f g id hi hat hlabel hid hg =>
      obtain ⟨block, hblock, rfl⟩ := hlabel target htarget
      obtain ⟨hp, -⟩ := List.getElem?_eq_some_iff.mp hat.function
      have hg' : (b.put p g).module.functions[p]? = some g := List.getElem?_set_self hp
      have hnumbered : g.Numbered := (hb' g (List.mem_of_getElem? hg')).1
      obtain ⟨before, src, rest, hblocks, hsrc, hbefore, hgrown⟩ := hg.grown
      refine ⟨p, f, g, id, src, block, hat, hid,
        Func.block?_eq_some_iff.mpr ⟨hsrc, before, rest, hblocks, hbefore⟩, hblock, hg',
        hg.extends.name, ?_, ?_⟩
      · refine ⟨src.append i, i, ?_, by simp [Block.append], Command.branch?_of_target? htarget hi⟩
        exact Func.block?_eq_some_iff.mpr ⟨hsrc, before, rest, by rw [hgrown], hbefore⟩
      · obtain ⟨block', hblock', hname, -⟩ := hg.extends.block? hnumbered hblock
        exact ⟨block', hblock', hname ▸ hnumbered.only hblock'⟩
  | fold hv =>
      cases c with
      | br _ | branch _ _ _ _ _ => cases hv
      | _ => cases htarget
  | define _ hi _ _ _ _ =>
      cases c with
      | br _ | branch _ _ _ _ _ => cases hi
      | _ => cases htarget
  | _ => cases htarget

/-- Nothing is in an empty module. -/
theorem sound_new (name : String) : (new name).Sound := by
  intro f hf
  cases hf

end Builder

namespace Command

variable {b b' : Builder} {cs : List Command} {as : List Answer}

/-- **Whole runs** keep functions sound. -/
theorem sound_of_runAll (hplain : ∀ c ∈ cs, c.isPlain = true)
    (h : (runAll cs).run b = .ok (as, b')) (hb : b.Sound) : b'.Sound :=
  runAll_induction (P := fun _ b => b.Sound) h hb fun c hc _ _ _ _ hstep =>
    hstep.sound (hplain c hc)

/-- Whole runs lose nothing. -/
theorem extends_of_runAll {p : Nat} {f : Func} (h : (runAll cs).run b = .ok (as, b'))
    (hf : b.module.functions[p]? = some f) :
    ∃ g, b'.module.functions[p]? = some g ∧ f.Extends g := by
  refine runAll_induction (P := fun _ b => ∃ g, b.module.functions[p]? = some g ∧ f.Extends g) h
    ⟨f, hf, .refl f⟩ ?_
  rintro c - as a b₁ b₂ hstep ⟨g, hg, hext⟩
  obtain ⟨g', hg', hext'⟩ := hstep.extends hg
  exact ⟨g', hg', hext.trans hext'⟩

/-- **Branches stay.** A branch that a command has added goes to the block it was built for,
whatever commands follow. -/
theorem branchesTo_of_runAll {before since : List Command} {c : Command} {target : UInt32}
    (hplain : ∀ c' ∈ before ++ c :: since, c'.isPlain = true) (hb : b.Sound)
    (h : (runAll (before ++ c :: since)).run b = .ok (as, b')) (htarget : c.target? = some target) :
    ∃ first b₁ p f g id src block, (runAll before).run b = .ok (first, b₁) ∧ b₁.At p f ∧
      b₁.insertPoint = some id ∧ f.block? id = some src ∧ f.block? target = some block ∧
      b'.module.functions[p]? = some g ∧ g.name = f.name ∧
      g.BranchesTo id src.instructions.length target block.name := by
  have hb' : b'.Sound := sound_of_runAll hplain h hb
  obtain ⟨first, b₁, rest, hfirst, hrest, rfl⟩ := runAll_append_eq_ok_iff.mp h
  obtain ⟨a, b₂, rest, hc, hsince, rfl⟩ := runAll_cons_eq_ok_iff.mp hrest
  simp only [List.forall_mem_append, List.forall_mem_cons] at hplain
  have hb₁ : b₁.Sound := sound_of_runAll hplain.1 hfirst hb
  have hb₂ : b₂.Sound := (step_of_run hc).sound hplain.2.1 hb₁
  obtain ⟨p, f, g, id, src, block, hat, hid, hsrc, hblock, hg, hname, hbranch⟩ :=
    (step_of_run hc).branchesTo htarget hb₂
  obtain ⟨g', hg', hext⟩ := extends_of_runAll hsince hg
  exact ⟨first, b₁, p, f, g', id, src, block, hfirst, hat, hid, hsrc, hblock, hg',
    hext.name.trans hname, hbranch.mono hext (hb' g' (List.mem_of_getElem? hg')).1⟩

end Command

end RegIR
