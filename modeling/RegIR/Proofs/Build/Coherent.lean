import RegIR.Proofs.Build.Fresh

/-!
# Coherent builders

A builder remembers the function that is being built by its position, and the block at whose end
instructions are added by its number. Neither can go stale: functions are only added, and blocks are
never taken away. A command that adds an instruction therefore always finds the block that is
selected, and all that it changes is that block and the counter of registers.

## Main results

* `Builder.Coherent.step`, `Builder.Reachable.coherent`: one command, and all of them, keep what is
  selected good.
* `Command.missingBlock_of_run`: a block that is missing is one that the command itself names.
* `Builder.Step.added`: what adding an instruction does.
* `Command.registers_of_runAll`: registers are numbered in order.
* `Builder.coherent_and_appendOnly`: all of this for every builder that commands can lead to.
-/

namespace RegIR

/-- The register that is answered. -/
def Answer.reg? : Answer → Option RegName
  | value (.reg r) => some r
  | _ => none

namespace Builder

variable {b b' : Builder} {c : Command} {a : Answer}

/-- How building starts: with a new module, or with any module there is. -/
inductive Start : Builder → Prop
  | new (name : String) : Start (new name)
  | ofModule (m : Module) : Start (ofModule m)

/-- `b.Reachable`: commands lead to the builder from a start. -/
def Reachable (b : Builder) : Prop :=
  ∃ (start : Builder) (cs : List Command) (as : List Answer),
    start.Start ∧ (Command.runAll cs).run start = .ok (as, b)

/-- What is selected is there: the function that is being built, and in it the block at whose end
instructions are added. -/
structure Coherent (b : Builder) : Prop where
  current : ∀ p, b.current = some p → p < b.module.functions.length
  insertPoint : ∀ id, b.insertPoint = some id → ∃ p f, b.At p f ∧ (f.block? id).isSome = true

/-! ### What is selected stays good -/

/-- The block of a number is still there when a function has been extended. -/
theorem isSome_block?_of_extends {f g : Func} {id : UInt32} (h : f.Extends g)
    (hf : (f.block? id).isSome = true) : (g.block? id).isSome = true := by
  obtain ⟨block, hblock⟩ := Option.isSome_iff_exists.mp hf
  obtain ⟨block', hmem, hid, -⟩ := h.blocks block (List.mem_of_find?_eq_some hblock)
  have hnumber : block.id = id := (Func.block?_eq_some_iff.mp hblock).1
  rw [Func.block?, List.find?_isSome]
  exact ⟨block', hmem, by simp [hid, hnumber]⟩

/-- A block is found under the number that it has just been given. -/
theorem isSome_block?_of_inserts {f g : Func} {block : Block} {id : UInt32}
    (h : f.Inserts block id g) : (g.block? id).isSome = true := by
  obtain ⟨before, rest, next, -, -, rfl⟩ := h.grown
  rw [Func.block?, List.find?_isSome]
  exact ⟨{ block with id := id }, by simp, by simp⟩

/-- A step that selects nothing else keeps what is selected good. -/
theorem Coherent.of_same (h : b.Coherent) (hstep : b.Step c a b') (hcurrent : b'.current = b.current)
    (hinsert : b'.insertPoint = b.insertPoint) : b'.Coherent := by
  constructor
  · intro p hp
    have hlt := h.current p (hcurrent ▸ hp)
    obtain ⟨g, hg, -⟩ := hstep.extends (List.getElem?_eq_getElem hlt)
    exact (List.getElem?_eq_some_iff.mp hg).1
  · intro id hid
    obtain ⟨p, f, hat, hblock⟩ := h.insertPoint id (hinsert ▸ hid)
    obtain ⟨g, hg, hextends⟩ := hstep.extends hat.function
    exact ⟨p, g, ⟨hcurrent ▸ hat.current, hg⟩, isSome_block?_of_extends hextends hblock⟩

/-- **One command** keeps what is selected good. -/
theorem Coherent.step (h : b.Coherent) (hstep : b.Step c a b') : b'.Coherent := by
  have hsame := h.of_same hstep
  cases hstep with
  | selectFunction _ hf =>
      refine ⟨?_, nofun⟩
      rintro p ⟨⟩
      exact (List.getElem?_eq_some_iff.mp hf).1
  | @createBlock _ p f g id hat hg =>
      have hlt : p < b.module.functions.length := (List.getElem?_eq_some_iff.mp hat.function).1
      refine ⟨fun q hq => ?_, ?_⟩
      · obtain rfl : p = q := Option.some.inj (hat.current.symm.trans hq)
        simpa [put, Module.setFunction] using hlt
      · rintro _ ⟨⟩
        refine ⟨p, g, ⟨hat.current, List.getElem?_set_self hlt⟩, ?_⟩
        exact isSome_block?_of_inserts (Func.inserts_of_addBlock hg)
  | @selectBlock id p f hat hblock =>
      refine ⟨h.current, ?_⟩
      rintro _ ⟨⟩
      exact ⟨p, f, ⟨hat.current, hat.function⟩, hblock⟩
  | _ => exact hsame rfl rfl

/-- **All commands** keep what is selected good. -/
theorem Reachable.coherent (h : b.Reachable) : b.Coherent := by
  obtain ⟨start, cs, as, hstart, hrun⟩ := h
  -- At the start nothing is selected.
  have hstart : start.Coherent := by
    cases hstart with
    | new name => exact ⟨nofun, nofun⟩
    | ofModule m => exact ⟨nofun, nofun⟩
  exact Command.runAll_induction (P := fun _ b => b.Coherent) hrun hstart
    fun _ _ _ _ _ _ hstep hb => hb.step hstep

/-- The counter of registers has no part in what is selected. -/
theorem Coherent.withNextReg (h : b.Coherent) (next : UInt32) :
    { b with nextReg := next }.Coherent := by
  refine ⟨h.current, fun id hid => ?_⟩
  obtain ⟨p, f, hat, hblock⟩ := h.insertPoint id hid
  exact ⟨p, f, ⟨hat.current, hat.function⟩, hblock⟩

end Builder

/-! ### A block that is missing -/

namespace Build

variable {α β : Type} {b : Builder} {x : Build α} {i : Instruction} {e : Fault} {name : String}
  {id : UInt32}

/-- One computation after another faults in the first or in the second. -/
theorem bind_eq_error {k : α → Build β} :
    (x >>= k).run b = .error e ↔
      x.run b = .error e ∨ ∃ a b', x.run b = .ok (a, b') ∧ (k a).run b' = .error e := by
  rw [StateT.run_bind, RegIR.bind_eq_error_iff, Prod.exists]

/-- A result that is only wrapped faults where it does. -/
theorem map_eq_error {k : α → β} : (k <$> x).run b = .error e ↔ x.run b = .error e := by
  rw [StateT.run_map]
  rcases x.run b with e' | ⟨a, b'⟩ <;> simp [Functor.map, Except.map]

/-- Without a function that is being built, there is nothing else to complain about. -/
theorem currentFunction_eq_error (h : currentFunction.run b = .error e) :
    e = .noCurrentFunction := by
  rcases bind_eq_error.mp h with hget | ⟨_, _, hget, hrest⟩
  · cases hget
  · cases hget
    rcases hcurrent : b.current with - | p
    · rw [hcurrent] at hrest
      cases hrest
      rfl
    · rw [hcurrent] at hrest
      rcases hfunction : b.module.functions[p]? with - | f
      · simp only [hfunction] at hrest
        cases hrest
        rfl
      · simp only [hfunction] at hrest
        cases hrest

/-- The block at whose end instructions are added is never missing. -/
theorem append_ne_missingBlock (h : b.Coherent) :
    (append i).run b ≠ .error (.missingBlock name id) := by
  intro hrun
  rcases bind_eq_error.mp hrun with hget | ⟨_, _, hget, hrest⟩
  · cases hget
  · cases hget
    rcases bind_eq_error.mp hrest with hcurrent | ⟨⟨p, f⟩, b₁, hcurrent, happend⟩
    · cases currentFunction_eq_error hcurrent
    · obtain ⟨rfl, hat⟩ := currentFunction_eq_ok hcurrent
      rcases hid : b₁.insertPoint with - | id'
      · simp only [hid] at happend
        cases happend
      · obtain ⟨q, g, hat', hblock⟩ := h.insertPoint id' hid
        obtain rfl : p = q := Option.some.inj (hat.current.symm.trans hat'.current)
        obtain rfl : f = g := Option.some.inj (hat.function.symm.trans hat'.function)
        simp only [hid, Func.appendTo?, hblock, if_true] at happend
        cases happend

/-- Nor is it when a register has been numbered first. -/
theorem define_ne_missingBlock (h : b.Coherent) :
    (define i).run b ≠ .error (.missingBlock name id) := by
  intro hrun
  rcases bind_eq_error.mp hrun with hfresh | ⟨dest, b₁, hfresh, hrest⟩
  · rcases bind_eq_error.mp hfresh with hget | ⟨_, _, hget, hnumber⟩
    · cases hget
    · cases hget
      rcases bind_eq_error.mp hnumber with hnext | ⟨_, _, _, hset⟩
      · -- The only fault of the counter is that it leaves its range.
        rw [successor32, narrow32] at hnext
        split at hnext <;> cases hnext
      · cases hset
  · obtain ⟨_, _, hget, hnumber⟩ := bind_eq_ok.mp hfresh
    cases hget
    obtain ⟨next, _, hnext, hset⟩ := bind_eq_ok.mp hnumber
    obtain ⟨-, rfl⟩ := lift_eq_ok hnext
    cases hset
    rcases bind_eq_error.mp hrest with happend | ⟨_, _, _, hreturn⟩
    · exact append_ne_missingBlock (h.withNextReg next) happend
    · cases hreturn

/-- An operation on two operands is no other. -/
theorem binary_ne_missingBlock {op : Opcode} {type : Ty} {left right : Operand} (h : b.Coherent) :
    (binary op type left right).run b ≠ .error (.missingBlock name id) := by
  intro hrun
  unfold binary at hrun
  dsimp only at hrun
  split at hrun
  next => cases hrun
  next => exact define_ne_missingBlock h hrun

/-- A block that is missing when an instruction with a label is added is the one of the label. -/
theorem eq_target_of_label {target : UInt32} {k : Operand → Instruction} (h : b.Coherent)
    (hrun : (labelOf target >>= fun label => append (k label)).run b
      = .error (.missingBlock name id)) :
    id = target ∧ ∃ p f, b.At p f ∧ f.name = name ∧ f.block? target = none := by
  rcases bind_eq_error.mp hrun with hlabel | ⟨label, b₁, hlabel, happend⟩
  · rcases bind_eq_error.mp hlabel with hcurrent | ⟨⟨p, f⟩, b₁, hcurrent, hblock⟩
    · cases currentFunction_eq_error hcurrent
    · obtain ⟨rfl, hat⟩ := currentFunction_eq_ok hcurrent
      rcases hfind : f.block? target with - | block
      · simp only [hfind] at hblock
        cases hblock
        exact ⟨rfl, p, f, hat, rfl, hfind⟩
      · simp only [hfind] at hblock
        cases hblock
  · obtain ⟨rfl, -⟩ := labelOf_eq_ok hlabel
    exact absurd happend (append_ne_missingBlock h)

end Build

namespace Command

variable {b b' : Builder} {c : Command} {a : Answer} {name : String} {id : UInt32}

/-- Does a command add an instruction, unless it is folded? -/
def addsInstruction : Command → Bool
  | addFunction _ | addString _ | selectFunction _ | addBlock _ | addBlockAfter _ _
  | createBlock _ | selectBlock _ | string _ => false
  | _ => true

/-- **Missing blocks.** Where a command that adds an instruction complains about a block, this is
the block that it is told to branch to, and not the one that is selected. -/
theorem missingBlock_of_run (hb : b.Coherent) (hc : c.addsInstruction = true)
    (h : c.run.run b = .error (.missingBlock name id)) :
    c.target? = some id ∧ ∃ p f, b.At p f ∧ f.name = name ∧ f.block? id = none := by
  cases c with
  | addFunction | addString | selectFunction | addBlock | addBlockAfter | createBlock
  | selectBlock | string => cases hc
  | alloca | load | structLoad | call =>
      exact absurd (Build.map_eq_error.mp h) (Build.define_ne_missingBlock hb)
  | arith | divide | gep =>
      exact absurd (Build.map_eq_error.mp h) (Build.binary_ne_missingBlock hb)
  | unary op type operand =>
      cases operand with
      | imm => cases Build.map_eq_error.mp h
      | _ => exact absurd (Build.map_eq_error.mp h) (Build.define_ne_missingBlock hb)
  | store | structStore | callVoid | ret | retVoid | append =>
      exact absurd (Build.map_eq_error.mp h) (Build.append_ne_missingBlock hb)
  | br target =>
      obtain ⟨rfl, hmissing⟩ := Build.eq_target_of_label hb (Build.map_eq_error.mp h)
      exact ⟨rfl, hmissing⟩
  | branch rel type left right target =>
      have hbranch := Build.map_eq_error.mp h
      rw [Build.branch_eq] at hbranch
      split at hbranch
      · obtain ⟨rfl, hmissing⟩ := Build.eq_target_of_label hb hbranch
        exact ⟨rfl, hmissing⟩
      · obtain ⟨rfl, hmissing⟩ := Build.eq_target_of_label hb hbranch
        exact ⟨rfl, hmissing⟩

/-! ### What adding an instruction does -/

/-- The operands that a command computes with. -/
def sources : Command → List Operand
  | load _ address | structLoad _ address _ => [address]
  | arith _ _ left right | divide _ _ left right | gep _ left right => [left, right]
  | unary _ _ operand => [operand]
  | call _ _ args => args
  | _ => []

/-- Is a register numbered for the value of a command? None is where the value is folded. -/
def defines (c : Command) : Bool :=
  c.compute?.isSome && c.fold?.isNone

/-- Only constants are folded. -/
theorem imm?_of_fold? {v : Int64} (h : c.fold? = some v) :
    ∀ op ∈ c.sources, ∃ k : Int64, op = .imm k := by
  have himm : ∀ {op : Operand} {k : Int64}, op.imm? = some k → op = .imm k := by
    intro op k hop
    cases op with
    | imm => rw [Option.some.inj hop]
    | _ => cases hop
  cases c with
  | arith _ _ left right | divide _ _ left right | gep _ left right =>
      obtain ⟨k, hleft, h⟩ := Option.bind_eq_some_iff.mp h
      obtain ⟨l, hright, -⟩ := Option.bind_eq_some_iff.mp h
      simp [sources, himm hleft, himm hright]
  | unary _ _ operand =>
      obtain ⟨k, hoperand, -⟩ := Option.map_eq_some_iff.mp h
      simp [sources, himm hoperand]
  | _ => cases h

/-- A command that yields a value adds nothing for its effect. -/
theorem compute?_of_perform? {label : Option Operand} {i : Instruction}
    (h : c.perform? label = some i) : c.compute? = none := by
  cases c with
  | store | structStore | br | branch | callVoid | ret | retVoid | append => rfl
  | _ => cases h

end Command

namespace Builder

variable {b b' : Builder} {c : Command} {a : Answer}

/-- `b.Added c a b'`: what a command that adds an instruction does. Either it is folded, and nothing
changes; or there is one more instruction, at the end of the first block that has the number of the
one that is selected. In that block, and in the counter of registers, is all the difference. -/
inductive Added (b : Builder) (c : Command) : Answer → Builder → Prop
  | folded {v : Int64} (hv : c.fold? = some v)
      (hconst : ∀ op ∈ c.sources, ∃ k : Int64, op = .imm k) : Added b c (.value (.imm v)) b
  | value {i : Instruction} {p : Nat} {f g : Func} {id next : UInt32} (hc : c.defines = true)
      (hat : b.At p f) (hid : b.insertPoint = some id) (hi : b.Adds c f i) (hg : f.Appends id i g)
      (hdest : i.dest = some (.reg (.num b.nextReg)))
      (hnext : next.toNat = b.nextReg.toNat + 1) :
      Added b c (.value (.reg (.num b.nextReg))) { b.put p g with nextReg := next }
  | effect {i : Instruction} {p : Nat} {f g : Func} {id : UInt32} (hc : c.compute? = none)
      (hat : b.At p f) (hid : b.insertPoint = some id) (hi : b.Adds c f i)
      (hg : f.Appends id i g) : Added b c .done (b.put p g)

/-- **One instruction** is added, or a constant is answered. -/
theorem Step.added (h : b.Step c a b') (hc : c.addsInstruction = true) : b.Added c a b' := by
  cases h with
  | addFunction | addString | string | selectFunction | addBlock | addBlockAfter | createBlock
  | selectBlock => cases hc
  | fold hv => exact .folded hv (Command.imm?_of_fold? hv)
  | define hfold hi hat hid hg hnext =>
      exact .value (by simp [Command.defines, hfold, hi]) hat hid (.value hi) hg rfl hnext
  | perform hi hat hlabel hid hg =>
      exact .effect (Command.compute?_of_perform? hi) hat hid (.effect hi hlabel) hg

/-- The counter of registers moves on where a register is answered. -/
theorem Step.nextReg (h : b.Step c a b') (hc : c.isSelection = false) :
    (c.defines = true ∧ a = .value (.reg (.num b.nextReg)) ∧
      b'.nextReg.toNat = b.nextReg.toNat + 1) ∨
    (c.defines = false ∧ a.reg? = none ∧ b'.nextReg = b.nextReg) := by
  cases h with
  | selectFunction => cases hc
  | addFunction | addString | string | addBlock | addBlockAfter | createBlock | selectBlock =>
      exact .inr ⟨rfl, rfl, rfl⟩
  | fold hv => exact .inr ⟨by simp [Command.defines, hv], rfl, rfl⟩
  | define hfold hi _ _ _ hnext =>
      exact .inl ⟨by simp [Command.defines, hfold, hi], rfl, hnext⟩
  | perform hi =>
      exact .inr ⟨by simp [Command.defines, Command.compute?_of_perform? hi], rfl, rfl⟩

end Builder

/-! ### Registers in order -/

namespace Command

/-- **Registers** are numbered one after the other, as commands need them. -/
theorem registers_of_runAll {b b' : Builder} {cs : List Command} {as : List Answer}
    (h : (runAll cs).run b = .ok (as, b')) (hcs : ∀ c ∈ cs, c.isSelection = false) :
    as.filterMap Answer.reg? =
      (List.range (cs.countP defines)).map (fun k => .num (b.nextReg + UInt32.ofNat k)) ∧
    b.nextReg.toNat + cs.countP defines = b'.nextReg.toNat := by
  induction cs generalizing b as with
  | nil =>
      cases h
      exact ⟨rfl, rfl⟩
  | cons c cs ih =>
      rw [List.forall_mem_cons] at hcs
      obtain ⟨a, b₁, rest, hc, hrest, rfl⟩ := runAll_cons_eq_ok_iff.mp h
      obtain ⟨hregs, hcount⟩ := ih hrest hcs.2
      rcases (step_of_run hc).nextReg hcs.1 with ⟨hdef, rfl, hnext⟩ | ⟨hdef, hnone, hnext⟩
      · -- The next register comes first, and the others follow it.
        have hsucc : ∀ k : Nat, b₁.nextReg + UInt32.ofNat k = b.nextReg + UInt32.ofNat (k + 1) := by
          intro k
          have hone : b₁.nextReg = b.nextReg + 1 := by
            apply UInt32.toNat_inj.mp
            have hlt := b₁.nextReg.toNat_lt
            rw [UInt32.toNat_add, UInt32.toNat_one]
            omega
          rw [hone, UInt32.ofNat_add, UInt32.add_assoc, UInt32.add_comm 1]
          rfl
        rw [List.countP_cons_of_pos hdef, List.range_succ_eq_map]
        refine ⟨?_, by omega⟩
        simp [Answer.reg?, hregs, hsucc]
      · rw [List.countP_cons_of_neg (by simp [hdef]), List.filterMap_cons_none hnone, ← hnext]
        exact ⟨hregs, hcount⟩

/-- After a function has been selected, registers are numbered from the count of its arguments. -/
theorem registers_of_selection {b b' : Builder} {name : String} {since : List Command}
    {as : List Answer} (hsince : ∀ c ∈ since, c.isSelection = false)
    (h : (runAll (.selectFunction name :: since)).run b = .ok (as, b')) :
    ∃ f, b.module.function? name = some f ∧
      as.filterMap Answer.reg? =
        (List.range (since.countP defines)).map
          (fun k => .num (UInt32.ofNat (f.args.length + k))) ∧
      f.args.length % UInt32.size + since.countP defines < UInt32.size := by
  obtain ⟨a, b₁, rest, hselect, hrest, rfl⟩ := runAll_cons_eq_ok_iff.mp h
  obtain ⟨hregs, hcount⟩ := registers_of_runAll hrest hsince
  obtain ⟨u, hunwrapped, rfl⟩ := Build.map_eq_ok.mp hselect
  obtain ⟨b₀, _, hget, hfound⟩ := Build.bind_eq_ok.mp hunwrapped
  obtain ⟨rfl, rfl⟩ := Prod.mk.inj (Except.ok.inj hget)
  split at hfound
  next p f hp hf =>
    cases hfound
    refine ⟨f, hf, ?_, ?_⟩
    · rw [List.filterMap_cons_none rfl]
      simpa [UInt32.ofNat_add] using hregs
    · have hlt := b'.nextReg.toNat_lt
      simp only [UInt32.toNat_ofNat'] at hcount
      simp only [UInt32.size]
      omega
  next => cases hfound

end Command

/-- **Coherent builders.** Of every builder that commands can lead to, from whatever module:

* the function that is being built exists, and so does the block at whose end instructions are
  added;
* a command that adds an instruction never complains that this block is missing, only that the block
  is which it is told to branch to;
* if it succeeds, it adds one instruction at the end of that block and changes nothing else but the
  counter of registers, or it is folded and changes nothing at all;
* after a function has been selected, registers are numbered in order from the count of its
  arguments, and their numbers stay in range. -/
theorem Builder.coherent_and_appendOnly {b : Builder} (h : b.Reachable) :
    b.Coherent ∧
    (∀ (c : Command) (name : String) (id : UInt32), c.addsInstruction = true →
      c.run.run b = .error (.missingBlock name id) →
        c.target? = some id ∧ ∃ p f, b.At p f ∧ f.name = name ∧ f.block? id = none) ∧
    (∀ (c : Command) (a : Answer) (b' : Builder), c.addsInstruction = true →
      c.run.run b = .ok (a, b') → b.Added c a b') ∧
    ∀ (name : String) (since : List Command) (as : List Answer) (b' : Builder),
      (∀ c ∈ since, c.isSelection = false) →
      (Command.runAll (.selectFunction name :: since)).run b = .ok (as, b') →
        ∃ f, b.module.function? name = some f ∧
          as.filterMap Answer.reg? =
            (List.range (since.countP Command.defines)).map
              (fun k => .num (UInt32.ofNat (f.args.length + k))) ∧
          f.args.length % UInt32.size + since.countP Command.defines < UInt32.size := by
  refine ⟨h.coherent, ?_, ?_, ?_⟩
  · intro c name id hc hrun
    exact Command.missingBlock_of_run h.coherent hc hrun
  · intro c a b' hc hrun
    exact (Command.step_of_run hrun).added hc
  · intro name since as b' hsince hrun
    exact Command.registers_of_selection hsince hrun

/-- A module whose function of one argument has a block already. -/
def begun : Module where
  name := "m"
  functions := [
    { name := "f", linkage := .exported, returnType := .i32, args := [(.i32, .num 0)],
      blocks := [{ name := "entry", id := 7, instructions := [] }], nextBlockId := 8 }]

/-- Commands that select its block, put another one behind it and go on in the first. -/
def continueBegun : List Command := [
  .selectFunction "f",
  .selectBlock 7,
  .addBlock "exit",
  .alloca .i32]

/-- Commands that select the block again: a sum of constants is folded and uses no number. -/
def selectAndAdd : List Command := [
  .selectBlock 7,
  .arith .add .i32 (.reg (.num 0)) (.imm 1),
  .arith .add .i32 (.imm 1) (.imm 2),
  .store .i32 (.imm 3) (.reg (.num 1)),
  .unary .neg .i32 (.reg (.num 1))]

/-- The block that was there is found and grows, a jump to the new block is added to it, and the
registers after a selection are the first two behind the argument. -/
theorem continueBegun_coherent :
    ∃ (b : Builder) (b' : Builder) (as : List Answer) (b'' : Builder),
      b.Reachable ∧ b.insertPoint = some 7 ∧ b.Coherent ∧
      (Command.br 8).run.run b = .ok (.done, b') ∧ b.Added (.br 8) .done b' ∧
      (Command.runAll (.selectFunction "f" :: selectAndAdd)).run b = .ok (as, b'') ∧
      as.filterMap Answer.reg? = [.num 1, .num 2] := by
  have hends : Ends ((Command.runAll continueBegun).run (Builder.ofModule begun))
      (fun r => r.2.insertPoint = some 7 ∧
        (r.2.module.function? "f").map (·.args.length) = some 1 ∧
        Ends ((Command.br 8).run.run r.2) (fun q => q.1 = .done) (fun _ => False) ∧
        Ends ((Command.runAll (.selectFunction "f" :: selectAndAdd)).run r.2) (fun _ => True)
          fun _ => False) fun _ => False := by
    decide +kernel
  obtain ⟨⟨first, b⟩, hrun, hinsert, hargs, hbr, hselect⟩ := hends.exists_ok
  obtain ⟨⟨_, b'⟩, hbr, rfl⟩ := hbr.exists_ok
  obtain ⟨⟨as, b''⟩, hselect, -⟩ := hselect.exists_ok
  have hreach : b.Reachable := ⟨_, continueBegun, first, .ofModule begun, hrun⟩
  obtain ⟨hcoherent, -, hadded, hregs⟩ := Builder.coherent_and_appendOnly hreach
  obtain ⟨f, hf, hnumbers, -⟩ := hregs "f" selectAndAdd as b'' (by decide) hselect
  rw [hf] at hargs
  have hone : f.args.length = 1 := Option.some.inj hargs
  refine ⟨b, b', as, b'', hreach, hinsert, hcoherent, hbr, hadded _ _ _ rfl hbr, hselect, ?_⟩
  rw [hnumbers, hone]
  decide

end RegIR
