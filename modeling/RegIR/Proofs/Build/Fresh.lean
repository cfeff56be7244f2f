import RegIR.Proofs.Build.Command

/-!
# Fresh registers

Registers are numbered by a counter that starts at the number of arguments whenever a function is
selected. A register is therefore fresh as far as the counter can know: it differs from the
registers of arguments that have names or lower numbers, and from those that have been defined since
the function was selected. It need not differ from a register that was defined before that, or from
one that is written into an instruction or an argument by hand.

## Main results

* `Builder.Since.step`: one command keeps account of the registers.
* `Command.fresh_since_selection`: what a fresh register differs from.
* `fresh_register_reused`: what it may not differ from.
-/

namespace RegIR

/-- Is the answer a register? -/
def Answer.isReg : Answer → Bool
  | value (.reg _) => true
  | _ => false

/-- Does a command select a function? -/
def Command.isSelection : Command → Bool
  | selectFunction _ => true
  | _ => false

/-- An instruction that a command adds for its effect has no destination, unless it is added as
it is. -/
theorem Command.dest_of_perform? {c : Command} {label : Option Operand} {i : Instruction}
    (h : c.perform? label = some i) : c = .append i ∨ i.dest = none := by
  cases c with
  | append _ =>
      obtain rfl := Option.some.inj h
      exact .inl rfl
  | store _ _ _ | structStore _ _ _ _ | br _ | callVoid _ _ | ret _ _ | retVoid =>
      obtain rfl := Option.some.inj h
      exact .inr rfl
  | branch rel _ left right _ =>
      rw [perform?_branch] at h
      split at h
      · obtain rfl := Option.some.inj h
        exact .inr rfl
      · obtain rfl := Option.some.inj h
        exact .inr rfl
  | _ => cases h

/-! ### Registers since a selection -/

/-- `f₁.Accounts cs next f`: the function `f` has the arguments of `f₁`, and its instructions are
those of `f₁`, those that the commands `cs` add as they are, and others whose destinations are
registers below `next`. -/
structure Func.Accounts (f₁ : Func) (cs : List Command) (next : UInt32) (f : Func) : Prop where
  args : f.args = f₁.args
  dests : ∀ i ∈ f.instructions, i ∈ f₁.instructions ∨ .append i ∈ cs ∨
    ∀ r, i.dest = some (.reg r) → ∃ n : UInt32, r = .num n ∧ n.toNat < next.toNat

namespace Func.Accounts

variable {f₁ f g : Func} {cs : List Command} {next : UInt32}

theorem refl (f : Func) (cs : List Command) (next : UInt32) : f.Accounts cs next f :=
  ⟨rfl, fun _ hi => .inl hi⟩

/-- An empty block. -/
theorem inserts {block : Block} {id : UInt32} (h : f₁.Accounts cs next f)
    (hempty : block.instructions = []) (hg : f.Inserts block id g) : f₁.Accounts cs next g := by
  refine ⟨hg.extends.args.trans h.args, fun i hi => ?_⟩
  exact h.dests i ((hg.mem_instructions_iff hempty).mp hi)

/-- An instruction that is accounted for, with the counter moved on. -/
theorem appends {id next' : UInt32} {i : Instruction} (h : f₁.Accounts cs next f)
    (hnext : next.toNat ≤ next'.toNat) (hg : f.Appends id i g)
    (hi : .append i ∈ cs ∨
      ∀ r, i.dest = some (.reg r) → ∃ n : UInt32, r = .num n ∧ n.toNat < next'.toNat) :
    f₁.Accounts cs next' g := by
  refine ⟨hg.extends.args.trans h.args, fun j hj => ?_⟩
  rcases hg.mem_instructions_iff.mp hj with hj | rfl
  · rcases h.dests j hj with hold | hraw | hbelow
    · exact .inl hold
    · exact .inr (.inl hraw)
    · refine .inr (.inr fun r hr => ?_)
      obtain ⟨n, hn, hlt⟩ := hbelow r hr
      exact ⟨n, hn, by omega⟩
  · exact .inr hi

end Func.Accounts

namespace Builder

variable {b b' : Builder} {c : Command} {a : Answer}

/-- `b.Since f₁ p cs as`: the function at position `p` was selected when it was `f₁`, and with the
answers `as` from then on, given to commands of `cs`, the builder has become `b`. -/
structure Since (b : Builder) (f₁ : Func) (p : Nat) (cs : List Command) (as : List Answer) :
    Prop where
  current : b.current = some p
  counter : b.nextReg.toNat = (UInt32.ofNat f₁.args.length).toNat + as.countP Answer.isReg
  function : ∃ f, b.module.functions[p]? = some f ∧ f₁.Accounts cs b.nextReg f

/-- An answer that is no register is not counted. -/
theorem Since.counter_of_not {f₁ : Func} {p : Nat} {cs : List Command} {as : List Answer}
    (h : b.Since f₁ p cs as) (ha : a.isReg = false) :
    b.nextReg.toNat =
      (UInt32.ofNat f₁.args.length).toNat + (as ++ [a]).countP Answer.isReg := by
  simp [h.counter, ha]

/-- A function that is put back has changed at its own position. -/
theorem Since.put {f₁ f g : Func} {p q : Nat} {cs : List Command} {as : List Answer}
    {next : UInt32} (h : b.Since f₁ p cs as) (hat : b.At q f)
    (hg : f₁.Accounts cs b.nextReg f → f₁.Accounts cs next g) :
    ∃ f, (b.put q g).module.functions[p]? = some f ∧ f₁.Accounts cs next f := by
  obtain rfl : q = p := Option.some.inj (hat.current.symm.trans h.current)
  obtain ⟨f', hf', haccounts⟩ := h.function
  obtain rfl : f = f' := Option.some.inj (hat.function.symm.trans hf')
  obtain ⟨hp, -⟩ := List.getElem?_eq_some_iff.mp hf'
  exact ⟨g, List.getElem?_set_self hp, hg haccounts⟩

/-- **One command** other than a selection keeps account of the registers. -/
theorem Since.step {f₁ : Func} {p : Nat} {cs : List Command} {as : List Answer} (hc : c ∈ cs)
    (hselect : c.isSelection = false) (hstep : b.Step c a b') (h : b.Since f₁ p cs as) :
    b'.Since f₁ p cs (as ++ [a]) := by
  cases hstep with
  | selectFunction _ _ => cases hselect
  | addFunction _ =>
      obtain ⟨f, hf, haccounts⟩ := h.function
      obtain ⟨hp, -⟩ := List.getElem?_eq_some_iff.mp hf
      refine ⟨h.current, h.counter_of_not rfl, f, ?_, haccounts⟩
      exact (List.getElem?_append_left hp).trans hf
  | addString | string _ _ | selectBlock _ _ | fold _ =>
      exact ⟨h.current, h.counter_of_not rfl, h.function⟩
  | addBlock hat hg | createBlock hat hg =>
      have hfunction := h.put hat fun haccounts =>
        haccounts.inserts rfl (Func.inserts_of_addBlock hg)
      exact ⟨h.current, h.counter_of_not rfl, hfunction⟩
  | addBlockAfter hat hg =>
      have hfunction := h.put hat fun haccounts =>
        haccounts.inserts rfl (Func.inserts_of_addBlockAfter hg)
      exact ⟨h.current, h.counter_of_not rfl, hfunction⟩
  | @define _ i q f g id next _ _ hat _ hg hnext =>
      have hle : b.nextReg.toNat ≤ next.toNat := by omega
      have hfunction := h.put hat fun haccounts => haccounts.appends hle hg <| .inr <| by
        intro r hr
        cases hr
        exact ⟨b.nextReg, rfl, by omega⟩
      refine ⟨h.current, ?_, hfunction⟩
      have hcounter := h.counter
      simp only [List.countP_append, List.countP_singleton, Answer.isReg, if_true]
      omega
  | @perform _ _ i q f g id hi hat _ _ hg =>
      have hfunction := h.put hat fun haccounts => haccounts.appends (Nat.le_refl _) hg <| by
        rcases Command.dest_of_perform? hi with rfl | hdest
        · exact .inl hc
        · exact .inr (by simp [hdest])
      exact ⟨h.current, h.counter_of_not rfl, hfunction⟩

/-- Selecting a function starts the account. -/
theorem since_of_selectFunction {name : String} {cs : List Command}
    (h : b.Step (.selectFunction name) a b') :
    ∃ p f, b'.At p f ∧ b'.Since f p cs [] := by
  cases h with
  | @selectFunction _ p f _ hf =>
      exact ⟨p, f, ⟨rfl, hf⟩, rfl, by simp, f, hf, .refl f cs _⟩
  | fold hv => cases hv
  | define _ hi _ _ _ _ => cases hi
  | perform hi _ _ _ _ => cases hi

/-- A register that a command answers is the next one. -/
theorem Step.eq_nextReg {r : RegName} (h : b.Step c (.value (.reg r)) b') :
    r = .num b.nextReg := by
  cases h with
  | define _ _ _ _ _ _ => rfl

/-- A register is answered only while a function is being built. -/
theorem Step.exists_at {r : RegName} (h : b.Step c (.value (.reg r)) b') :
    ∃ p f, b.At p f := by
  cases h with
  | define _ _ hat _ _ _ => exact ⟨_, _, hat⟩

end Builder

namespace Command

variable {b b' : Builder} {cs : List Command} {as : List Answer} {c : Command} {r : RegName}

/-! ### The last selection -/

/-- Among elements of which some pass a test there is a last one that does. -/
theorem exists_last {α : Type} {p : α → Bool} {xs : List α} (h : ∃ x ∈ xs, p x = true) :
    ∃ before x after, xs = before ++ x :: after ∧ p x = true ∧ ∀ y ∈ after, p y = false := by
  induction xs with
  | nil =>
      obtain ⟨x, hx, -⟩ := h
      cases hx
  | cons a xs ih =>
      by_cases hrest : ∃ x ∈ xs, p x = true
      · obtain ⟨before, x, after, rfl, hx, hafter⟩ := ih hrest
        exact ⟨a :: before, x, after, rfl, hx, hafter⟩
      · have hnone : ∀ y ∈ xs, p y = false := by simpa using hrest
        obtain ⟨x, hx, hpx⟩ := h
        rcases List.mem_cons.mp hx with rfl | hx
        · exact ⟨[], x, xs, rfl, hpx, hnone⟩
        · rw [hnone x hx] at hpx
          cases hpx

/-- Without a selection no function is being built. -/
theorem current_of_runAll (h : (runAll cs).run b = .ok (as, b')) (hb : b.current = none)
    (hselect : ∀ c ∈ cs, c.isSelection = false) : b'.current = none := by
  refine runAll_induction (P := fun _ b => b.current = none) h hb ?_
  intro c hc as a b₁ b₂ hstep hnone
  cases hstep with
  | selectFunction _ _ => cases hselect _ hc
  | _ => exact hnone

/-! ### What a fresh register differs from -/

/-- Arguments that are numbered by their position have numbers below their count. -/
theorem lt_of_mem_setArgs {g : Func} {types : List Ty} (htypes : types.length < UInt32.size)
    {arg : Ty × RegName} (harg : arg ∈ (g.setArgs types).args) {k : UInt32}
    (hk : arg.2 = .num k) : k.toNat < (g.setArgs types).args.length := by
  obtain ⟨n, hn, rfl⟩ := List.mem_mapIdx.mp harg
  obtain rfl : UInt32.ofNat n = k := RegName.num.inj hk
  rw [UInt32.toNat_ofNat', Nat.mod_eq_of_lt (Nat.lt_trans hn htypes)]
  simpa [Func.setArgs] using hn

end Command

/-- `f₁.FreshSince f cs count r`: the register `r` is fresh in the function `f`, as far as the
counter knows. It was started when `f` was `f₁`, and the commands `cs` since then have been given
`count` registers. -/
structure Func.FreshSince (f₁ f : Func) (cs : List Command) (count : Nat) (r : RegName) : Prop where
  /-- Numbers go on from the number of arguments. -/
  number : ∃ n : UInt32, r = .num n ∧ n.toNat = (UInt32.ofNat f.args.length).toNat + count
  /-- Arguments that have names, or numbers below their count, are not hit. -/
  args : f.args.length < UInt32.size → ∀ arg ∈ f.args,
    (∀ k : UInt32, arg.2 = .num k → k.toNat < f.args.length) → arg.2 ≠ r
  /-- Arguments that are numbered by their position are of this kind. -/
  setArgs : ∀ (g : Func) (types : List Ty), f.args = (g.setArgs types).args →
    types.length < UInt32.size → ∀ arg ∈ f.args, arg.2 ≠ r
  /-- Destinations are not hit, unless they were there before or are written by hand. -/
  dests : ∀ i ∈ f.instructions, i.dest = some (.reg r) → i ∈ f₁.instructions ∨ .append i ∈ cs

namespace Builder

/-- The next register is fresh. -/
theorem Since.freshSince {b : Builder} {f₁ f : Func} {p : Nat} {cs : List Command}
    {as : List Answer} (h : b.Since f₁ p cs as) (hf : b.module.functions[p]? = some f) :
    f₁.FreshSince f cs (as.countP Answer.isReg) (.num b.nextReg) := by
  obtain ⟨f', hf', haccounts⟩ := h.function
  obtain rfl : f = f' := Option.some.inj (hf.symm.trans hf')
  have hcounter := h.counter
  rw [← haccounts.args] at hcounter
  have hargs : f.args.length < UInt32.size → ∀ arg ∈ f.args,
      (∀ k : UInt32, arg.2 = .num k → k.toNat < f.args.length) → arg.2 ≠ .num b.nextReg := by
    intro hsize arg _ hbelow heq
    have hlt := hbelow b.nextReg heq
    rw [UInt32.toNat_ofNat', Nat.mod_eq_of_lt hsize] at hcounter
    omega
  refine ⟨⟨b.nextReg, rfl, hcounter⟩, hargs, ?_, ?_⟩
  · intro g types heq htypes arg harg
    refine hargs ?_ arg harg ?_
    · rw [heq]
      simpa [Func.setArgs] using htypes
    · intro k hk
      rw [heq] at harg ⊢
      exact Command.lt_of_mem_setArgs htypes harg hk
  · intro i hi hdest
    rcases haccounts.dests i hi with hold | hraw | hbelow
    · exact .inl hold
    · exact .inr hraw
    · obtain ⟨n, hn, hlt⟩ := hbelow _ hdest
      cases hn
      omega

end Builder

/-- **Fresh registers.** Whatever commands have built a module, the register that a command answers
next is fresh since the last selection of a function: it is numbered from the count of arguments by
the registers answered since then. So it differs from all arguments that have names or numbers below
their count, and from the destinations of all instructions of the function but those that were there
at the last selection and those that have been added as they are. -/
theorem Command.fresh_since_selection {name : String} {cs : List Command} {as : List Answer}
    {b b' : Builder} {c : Command} {r : RegName}
    (h : (runAll cs).run (Builder.new name) = .ok (as, b))
    (hc : c.run.run b = .ok (.value (.reg r), b')) :
    ∃ (before since : List Command) (selected : String) (first later : List Answer) (b₁ : Builder)
      (p : Nat) (f₁ f : Func),
      cs = before ++ .selectFunction selected :: since ∧
      (∀ c' ∈ since, c'.isSelection = false) ∧
      (runAll (before ++ [.selectFunction selected])).run (Builder.new name) = .ok (first, b₁) ∧
      as = first ++ later ∧ b₁.At p f₁ ∧ b.At p f ∧
      f₁.FreshSince f since (later.countP Answer.isReg) r := by
  -- Without a selection nothing is being built, and no command answers a register.
  have hselected : ∃ c' ∈ cs, c'.isSelection = true := by
    by_contra hnone
    have hcurrent := current_of_runAll h rfl (by simpa using hnone)
    obtain ⟨p, f, hat⟩ := (step_of_run hc).exists_at
    rw [hat.current] at hcurrent
    cases hcurrent
  obtain ⟨before, sel, since, rfl, hsel, hsince⟩ := exists_last hselected
  obtain ⟨selected, rfl⟩ : ∃ selected, sel = .selectFunction selected := by
    cases sel with
    | selectFunction selected => exact ⟨selected, rfl⟩
    | _ => cases hsel
  rw [List.append_cons] at h
  obtain ⟨first, b₁, later, hfirst, hlater, rfl⟩ := runAll_append_eq_ok_iff.mp h
  obtain ⟨_, b₀, _, -, hselect, -⟩ := runAll_append_eq_ok_iff.mp hfirst
  obtain ⟨a, _, _, hselect, hnil, -⟩ := runAll_cons_eq_ok_iff.mp hselect
  cases hnil
  obtain ⟨p, f₁, hat₁, hstart⟩ := Builder.since_of_selectFunction (step_of_run hselect)
  have hend : b.Since f₁ p since later :=
    runAll_induction (P := fun as b => b.Since f₁ p since as) hlater hstart
      fun c' hc' _ _ _ _ hstep hb => hb.step hc' (hsince c' hc') hstep
  obtain ⟨f, hf, -⟩ := hend.function
  refine ⟨before, since, selected, first, later, b₁, p, f₁, f, rfl, hsince, hfirst, rfl, hat₁,
    ⟨hend.current, hf⟩, ?_⟩
  rw [(step_of_run hc).eq_nextReg]
  exact hend.freshSince hf

/-- Commands that build a function of two arguments, leave it for another one, come back and go on
in a block of its own. -/
def leaveAndComeBack : List Command := [
  .addFunction (({ name := "f", linkage := .exported, returnType := .i32 } : Func).setArgs
    [.i32, .i64]),
  .addFunction { name := "g", linkage := .internal, returnType := .void },
  .selectFunction "f",
  .createBlock "entry",
  .alloca .i32,
  .selectFunction "g",
  .createBlock "entry",
  .retVoid,
  .selectFunction "f",
  .createBlock "body",
  .load .i32 (.reg (.num 0)),
  .arith .add .i32 (.imm 1) (.imm 2),
  .arith .add .i32 (.reg (.num 2)) (.imm 1)]

/-- The third register after coming back is numbered behind two arguments and two registers; a sum
that is folded has not used a number. The arguments are not hit. -/
theorem leaveAndComeBack_fresh :
    ∃ as b b', (Command.runAll leaveAndComeBack).run (Builder.new "m") = .ok (as, b) ∧
      (Command.alloca .i8).run.run b = .ok (.value (.reg (.num 4)), b') ∧
      ∃ (p : Nat) (f₁ f : Func) (since : List Command), b.At p f ∧
        f₁.FreshSince f since 2 (.num 4) ∧ ∀ arg ∈ f.args, arg.2 ≠ .num 4 := by
  have hends : Ends ((Command.runAll leaveAndComeBack).run (Builder.new "m"))
      (fun r => (r.2.function?.map Func.args = some [(.i32, .num 0), (.i64, .num 1)]) ∧
        Ends ((Command.alloca .i8).run.run r.2) (fun q => q.1 = .value (.reg (.num 4)))
          fun _ => False) fun _ => False := by
    decide +kernel
  obtain ⟨⟨as, b⟩, hrun, hargs, halloca⟩ := hends.exists_ok
  obtain ⟨⟨_, b'⟩, halloca, rfl⟩ := halloca.exists_ok
  obtain ⟨before, since, selected, first, later, b₁, p, f₁, f, -, -, -, -, -, hat, hfresh⟩ :=
    Command.fresh_since_selection hrun halloca
  have hfunction : b.function? = some f := by
    rw [Builder.function?, hat.current]
    exact hat.function
  rw [hfunction] at hargs
  have hf : f.args = (f.setArgs [.i32, .i64]).args := Option.some.inj hargs
  have hcount : later.countP Answer.isReg = 2 := by
    obtain ⟨n, hn, hnumber⟩ := hfresh.number
    cases hn
    rw [hf] at hnumber
    exact (Nat.add_left_cancel hnumber).symm
  exact ⟨as, b, b', hrun, halloca, p, f₁, f, since, hat, hcount ▸ hfresh,
    hfresh.setArgs f _ hf (by decide)⟩

/-- Commands that define a register, select the function again and go on. -/
def selectAgain : List Command := [
  .addFunction { name := "f", linkage := .exported, returnType := .void },
  .selectFunction "f",
  .createBlock "entry",
  .alloca .i32,
  .selectFunction "f",
  .selectBlock 1]

/-- Commands that start a function whose only argument is numbered one. -/
def highArgument : List Command := [
  .addFunction (({ name := "f", linkage := .exported, returnType := .void } : Func).addArg
    .i32 (.num 1)),
  .selectFunction "f",
  .createBlock "entry"]

/-- Commands that add an instruction with a destination as it is. -/
def writtenByHand : List Command := [
  .addFunction { name := "f", linkage := .exported, returnType := .void },
  .selectFunction "f",
  .createBlock "entry",
  .append { opcode := .alloca, dataType := .i32, dest := some (.reg (.num 0)) }]

/-- `Reuses cs n used`: after the commands the register `n` is answered, and the function that is
being built uses it already, as `used` says. -/
def Command.Reuses (cs : List Command) (n : UInt32) (used : Func → Prop) : Prop :=
  ∃ as b b' f, (runAll cs).run (Builder.new "m") = .ok (as, b) ∧
    (alloca .i64).run.run b = .ok (.value (.reg (.num n)), b') ∧ b.function? = some f ∧ used f

/-- It is found by running the commands. -/
theorem Command.Reuses.of_ends {cs : List Command} {n : UInt32} {used : Func → Prop}
    (h : Ends ((runAll cs).run (Builder.new "m"))
      (fun r => (∃ f ∈ r.2.function?, used f) ∧
        Ends ((alloca .i64).run.run r.2) (fun q => q.1 = .value (.reg (.num n)))
          fun _ => False) fun _ => False) : Reuses cs n used := by
  obtain ⟨⟨as, b⟩, hrun, ⟨f, hf, hused⟩, halloca⟩ := h.exists_ok
  obtain ⟨⟨_, b'⟩, halloca, rfl⟩ := halloca.exists_ok
  exact ⟨as, b, b', f, hrun, halloca, hf, hused⟩

/-- **Registers are used again.** After a function has been selected again, a register is answered
that is the destination of one of its instructions; so is one after an instruction has been added as
it is; and a register is answered that is an argument. -/
theorem fresh_register_reused :
    Command.Reuses selectAgain 0 (fun f => ∃ i ∈ f.instructions, i.dest = some (.reg (.num 0))) ∧
    Command.Reuses writtenByHand 0 (fun f => ∃ i ∈ f.instructions, i.dest = some (.reg (.num 0))) ∧
    Command.Reuses highArgument 1 (fun f => ∃ arg ∈ f.args, arg.2 = .num 1) := by
  refine ⟨.of_ends ?_, .of_ends ?_, .of_ends ?_⟩
  · decide +kernel
  · decide +kernel
  · decide +kernel

end RegIR
