import RegIR.Builder
import RegIR.Proofs.Build.Blocks

/-!
# Building, command by command

The operations of a builder as data, so that one can speak about all sequences of them. A command
either changes the module or what is selected, or it adds one instruction at the end of the selected
block; a command that yields a value numbers the register for it, unless the value is folded.

`Builder.Step` says what a command that does not fault does. Whatever is preserved by every step is
preserved by every sequence of commands.

## Main results

* `Command.step_of_run`: a command that succeeds is a step.
* `Command.runAll_induction`: from steps to sequences of commands.
-/

namespace RegIR

/-! ### Commands -/

/-- An operation of a builder. -/
inductive Command where
  | addFunction (f : Func)
  | addString (s : StringConst)
  | selectFunction (name : String)
  | addBlock (name : String)
  | addBlockAfter (after : UInt32) (name : String)
  | createBlock (name : String)
  | selectBlock (id : UInt32)
  | string (value : String)
  | alloca (type : Ty)
  | load (type : Ty) (address : Operand)
  | structLoad (type : Ty) (address : Operand) (index : UInt32)
  | arith (op : ArithOp) (type : Ty) (left right : Operand)
  | divide (op : DivOp) (type : Ty) (left right : Operand)
  | gep (type : Ty) (pointer index : Operand)
  | unary (op : UnaryOp) (type : Ty) (operand : Operand)
  | call (type : Ty) (callee : String) (args : List Operand)
  | store (type : Ty) (value address : Operand)
  | structStore (type : Ty) (address : Operand) (index : UInt32) (value : Operand)
  | br (target : UInt32)
  | branch (rel : Relation) (type : Ty) (left right : Operand) (target : UInt32)
  | callVoid (callee : String) (args : List Operand)
  | ret (type : Ty) (value : Operand)
  | retVoid
  /-- Add an instruction as it is. -/
  | append (i : Instruction)
deriving DecidableEq, Repr

/-- What a command answers. -/
inductive Answer where
  | done
  | block (id : UInt32)
  | value (op : Operand)
deriving DecidableEq, Repr

namespace Command

/-- Carry out a command. -/
def run : Command → Build Answer
  | addFunction f => (fun _ => .done) <$> Build.addFunction f
  | addString s => (fun _ => .done) <$> Build.addString s
  | selectFunction name => (fun _ => .done) <$> Build.selectFunction name
  | addBlock name => .block <$> Build.addBlock name
  | addBlockAfter after name => .block <$> Build.addBlockAfter after name
  | createBlock name => .block <$> Build.createBlock name
  | selectBlock id => (fun _ => .done) <$> Build.selectBlock id
  | string value => .value <$> Build.string value
  | alloca type => .value <$> Build.alloca type
  | load type address => .value <$> Build.load type address
  | structLoad type address index => .value <$> Build.structLoad type address index
  | arith op type left right => .value <$> Build.arith op type left right
  | divide op type left right => .value <$> Build.divide op type left right
  | gep type pointer index => .value <$> Build.gep type pointer index
  | unary op type operand => .value <$> Build.unary op type operand
  | call type callee args => .value <$> Build.call type callee args
  | store type value address => (fun _ => .done) <$> Build.store type value address
  | structStore type address index value =>
      (fun _ => .done) <$> Build.structStore type address index value
  | br target => (fun _ => .done) <$> Build.br target
  | branch rel type left right target =>
      (fun _ => .done) <$> Build.branch rel type left right target
  | callVoid callee args => (fun _ => .done) <$> Build.callVoid callee args
  | ret type value => (fun _ => .done) <$> Build.ret type value
  | retVoid => (fun _ => .done) <$> Build.retVoid
  | append i => (fun _ => .done) <$> Build.append i

/-- Carry out commands one after the other. -/
def runAll (cs : List Command) : Build (List Answer) :=
  cs.mapM run

/-- The constant that a command is folded to. -/
def fold? : Command → Option Int64
  | arith op _ left right => do (Opcode.arith op).fold? (← left.imm?) (← right.imm?)
  | divide op _ left right => do (Opcode.divide op).fold? (← left.imm?) (← right.imm?)
  | gep _ pointer index => do Opcode.gep.fold? (← pointer.imm?) (← index.imm?)
  | unary op _ operand => operand.imm?.map op.fold
  | _ => none

/-- The instruction that computes the value of a command, without its destination. -/
def compute? : Command → Option Instruction
  | alloca type => some { opcode := .alloca, dataType := type }
  | load type address => some { opcode := .load, dataType := type, src1 := some address }
  | structLoad type address index =>
      some { opcode := .structLoad, dataType := type, src1 := some address,
             src2 := some (Build.fieldIndex index) }
  | arith op type left right =>
      some { opcode := .arith op, dataType := type, src1 := some left, src2 := some right }
  | divide op type left right =>
      some { opcode := .divide op, dataType := type, src1 := some left, src2 := some right }
  | gep type pointer index =>
      some { opcode := .gep, dataType := type, src1 := some pointer, src2 := some index }
  | unary op type operand =>
      some { opcode := .unary op, dataType := type, src1 := some operand }
  | call type callee args =>
      some { opcode := .call, dataType := type, call := some { callee := callee, args := args } }
  | _ => none

/-- The block that a command branches to. -/
def target? : Command → Option UInt32
  | br target | branch _ _ _ _ target => some target
  | _ => none

/-- Is a branch taken in any case? It is when it compares equal constants for equality. -/
def alwaysTaken : Relation → Operand → Operand → Bool
  | .eq, .imm a, .imm b => a == b
  | _, _, _ => false

/-- The instruction that a command without a value adds, given the label it branches to. -/
def perform? (label : Option Operand) : Command → Option Instruction
  | store type value address =>
      some { opcode := .store, dataType := type, src1 := some value, src2 := some address }
  | structStore type address index value =>
      some { opcode := .structStore, dataType := type, src1 := some address,
             src2 := some (Build.fieldIndex index), src3 := some value }
  | br _ => some { opcode := .br, dataType := .void, src1 := label }
  | branch rel type left right _ =>
      if alwaysTaken rel left right then some { opcode := .br, dataType := .void, src1 := label }
      else some { opcode := .branch rel, dataType := type, src1 := some left,
                  src2 := some right, src3 := label }
  | callVoid callee args =>
      some { opcode := .call, dataType := .void, call := some { callee := callee, args := args } }
  | ret type value => some { opcode := .ret, dataType := type, src1 := some value }
  | retVoid => some { opcode := .retVoid, dataType := .void }
  | append i => some i
  | _ => none

/-- A conditional branch that is always taken is added as a jump. -/
theorem perform?_branch (label : Option Operand) (rel : Relation) (type : Ty)
    (left right : Operand) (target : UInt32) :
    perform? label (branch rel type left right target) =
      if alwaysTaken rel left right then some { opcode := .br, dataType := .void, src1 := label }
      else some { opcode := .branch rel, dataType := type, src1 := some left,
                  src2 := some right, src3 := label } :=
  rfl

end Command

/-! ### Steps -/

namespace Builder

/-- `b.At p f`: the builder is building the function `f`, at position `p`. -/
structure At (b : Builder) (p : Nat) (f : Func) : Prop where
  current : b.current = some p
  function : b.module.functions[p]? = some f

/-- The builder with another function at a position. -/
def put (b : Builder) (p : Nat) (f : Func) : Builder :=
  { b with module := b.module.setFunction p f }

/-- `b.Step c a b'`: the command `c` answers `a` and leaves the builder `b'`. -/
inductive Step (b : Builder) : Command → Answer → Builder → Prop
  | addFunction {f : Func} (hnew : b.module.function? f.name = none) :
      Step b (.addFunction f) .done
        { b with module := { b.module with functions := b.module.functions ++ [f] } }
  | addString {s : StringConst} :
      Step b (.addString s) .done { b with module := b.module.addString s }
  | string {value : String} {s : StringConst} {next : UInt32}
      (hs : s = { name := "STR" ++ b.nextString.toNat.repr, value := Literal.escape value })
      (hnext : next.toNat = b.nextString.toNat + 1) :
      Step b (.string value) (.value (.string s))
        { b with module := b.module.addString s, nextString := next }
  | selectFunction {name : String} {p : Nat} {f : Func}
      (hp : b.module.functions.findIdx? (·.name == name) = some p)
      (hf : b.module.functions[p]? = some f) :
      Step b (.selectFunction name) .done
        { b with current := some p, insertPoint := none, nextReg := UInt32.ofNat f.args.length }
  | addBlock {name : String} {p : Nat} {f g : Func} {id : UInt32} (hat : b.At p f)
      (hg : f.addBlock (.empty name) = .ok (id, g)) :
      Step b (.addBlock name) (.block id) (b.put p g)
  | addBlockAfter {after : UInt32} {name : String} {p : Nat} {f g : Func} {id : UInt32}
      (hat : b.At p f) (hg : f.addBlockAfter after (.empty name) = .ok (id, g)) :
      Step b (.addBlockAfter after name) (.block id) (b.put p g)
  | createBlock {name : String} {p : Nat} {f g : Func} {id : UInt32} (hat : b.At p f)
      (hg : f.addBlock (.empty name) = .ok (id, g)) :
      Step b (.createBlock name) (.block id) { b.put p g with insertPoint := some id }
  | selectBlock {id : UInt32} {p : Nat} {f : Func} (hat : b.At p f)
      (hblock : (f.block? id).isSome = true) :
      Step b (.selectBlock id) .done { b with insertPoint := some id }
  | fold {c : Command} {v : Int64} (hv : c.fold? = some v) : Step b c (.value (.imm v)) b
  | define {c : Command} {i : Instruction} {p : Nat} {f g : Func} {id next : UInt32}
      (hfold : c.fold? = none) (hi : c.compute? = some i) (hat : b.At p f)
      (hid : b.insertPoint = some id)
      (hg : f.Appends id { i with dest := some (.reg (.num b.nextReg)) } g)
      (hnext : next.toNat = b.nextReg.toNat + 1) :
      Step b c (.value (.reg (.num b.nextReg))) { b.put p g with nextReg := next }
  | perform {c : Command} {label : Option Operand} {i : Instruction} {p : Nat} {f g : Func}
      {id : UInt32} (hi : c.perform? label = some i) (hat : b.At p f)
      (hlabel : ∀ target, c.target? = some target →
        ∃ block, f.block? target = some block ∧ label = some (.label block.name))
      (hid : b.insertPoint = some id) (hg : f.Appends id i g) :
      Step b c .done (b.put p g)

end Builder

/-! ### A command that succeeds is a step -/

namespace Build

variable {α β : Type} {b b' : Builder} {x : Build α}

/-- One computation after another. -/
theorem bind_eq_ok {k : α → Build β} {r : β × Builder} :
    (x >>= k).run b = .ok r ↔ ∃ a b', x.run b = .ok (a, b') ∧ (k a).run b' = .ok r := by
  rw [StateT.run_bind, RegIR.bind_eq_ok_iff, Prod.exists]

/-- A result that is only wrapped. -/
theorem map_eq_ok {k : α → β} {r : β} :
    (k <$> x).run b = .ok (r, b') ↔ ∃ a, x.run b = .ok (a, b') ∧ r = k a := by
  rw [StateT.run_map]
  rcases x.run b with e | ⟨a, b₁⟩
  · simp [Functor.map, Except.map]
  · simp only [Functor.map, Except.map, Except.ok.injEq, Prod.mk.injEq]
    constructor
    · rintro ⟨rfl, rfl⟩
      exact ⟨a, ⟨rfl, rfl⟩, rfl⟩
    · rintro ⟨_, ⟨rfl, rfl⟩, rfl⟩
      exact ⟨rfl, rfl⟩

/-- A check that leaves the builder alone. -/
theorem lift_eq_ok {x : Checked α} {a : α} (h : (liftM x : Build α).run b = .ok (a, b')) :
    x = .ok a ∧ b' = b := by
  rcases x with e | a'
  · cases h
  · cases h
    exact ⟨rfl, rfl⟩

/-- The function that is being built. -/
theorem currentFunction_eq_ok {q : Nat × Func} (h : currentFunction.run b = .ok (q, b')) :
    b' = b ∧ b.At q.1 q.2 := by
  obtain ⟨_, _, hget, h⟩ := bind_eq_ok.mp h
  cases hget
  rcases hcurrent : b.current with - | p
  · rw [hcurrent] at h
    cases h
  · rw [hcurrent] at h
    rcases hfunction : b.module.functions[p]? with - | f
    · simp only [hfunction] at h
      cases h
    · simp only [hfunction] at h
      cases h
      exact ⟨rfl, hcurrent, hfunction⟩

/-- A label names a block of the function that is being built. -/
theorem labelOf_eq_ok {id : UInt32} {label : Operand} (h : (labelOf id).run b = .ok (label, b')) :
    b' = b ∧ ∃ p f block, b.At p f ∧ f.block? id = some block ∧ label = .label block.name := by
  obtain ⟨⟨p, f⟩, b₁, hcurrent, hlabel⟩ := bind_eq_ok.mp h
  obtain ⟨rfl, hat⟩ := currentFunction_eq_ok hcurrent
  rcases hblock : f.block? id with - | block
  · simp only [hblock] at hlabel
    cases hlabel
  · simp only [hblock] at hlabel
    cases hlabel
    exact ⟨rfl, p, f, block, hat, hblock, rfl⟩

/-- The first element that passes a test is at the first position that does. -/
theorem getElem?_of_findIdx? {xs : List α} {p : α → Bool} {n : Nat} {a : α}
    (hn : xs.findIdx? p = some n) (ha : xs.find? p = some a) : xs[n]? = some a := by
  obtain ⟨hpa, k, hk, rfl, hbeforek⟩ := List.find?_eq_some_iff_getElem.mp ha
  obtain ⟨hlt, hpn, hbeforen⟩ := List.findIdx?_eq_some_iff_getElem.mp hn
  rcases Nat.lt_trichotomy k n with hkn | rfl | hnk
  · exact absurd hpa (hbeforen k hkn)
  · exact List.getElem?_eq_getElem hk
  · simpa [hpn] using hbeforek n hnk

/-- An instruction is added at the end of the selected block. -/
theorem append_eq_ok {i : Instruction} {u : Unit} (h : (append i).run b = .ok (u, b')) :
    ∃ p f g id, b.At p f ∧ b.insertPoint = some id ∧ f.Appends id i g ∧ b' = b.put p g := by
  obtain ⟨b₀, b₁, hget, hrest⟩ := bind_eq_ok.mp h
  obtain ⟨rfl, rfl⟩ := Prod.mk.inj (Except.ok.inj hget)
  obtain ⟨⟨p, f⟩, b₂, hcurrent, happend⟩ := bind_eq_ok.mp hrest
  obtain ⟨rfl, hat⟩ := currentFunction_eq_ok hcurrent
  rcases hid : b₂.insertPoint with - | id
  · simp only [hid] at happend
    cases happend
  · simp only [hid] at happend
    rcases hg : f.appendTo? id i with - | g
    · simp only [hg] at happend
      cases happend
    · simp only [hg] at happend
      cases happend
      exact ⟨p, f, g, id, hat, rfl, Func.appends_of_appendTo? hg, rfl⟩

/-- An instruction is added with the next register as its destination. -/
theorem define_eq_ok {i : Instruction} {op : Operand} (h : (define i).run b = .ok (op, b')) :
    op = .reg (.num b.nextReg) ∧ ∃ p f g id next, b.At p f ∧ b.insertPoint = some id ∧
      f.Appends id { i with dest := some (.reg (.num b.nextReg)) } g ∧
      next.toNat = b.nextReg.toNat + 1 ∧ b' = { b.put p g with nextReg := next } := by
  obtain ⟨dest, b₁, hfresh, hrest⟩ := bind_eq_ok.mp h
  obtain ⟨b₀, b₂, hget, hnumber⟩ := bind_eq_ok.mp hfresh
  obtain ⟨rfl, rfl⟩ := Prod.mk.inj (Except.ok.inj hget)
  obtain ⟨next, b₃, hnext, hset⟩ := bind_eq_ok.mp hnumber
  obtain ⟨hnext, rfl⟩ := lift_eq_ok hnext
  cases hset
  obtain ⟨u, b₄, happend, hreturn⟩ := bind_eq_ok.mp hrest
  cases hreturn
  obtain ⟨p, f, g, id, hat, hid, hg, rfl⟩ := append_eq_ok happend
  exact ⟨rfl, p, f, g, id, next, ⟨hat.current, hat.function⟩, hid, hg,
    successor32_eq_ok_iff.mp hnext, rfl⟩

/-- An operation on two operands is folded or computed. -/
theorem binary_eq_ok {op : Opcode} {type : Ty} {left right v : Operand}
    (h : (binary op type left right).run b = .ok (v, b')) :
    (∃ value, (do op.fold? (← left.imm?) (← right.imm?)) = some value ∧ v = .imm value ∧ b' = b) ∨
    (do op.fold? (← left.imm?) (← right.imm?)) = none ∧
      (define { opcode := op, dataType := type, src1 := some left, src2 := some right }).run b
        = .ok (v, b') := by
  unfold binary at h
  dsimp only at h
  split at h
  next value hfold =>
    cases h
    exact .inl ⟨value, hfold, rfl, rfl⟩
  next hfold => exact .inr ⟨hfold, h⟩

/-- A conditional branch compares unless it is taken in any case. -/
theorem branch_eq (rel : Relation) (type : Ty) (left right : Operand) (target : UInt32) :
    branch rel type left right target =
      if Command.alwaysTaken rel left right then br target
      else compareBranch rel type left right target := by
  unfold branch
  split
  next v w => by_cases heq : v = w <;> simp [Command.alwaysTaken, heq]
  next hnot =>
    rw [if_neg]
    unfold Command.alwaysTaken
    split
    next v w => exact (hnot v w rfl rfl rfl).elim
    next => exact Bool.false_ne_true

/-- A block is added to the function that is being built, by whatever says where. -/
theorem insert_eq_ok (insert : Func → Checked (UInt32 × Func)) {id : UInt32}
    (h : (do
      let (position, f) ← currentFunction
      let (id, f) ← insert f
      replaceFunction position f
      return id : Build UInt32).run b = .ok (id, b')) :
    ∃ p f g, b.At p f ∧ insert f = .ok (id, g) ∧ b' = b.put p g := by
  obtain ⟨⟨p, f⟩, b₁, hcurrent, hrest⟩ := bind_eq_ok.mp h
  obtain ⟨rfl, hat⟩ := currentFunction_eq_ok hcurrent
  obtain ⟨⟨id, g⟩, b₂, hinsert, hput⟩ := bind_eq_ok.mp hrest
  obtain ⟨hg, rfl⟩ := lift_eq_ok hinsert
  cases hput
  exact ⟨p, f, g, hat, hg, rfl⟩

end Build

namespace Command

variable {b b' : Builder} {c : Command} {a : Answer} {op : Operand}

/-- A command that defines a register. -/
theorem step_of_define {i : Instruction} (hfold : c.fold? = none) (hi : c.compute? = some i)
    (h : (Build.define i).run b = .ok (op, b')) : b.Step c (.value op) b' := by
  obtain ⟨rfl, p, f, g, id, next, hat, hid, hg, hnext, rfl⟩ := Build.define_eq_ok h
  exact .define hfold hi hat hid hg hnext

/-- A command on two operands. -/
theorem step_of_binary {o : Opcode} {type : Ty} {left right : Operand}
    (hfold : c.fold? = do o.fold? (← left.imm?) (← right.imm?))
    (hi : c.compute? =
      some { opcode := o, dataType := type, src1 := some left, src2 := some right })
    (h : (Build.binary o type left right).run b = .ok (op, b')) : b.Step c (.value op) b' := by
  rcases Build.binary_eq_ok h with ⟨value, hvalue, rfl, rfl⟩ | ⟨hnone, hdefine⟩
  · exact .fold (hfold.trans hvalue)
  · exact step_of_define (hfold.trans hnone) hi hdefine

/-- A command that adds an instruction without a label. -/
theorem step_of_append {u : Unit} {i : Instruction} (hi : c.perform? none = some i)
    (htarget : c.target? = none) (h : (Build.append i).run b = .ok (u, b')) :
    b.Step c .done b' := by
  obtain ⟨p, f, g, id, hat, hid, hg, rfl⟩ := Build.append_eq_ok h
  exact .perform hi hat (by simp [htarget]) hid hg

/-- A command that adds an instruction with the label of a block. -/
theorem step_of_label {u : Unit} {target : UInt32} {i : Operand → Instruction}
    (hi : ∀ label, c.perform? (some label) = some (i label)) (htarget : c.target? = some target)
    (h : (Build.labelOf target >>= fun label => Build.append (i label)).run b = .ok (u, b')) :
    b.Step c .done b' := by
  obtain ⟨label, b₁, hlabel, happend⟩ := Build.bind_eq_ok.mp h
  obtain ⟨rfl, p, f, block, hat, hblock, rfl⟩ := Build.labelOf_eq_ok hlabel
  obtain ⟨p', f', g, id, hat', hid, hg, rfl⟩ := Build.append_eq_ok happend
  obtain rfl : p = p' := Option.some.inj (hat.current.symm.trans hat'.current)
  obtain rfl : f = f' := Option.some.inj (hat.function.symm.trans hat'.function)
  refine .perform (hi _) hat ?_ hid hg
  intro target' htarget'
  obtain rfl : target = target' := Option.some.inj (htarget.symm.trans htarget')
  exact ⟨block, hblock, rfl⟩

/-- **Steps.** A command that succeeds is a step. -/
theorem step_of_run (h : c.run.run b = .ok (a, b')) : b.Step c a b' := by
  cases c with
  | addFunction f =>
      obtain ⟨u, hadd, rfl⟩ := Build.map_eq_ok.mp h
      obtain ⟨b₀, b₁, hget, hrest⟩ := Build.bind_eq_ok.mp hadd
      obtain ⟨rfl, rfl⟩ := Prod.mk.inj (Except.ok.inj hget)
      obtain ⟨m, b₂, hm, hset⟩ := Build.bind_eq_ok.mp hrest
      obtain ⟨hm, rfl⟩ := Build.lift_eq_ok hm
      cases hset
      unfold Module.addFunction at hm
      split at hm
      · cases hm
      next hnew =>
        cases hm
        exact .addFunction (by simpa using hnew)
  | addString s =>
      obtain ⟨u, hadd, rfl⟩ := Build.map_eq_ok.mp h
      cases hadd
      exact .addString
  | selectFunction name =>
      obtain ⟨u, hselect, rfl⟩ := Build.map_eq_ok.mp h
      obtain ⟨b₀, b₁, hget, hrest⟩ := Build.bind_eq_ok.mp hselect
      obtain ⟨rfl, rfl⟩ := Prod.mk.inj (Except.ok.inj hget)
      split at hrest
      next p f hp hf =>
        cases hrest
        exact .selectFunction hp (Build.getElem?_of_findIdx? hp hf)
      next => cases hrest
  | addBlock name =>
      obtain ⟨id, hadd, rfl⟩ := Build.map_eq_ok.mp h
      obtain ⟨p, f, g, hat, hg, rfl⟩ := Build.insert_eq_ok (·.addBlock (.empty name)) hadd
      exact .addBlock hat hg
  | addBlockAfter after name =>
      obtain ⟨id, hadd, rfl⟩ := Build.map_eq_ok.mp h
      obtain ⟨p, f, g, hat, hg, rfl⟩ :=
        Build.insert_eq_ok (·.addBlockAfter after (.empty name)) hadd
      exact .addBlockAfter hat hg
  | createBlock name =>
      obtain ⟨id, hcreate, rfl⟩ := Build.map_eq_ok.mp h
      obtain ⟨id, b₁, hadd, hset⟩ := Build.bind_eq_ok.mp hcreate
      obtain ⟨p, f, g, hat, hg, rfl⟩ := Build.insert_eq_ok (·.addBlock (.empty name)) hadd
      cases hset
      exact .createBlock hat hg
  | selectBlock id =>
      obtain ⟨u, hselect, rfl⟩ := Build.map_eq_ok.mp h
      obtain ⟨⟨p, f⟩, b₁, hcurrent, hrest⟩ := Build.bind_eq_ok.mp hselect
      obtain ⟨rfl, hat⟩ := Build.currentFunction_eq_ok hcurrent
      dsimp only at hrest
      split at hrest
      next hblock =>
        cases hrest
        exact .selectBlock hat hblock
      next => cases hrest
  | string value =>
      obtain ⟨op, hstring, rfl⟩ := Build.map_eq_ok.mp h
      obtain ⟨b₀, b₁, hget, hrest⟩ := Build.bind_eq_ok.mp hstring
      obtain ⟨rfl, rfl⟩ := Prod.mk.inj (Except.ok.inj hget)
      obtain ⟨next, b₂, hnext, hset⟩ := Build.bind_eq_ok.mp hrest
      obtain ⟨hnext, rfl⟩ := Build.lift_eq_ok hnext
      cases hset
      exact .string rfl (successor32_eq_ok_iff.mp hnext)
  | alloca type =>
      obtain ⟨op, hdefine, rfl⟩ := Build.map_eq_ok.mp h
      exact step_of_define rfl rfl hdefine
  | load type address =>
      obtain ⟨op, hdefine, rfl⟩ := Build.map_eq_ok.mp h
      exact step_of_define rfl rfl hdefine
  | structLoad type address index =>
      obtain ⟨op, hdefine, rfl⟩ := Build.map_eq_ok.mp h
      exact step_of_define rfl rfl hdefine
  | arith o type left right =>
      obtain ⟨op, hbinary, rfl⟩ := Build.map_eq_ok.mp h
      exact step_of_binary rfl rfl hbinary
  | divide o type left right =>
      obtain ⟨op, hbinary, rfl⟩ := Build.map_eq_ok.mp h
      exact step_of_binary rfl rfl hbinary
  | gep type pointer index =>
      obtain ⟨op, hbinary, rfl⟩ := Build.map_eq_ok.mp h
      exact step_of_binary rfl rfl hbinary
  | unary o type operand =>
      obtain ⟨op, hunary, rfl⟩ := Build.map_eq_ok.mp h
      cases operand with
      | imm v =>
          cases hunary
          exact .fold rfl
      | reg _ | label _ | string _ | slot _ _ | general _ | argument _ | pointer _ =>
          exact step_of_define rfl rfl hunary
  | call type callee args =>
      obtain ⟨op, hdefine, rfl⟩ := Build.map_eq_ok.mp h
      exact step_of_define rfl rfl hdefine
  | store type value address =>
      obtain ⟨u, happend, rfl⟩ := Build.map_eq_ok.mp h
      exact step_of_append rfl rfl happend
  | structStore type address index value =>
      obtain ⟨u, happend, rfl⟩ := Build.map_eq_ok.mp h
      exact step_of_append rfl rfl happend
  | br target =>
      obtain ⟨u, hbr, rfl⟩ := Build.map_eq_ok.mp h
      exact step_of_label (fun _ => rfl) rfl hbr
  | branch rel type left right target =>
      obtain ⟨u, hbranch, rfl⟩ := Build.map_eq_ok.mp h
      rw [Build.branch_eq] at hbranch
      split at hbranch
      next htaken =>
        exact step_of_label (fun _ => by rw [perform?_branch, if_pos htaken]) rfl hbranch
      next htaken =>
        exact step_of_label (fun _ => by rw [perform?_branch, if_neg htaken]) rfl hbranch
  | callVoid callee args =>
      obtain ⟨u, happend, rfl⟩ := Build.map_eq_ok.mp h
      exact step_of_append rfl rfl happend
  | ret type value =>
      obtain ⟨u, happend, rfl⟩ := Build.map_eq_ok.mp h
      exact step_of_append rfl rfl happend
  | retVoid =>
      obtain ⟨u, happend, rfl⟩ := Build.map_eq_ok.mp h
      exact step_of_append rfl rfl happend
  | append i =>
      obtain ⟨u, happend, rfl⟩ := Build.map_eq_ok.mp h
      exact step_of_append rfl rfl happend

/-! ### Sequences of commands -/

/-- The first command, then the others. -/
theorem runAll_cons_eq_ok_iff {cs : List Command} {as : List Answer} :
    (runAll (c :: cs)).run b = .ok (as, b') ↔
      ∃ a b₁ rest, c.run.run b = .ok (a, b₁) ∧ (runAll cs).run b₁ = .ok (rest, b') ∧
        as = a :: rest := by
  simp only [runAll, List.mapM_cons, Build.bind_eq_ok]
  constructor
  · rintro ⟨a, b₁, hc, rest, b₂, hcs, hpure⟩
    cases hpure
    exact ⟨a, b₁, rest, hc, hcs, rfl⟩
  · rintro ⟨a, b₁, rest, hc, hcs, rfl⟩
    exact ⟨a, b₁, hc, rest, b', hcs, rfl⟩

/-- One sequence of commands, then another. -/
theorem runAll_append_eq_ok_iff {cs cs' : List Command} {as : List Answer} :
    (runAll (cs ++ cs')).run b = .ok (as, b') ↔
      ∃ first b₁ rest, (runAll cs).run b = .ok (first, b₁) ∧
        (runAll cs').run b₁ = .ok (rest, b') ∧ as = first ++ rest := by
  induction cs generalizing b as with
  | nil =>
      constructor
      · intro h
        exact ⟨[], b, as, rfl, h, rfl⟩
      · rintro ⟨_, _, rest, hnil, hrest, rfl⟩
        cases hnil
        exact hrest
  | cons c cs ih =>
      simp only [List.cons_append, runAll_cons_eq_ok_iff, ih]
      constructor
      · rintro ⟨a, b₁, _, hc, ⟨first, b₂, rest, hfirst, hrest, rfl⟩, rfl⟩
        exact ⟨a :: first, b₂, rest, ⟨a, b₁, first, hc, hfirst, rfl⟩, hrest, rfl⟩
      · rintro ⟨_, b₂, rest, ⟨a, b₁, first, hc, hfirst, rfl⟩, hrest, rfl⟩
        exact ⟨a, b₁, first ++ rest, hc, ⟨first, b₂, rest, hfirst, hrest, rfl⟩, rfl⟩

/-- **Runs.** What holds at the start, and is preserved by every step, holds at the end. It may
speak about the answers so far. -/
theorem runAll_induction {P : List Answer → Builder → Prop} {cs : List Command} {as : List Answer}
    (h : (runAll cs).run b = .ok (as, b')) (hstart : P [] b)
    (hstep : ∀ c ∈ cs, ∀ {as a b b'}, b.Step c a b' → P as b → P (as ++ [a]) b') : P as b' := by
  induction cs generalizing P b as with
  | nil =>
      cases h
      exact hstart
  | cons c cs ih =>
      obtain ⟨a, b₁, rest, hc, hcs, rfl⟩ := runAll_cons_eq_ok_iff.mp h
      -- What is carried through the rest speaks about the first answer as well.
      refine ih (P := fun as => P (a :: as)) hcs ?_ ?_
      · exact hstep c List.mem_cons_self (step_of_run hc) hstart
      · intro c' hc' as a' b₂ b₃ h₂
        exact hstep c' (List.mem_cons_of_mem c hc') h₂

end Command

/-! ### The functions of a step -/

namespace Builder

variable {b b' : Builder} {c : Command} {a : Answer}

/-- `b.Adds c f i`: the instruction that a command adds to the function `f`. Its value goes to the
next register, and its label is that of a block of the function. -/
inductive Adds (b : Builder) (c : Command) (f : Func) : Instruction → Prop
  | value {i : Instruction} (hi : c.compute? = some i) :
      Adds b c f { i with dest := some (.reg (.num b.nextReg)) }
  | effect {label : Option Operand} {i : Instruction} (hi : c.perform? label = some i)
      (hlabel : ∀ target, c.target? = some target →
        ∃ block, f.block? target = some block ∧ label = some (.label block.name)) :
      Adds b c f i

/-- `b.Grows c f g`: how a command makes a function grow, by an empty block or by an
instruction. -/
inductive Grows (b : Builder) (c : Command) (f g : Func) : Prop
  | block {block : Block} {id : UInt32} (hempty : block.instructions = [])
      (hg : f.Inserts block id g)
  | instruction {id : UInt32} {i : Instruction} (hid : b.insertPoint = some id)
      (hi : b.Adds c f i) (hg : f.Appends id i g)

/-- **One function at most.** A step keeps all functions, or adds one, or makes the one that is
being built grow. -/
theorem Step.functions (h : b.Step c a b') :
    b'.module.functions = b.module.functions ∨
    (∃ f, c = .addFunction f ∧ b'.module.functions = b.module.functions ++ [f]) ∨
    ∃ p f g, b.At p f ∧ b'.module.functions = b.module.functions.set p g ∧ b.Grows c f g := by
  cases h with
  | addString | string _ _ | selectFunction _ _ | selectBlock _ _ | fold _ => exact .inl rfl
  | @addFunction f _ => exact .inr (.inl ⟨f, rfl, rfl⟩)
  | addBlock hat hg | createBlock hat hg =>
      exact .inr (.inr ⟨_, _, _, hat, rfl, .block rfl (Func.inserts_of_addBlock hg)⟩)
  | addBlockAfter hat hg =>
      exact .inr (.inr ⟨_, _, _, hat, rfl, .block rfl (Func.inserts_of_addBlockAfter hg)⟩)
  | define _ hi hat hid hg _ =>
      exact .inr (.inr ⟨_, _, _, hat, rfl, .instruction hid (.value hi) hg⟩)
  | perform hi hat hlabel hid hg =>
      exact .inr (.inr ⟨_, _, _, hat, rfl, .instruction hid (.effect hi hlabel) hg⟩)

/-- A function that grows is extended. -/
theorem Grows.extends {f g : Func} (h : b.Grows c f g) : f.Extends g := by
  cases h with
  | block _ hg => exact hg.extends
  | instruction _ _ hg => exact hg.extends

/-- A function that grows stays unambiguous. -/
theorem Grows.numbered {f g : Func} (h : b.Grows c f g) (hf : f.Numbered) : g.Numbered := by
  cases h with
  | block _ hg => exact hg.numbered hf
  | instruction _ _ hg => exact hg.numbered hf

/-- **Nothing is lost.** The function at a position is extended by every step. -/
theorem Step.extends {p : Nat} {f : Func} (h : b.Step c a b')
    (hf : b.module.functions[p]? = some f) :
    ∃ g, b'.module.functions[p]? = some g ∧ f.Extends g := by
  obtain ⟨hp, -⟩ := List.getElem?_eq_some_iff.mp hf
  rcases h.functions with hsame | ⟨f', -, hadd⟩ | ⟨q, f', g, hat, hset, hgrows⟩
  · exact ⟨f, hsame ▸ hf, .refl f⟩
  · refine ⟨f, ?_, .refl f⟩
    rw [hadd, List.getElem?_append_left hp, hf]
  · by_cases hpq : q = p
    · subst hpq
      obtain rfl : f = f' := Option.some.inj (hf.symm.trans hat.function)
      refine ⟨g, ?_, hgrows.extends⟩
      rw [hset, List.getElem?_set_self hp]
    · refine ⟨f, ?_, .refl f⟩
      rw [hset, List.getElem?_set_ne hpq, hf]

end Builder

end RegIR
