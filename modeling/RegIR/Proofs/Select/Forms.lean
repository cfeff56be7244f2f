import RegIR.Proofs.Select.Access

/-!
# The forms of machine code

Whatever is proved about machine code needs to know what code there can be, and whatever is
proved about errors needs to know why there may be none. Both are said here once: every form
of machine instruction that selection emits, how pushes and pops are arranged around them, and
every reason why an instruction of the IR is rejected.

## Main definitions

* `X86.Instr.writes`: the registers that a machine instruction changes.
* `Scope.Emits`: the machine instructions that leave the stack pointer alone.
* `Scope.Shape`: the code of an instruction, with what it pushes and pops.
* `Scope.Rejects`: why an instruction has no code.

## Main results

* `Scope.location_eq_ok`, `Scope.memoryAt_eq_ok`: where values and memory can be.
* `Scope.Shape.writes`: the code of an instruction changes the stack pointer, registers that
  need not be kept, and the register of its destination.
* `Scope.Shape.mem_dst`: memory is written where the destination is kept or where the
  instruction accesses it.
-/

namespace RegIR

open X86

/-! ### Machine instructions -/

namespace X86

/-- The registers that a callee need not keep, and in which code computes. -/
def callerSavedRegs : List Reg :=
  [.rax, .rcx, .rdx, .rsi, .rdi, .r8, .r9, .r10, .r11]

/-- The register of an operand that is one. -/
def Operand.reg? : Operand → Option Reg
  | reg r _ => some r
  | _ => none

namespace Instr

/-- The operand that an instruction writes. -/
def dst? : Instr → Option Operand
  | mov dst _ | movsx dst _ | movzx dst _ | lea dst _ | pop dst | alu _ dst _ | imul3 dst _ _
  | neg dst | not dst => some dst
  | _ => none

/-- The registers that an instruction changes without naming them. A call comes back with the
stack pointer it had, from a callee that keeps the convention. -/
def implicitWrites : Instr → List Reg
  | push _ | pop _ | ret => [.rsp]
  | cdq | cqo => [.rdx]
  | idiv _ | div _ => [.rax, .rdx]
  | call _ => callerSavedRegs
  | leave => [.rsp, .rbp]
  | _ => []

/-- The registers that an instruction changes. -/
def writes (x : Instr) : List Reg :=
  (x.dst?.bind Operand.reg?).toList ++ x.implicitWrites

/-- A register is written as the destination, or without being named. -/
theorem mem_writes {x : Instr} {r : Reg} :
    r ∈ x.writes ↔ (∃ w, x.dst? = some (.reg r w)) ∨ r ∈ x.implicitWrites := by
  rw [writes, List.mem_append, Option.mem_toList, Option.bind_eq_some_iff]
  refine or_congr_left ⟨?_, ?_⟩
  · rintro ⟨d, hd, hr⟩
    cases d with
    | reg r' w =>
        obtain rfl := Option.some.inj hr
        exact ⟨w, hd⟩
    | imm | mem | rip => cases hr
  · rintro ⟨w, hd⟩
    exact ⟨_, hd, rfl⟩

/-- The label that an instruction may jump to. -/
def jump? : Instr → Option String
  | jmp target | jcc _ target => some target
  | _ => none

/-- A jump changes no register. -/
theorem writes_of_jump? {x : Instr} {target : String} (h : x.jump? = some target) :
    x.writes = [] := by
  cases x with
  | jmp | jcc => rfl
  | _ => cases h

/-- Does the next instruction follow, with nothing pushed or popped? -/
def isInner : Instr → Bool
  | push _ | pop _ | jmp _ | jcc _ _ | call _ | leave | ret => false
  | _ => true

/-- Nothing that has to be kept is changed without being named. -/
theorem mem_callerSaved_of_isInner {x : Instr} {r : Reg} (hx : x.isInner = true)
    (hr : r ∈ x.implicitWrites) : r ∈ callerSavedRegs := by
  have hall : x.implicitWrites ⊆ callerSavedRegs := by
    cases x with
    | push | pop | jmp | jcc | call | leave | ret => cases hx
    | idiv | div => exact (by decide : [Reg.rax, .rdx] ⊆ callerSavedRegs)
    | cdq | cqo => decide
    | _ => exact List.nil_subset _
  exact hall hr

end Instr

end X86

namespace Scope

/-! ### Code -/

section Forms

variable (s : Scope) (i : Instruction)

/-- Memory of a given width that an instruction accesses: it lies, behind the pointer of the
instruction, inside the type that is accessed. -/
def Memory (w : Width) (mem : X86.Operand) : Prop :=
  ∃ ptr disp address, i.pointer? = some ptr ∧ disp + w.bytes ≤ i.dataType.size ∧
    s.memoryAt i.opcode ptr disp w = .ok (address, mem)

/-- Where the code of an instruction finds a value of a given width. -/
inductive Reads (w : Width) : X86.Operand → Prop
  | temp {r : Reg} (hr : r ∈ callerSavedRegs) : Reads w (.reg r w)
  | located {op : Operand} {loc : Location} (hop : op ∈ i.operands)
      (hloc : s.location i.opcode op = .ok loc) : Reads w (loc.operand w)
  | memory {mem : X86.Operand} (hmem : s.Memory i w mem) : Reads w mem

/-- A second operand of arithmetic: a constant that fits, or a value. -/
inductive Right (w : Width) : X86.Operand → Prop
  | imm {v : Int64} (hv : fitsSigned32 v = true) : Right w (.imm v)
  | value {src : X86.Operand} (hsrc : s.Reads i w src) : Right w src

/-- `s.Emits i x`: the machine instruction `x` can stand in the code of `i`. These are all
forms but those that push, pop, call and jump. -/
inductive Emits : Instr → Prop
  | constant {r : Reg} (hr : r ∈ callerSavedRegs) (w : Width) (v : Int64) :
      Emits (.mov (.reg r w.widen) (.imm (w.widen.signExtend v)))
  | bits {r : Reg} {w : Width} (hr : r ∈ callerSavedRegs) (hw : w.isNarrow = true) (v : Int64) :
      Emits (.mov (.reg r .dword) (.imm (w.zeroExtend v)))
  | slotAddress {r : Reg} (hr : r ∈ callerSavedRegs) (disp : Int32) :
      Emits (.lea (.qword r) (.mem none .rbp disp))
  | stringAddress {r : Reg} (hr : r ∈ callerSavedRegs) (name : String) :
      Emits (.lea (.qword r) (.rip name))
  | copy {r : Reg} {w : Width} {src : X86.Operand} (hr : r ∈ callerSavedRegs)
      (hsrc : s.Reads i w src) : Emits (.mov (.reg r w) src)
  | extend {r : Reg} {w : Width} {src : X86.Operand} (hr : r ∈ callerSavedRegs)
      (hw : w.isNarrow = true) (hsrc : s.Reads i w src) : Emits (.movsx (.reg r .dword) src)
  | zeroExtend {r : Reg} {w : Width} {src : X86.Operand} (hr : r ∈ callerSavedRegs)
      (hw : w.isNarrow = true) (hsrc : s.Reads i w src) : Emits (.movzx (.reg r .dword) src)
  /-- A load straight into the register of the destination. -/
  | loaded {dest : Operand} {r : Reg} {w : Width} {mem : X86.Operand} {x : Instr}
      (hdest : i.dest = some dest) (hloc : s.location i.opcode dest = .ok (.reg r))
      (hmem : s.Memory i w mem) (hx : x ∈ loadFrom r mem w) : Emits x
  | result {dest : Operand} {loc : Location} {r : Reg} (hdest : i.dest = some dest)
      (hloc : s.location i.opcode dest = .ok loc) (hr : r ∈ callerSavedRegs) (w : Width) :
      Emits (.mov (loc.operand w.widen) (.reg r w.widen))
  | storeReg {w : Width} {mem : X86.Operand} {r : Reg} (hmem : s.Memory i w mem)
      (hsrc : s.Reads i w (.reg r w)) : Emits (.mov mem (.reg r w))
  | storeImm {w : Width} {mem : X86.Operand} {v : Int64} (hmem : s.Memory i w mem)
      (hv : fitsSigned32 (w.signExtend v) = true) : Emits (.mov mem (.imm (w.signExtend v)))
  | alu {r : Reg} {w : Width} {right : X86.Operand} (op : AluOp) (hr : r ∈ callerSavedRegs)
      (hright : s.Right i w.widen right) : Emits (.alu op (.reg r w.widen) right)
  /-- A product with a constant, which fits or is the size of an element. -/
  | scale {r : Reg} {factor : Int64} (w : Width) (hr : r ∈ callerSavedRegs)
      (hfactor : fitsSigned32 factor = true ∨
        i.opcode = .gep ∧ factor = Int64.ofNat i.dataType.size) :
      Emits (.imul3 (.reg r w.widen) (.reg r w.widen) factor)
  | unary {r : Reg} (op : UnaryOp) (hr : r ∈ callerSavedRegs) (w : Width) :
      Emits (unaryInstr op (.reg r w.widen))
  | signRax {x : Instr} (hx : x = .cdq ∨ x = .cqo) : Emits x
  | divide {x : Instr} {r : Reg} {w : Width} (hr : r ∈ callerSavedRegs)
      (hx : x = .idiv (.reg r w.widen) ∨ x = .div (.reg r w.widen)) : Emits x
  | compare {r : Reg} {w : Width} {right : X86.Operand} (hr : r ∈ callerSavedRegs)
      (hright : s.Right i w.widen right) : Emits (.cmp (.reg r w.widen) right)

/-- Code of the forms that leave the stack pointer alone. -/
def EmitsAll (code : Code) : Prop :=
  ∀ x ∈ code, s.Emits i x

/-- A label that the code of an instruction may jump to: that of the block to which it branches, or
that of the epilogue. -/
inductive Target (isLast : Bool) : String → Prop
  | block {name : String} (hname : i.branch? = some (.label name))
      (hblock : (s.func.blockNamed? name).isSome = true) :
      Target isLast (blockLabel s.func.name name)
  | epilogue (hearly : isEarlyReturn (i, isLast) = true) :
      Target isLast (epilogueLabel s.func.name)

/-- The code that pushes one argument. -/
inductive Pushes : Code → Prop
  | imm {v : Int64} (hv : fitsSigned32 v = true) : Pushes [.push (.imm v)]
  | loaded {load : Code} {r : Reg} (hload : s.EmitsAll i load) (hr : r ∈ callerSavedRegs) :
      Pushes (load ++ [.push (.qword r)])

/-- The stack pointer moved by a number of bytes, unless there is nothing to move. -/
def adjustStack (op : AluOp) (bytes : Nat) : Code :=
  if bytes = 0 then [] else [.alu op (.qword .rsp) (.imm (Int64.ofNat bytes))]

/-- `s.Shape i isLast code`: how the code of an instruction is arranged. -/
inductive Shape (isLast : Bool) : Code → Prop
  | plain {code : Code} (hcode : s.EmitsAll i code) : Shape isLast code
  | jump {code : Code} {x : Instr} {target : String} (hcode : s.EmitsAll i code)
      (hx : x.jump? = some target) (htarget : s.Target i isLast target) :
      Shape isLast (code ++ [x])
  /-- `rax` is kept on the stack around a division. -/
  | division {inner rest : Code} (hinner : s.EmitsAll i inner) (hrest : s.EmitsAll i rest) :
      Shape isLast ([.push (.qword .rax)] ++ inner ++ [.pop (.qword .rax)] ++ rest)
  /-- A call: padding, the pushed arguments, what is done below them, and the stack pointer
  where it was. -/
  | call {callee : String} {pushes : List Code} {loads rest : Code}
      (hpushes : ∀ code ∈ pushes, s.Pushes i code) (hloads : s.EmitsAll i loads)
      (hrest : s.EmitsAll i rest) (hop : i.opcode = .call)
      (hcount : pushes.length = (i.args.drop maxRegArgs).length) :
      Shape isLast (adjustStack .sub (callPadding pushes.length) ++ pushes.flatten ++ loads
        ++ [.call callee] ++ adjustStack .add (8 * pushes.length + callPadding pushes.length)
        ++ rest)

/-! ### Failures -/

/-- `s.Rejects i e`: the instruction has no code for the reason `e`. -/
inductive Rejects : Failure CodeError → Prop
  | missing : Rejects (.error ⟨s.func.name, .missingOperand i.opcode.text⟩)
  | type (t : Ty) : Rejects (.error ⟨s.func.name, .unsupportedType i.opcode.text t.text⟩)
  | operand {op : Operand} (hop : op ∈ i.operands) (hreg : op.isReg = false) :
      Rejects (.error ⟨s.func.name, .unsupportedOperand i.opcode.text op.text⟩)
  | unassigned {op : Operand} (hop : op ∈ i.operands) (hreg : op.isReg = true) :
      Rejects (.error ⟨s.func.name, .unassigned op.text⟩)
  | block {name : String} (hname : i.branch? = some (.label name))
      (hblock : s.func.blockNamed? name = none) :
      Rejects (.error ⟨s.func.name, .unknownBlock name⟩)
  | general {index : UInt32} {e : AbiError} (hop : .general index ∈ i.operands)
      (hloc : s.frame.generalLocation index = .error e) :
      Rejects (.error ⟨s.func.name, .ofAbi e⟩)
  | pointer {index : UInt32} {e : AbiError} (hop : .pointer index ∈ i.operands)
      (hloc : s.frame.pointerLocation index = .error e) :
      Rejects (.error ⟨s.func.name, .ofAbi e⟩)
  | argument {index : UInt32} {e : AbiError} (hop : .argument index ∈ i.operands)
      (hhome : s.frame.argHome index.toUInt64 = .error (.error e)) :
      Rejects (.error ⟨s.func.name, .ofAbi e⟩)
  /-- The address of a slot is out of reach. -/
  | slotAddress {name : RegName} {offset : UInt32} {f : Fault}
      (hop : .slot name offset ∈ i.operands) (haddr : X86.Operand.frameDisp offset = .error f) :
      Rejects (.fault f)
  /-- Memory inside a slot is out of reach. -/
  | slotAccess {name : RegName} {offset : UInt32} {disp : Nat} {f : Fault}
      (hptr : i.pointer? = some (.slot name offset)) (hdisp : disp ≤ i.dataType.size)
      (hplace : narrowSigned32 .subtract
        ((Int32.ofNat disp).toInt - offset.toInt32.toInt) = .error f) :
      Rejects (.fault f)

end Forms

variable {s : Scope} {i : Instruction} {w : Width} {op : Operand} {code before : Code}
  {isLast : Bool}

/-- The scratch register in which values are computed need not be kept. -/
theorem scratch_mem : scratch ∈ callerSavedRegs := by
  decide

/-- Nor the second one. -/
theorem scratch2_mem : scratch2 ∈ callerSavedRegs := by
  decide

@[simp] theorem emitsAll_nil : s.EmitsAll i [] :=
  fun _ hx => absurd hx List.not_mem_nil

@[simp] theorem emitsAll_append {after : Code} :
    s.EmitsAll i (code ++ after) ↔ s.EmitsAll i code ∧ s.EmitsAll i after :=
  List.forall_mem_append

@[simp] theorem emitsAll_cons {x : Instr} :
    s.EmitsAll i (x :: code) ↔ s.Emits i x ∧ s.EmitsAll i code :=
  List.forall_mem_cons

/-! ### Places -/

/-- A question to the frame that has an answer. -/
theorem ask_eq_ok {α : Type} {x : Outcome AbiError α} {a : α} (h : s.ask x = .ok a) :
    x = .ok a := by
  unfold ask at h
  split at h
  next => rw [pure_eq_ok_iff.mp h]
  next => cases h
  next => cases h

/-- What is kept somewhere is a register of the IR or an argument. -/
theorem location_eq_ok {opcode : Opcode} {loc : Location} (h : s.location opcode op = .ok loc) :
    (∃ index, op = .general index ∧ s.frame.generalLocation index = .ok loc) ∨
    (∃ index, op = .pointer index ∧ s.frame.pointerLocation index = .ok loc) ∨
    ∃ index home, op = .argument index ∧ s.frame.argHome index.toUInt64 = .ok home ∧
      loc = .slot home := by
  have hregister : ∀ {x : Except AbiError Location}, s.ask (x.mapError .error) = .ok loc →
      x = .ok loc := by
    intro x hx
    cases x with
    | ok loc' => exact congrArg _ (Except.ok.inj hx)
    | error a => cases hx
  cases op with
  | general index => exact .inl ⟨index, rfl, hregister h⟩
  | pointer index => exact .inr (.inl ⟨index, rfl, hregister h⟩)
  | argument index =>
      obtain ⟨home, hhome, hloc⟩ := bind_eq_ok_iff.mp h
      exact .inr (.inr ⟨index, home, rfl, ask_eq_ok hhome, (pure_eq_ok_iff.mp hloc).symm⟩)
  | reg _ | imm _ | label _ | string _ | slot _ _ => cases h

/-- A register of the IR that has a machine register behind it. -/
theorem location_eq_reg {opcode : Opcode} {r : Reg} (h : s.location opcode op = .ok (.reg r)) :
    (∃ index, op = .general index ∧ generalRegs[index.toNat]? = some r) ∨
      ∃ index, op = .pointer index ∧ pointerRegs[index.toNat]? = some r := by
  obtain ⟨index, rfl, hloc⟩ | ⟨index, rfl, hloc⟩ | ⟨_, _, -, -, hloc⟩ := location_eq_ok h
  · refine .inl ⟨index, rfl, ?_⟩
    rw [Frame.generalLocation] at hloc
    split at hloc
    next r' hr =>
      cases hloc
      exact hr
    next =>
      split at hloc <;> cases hloc
  · refine .inr ⟨index, rfl, ?_⟩
    rw [Frame.pointerLocation] at hloc
    split at hloc
    next r' hr =>
      cases hloc
      exact hr
    next =>
      split at hloc <;> cases hloc
  · cases hloc

/-- Memory that is neither a slot nor a string is behind the place of its pointer. -/
theorem memoryAt_of_located {opcode : Opcode} {ptr : Operand} {disp : Nat}
    (hslot : ∀ name offset, ptr ≠ .slot name offset) (hstring : ∀ c, ptr ≠ .string c) :
    s.memoryAt opcode ptr disp w = (do
      match ← s.location opcode ptr with
      | .reg r => return ([], .deref r (Int32.ofNat disp) w)
      | .slot offset =>
          return ([.mov (.qword scratch) (.slotAt offset .qword)],
            .deref scratch (Int32.ofNat disp) w)) := by
  unfold memoryAt
  split
  next name offset => exact absurd rfl (hslot name offset)
  next c => exact absurd rfl (hstring c)
  next => rfl

/-- The memory that an instruction accesses is at a register of the IR or at the scratch
register, unless it is inside a slot. -/
theorem memoryAt_eq_ok {opcode : Opcode} {ptr : Operand} {disp : Nat} {mem : X86.Operand}
    (h : s.memoryAt opcode ptr disp w = .ok (code, mem)) :
    ∃ base place, mem = .deref base place w ∧
      ((∃ name offset, ptr = .slot name offset ∧ base = .rbp ∧
          place.toInt = (Int32.ofNat disp).toInt - offset.toInt32.toInt) ∨
        base ∈ scratch :: (generalRegs ++ pointerRegs)) := by
  cases ptr with
  | slot name offset =>
      obtain ⟨-, place, rfl, hplace⟩ := memoryAt_slot h
      exact ⟨.rbp, place, rfl, .inl ⟨name, offset, rfl, rfl, hplace⟩⟩
  | string c =>
      obtain ⟨load, -, h⟩ := bind_eq_ok_iff.mp h
      obtain ⟨-, rfl⟩ := Prod.mk.inj (pure_eq_ok_iff.mp h)
      exact ⟨scratch, _, rfl, .inr List.mem_cons_self⟩
  | general _ | pointer _ | argument _ | reg _ | imm _ | label _ =>
      rw [memoryAt_of_located (by simp) (by simp)] at h
      obtain ⟨loc, hloc, h⟩ := bind_eq_ok_iff.mp h
      cases loc with
      | reg r =>
          obtain ⟨-, rfl⟩ := Prod.mk.inj (pure_eq_ok_iff.mp h)
          refine ⟨r, _, rfl, .inr (List.mem_cons_of_mem _ (List.mem_append.mpr ?_))⟩
          exact (location_eq_reg hloc).imp (fun ⟨_, _, hr⟩ => List.mem_of_getElem? hr)
            fun ⟨_, _, hr⟩ => List.mem_of_getElem? hr
      | slot offset =>
          obtain ⟨-, rfl⟩ := Prod.mk.inj (pure_eq_ok_iff.mp h)
          exact ⟨scratch, _, rfl, .inr List.mem_cons_self⟩

/-- A value is not found in a constant. -/
theorem Reads.ne_imm {src : X86.Operand} (h : s.Reads i w src) (v : Int64) : src ≠ .imm v := by
  cases h with
  | temp hr => exact nofun
  | @located op loc hop hloc => cases loc <;> exact nofun
  | memory hmem =>
      obtain ⟨ptr, disp, address, -, -, hmem⟩ := hmem
      obtain ⟨base, place, rfl, -⟩ := memoryAt_eq_ok hmem
      exact nofun

/-! ### Effects -/

/-- What code that leaves the stack pointer alone writes: a register that need not be kept, the
place of the destination, or memory that the instruction accesses. -/
inductive Destination (s : Scope) (i : Instruction) : X86.Operand → Prop
  | temp {r : Reg} (hr : r ∈ callerSavedRegs) (w : Width) : Destination s i (.reg r w)
  | place {dest : Operand} {loc : Location} (hdest : i.dest = some dest)
      (hloc : s.location i.opcode dest = .ok loc) (w : Width) :
      Destination s i (loc.operand w)
  | memory {w : Width} {mem : X86.Operand} (hmem : s.Memory i w mem) : Destination s i mem

/-- A load is one instruction, which writes its register. -/
theorem mem_loadFrom {r : Reg} {src : X86.Operand} {x : Instr} (hx : x ∈ loadFrom r src w) :
    x.isInner = true ∧ ∃ w', x.dst? = some (.reg r w') := by
  unfold loadFrom at hx
  split at hx
  · obtain rfl := List.mem_singleton.mp hx
    exact ⟨rfl, _, rfl⟩
  · obtain rfl := List.mem_singleton.mp hx
    exact ⟨rfl, _, rfl⟩

variable {x : Instr} {d : X86.Operand} {r : Reg}

/-- The forms push, pop, call and jump nowhere. -/
theorem Emits.isInner (h : s.Emits i x) : x.isInner = true := by
  cases h with
  | loaded _ _ _ hx => exact (mem_loadFrom hx).1
  | unary op _ _ => cases op <;> rfl
  | signRax hx => obtain rfl | rfl := hx <;> rfl
  | divide _ hx => obtain rfl | rfl := hx <;> rfl
  | _ => rfl

/-- Each form has one of the destinations. -/
theorem Emits.destination (h : s.Emits i x) (hd : x.dst? = some d) : s.Destination i d := by
  cases h with
  | constant hr | bits hr | slotAddress hr | stringAddress hr | copy hr | extend hr
  | zeroExtend hr | alu _ hr | scale _ hr =>
      cases hd
      exact .temp hr _
  | unary op hr =>
      cases op <;> cases hd <;> exact .temp hr _
  | loaded hdest hloc _ hx =>
      obtain ⟨-, w', hw⟩ := mem_loadFrom hx
      obtain rfl := Option.some.inj (hw.symm.trans hd)
      exact .place hdest hloc w'
  | result hdest hloc =>
      cases hd
      exact .place hdest hloc _
  | storeReg hmem | storeImm hmem =>
      cases hd
      exact .memory hmem
  | signRax hx => obtain rfl | rfl := hx <;> cases hd
  | divide _ hx => obtain rfl | rfl := hx <;> cases hd
  | compare => cases hd

/-- `Arranges x`: a machine instruction that stands around the forms. -/
inductive Arranges : Instr → Prop
  | push (src : X86.Operand) : Arranges (.push src)
  | pop : Arranges (.pop (.qword .rax))
  | moveStack (op : AluOp) (v : Int64) : Arranges (.alu op (.qword .rsp) (.imm v))
  | call (callee : String) : Arranges (.call callee)
  | jump {x : Instr} {target : String} (hx : x.jump? = some target) : Arranges x

/-- The stack pointer is moved by one instruction, if at all. -/
theorem arranges_of_mem_adjustStack {o : AluOp} {n : Nat} (hx : x ∈ adjustStack o n) :
    Arranges x := by
  unfold adjustStack at hx
  split at hx
  · cases hx
  · obtain rfl := List.mem_singleton.mp hx
    exact .moveStack _ _

/-- Pushing an argument. -/
theorem Pushes.mem_cases (h : s.Pushes i code) (hx : x ∈ code) : s.Emits i x ∨ Arranges x := by
  cases h with
  | imm _ =>
      obtain rfl := List.mem_singleton.mp hx
      exact .inr (.push _)
  | loaded hload _ =>
      obtain hx | hx := List.mem_append.mp hx
      · exact .inl (hload x hx)
      · obtain rfl := List.mem_singleton.mp hx
        exact .inr (.push _)

/-- Code consists of the forms and of what stands around them. -/
theorem Shape.mem_cases (h : s.Shape i isLast code) (hx : x ∈ code) :
    s.Emits i x ∨ Arranges x := by
  cases h with
  | plain hcode => exact .inl (hcode x hx)
  | jump hcode hjump _ =>
      obtain hx | hx := List.mem_append.mp hx
      · exact .inl (hcode x hx)
      · obtain rfl := List.mem_singleton.mp hx
        exact .inr (.jump hjump)
  | division hinner hrest =>
      simp only [List.mem_append, List.mem_singleton] at hx
      obtain ((rfl | hx) | rfl) | hx := hx
      · exact .inr (.push _)
      · exact .inl (hinner x hx)
      · exact .inr .pop
      · exact .inl (hrest x hx)
  | call hpushes hloads hrest =>
      simp only [List.mem_append, List.mem_singleton] at hx
      obtain ((((hx | hx) | hx) | rfl) | hx) | hx := hx
      · exact .inr (arranges_of_mem_adjustStack hx)
      · obtain ⟨push, hpush, hx⟩ := List.mem_flatten.mp hx
        exact (hpushes push hpush).mem_cases hx
      · exact .inl (hloads x hx)
      · exact .inr (.call _)
      · exact .inr (arranges_of_mem_adjustStack hx)
      · exact .inl (hrest x hx)

/-- The forms change registers that need not be kept, and the register of the destination. -/
theorem Emits.writes (h : s.Emits i x) (hr : r ∈ x.writes) :
    r ∈ callerSavedRegs ∨
      ∃ dest, i.dest = some dest ∧ s.location i.opcode dest = .ok (.reg r) := by
  obtain ⟨w, hd⟩ | hr := Instr.mem_writes.mp hr
  · have hdest := h.destination hd
    generalize hop : X86.Operand.reg r w = d at hdest
    cases hdest with
    | temp hr =>
        obtain ⟨rfl, rfl⟩ := X86.Operand.reg.inj hop
        exact .inl hr
    | @place dest loc hdest hloc w' =>
        cases loc with
        | reg r' =>
            obtain ⟨rfl, rfl⟩ := X86.Operand.reg.inj hop
            exact .inr ⟨dest, hdest, hloc⟩
        | slot offset => cases hop
    | memory hmem =>
        obtain ⟨ptr, disp, address, -, -, hmem⟩ := hmem
        obtain ⟨base, place, rfl, -⟩ := memoryAt_eq_ok hmem
        cases hop
  · exact .inl (Instr.mem_callerSaved_of_isInner h.isInner hr)

/-- What stands around the forms changes the stack pointer, and registers that need not be
kept. -/
theorem Arranges.writes (h : Arranges x) (hr : r ∈ x.writes) :
    r = .rsp ∨ r ∈ callerSavedRegs := by
  cases h with
  | push src => exact .inl (List.mem_singleton.mp hr)
  | pop =>
      have hpop : r ∈ [Reg.rax, .rsp] := hr
      obtain rfl | hpop := List.mem_cons.mp hpop
      · exact .inr (by decide)
      · exact .inl (List.mem_singleton.mp hpop)
  | moveStack op v => exact .inl (List.mem_singleton.mp hr)
  | call callee => exact .inr hr
  | jump hx =>
      rw [Instr.writes_of_jump? hx] at hr
      cases hr

/-- **Registers.** The code of an instruction changes the stack pointer, registers that need
not be kept, and the register of the destination. -/
theorem Shape.writes (h : s.Shape i isLast code) (hx : x ∈ code) (hr : r ∈ x.writes) :
    r = .rsp ∨ r ∈ callerSavedRegs ∨
      ∃ dest, i.dest = some dest ∧ s.location i.opcode dest = .ok (.reg r) := by
  obtain hx | hx := h.mem_cases hx
  · exact .inr (hx.writes hr)
  · exact (hx.writes hr).imp_right .inl

/-- **Memory.** The code of an instruction writes memory where the destination is kept or where
the instruction accesses it. -/
theorem Shape.mem_dst {base : Reg} {disp : Int32} {o : Option Width}
    (h : s.Shape i isLast code) (hx : x ∈ code) (hd : x.dst? = some (.mem o base disp)) :
    s.Destination i (.mem o base disp) := by
  obtain hx | hx := h.mem_cases hx
  · exact hx.destination hd
  · cases hx with
    | push | pop | moveStack | call => cases hd
    | jump hx => cases x <;> cases hx <;> cases hd

end Scope

end RegIR
