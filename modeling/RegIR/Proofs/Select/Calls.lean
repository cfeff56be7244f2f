import RegIR.Proofs.Select.Divides
import RegIR.Proofs.Select.Transfers

/-!
# Calls receive their arguments

The code of a call pushes the arguments that do not fit into registers, from the last one to the
seventh, and then loads the others into their registers. No load destroys the source of a later
one: what is pushed lies below the frame, and operands are kept neither in the registers of
arguments nor in the scratch registers. Behind the call, the stack pointer is moved back and the
result is stored.

## Conventions

*The callee.* The machine does not run calls. A callee is any change of the machine that leaves the
stack pointer where it was.

*Encoding.* The stack pointer is moved back by a constant, which has to be a number of 32 bits. For
more arguments than that the instruction cannot be encoded, but it is known what it would do.

## Main definitions

* `X86.Frame.Passes`: arguments are where a callee expects them.
* `X86.effects?`: what instructions do, whether or not they can be encoded.

## Main results

* `Scope.pushes_achieve`, `Scope.loads_achieve`: the arguments on the stack and in registers.
* `Scope.call_passes`: what running the code up to the call does, and the code behind it.
-/

namespace RegIR

open X86

/-! ### Code without jumps -/

namespace X86

/-- What instructions do one after the other, whether or not they can be encoded. -/
def effects? : List Instr → Machine → Option Machine
  | [], m => some m
  | x :: xs, m => do effects? xs (← x.effect? m)

variable {xs ys : List Instr} {m m' m'' : Machine}

theorem effects?_append (h : effects? xs m = some m') (h' : effects? ys m' = some m'') :
    effects? (xs ++ ys) m = some m'' := by
  induction xs generalizing m with
  | nil =>
      obtain rfl := Option.some.inj h
      exact h'
  | cons x xs ih =>
      obtain ⟨m₁, hx, hxs⟩ := Option.bind_eq_some_iff.mp h
      exact Option.bind_eq_some_iff.mpr ⟨m₁, hx, ih hxs⟩

/-- Instructions that can be encoded are run. -/
theorem exec_of_effects? (h : effects? xs m = some m') (hx : ∀ x ∈ xs, x.Encodable) :
    exec xs m = some (m', none) := by
  induction xs generalizing m with
  | nil =>
      obtain rfl := Option.some.inj h
      rfl
  | cons x xs ih =>
      obtain ⟨m₁, heffect, hxs⟩ := Option.bind_eq_some_iff.mp h
      rw [List.forall_mem_cons] at hx
      rw [exec_cons ((Instr.step?_eq hx.1).trans heffect)]
      exact ih hxs hx.2

end X86

/-! ### What calls need -/

/-- `f.Passes values m m'`: the arguments are where a callee expects them, and nothing that an
operand is kept in has changed since `m` but `rax`. -/
structure X86.Frame.Passes (f : Frame) (values : List (BitVec 64)) (m m' : X86.Machine) : Prop where
  regs : ∀ (k : Nat) r a, [Reg.rdi, .rsi, .rdx, .rcx, .r8, .r9][k]? = some r → values[k]? = some a →
    m'.regs r = a
  stack : ∀ j a, values[6 + j]? = some a →
    m'.mem.load (m'.regs .rsp + BitVec.ofNat 64 (8 * j)) 8 = a
  eax : m'.reg .rax .dword = 0
  places : ∀ op loc, f.locate? op = some loc → loc ≠ .reg .rax → m'.content loc = m.content loc

/-- `f.Receives i m m'`: the destination of a call, if it has one, has been given the result that a
callee has left in `rax`, and all other operands are as they were. -/
structure X86.Frame.Receives (f : Frame) (i : Instruction) (m m' : X86.Machine) : Prop where
  result : ∀ dest loc w, i.dest = some dest → f.locate? dest = some loc →
    i.dataType.valueWidth? = some w →
      (m'.content loc).setWidth w.widen.bits = (m.regs .rax).setWidth _
  others : ∀ op loc, i.dest ≠ some op → f.locate? op = some loc → m'.content loc = m.content loc

/-- `f.Resumes i after m m'`: behind a call that was made in the machine `m'`, whatever the callee
does, as long as it leaves the stack pointer where it was, the code `after` puts the stack pointer
back to where it was in `m` and stores the result. -/
def X86.Frame.Resumes (f : Frame) (i : Instruction) (after : Code) (m m' : X86.Machine) : Prop :=
  ∀ m₂ : X86.Machine, m₂.regs .rsp = m'.regs .rsp → ∃ m₃ : X86.Machine,
    effects? after m₂ = some m₃ ∧ (i.args.length < 0x10000000 → exec after m₂ = some (m₃, none)) ∧
      m₃.regs .rsp = m.regs .rsp ∧ f.Receives i m₂ m₃

namespace Scope

variable {s : Scope} {i : Instruction} {opcode : Opcode} {arg dest : Operand} {loc : Location}
  {m : X86.Machine} {a : BitVec 64} {args : List Operand} {values : List (BitVec 64)}

/-! ### Arguments on the stack -/

/-- An argument is pushed, through `r11` at most. -/
theorem pushArg_achieves (opcode : Opcode) (ha : s.frame.word? m arg = some a) :
    ∃ code, s.pushArg opcode arg = .ok code ∧ ∀ m', s.frame.word? m' arg = some a →
      Achieves code m' fun m'' => ∃ m₁, m'.SameBut [scratch] m₁ ∧ m'' = m₁.push a := by
  obtain ⟨load, hload, hrun⟩ := loadQword_achieves opcode scratch ha
  have hscratch : (do
      return (← s.loadInto opcode scratch arg .qword) ++ [Instr.push (.qword scratch)]) =
        (.ok (load ++ [.push (.qword scratch)]) : Selected Code) :=
    bind_eq_ok_iff.mpr ⟨load, hload, rfl⟩
  have hthrough : ∀ m', s.frame.word? m' arg = some a →
      Achieves (load ++ [.push (.qword scratch)]) m' fun m'' =>
        ∃ m₁, m'.SameBut [scratch] m₁ ∧ m'' = m₁.push a := by
    intro m' ha'
    refine (hrun m' ha').append fun m₁ hm₁ => (Achieves.push m₁ scratch).mono fun m₂ hm₂ => ?_
    exact ⟨m₁, hm₁.2, by rw [hm₂, hm₁.1]⟩
  by_cases hsmall : ∃ v, arg = .imm v ∧ fitsSigned32 v = true
  · obtain ⟨v, rfl, hfits⟩ := hsmall
    obtain rfl := Option.some.inj ha
    have hencodable : (Instr.push (.imm v)).Encodable :=
      ⟨by simp, by simp, by simpa using Width.holds_dword_iff.mpr hfits⟩
    refine ⟨[.push (.imm v)], if_pos hfits, fun m' _ => .single hencodable rfl ?_⟩
    exact ⟨m', .refl _ _, congrArg m'.push (BitVec.setWidth_eq _)⟩
  · refine ⟨_, ?_, hthrough⟩
    cases arg with
    | imm v => exact (if_neg fun hfits => hsmall ⟨v, rfl, hfits⟩).trans hscratch
    | _ => exact hscratch

/-- The registers that change while arguments are pushed. -/
def pushRegs : List Reg :=
  [.rsp, scratch]

/-- **Stack arguments.** Arguments are pushed one after the other. -/
theorem pushes_achieve (opcode : Opcode)
    (hvalues : List.Forall₂ (fun arg a => s.frame.word? m arg = some a) args values) :
    ∃ codes, args.mapM (s.pushArg opcode) = .ok codes ∧
      ∀ {k : Nat} {ws : List (BitVec 64)} {m' : X86.Machine}, m.Stacked k pushRegs ws m' →
        s.frame.IsClear (k + 8 * args.length) m → k + 8 * args.length < 2 ^ 64 →
        Achieves codes.flatten m'
          (m.Stacked (k + 8 * args.length) pushRegs (values.reverse ++ ws)) := by
  induction hvalues with
  | nil => exact ⟨[], rfl, fun h _ _ => .nil h⟩
  | @cons arg a args values ha _ ih =>
      obtain ⟨code, hcode, hrun⟩ := pushArg_achieves opcode ha
      obtain ⟨codes, hcodes, hrest⟩ := ih
      refine ⟨code :: codes, ?_, fun {k ws m'} h hclear hk => ?_⟩
      · rw [List.mapM_cons]
        exact bind_eq_ok_iff.mpr ⟨code, hcode, bind_eq_ok_iff.mpr ⟨codes, hcodes, rfl⟩⟩
      · have hlength : k + 8 * (arg :: args).length = k + 8 + 8 * args.length := by
          rw [List.length_cons]
          omega
        rw [hlength] at hclear hk ⊢
        rw [List.flatten_cons, List.reverse_cons, List.append_assoc, List.singleton_append]
        -- what has been pushed so far has not changed the argument
        have ha' := X86.Frame.word?_of_sameAbove h.same (hclear.mono (by omega)) (by decide) ha
        refine (hrun m' ha').append fun m₁ hm₁ => ?_
        obtain ⟨m₂, hsame, rfl⟩ := hm₁
        have hloaded : m.Stacked k pushRegs ws m₂ := (h.keep hsame (by decide)).mono (by decide)
        exact hrest (hloaded.push (by decide) (by omega) a) hclear hk

/-! ### Arguments in registers -/

/-- **Register arguments.** Arguments are loaded into registers, if these are different ones and
nothing is kept in them. -/
theorem loads_achieve (opcode : Opcode) (rs : List Reg) (hnodup : rs.Nodup)
    (hfree : ∀ r ∈ rs, r ∉ X86.Frame.pinnedRegs)
    (hvalues : List.Forall₂ (fun arg a => s.frame.word? m arg = some a) args values) :
    ∃ codes, ((rs.zip args).mapM fun p => s.loadInto opcode p.1 p.2 .qword) = .ok codes ∧
      ∀ m', List.Forall₂ (fun arg a => s.frame.word? m' arg = some a) args values →
        Achieves codes.flatten m' fun m'' =>
          (∀ (k : Nat) r a, rs[k]? = some r → values[k]? = some a → m''.regs r = a) ∧
            m'.SameBut rs m'' := by
  induction rs generalizing args values with
  | nil => exact ⟨[], rfl, fun m' _ => .nil ⟨nofun, .refl _ _⟩⟩
  | cons r rs ih =>
      cases hvalues with
      | nil => exact ⟨[], rfl, fun m' _ => .nil ⟨nofun, .refl _ _⟩⟩
      | @cons arg a args values ha hvalues =>
          rw [List.nodup_cons] at hnodup
          rw [List.forall_mem_cons] at hfree
          obtain ⟨code, hcode, hrun⟩ := loadQword_achieves opcode r ha
          obtain ⟨codes, hcodes, hrest⟩ := ih hnodup.2 hfree.2 hvalues
          refine ⟨code :: codes, ?_, fun m' hvalues' => ?_⟩
          · rw [List.zip_cons_cons, List.mapM_cons]
            exact bind_eq_ok_iff.mpr ⟨code, hcode, bind_eq_ok_iff.mpr ⟨codes, hcodes, rfl⟩⟩
          · obtain ⟨ha', hvalues'⟩ := List.forall₂_cons.mp hvalues'
            rw [List.flatten_cons]
            refine (hrun m' ha').append fun m₁ hm₁ => ?_
            obtain ⟨hreg, hsame⟩ := hm₁
            -- the load has not changed the other arguments
            have hvalues₁ := hvalues'.imp fun arg a ha =>
              X86.Frame.word?_of_sameBut hsame (by simpa using hfree.1) ha
            refine (hrest m₁ hvalues₁).mono fun m₂ hm₂ => ?_
            obtain ⟨hregs, hsame'⟩ := hm₂
            refine ⟨fun k r' b hr' hb => ?_, ?_⟩
            · cases k with
              | zero =>
                  obtain rfl := Option.some.inj hr'
                  obtain rfl := Option.some.inj hb
                  rw [hsame'.regs r hnodup.1, hreg]
              | succ k => exact hregs k r' b hr' hb
            · have hhead : [r] ⊆ r :: rs :=
                List.cons_subset.mpr ⟨List.mem_cons_self, List.nil_subset _⟩
              exact (hsame.mono hhead).trans (hsame'.mono (List.subset_cons_self r rs))

/-! ### Around the call -/

/-- The stack pointer is moved. -/
theorem adjustStack_effects (op : AluOp) (hop : ∀ x : BitVec 64, op.eval x 0 = x) (n : Nat)
    (m : X86.Machine) :
    ∃ m', effects? (adjustStack op n) m = some m' ∧
      m'.regs .rsp = op.eval (m.regs .rsp) (BitVec.ofNat 64 n) ∧ m.SameBut [.rsp] m' := by
  rw [adjustStack]
  split
  next hn =>
    subst hn
    exact ⟨m, rfl, (hop _).symm, .refl _ _⟩
  next =>
    refine ⟨_, rfl, ?_, X86.Machine.SameBut.setReg.forgetFlags⟩
    have hvalue : op.eval ((m.regs .rsp).setWidth 64) ((Int64.ofNat n).toBitVec.setWidth 64) =
        op.eval (m.regs .rsp) (BitVec.ofNat 64 n) := by
      rw [BitVec.setWidth_eq, BitVec.setWidth_eq]
      rfl
    exact (X86.Machine.regs_setReg_qword (m := m) (r := .rsp) _).trans hvalue

/-- The stack is aligned before arguments are pushed. -/
theorem padding_achieves (count : Nat) (m : X86.Machine) :
    Achieves (adjustStack .sub (callPadding count)) m
      (m.Stacked (callPadding count) pushRegs []) := by
  obtain ⟨m', heffects, hrsp, hsame⟩ :=
    adjustStack_effects .sub BitVec.sub_zero (callPadding count) m
  have hsmall : callPadding count < 0x80000000 := by
    rw [callPadding]
    split <;> omega
  refine ⟨m', exec_of_effects? heffects fun x hx => encodable_of_mem_adjustStack hsmall hx, ?_⟩
  exact ⟨(hsame.mono (by decide)).sameAbove, hrsp, Nat.zero_le _, nofun⟩

/-- What a callee has left in `rax` is written to its place. -/
theorem storeReturned_effects (opcode : Opcode) (w : Width)
    (hloc : s.frame.locate? dest = some loc) :
    ∃ store, s.storeResult opcode (some dest) returnReg w = .ok store ∧
      (∀ x ∈ store, x.Encodable) ∧ ∀ m, ∃ m', effects? store m = some m' ∧
        m'.regs .rsp = m.regs .rsp ∧
        (m'.content loc).setWidth w.widen.bits = (m.regs .rax).setWidth _ ∧
        ∀ op ≠ dest, ∀ loc', s.frame.locate? op = some loc' → m'.content loc' = m.content loc' := by
  by_cases hrax : loc = .reg .rax
  · subst hrax
    refine ⟨[], ?_, List.forall_mem_nil _, fun m => ⟨m, rfl, rfl, rfl, fun _ _ _ _ => rfl⟩⟩
    refine bind_eq_ok_iff.mpr ⟨dest, rfl, bind_eq_ok_iff.mpr ⟨_, location_of_locate? hloc _, ?_⟩⟩
    exact if_pos rfl
  · have hrsp : loc ≠ .reg .rsp := by
      rintro rfl
      exact absurd (X86.Frame.mem_homeRegs hloc) (by decide)
    refine ⟨[.mov (loc.operand w.widen) (.reg .rax w.widen)], ?_, ?_, fun m => ?_⟩
    · refine bind_eq_ok_iff.mpr ⟨dest, rfl, bind_eq_ok_iff.mpr ⟨_, location_of_locate? hloc _, ?_⟩⟩
      exact if_neg hrax
    · rw [List.forall_mem_singleton]
      exact Instr.encodable_mov_of_reg (loc.isValue _)
    · refine ⟨m.write w.widen (m.reg .rax w.widen) (loc.operand w.widen), ?_,
        X86.Machine.regs_write_of_ne hloc hrsp, X86.Machine.content_write_self hloc,
        fun op hne loc' hloc' => X86.Machine.content_write_of_ne hloc hloc' hne⟩
      cases loc <;> rfl

/-- The result of a call is stored, if there is somewhere to store it. -/
theorem result_effects (hdest : ∀ dest, i.dest = some dest →
      ∃ loc w, s.frame.locate? dest = some loc ∧ i.dataType.valueWidth? = some w) :
    ∃ store, (if i.dest.isSome then do
        let w ← s.valueWidth i.opcode i.dataType
        s.storeResult i.opcode i.dest returnReg w
      else pure []) = (.ok store : Selected Code) ∧ (∀ x ∈ store, x.Encodable) ∧
      ∀ m, ∃ m', effects? store m = some m' ∧ m'.regs .rsp = m.regs .rsp ∧
        s.frame.Receives i m m' := by
  obtain hnone | ⟨dest, hsome⟩ : i.dest = none ∨ ∃ dest, i.dest = some dest :=
    Option.eq_none_or_eq_some _
  · refine ⟨[], by rw [hnone]; rfl, List.forall_mem_nil _, fun m => ⟨m, rfl, rfl, ?_, ?_⟩⟩
    · intro dest loc w h
      rw [hnone] at h
      cases h
    · intro op loc _ _
      rfl
  · obtain ⟨loc, w, hloc, hw⟩ := hdest dest hsome
    obtain ⟨store, hstore, hencodable, hrun⟩ := storeReturned_effects i.opcode w hloc
    refine ⟨store, ?_, hencodable, fun m => ?_⟩
    · rw [hsome, Option.isSome_some, if_pos rfl]
      exact bind_eq_ok_iff.mpr ⟨w, valueWidth_of_valueWidth? hw, hstore⟩
    · obtain ⟨m', heffects, hrsp, hresult, hothers⟩ := hrun m
      refine ⟨m', heffects, hrsp, ?_, ?_⟩
      · intro dest' loc' w' hdest' hloc' hw'
        obtain rfl := Option.some.inj (hsome.symm.trans hdest')
        obtain rfl := Option.some.inj (hloc.symm.trans hloc')
        obtain rfl := Option.some.inj (hw.symm.trans hw')
        exact hresult
      · intro op loc' hne hloc'
        exact hothers op (fun heq => hne (heq ▸ hsome)) loc' hloc'

/-! ### The code of an instruction -/

/-- How many bytes are pushed for a call. -/
def callBytes (args : List Operand) : Nat :=
  8 * (args.drop maxRegArgs).length + callPadding (args.drop maxRegArgs).length

/-- They are not more than one word for each argument. -/
theorem callBytes_le (args : List Operand) :
    callBytes args ≤ 8 * args.length ∧ (callBytes args = 0 ∨ callBytes args < 8 * args.length) := by
  rw [callBytes, callPadding, List.length_drop, maxRegArgs]
  split <;> omega

/-- The code of a call, before the call and behind it. -/
theorem call_eq {c : Call} {pushes loads : List Code} {store : Code} (hcall : i.call = some c)
    (hpushes : (c.args.drop maxRegArgs).reverse.mapM (s.pushArg i.opcode) = .ok pushes)
    (hloads : ((argRegs.zip c.args).mapM fun p => s.loadInto i.opcode p.1 p.2 .qword) = .ok loads)
    (hstore : (if i.dest.isSome then do
        let w ← s.valueWidth i.opcode i.dataType
        s.storeResult i.opcode i.dest returnReg w
      else pure []) = (.ok store : Selected Code)) :
    s.call i = .ok ((adjustStack .sub (callPadding (c.args.drop maxRegArgs).length)
      ++ (pushes.flatten ++ (loads.flatten
        ++ [.alu .xor (.reg .rax .dword) (.reg .rax .dword)]))) ++ .call c.callee ::
      (adjustStack .add (callBytes c.args) ++ store)) := by
  rw [call, hcall]
  refine bind_eq_ok_iff.mpr ⟨pushes, hpushes, bind_eq_ok_iff.mpr ⟨loads, hloads, ?_⟩⟩
  by_cases hdest : i.dest.isSome = true
  · rw [if_pos hdest] at hstore ⊢
    obtain ⟨w, hw, hstore⟩ := bind_eq_ok_iff.mp hstore
    refine bind_eq_ok_iff.mpr ⟨w, hw, bind_eq_ok_iff.mpr ⟨store, hstore, pure_eq_ok_iff.mpr ?_⟩⟩
    simp [adjustStack, callBytes, returnReg]
  · rw [if_neg hdest] at hstore ⊢
    refine bind_eq_ok_iff.mpr ⟨store, hstore, pure_eq_ok_iff.mpr ?_⟩
    simp [adjustStack, callBytes, returnReg]

/-- **Arguments.** Before the call, all arguments get to where the callee expects them. -/
theorem arguments_achieve (opcode : Opcode) (hframe : s.frame.IsEntered m)
    (hroom : 8 * args.length + s.frame.totalSize ≤ 2 ^ 64)
    (hvalues : List.Forall₂ (fun arg a => s.frame.word? m arg = some a) args values) :
    ∃ pushes loads, (args.drop maxRegArgs).reverse.mapM (s.pushArg opcode) = .ok pushes ∧
      ((argRegs.zip args).mapM fun p => s.loadInto opcode p.1 p.2 .qword) = .ok loads ∧
      Achieves (adjustStack .sub (callPadding (args.drop maxRegArgs).length)
        ++ (pushes.flatten ++ (loads.flatten
          ++ [.alu .xor (.reg .rax .dword) (.reg .rax .dword)]))) m fun m' =>
        s.frame.Passes values m m' ∧
          m'.regs .rsp = m.regs .rsp - BitVec.ofNat 64 (callBytes args) := by
  obtain ⟨pushes, hpushes, hpush⟩ := pushes_achieve (s := s) opcode
    (List.forall₂_reverse_iff.mpr (List.forall₂_drop maxRegArgs hvalues))
  obtain ⟨loads, hloads, hload⟩ := loads_achieve (s := s) opcode argRegs (by decide)
    (by decide) hvalues
  refine ⟨pushes, loads, hpushes, hloads, ?_⟩
  have hbytes : callPadding (args.drop maxRegArgs).length
      + 8 * (args.drop maxRegArgs).reverse.length = callBytes args := by
    rw [List.length_reverse, callBytes, Nat.add_comm]
  obtain ⟨hle, hlt⟩ := callBytes_le args
  have hclear : s.frame.IsClear (callBytes args) m := hframe.isClear (by omega)
  refine (padding_achieves _ m).append fun m₁ hm₁ => ?_
  have hpush := hpush hm₁
  rw [hbytes, List.reverse_reverse, List.append_nil] at hpush
  refine (hpush hclear (by omega)).append fun m₂ hm₂ => ?_
  have hvalues₂ := hvalues.imp fun arg a ha =>
    X86.Frame.word?_of_sameAbove hm₂.same hclear (by decide) ha
  refine (hload m₂ hvalues₂).append fun m₃ hm₃ => ?_
  obtain ⟨hregs, hsame₃⟩ := hm₃
  refine (alu_achieves .xor (.inl (X86.Operand.isValue_reg _ _))).mono fun m₄ hm₄ => ?_
  obtain ⟨hzero, hsame₄⟩ := hm₄
  have hstacked := (hm₂.keep hsame₃ (by decide)).keep hsame₄ (by decide)
  refine ⟨⟨?_, ?_, ?_, ?_⟩, hstacked.rsp⟩
  · intro k r a hr ha
    have hfree : ∀ r ∈ argRegs, r ∉ [Reg.rax] := by decide
    rw [hsame₄.regs r (hfree r (List.mem_of_getElem? hr))]
    exact hregs k r a hr ha
  · intro j a ha
    refine hstacked.words j a ?_
    rw [List.getElem?_drop]
    exact ha
  · rw [hzero]
    exact BitVec.xor_self
  · intro op loc hloc hrax
    have hhome : ∀ r ∈ X86.Frame.homeRegs, r ≠ .rax → r ∉ pushRegs ++ argRegs ++ [.rax] := by
      decide
    refine hstacked.same.content hclear (by decide) hloc ?_
    rintro r rfl
    exact hhome r (X86.Frame.mem_homeRegs hloc) fun heq => hrax (congrArg _ heq)

/-- Behind the call, the stack pointer is put back and the result is stored. -/
theorem resumes_of_stacked {c : Call} {store : Code} {m m' : X86.Machine} (hcall : i.call = some c)
    (hrsp : m'.regs .rsp = m.regs .rsp - BitVec.ofNat 64 (callBytes c.args))
    (hencodable : ∀ x ∈ store, x.Encodable)
    (hstore : ∀ m, ∃ m', effects? store m = some m' ∧ m'.regs .rsp = m.regs .rsp ∧
      s.frame.Receives i m m') :
    s.frame.Resumes i (adjustStack .add (callBytes c.args) ++ store) m m' := by
  intro m₂ hm₂
  obtain ⟨m₃, heffects₃, hrsp₃, hsame⟩ :=
    adjustStack_effects .add BitVec.add_zero (callBytes c.args) m₂
  obtain ⟨m₄, heffects₄, hrsp₄, hreceives⟩ := hstore m₃
  have heffects := effects?_append heffects₃ heffects₄
  refine ⟨m₄, heffects, fun hcount => ?_, ?_, ?_⟩
  · have hargs : i.args = c.args := by rw [Instruction.args, hcall]
    have hbytes := (callBytes_le c.args).1
    rw [hargs] at hcount
    refine exec_of_effects? heffects fun x hx => ?_
    rcases List.mem_append.mp hx with hx | hx
    · exact encodable_of_mem_adjustStack (by omega) hx
    · exact hencodable x hx
  · rw [hrsp₄, hrsp₃, hm₂, hrsp]
    exact BitVec.sub_add_cancel _ _
  · -- only the stack pointer has changed before the result is stored
    have hcontent : ∀ {op loc}, s.frame.locate? op = some loc →
        m₃.content loc = m₂.content loc := by
      intro op loc hloc
      refine (hsame.sameAbove (k := 0)).content (s.frame.isClear_zero m₂) (by decide) hloc ?_
      rintro r rfl hr
      obtain rfl := List.mem_singleton.mp hr
      exact absurd (X86.Frame.mem_homeRegs hloc) (by decide)
    refine ⟨fun dest loc w hdest hloc hw => ?_, fun op loc hne hloc => ?_⟩
    · rw [hreceives.result dest loc w hdest hloc hw, hsame.regs .rax (by decide)]
    · rw [hreceives.others op loc hne hloc, hcontent hloc]

/-- **Calls.** A call has code for any number of arguments that are constants, slots, strings,
registers or arguments of the caller, as long as there is room for them below the frame. In the
body of a function, where the stack pointer is at the end of the frame, the code up to the call puts
the first six arguments into their registers and the others on the stack, the seventh on top, with
the values that they had before the code; `eax` is zero, and nothing that is kept somewhere has
changed but what is kept in `rax`. After the call the stack pointer is as before the code, and the
destination, if there is one, holds the low bits of `rax`, 32 or more. -/
theorem call_passes {c : Call} (isLast : Bool) (hop : i.opcode = .call) (hcall : i.call = some c)
    (hframe : s.frame.IsEntered m) (hroom : 8 * c.args.length + s.frame.totalSize ≤ 2 ^ 64)
    (hargs : c.args.map (s.frame.word? m) = values.map some)
    (hdest : ∀ dest, i.dest = some dest →
      ∃ loc w, s.frame.locate? dest = some loc ∧ i.dataType.valueWidth? = some w) :
    ∃ before after, s.select i isLast = .ok (before ++ .call c.callee :: after) ∧
      Achieves before m fun m' => s.frame.Passes values m m' ∧ s.frame.Resumes i after m m' := by
  have hvalues : List.Forall₂ (fun arg a => s.frame.word? m arg = some a) c.args values := by
    rw [← List.forall₂_eq_eq_eq, List.forall₂_map_left_iff, List.forall₂_map_right_iff] at hargs
    exact hargs
  obtain ⟨pushes, loads, hpushes, hloads, hrun⟩ := arguments_achieve i.opcode hframe hroom hvalues
  obtain ⟨store, hstore, hencodable, hreceives⟩ := result_effects hdest
  have hcode := call_eq hcall hpushes hloads hstore
  refine ⟨_, _, ?_, hrun.mono fun m' hm' =>
    ⟨hm'.1, resumes_of_stacked hcall hm'.2 hencodable hreceives⟩⟩
  rw [select_eq_selectRaw, selectRaw, hop]
  exact hcode

end Scope

/-- A call with arguments of all kinds, three of them on the stack. The first general register is in
`rax`; the fifth one and the destination are in the frame. -/
def callWithNine : Instruction where
  opcode := .call
  dataType := .i8
  dest := some (.general 5)
  call := some {
    callee := "g"
    args := [.imm (-1), .slot (.num 0) 8, .string ⟨"text", "hello"⟩, .general 0, .general 4,
      .argument 0, .imm 0x123456789, .general 1, .general 0] }

/-- All nine arguments arrive. -/
theorem callWithNine_passes :
    twoSpilled.frame.IsEntered runningMachine ∧
    twoSpilled.frame.locate? (.general 5) = some (.slot 56) ∧
    callWithNine.args.map (twoSpilled.frame.word? runningMachine) =
      [0xffffffffffffffff, 0xff8, 0, 0x12ff, 0, 0, 0x123456789, 0x1000, 0x12ff].map some ∧
    ∃ before after, twoSpilled.select callWithNine false = .ok (before ++ .call "g" :: after) ∧
      Achieves before runningMachine fun m' =>
        twoSpilled.frame.Passes
          [0xffffffffffffffff, 0xff8, 0, 0x12ff, 0, 0, 0x123456789, 0x1000, 0x12ff]
          runningMachine m' ∧
        twoSpilled.frame.Resumes callWithNine after runningMachine m' := by
  have hframe : twoSpilled.frame.IsEntered runningMachine := by decide +kernel
  have hloc : twoSpilled.frame.locate? (.general 5) = some (.slot 56) := by decide +kernel
  have hargs : callWithNine.args.map (twoSpilled.frame.word? runningMachine) =
      [0xffffffffffffffff, 0xff8, 0, 0x12ff, 0, 0, 0x123456789, 0x1000, 0x12ff].map some := by
    decide +kernel
  refine ⟨hframe, hloc, hargs, Scope.call_passes false rfl rfl hframe (by decide +kernel) hargs ?_⟩
  rintro dest ⟨⟩
  exact ⟨.slot 56, .byte, hloc, rfl⟩

end RegIR
