import Mathlib.Data.Nat.ModEq
import RegIR.Proofs.Select.Emitted
import RegIR.Proofs.X86.Pointers

/-!
# Stack discipline

Between prologue and epilogue the frame pointer stays where it is, and the stack pointer lies at
the end of the frame except inside the code of a division or a call, which takes back what it
pushes. So wherever control comes from, a line is reached with the pointers that straight-line
code from the entry would give it; and the padding of a call keeps the stack aligned for its
callee.

## Main results

* `Scope.Shape.disciplined`: what the code of an instruction does to the pointers.
* `FuncCode.tracks_of_reaches`: a run of a function reaches a line with the pointers of
  straight-line code.
* `Func.stack_disciplined`: the pointers at every place where they matter.
-/

namespace RegIR

open X86

/-- Going down by a multiple of sixteen keeps an address aligned. -/
theorem sub_modEq_sixteen (a : UInt64) {n : Nat} (hn : n % 16 = 0) :
    (a - UInt64.ofNat n).toNat ≡ a.toNat [MOD 16] := by
  unfold Nat.ModEq
  rw [UInt64.toNat_sub, UInt64.toNat_ofNat']
  omega

/-! ### The code of an instruction -/

/-- Does control pass to the next instruction, and nowhere else? -/
def X86.Instr.isStraight : Instr → Bool
  | jmp _ | jcc _ _ | call _ | ret => false
  | _ => true

/-- Straight code does not jump. -/
theorem X86.Instr.jump?_of_isStraight {x : Instr} (h : x.isStraight = true) : x.jump? = none := by
  cases x with
  | jmp | jcc => cases h
  | _ => rfl

/-- `Disciplined code`: the code leaves both pointers as it found them, and they are the same at
each of its jumps. At a call the frame pointer is the same, and the stack pointer is the same
modulo sixteen. There is no return. -/
structure Disciplined (code : Code) : Prop where
  stays : .ret ∉ code
  balanced : ∀ {p q}, Runs code p q → q = p
  jumps : ∀ {before : Code} {x : Instr} {after : Code}, code = before ++ x :: after →
    x.jump?.isSome = true → ∀ {p q}, Runs before p q → q = p
  calls : ∀ {before : Code} {callee : String} {after : Code},
    code = before ++ .call callee :: after →
    ∀ {p q : Pointers}, Runs before p q → q.fp = p.fp ∧ q.sp.toNat ≡ p.sp.toNat [MOD 16]

namespace Disciplined

variable {code : Code}

/-- Code that writes neither pointer is disciplined. -/
theorem of_quiet (hcode : ∀ x ∈ code, ∀ r ∈ x.writes, r ≠ .rsp ∧ r ≠ .rbp) :
    Disciplined code := by
  have hpart : ∀ {before : Code} {x : Instr} {after : Code}, code = before ++ x :: after →
      ∀ {p q}, Runs before p q → q = p := by
    rintro before x after rfl p q h
    rw [List.forall_mem_append] at hcode
    exact h.eq_self hcode.1
  refine ⟨fun hret => (hcode _ hret .rsp (List.mem_singleton_self _)).1 rfl,
    fun h => h.eq_self hcode, fun heq _ => hpart heq, fun heq _ _ h => ?_⟩
  rw [hpart heq h]
  exact ⟨rfl, rfl⟩

/-- Straight code only has to take back what it pushes. -/
theorem of_straight (hcode : ∀ x ∈ code, x.isStraight = true)
    (hbalanced : ∀ {p q}, Runs code p q → q = p) : Disciplined code := by
  refine ⟨fun hret => Bool.false_ne_true (hcode _ hret), hbalanced, ?_, ?_⟩
  · rintro before x after rfl hx
    rw [Instr.jump?_of_isStraight (hcode x (List.mem_append_right _ List.mem_cons_self))] at hx
    cases hx
  · rintro before callee after rfl
    have hstraight := hcode _ (List.mem_append_right _ List.mem_cons_self)
    cases hstraight

/-- Around a call, straight code has to align the stack as well. -/
theorem of_call {before after : Code} {callee : String}
    (hbefore : ∀ x ∈ before, x.isStraight = true) (hafter : ∀ x ∈ after, x.isStraight = true)
    (hbalanced : ∀ {p q}, Runs (before ++ .call callee :: after) p q → q = p)
    (haligned : ∀ {p q : Pointers}, Runs before p q →
      q.fp = p.fp ∧ q.sp.toNat ≡ p.sp.toNat [MOD 16]) :
    Disciplined (before ++ .call callee :: after) := by
  have hcases : ∀ x ∈ before ++ .call callee :: after,
      x.isStraight = true ∨ x = .call callee := by
    intro x hx
    obtain hx | hx := List.mem_append.mp hx
    · exact .inl (hbefore x hx)
    · exact (List.mem_cons.mp hx).symm.imp_left (hafter x)
  refine ⟨fun hret => (hcases _ hret).elim Bool.false_ne_true nofun, hbalanced, ?_, ?_⟩
  · intro before' x after' heq hx
    have hmem : x ∈ before ++ .call callee :: after := by
      rw [heq]
      exact List.mem_append_right _ List.mem_cons_self
    obtain hstraight | rfl := hcases x hmem
    · rw [Instr.jump?_of_isStraight hstraight] at hx
      cases hx
    · cases hx
  · intro before' callee' after' heq p q hrun
    -- Nothing else here is a call, so this is the one.
    have hnot : ∀ {xs : Code}, (∀ x ∈ xs, x.isStraight = true) → .call callee' ∉ xs :=
      fun hxs hmem => Bool.false_ne_true (hxs _ hmem)
    obtain ⟨rfl, -, -⟩ := (List.append_cons_inj_of_notMem (hnot hbefore) (hnot hafter)).mp heq
    exact haligned hrun

end Disciplined

namespace Scope

variable {s : Scope} {i : Instruction} {isLast : Bool} {code : Code} {x : Instr}
  {p q : Pointers}

/-- No operand is kept in one of the pointers. -/
theorem location_ne_pointer {opcode : Opcode} {op : Operand} {r : Reg}
    (h : s.location opcode op = .ok (.reg r)) : r ≠ .rsp ∧ r ≠ .rbp := by
  have hall : ∀ r ∈ generalRegs ++ pointerRegs, r ≠ .rsp ∧ r ≠ .rbp := by decide
  refine hall r (List.mem_append.mpr ?_)
  exact (location_eq_reg h).imp (fun ⟨_, _, hr⟩ => List.mem_of_getElem? hr)
    fun ⟨_, _, hr⟩ => List.mem_of_getElem? hr

/-- The forms write neither pointer. -/
theorem Emits.ne_pointer {r : Reg} (h : s.Emits i x) (hr : r ∈ x.writes) :
    r ≠ .rsp ∧ r ≠ .rbp := by
  have htemp : ∀ r ∈ callerSavedRegs, r ≠ .rsp ∧ r ≠ .rbp := by decide
  obtain hr | ⟨dest, -, hloc⟩ := h.writes hr
  · exact htemp r hr
  · exact location_ne_pointer hloc

/-- The frame pointer is not written in a body. -/
theorem Shape.rbp_not_mem_writes (h : s.Shape i isLast code) (hx : x ∈ code) :
    .rbp ∉ x.writes := by
  intro hr
  obtain hr | hr | ⟨dest, -, hloc⟩ := h.writes hx hr
  · cases hr
  · exact absurd hr (by decide)
  · exact (location_ne_pointer hloc).2 rfl

/-- The forms leave the pointers as they are. -/
theorem EmitsAll.eq_self (h : s.EmitsAll i code) (hrun : Runs code p q) : q = p :=
  hrun.eq_self fun x hx _ => (h x hx).ne_pointer

/-- The forms are straight. -/
theorem EmitsAll.isStraight (h : s.EmitsAll i code) (hx : x ∈ code) : x.isStraight = true := by
  have hinner := (h x hx).isInner
  cases x <;> first | rfl | cases hinner

/-! ### Pushing and popping -/

/-- The code that pushes an argument is straight. -/
theorem Pushes.isStraight (h : s.Pushes i code) (hx : x ∈ code) : x.isStraight = true := by
  cases h with
  | imm _ =>
      obtain rfl := List.mem_singleton.mp hx
      rfl
  | loaded hload _ =>
      obtain hx | hx := List.mem_append.mp hx
      · exact hload.isStraight hx
      · obtain rfl := List.mem_singleton.mp hx
        rfl

/-- Pushing an argument moves the stack pointer by a word. -/
theorem Pushes.eq_of_runs (h : s.Pushes i code) (hrun : Runs code p q) :
    q = ⟨p.sp - 8, p.fp⟩ := by
  cases h with
  | imm _ => exact (Runs.singleton_iff.mp hrun).eq rfl rfl
  | loaded hload _ =>
      obtain ⟨r, hleft, hright⟩ := Runs.append_iff.mp hrun
      obtain rfl := hload.eq_self hleft
      exact (Runs.singleton_iff.mp hright).eq rfl rfl

/-- Pushing arguments moves the stack pointer by a word for each. -/
theorem eq_of_runs_pushes {pushes : List Code} (h : ∀ code ∈ pushes, s.Pushes i code)
    (hrun : Runs pushes.flatten p q) : q = ⟨p.sp - UInt64.ofNat (8 * pushes.length), p.fp⟩ := by
  induction pushes generalizing p with
  | nil =>
      rw [hrun.of_nil]
      simp
  | cons push pushes ih =>
      rw [List.forall_mem_cons] at h
      obtain ⟨r, hleft, hright⟩ := Runs.append_iff.mp hrun
      obtain rfl := h.1.eq_of_runs hleft
      have hcount : UInt64.ofNat (8 * (push :: pushes).length) =
          UInt64.ofNat (8 * pushes.length) + 8 := by
        rw [List.length_cons, Nat.mul_add, UInt64.ofNat_add]
        rfl
      rw [ih h.2 hright, hcount, Pointers.mk.injEq]
      exact ⟨by grind, rfl⟩

/-- Moving the stack pointer is straight. -/
theorem isStraight_adjustStack {op : AluOp} {n : Nat} (hx : x ∈ adjustStack op n) :
    x.isStraight = true := by
  unfold adjustStack at hx
  split at hx
  · cases hx
  · obtain rfl := List.mem_singleton.mp hx
    rfl

/-- Where the stack pointer is moved to; by no bytes it is not moved. -/
theorem eq_of_runs_adjustStack {op : AluOp} {n : Nat} {a : UInt64}
    (ha : op.address? p.sp (Int64.ofNat n) = some a) (hrun : Runs (adjustStack op n) p q) :
    q = ⟨a, p.fp⟩ := by
  unfold adjustStack at hrun
  split at hrun
  next hn =>
    subst hn
    obtain rfl := hrun.of_nil
    have hzero : a = q.sp := by
      cases op with
      | add =>
          cases ha
          exact UInt64.add_zero _
      | sub =>
          cases ha
          exact UInt64.sub_zero _
      | _ => cases ha
    rw [hzero]
  next => exact (Runs.singleton_iff.mp hrun).eq ha rfl

/-! ### Every shape -/

/-- A division takes back the word that it pushes. -/
theorem eq_self_of_division {inner rest : Code} (hinner : s.EmitsAll i inner)
    (hrest : s.EmitsAll i rest)
    (hrun : Runs ([Instr.push (.qword .rax)] ++ inner ++ [Instr.pop (.qword .rax)] ++ rest) p q) :
    q = p := by
  obtain ⟨_, hrun, hlast⟩ := Runs.append_iff.mp hrun
  obtain ⟨_, hrun, hpop⟩ := Runs.append_iff.mp hrun
  obtain ⟨_, hpush, hmiddle⟩ := Runs.append_iff.mp hrun
  obtain rfl := (Runs.singleton_iff.mp hpush).eq rfl rfl
  obtain rfl := hinner.eq_self hmiddle
  obtain rfl := (Runs.singleton_iff.mp hpop).eq rfl rfl
  obtain rfl := hrest.eq_self hlast
  exact congrArg (Pointers.mk · p.fp) (by grind)

/-- Before a call the stack pointer is down by the padding and the pushed arguments. -/
theorem eq_of_runs_arguments {pushes : List Code} {loads : Code}
    (hpushes : ∀ code ∈ pushes, s.Pushes i code) (hloads : s.EmitsAll i loads)
    (hrun : Runs (adjustStack .sub (callPadding pushes.length) ++ pushes.flatten ++ loads) p q) :
    q = ⟨p.sp - UInt64.ofNat (8 * pushes.length + callPadding pushes.length), p.fp⟩ := by
  obtain ⟨_, hrun, hload⟩ := Runs.append_iff.mp hrun
  obtain ⟨_, hpadding, hpush⟩ := Runs.append_iff.mp hrun
  obtain rfl := eq_of_runs_adjustStack rfl hpadding
  obtain rfl := eq_of_runs_pushes hpushes hpush
  obtain rfl := hloads.eq_self hload
  have hbytes : ∀ n : Nat, (Int64.ofNat n).toUInt64 = UInt64.ofNat n := fun _ => rfl
  rw [hbytes, UInt64.ofNat_add]
  exact congrArg (Pointers.mk · p.fp) (by grind)

/-- The padding makes the pushed bytes a multiple of sixteen. -/
theorem pushed_mod_sixteen (n : Nat) : (8 * n + callPadding n) % 16 = 0 := by
  unfold callPadding
  split <;> omega

/-- The code of a division is straight. -/
theorem isStraight_division {inner rest : Code} (hinner : s.EmitsAll i inner)
    (hrest : s.EmitsAll i rest)
    (hx : x ∈ [Instr.push (.qword .rax)] ++ inner ++ [Instr.pop (.qword .rax)] ++ rest) :
    x.isStraight = true := by
  simp only [List.mem_append, List.mem_singleton] at hx
  obtain ((rfl | hx) | rfl) | hx := hx
  · rfl
  · exact hinner.isStraight hx
  · rfl
  · exact hrest.isStraight hx

/-- Before a call the code is straight. -/
theorem isStraight_arguments {pushes : List Code} {loads : Code}
    (hpushes : ∀ code ∈ pushes, s.Pushes i code) (hloads : s.EmitsAll i loads)
    (hx : x ∈ adjustStack .sub (callPadding pushes.length) ++ pushes.flatten ++ loads) :
    x.isStraight = true := by
  simp only [List.mem_append] at hx
  obtain (hx | hx) | hx := hx
  · exact isStraight_adjustStack hx
  · obtain ⟨push, hpush, hx⟩ := List.mem_flatten.mp hx
    exact (hpushes push hpush).isStraight hx
  · exact hloads.isStraight hx

/-- So it is behind one. -/
theorem isStraight_cleanup {n : Nat} {rest : Code} (hrest : s.EmitsAll i rest)
    (hx : x ∈ adjustStack .add n ++ rest) : x.isStraight = true := by
  obtain hx | hx := List.mem_append.mp hx
  · exact isStraight_adjustStack hx
  · exact hrest.isStraight hx

/-- A jump in the code of an instruction goes where the instruction may jump. -/
theorem Shape.target_of_jump {target : String} (h : s.Shape i isLast code) (hx : x ∈ code)
    (hjump : x.jump? = some target) : s.Target i isLast target := by
  have hstraight : x.isStraight = true → s.Target i isLast target := by
    intro hx
    rw [Instr.jump?_of_isStraight hx] at hjump
    cases hjump
  cases h with
  | plain hcode => exact hstraight (hcode.isStraight hx)
  | jump hcode hlast htarget =>
      obtain hx | hx := List.mem_append.mp hx
      · exact hstraight (hcode.isStraight hx)
      · obtain rfl := List.mem_singleton.mp hx
        obtain rfl := Option.some.inj (hlast.symm.trans hjump)
        exact htarget
  | division hinner hrest => exact hstraight (isStraight_division hinner hrest hx)
  | call hpushes hloads hrest =>
      rw [List.append_assoc, List.append_assoc, List.singleton_append] at hx
      obtain hx | hx := List.mem_append.mp hx
      · exact hstraight (isStraight_arguments hpushes hloads hx)
      obtain rfl | hx := List.mem_cons.mp hx
      · cases hjump
      · exact hstraight (isStraight_cleanup hrest hx)

/-- No jump goes back to the label of the function, which is shorter than the others. -/
theorem Target.ne_name {target : String} (h : s.Target i isLast target) :
    target ≠ s.func.name := by
  intro heq
  have hlength := congrArg String.length heq
  have hdot : ".L".length = 2 := rfl
  cases h with
  | block _ _ =>
      simp only [blockLabel, String.length_append] at hlength
      omega
  | epilogue _ =>
      simp only [epilogueLabel, String.length_append] at hlength
      omega

/-- **One instruction.** Its code is disciplined. -/
theorem Shape.disciplined (h : s.Shape i isLast code) : Disciplined code := by
  cases h with
  | plain hcode =>
      exact .of_quiet fun x hx _ => (hcode x hx).ne_pointer
  | jump hcode hjump _ =>
      refine .of_quiet fun x hx r hr => ?_
      obtain hx | hx := List.mem_append.mp hx
      · exact (hcode x hx).ne_pointer hr
      · obtain rfl := List.mem_singleton.mp hx
        rw [Instr.writes_of_jump? hjump] at hr
        cases hr
  | division hinner hrest =>
      exact .of_straight (fun _ => isStraight_division hinner hrest)
        (eq_self_of_division hinner hrest)
  | @call callee pushes loads rest hpushes hloads hrest =>
      rw [List.append_assoc, List.append_assoc, List.singleton_append]
      refine .of_call (fun _ => isStraight_arguments hpushes hloads)
        (fun _ => isStraight_cleanup hrest) ?_ ?_
      · intro p q hrun
        obtain ⟨_, harguments, hrun⟩ := Runs.append_iff.mp hrun
        obtain rfl := eq_of_runs_arguments hpushes hloads harguments
        obtain ⟨_, hcall, hrun⟩ := Runs.append_iff.mp (List.singleton_append ▸ hrun)
        obtain ⟨_, hadjust, hlast⟩ := Runs.append_iff.mp hrun
        obtain rfl := (Runs.singleton_iff.mp hcall).eq rfl rfl
        obtain rfl := eq_of_runs_adjustStack rfl hadjust
        obtain rfl := hrest.eq_self hlast
        exact congrArg (Pointers.mk · p.fp) (UInt64.sub_add_cancel _ _)
      · intro p q hrun
        obtain rfl := eq_of_runs_arguments hpushes hloads hrun
        exact ⟨rfl, sub_modEq_sixteen p.sp (pushed_mod_sixteen _)⟩

end Scope

/-! ### Prologue and epilogue -/

namespace X86.Frame

variable {f : Frame} {x : Instr}

/-- The prologue is straight. -/
theorem isStraight_prologue (hx : x ∈ f.prologue) : x.isStraight = true := by
  simp only [prologue, saveCode, homeCode, List.mem_append, List.mem_cons, List.not_mem_nil,
    or_false, List.mem_mapIdx] at hx
  obtain ((rfl | rfl | rfl) | ⟨i, _, rfl⟩) | ⟨i, _, rfl⟩ := hx <;> rfl

/-- The epilogue returns at its end. -/
theorem epilogue_eq (f : Frame) : f.epilogue = f.restoreCode ++ [Instr.leave] ++ [Instr.ret] := by
  rw [epilogue, List.append_assoc, List.singleton_append]

/-- Up to there it is straight. -/
theorem isStraight_restore (hx : x ∈ f.restoreCode ++ [Instr.leave]) : x.isStraight = true := by
  obtain hx | hx := List.mem_append.mp hx
  · obtain ⟨i, _, rfl⟩ := List.mem_mapIdx.mp hx
    rfl
  · obtain rfl := List.mem_singleton.mp hx
    rfl

end X86.Frame

/-! ### The lines of a function -/

namespace FuncCode

/-- `c.Boundary n`: the line `n` comes right behind the prologue, right behind the code of an
instruction or right behind a label of the body. These are also the lines of the labels of the
body, the first lines of the code of each instruction and that of the epilogue. -/
def Boundary (c : FuncCode) (n : Nat) : Prop :=
  ∃ before after, c.pieces = before ++ after ∧ n = (c.entry ++ before.flatten).length

/-- The pointers as the body of a function keeps them, from those that it is entered with: the
frame pointer below the return address, where its old value is, and the stack pointer at the end
of the frame. -/
structure AtRest (c : FuncCode) (start p : Pointers) : Prop where
  fp : p.fp = start.sp - 8
  sp : p.sp = p.fp - UInt64.ofNat c.frame.totalSize

/-- `c.Tracks start n p`: straight-line code from the entry reaches the line `n` with the
pointers `p`. -/
def Tracks (c : FuncCode) (start : Pointers) (n : Nat) (p : Pointers) : Prop :=
  Runs (instrs (c.lines.take n)) start p

variable {c : FuncCode} {start p q : Pointers} {n : Nat}

/-- The entry is straight. -/
theorem isStraight_of_mem_entry {x : Instr} (h : .instr x ∈ c.entry) : x.isStraight = true := by
  obtain heq | h := List.mem_cons.mp h
  · cases heq
  · obtain ⟨y, hy, heq⟩ := List.mem_map.mp h
    exact Line.instr.inj heq ▸ Frame.isStraight_prologue hy

/-- Only the code of an instruction jumps. -/
theorem mem_code_of_jump {x : Instr} {target : String} (hx : .instr x ∈ c.lines)
    (hjump : x.jump? = some target) : x ∈ c.code.flatten := by
  have hstraight : x.isStraight = true → x ∈ c.code.flatten := by
    intro hx
    rw [Instr.jump?_of_isStraight hx] at hjump
    cases hjump
  obtain hx | hx | hx := c.mem_lines hx
  · exact hstraight (Frame.isStraight_prologue hx)
  · exact hx
  · rw [Frame.epilogue_eq] at hx
    obtain hx | hx := List.mem_append.mp hx
    · exact hstraight (Frame.isStraight_restore hx)
    · obtain rfl := List.mem_singleton.mp hx
      cases hjump

/-- The pointers at rest are determined. -/
theorem AtRest.unique (hp : c.AtRest start p) (hq : c.AtRest start q) : q = p := by
  have hfp : q.fp = p.fp := hq.fp.trans hp.fp.symm
  have hsp : q.sp = p.sp := by rw [hq.sp, hp.sp, hfp]
  cases p
  cases q
  simp_all

/-- At rest the two pointers are aligned alike. -/
theorem AtRest.modEq (h : c.AtRest start p) : p.sp.toNat ≡ p.fp.toNat [MOD 16] := by
  rw [h.sp]
  refine sub_modEq_sixteen p.fp ?_
  rw [Demand.totalSize, alignUp, if_neg (by decide)]
  exact Nat.mul_mod_left _ _

/-! ### Straight-line code -/

/-- Storing registers in words of the frame changes neither pointer. -/
theorem eq_self_of_stores {base : Nat} {rs : List Reg}
    (h : Runs (rs.mapIdx fun i r => .mov (.slotAt (Frame.wordAt base i) .qword) (.qword r)) p q) :
    q = p := by
  refine h.eq_self fun x hx r hr => ?_
  obtain ⟨i, hi, rfl⟩ := List.mem_mapIdx.mp hx
  cases hr

/-- The prologue brings the pointers to rest. -/
theorem atRest_of_runs_prologue (h : Runs c.frame.prologue start p) : c.AtRest start p := by
  obtain ⟨_, h, hhomes⟩ := Runs.append_iff.mp h
  obtain ⟨r, h, hsaves⟩ := Runs.append_iff.mp h
  obtain rfl := eq_self_of_stores hsaves
  obtain rfl := eq_self_of_stores hhomes
  cases h with | cons hpush h =>
  cases h with | cons hmov h =>
  obtain rfl := hpush.eq rfl rfl
  obtain rfl := hmov.eq rfl rfl
  obtain rfl := (Runs.singleton_iff.mp h).eq rfl rfl
  exact ⟨rfl, rfl⟩

/-- The epilogue finds the return address where the function was entered. -/
theorem sp_eq_of_runs_epilogue (hp : c.AtRest start p)
    (h : Runs (c.frame.restoreCode ++ [Instr.leave]) p q) : q.sp = start.sp := by
  have hrestore : ∀ x ∈ c.frame.restoreCode, ∀ r ∈ x.writes, r ≠ .rsp ∧ r ≠ .rbp := by
    intro x hx r hr
    obtain ⟨i, hi, rfl⟩ := List.mem_mapIdx.mp hx
    obtain rfl := List.mem_singleton.mp hr
    have hsaved : (c.frame.saved.get ⟨i, hi⟩).isCalleeSaved = true :=
      (List.mem_filter.mp (List.get_mem _ _)).2
    constructor
    · intro heq
      rw [List.get_eq_getElem, heq] at hsaved
      cases hsaved
    · intro heq
      rw [List.get_eq_getElem, heq] at hsaved
      cases hsaved
  obtain ⟨r, hloads, hleave⟩ := Runs.append_iff.mp h
  obtain rfl := hloads.eq_self hrestore
  rw [(Runs.singleton_iff.mp hleave).sp _ rfl, hp.fp]
  exact UInt64.sub_add_cancel _ _

section Disciplined

variable (hc : ∀ code ∈ c.code, Disciplined code)
include hc

/-- Every piece is disciplined. -/
theorem disciplined_of_mem_pieces {piece : List Line} (h : piece ∈ c.pieces) :
    Disciplined (instrs piece) := by
  obtain ⟨name, rfl⟩ | ⟨code, hcode, rfl⟩ := mem_pieces h
  · exact .of_quiet fun _ hx => absurd hx List.not_mem_nil
  · rw [instrs_map_instr]
    exact hc code hcode

/-- Between pieces the pointers are at rest. -/
theorem atRest_of_runs {before : List (List Line)} (hbefore : before ⊆ c.pieces)
    (h : Runs (instrs (c.entry ++ before.flatten)) start p) : c.AtRest start p := by
  have hbalanced : ∀ {q}, Runs (instrs before.flatten) q p → p = q := by
    clear h
    induction before with
    | nil => exact Runs.of_nil
    | cons piece before ih =>
        intro q hrun
        rw [List.flatten_cons, instrs_append] at hrun
        rw [List.cons_subset] at hbefore
        obtain ⟨r, hpiece, hrun⟩ := Runs.append_iff.mp hrun
        obtain rfl := ih hbefore.2 hrun
        exact (disciplined_of_mem_pieces hc hbefore.1).balanced hpiece
  rw [instrs_append, entry, instrs_label, instrs_map_instr] at h
  obtain ⟨r, hprologue, hrun⟩ := Runs.append_iff.mp h
  obtain rfl := hbalanced hrun
  exact atRest_of_runs_prologue hprologue

/-- A line of the body or of the epilogue is reached from where the pointers were at rest. -/
theorem Tracks.cases {l : Line} (h : c.Tracks start n p) (hline : c.lines[n]? = some l) :
    (∃ rest, c.entry = c.lines.take n ++ l :: rest) ∨
    (∃ piece ∈ c.pieces, ∃ first rest q, piece = first ++ l :: rest ∧ c.AtRest start q ∧
      Runs (instrs first) q p) ∨
    ∃ first rest q, c.frame.epilogue.map .instr = first ++ l :: rest ∧ c.AtRest start q ∧
      Runs (instrs first) q p := by
  have hsplit : c.lines = c.lines.take n ++ l :: c.lines.drop (n + 1) := by
    obtain ⟨hn, rfl⟩ := List.getElem?_eq_some_iff.mp hline
    rw [← List.drop_eq_getElem_cons hn, List.take_append_drop]
  unfold Tracks at h
  obtain hentry | ⟨whole, piece, others, first, rest, hpieces, hpiece, htake⟩ |
    ⟨first, htake, hepilogue⟩ := lines_cases hsplit
  · exact .inl hentry
  · rw [htake, instrs_append] at h
    obtain ⟨q, hq, hfirst⟩ := Runs.append_iff.mp h
    have hwhole : whole ⊆ c.pieces := hpieces ▸ List.subset_append_left _ _
    have hmem : piece ∈ c.pieces := hpieces ▸ List.mem_append_right _ List.mem_cons_self
    exact .inr (.inl ⟨piece, hmem, first, rest, q, hpiece, atRest_of_runs hc hwhole hq, hfirst⟩)
  · rw [htake, instrs_append] at h
    obtain ⟨q, hq, hfirst⟩ := Runs.append_iff.mp h
    exact .inr (.inr ⟨first, _, q, hepilogue, atRest_of_runs hc (List.Subset.refl _) hq, hfirst⟩)

/-- Behind the entry, a label is reached at rest. -/
theorem Tracks.atRest_of_label {name : String} (h : c.Tracks start n p) (hn : 0 < n)
    (hline : c.lines[n]? = some (.label name)) : c.AtRest start p := by
  have hlabel : ∀ xs : Code, .label name ∉ xs.map Line.instr := by
    intro xs hmem
    obtain ⟨x, -, hx⟩ := List.mem_map.mp hmem
    cases hx
  obtain ⟨rest, hentry⟩ | ⟨piece, hmem, first, rest, q, rfl, hq, hfirst⟩ |
    ⟨first, rest, q, hepilogue, -⟩ := h.cases hc hline
  · -- The first line of the entry is its only label.
    obtain ⟨hlt, -⟩ := List.getElem?_eq_some_iff.mp hline
    cases htake : c.lines.take n with
    | nil =>
        have hlength := List.length_take_of_le hlt.le
        rw [htake, List.length_nil] at hlength
        omega
    | cons l ls =>
        rw [htake] at hentry
        refine absurd ?_ (hlabel c.frame.prologue)
        rw [(List.cons.inj hentry).2]
        exact List.mem_append_right ls List.mem_cons_self
  · obtain ⟨name', hpiece⟩ | ⟨code, -, hpiece⟩ := mem_pieces hmem
    · cases first with
      | nil =>
          obtain rfl := hfirst.of_nil
          exact hq
      | cons l ls => simp at hpiece
    · exact absurd (hpiece ▸ List.mem_append_right first List.mem_cons_self) (hlabel _)
  · exact absurd (hepilogue ▸ List.mem_append_right first List.mem_cons_self) (hlabel _)

/-- Only the body jumps and calls. -/
theorem Tracks.exists_piece {x : Instr} (h : c.Tracks start n p)
    (hline : c.lines[n]? = some (.instr x)) (hx : x.isStraight = false) (hret : x ≠ .ret) :
    ∃ code before after q, Disciplined code ∧ code = before ++ x :: after ∧
      c.AtRest start q ∧ Runs before q p := by
  obtain ⟨rest, hentry⟩ | ⟨piece, hmem, first, rest, q, rfl, hq, hfirst⟩ |
    ⟨first, rest, q, hepilogue, -⟩ := h.cases hc hline
  · have hmem : .instr x ∈ c.entry := hentry ▸ List.mem_append_right _ List.mem_cons_self
    rw [isStraight_of_mem_entry hmem] at hx
    cases hx
  · exact ⟨_, instrs first, instrs rest, q, disciplined_of_mem_pieces hc hmem,
      instrs_append _ _, hq, hfirst⟩
  · have hmem : x ∈ instrs (c.frame.epilogue.map .instr) := by
      rw [hepilogue, instrs_append]
      exact List.mem_append_right _ List.mem_cons_self
    rw [instrs_map_instr, Frame.epilogue_eq] at hmem
    obtain hmem | hmem := List.mem_append.mp hmem
    · rw [Frame.isStraight_restore hmem] at hx
      cases hx
    · exact absurd (List.mem_singleton.mp hmem) hret

/-- A return finds the return address. -/
theorem Tracks.sp_of_ret (h : c.Tracks start n p) (hline : c.lines[n]? = some (.instr .ret)) :
    p.sp = start.sp := by
  obtain ⟨rest, hentry⟩ | ⟨piece, hmem, first, rest, q, rfl, -, -⟩ |
    ⟨first, rest, q, hepilogue, hq, hfirst⟩ := h.cases hc hline
  · have hmem : .instr .ret ∈ c.entry := hentry ▸ List.mem_append_right _ List.mem_cons_self
    cases isStraight_of_mem_entry hmem
  · refine absurd ?_ (disciplined_of_mem_pieces hc hmem).stays
    rw [instrs_append, instrs_instr]
    exact List.mem_append_right _ List.mem_cons_self
  · have hinstrs := congrArg instrs hepilogue
    rw [instrs_map_instr, instrs_append, instrs_instr, Frame.epilogue_eq] at hinstrs
    have hret : Instr.ret ∉ c.frame.restoreCode ++ [Instr.leave] :=
      fun hmem => Bool.false_ne_true (Frame.isStraight_restore hmem)
    obtain ⟨heq, -, -⟩ := (List.append_cons_inj_of_notMem hret List.not_mem_nil).mp hinstrs
    exact sp_eq_of_runs_epilogue hq (heq ▸ hfirst)

/-- The pointers between pieces. -/
theorem Tracks.atRest_of_boundary (h : c.Tracks start n p) (hn : c.Boundary n) :
    c.AtRest start p := by
  obtain ⟨before, after, hpieces, rfl⟩ := hn
  have htake : c.lines.take (c.entry ++ before.flatten).length = c.entry ++ before.flatten := by
    rw [lines_eq, hpieces, List.flatten_append, ← List.append_assoc, List.append_assoc,
      List.take_left]
  rw [Tracks, htake] at h
  exact atRest_of_runs hc (hpieces ▸ List.subset_append_left before after) h

end Disciplined

/-- What holds of the pointers at a line. -/
structure StackAt (c : FuncCode) (start : Pointers) (n : Nat) (p : Pointers) : Prop where
  boundary : c.Boundary n → c.AtRest start p
  label : ∀ name : String, 0 < n → c.lines[n]? = some (.label name) → c.AtRest start p
  jump : ∀ x : Instr, c.lines[n]? = some (.instr x) → x.jump?.isSome = true → c.AtRest start p
  call : ∀ callee : String, c.lines[n]? = some (.instr (.call callee)) →
    p.sp.toNat ≡ p.fp.toNat [MOD 16]
  ret : c.lines[n]? = some (.instr .ret) → p.sp = start.sp

/-- **Straight-line code.** It reaches every line with the pointers that belong there. -/
theorem Tracks.stackAt (hc : ∀ code ∈ c.code, Disciplined code) (h : c.Tracks start n p) :
    c.StackAt start n p where
  boundary := h.atRest_of_boundary hc
  label := fun _ => h.atRest_of_label hc
  jump := by
    intro x hline hx
    have hstraight : x.isStraight = false := by
      cases hs : x.isStraight with
      | false => rfl
      | true =>
          rw [Instr.jump?_of_isStraight hs] at hx
          cases hx
    have hret : x ≠ .ret := by
      rintro rfl
      cases hx
    obtain ⟨code, before, after, q, hcode, hsplit, hq, hrun⟩ :=
      h.exists_piece hc hline hstraight hret
    obtain rfl := hcode.jumps hsplit hx hrun
    exact hq
  call := by
    intro callee hline
    obtain ⟨code, before, after, q, hcode, hsplit, hq, hrun⟩ := h.exists_piece hc hline rfl nofun
    obtain ⟨hfp, hsp⟩ := hcode.calls hsplit hrun
    rw [hfp]
    exact hsp.trans hq.modEq
  ret := h.sp_of_ret hc

/-! ### Runs -/

/-- A step of a run keeps to the pointers of straight-line code. A jump does because they are at
rest where it starts and where it ends. -/
theorem Tracks.step {m : Nat} (hc : ∀ code ∈ c.code, Disciplined code)
    (hname : ∀ x, .instr x ∈ c.lines → x.jump? ≠ some c.name) (h : c.Tracks start n p)
    (hstep : Step c.lines ⟨n, p⟩ ⟨m, q⟩) : c.Tracks start m q := by
  cases hstep with
  | skip hline hl =>
      rw [Tracks, List.take_add_one, hline, Option.toList_some, instrs_append, instrs_skip hl]
      exact Runs.append_iff.mpr ⟨p, h, .nil⟩
  | next hline _ hmoves =>
      rw [Tracks, List.take_add_one, hline, Option.toList_some, instrs_append]
      exact Runs.append_iff.mpr ⟨p, h, Runs.singleton_iff.mpr hmoves⟩
  | @jump _ _ _ x target hline hx htarget =>
      have hm : 0 < m := by
        refine Nat.pos_of_ne_zero ?_
        rintro rfl
        obtain rfl : c.name = target := Line.label.inj (Option.some.inj htarget)
        exact hname x (List.mem_of_getElem? hline) hx
      have hp : c.AtRest start p :=
        (h.stackAt hc).jump x hline (Option.isSome_iff_exists.mpr ⟨target, hx⟩)
      obtain ⟨r, hr⟩ := Runs.total (instrs (c.lines.take m)) start
      have hr' : c.Tracks start m r := hr
      obtain rfl := hp.unique (hr'.atRest_of_label hc hm htarget)
      exact hr

/-- **Runs.** Wherever control comes from, a line is reached with the pointers of straight-line
code. -/
theorem tracks_of_reaches (hc : ∀ code ∈ c.code, Disciplined code)
    (hname : ∀ x, .instr x ∈ c.lines → x.jump? ≠ some c.name) {k : Config}
    (h : Reaches c.lines ⟨0, start⟩ k) : c.Tracks start k.line k.pointers := by
  induction h with
  | refl => exact .nil
  | tail _ hstep ih => exact ih.step hc hname hstep

end FuncCode

/-! ### Functions -/

namespace Func

variable {f : Func} {c : FuncCode}

/-- The code of every instruction is disciplined. -/
theorem disciplined_of_mem {code : Code} (h : f.select = .ok c) (hcode : code ∈ c.code) :
    Disciplined code := by
  obtain ⟨i, -, isLast, hshape⟩ := shape_of_mem h hcode
  exact hshape.disciplined

/-- A function never jumps to its own label. -/
theorem jump_ne_name {x : Instr} (h : f.select = .ok c) (hx : .instr x ∈ c.lines) :
    x.jump? ≠ some c.name := by
  intro hjump
  obtain ⟨code, hcode, hx⟩ := List.mem_flatten.mp (c.mem_code_of_jump hx hjump)
  obtain ⟨i, -, isLast, hshape⟩ := shape_of_mem h hcode
  exact (hshape.target_of_jump hx hjump).ne_name (name_of_select h)

/-- **Stack discipline.** No instruction of the body writes the frame pointer, and the code of
each instruction takes back what it pushes. Whether code is followed line by line or along its
jumps, the pointers are at rest behind the prologue, at every label and jump of the body, between
the code of any two instructions and at the epilogue; at a call they are aligned alike; and a
return finds the stack pointer that the function was entered with. -/
theorem stack_disciplined (h : f.select = .ok c) :
    (∀ x ∈ c.code.flatten, .rbp ∉ x.writes) ∧
    (∀ code ∈ c.code, ∀ p q, Runs code p q ↔ q = p) ∧
    ∀ start n p, (c.Tracks start n p ∨ Reaches c.lines ⟨0, start⟩ ⟨n, p⟩) →
      c.StackAt start n p := by
  have hc : ∀ code ∈ c.code, Disciplined code := fun _ => disciplined_of_mem h
  refine ⟨?_, ?_, ?_⟩
  · intro x hx
    obtain ⟨code, hcode, hx⟩ := List.mem_flatten.mp hx
    obtain ⟨i, -, isLast, hshape⟩ := shape_of_mem h hcode
    exact hshape.rbp_not_mem_writes hx
  · intro code hcode p q
    refine ⟨(hc code hcode).balanced, ?_⟩
    rintro rfl
    obtain ⟨p, hrun⟩ := Runs.total code q
    obtain rfl := (hc code hcode).balanced hrun
    exact hrun
  · rintro start n p (htracks | hreaches)
    · exact htracks.stackAt hc
    · exact (FuncCode.tracks_of_reaches hc (fun _ => jump_ne_name h) hreaches).stackAt hc

end Func

/-- A function with a call of seven arguments, a division and two returns. -/
def sevenArguments : Func where
  name := "spread"
  linkage := .exported
  returnType := .i64
  blocks := [
    { name := "entry"
      id := 1
      instructions := [
        { opcode := .call, dataType := .i64, dest := some (.general 1),
          call := some { callee := "use", args := [1, 2, 3, 4, 5, 6, 7].map .imm } },
        { opcode := .divide .sdiv, dataType := .i64, dest := some (.general 1),
          src1 := some (.general 1), src2 := some (.imm 3) },
        { opcode := .branch .lt, dataType := .i64, src1 := some (.general 1),
          src2 := some (.imm 10), src3 := some (.label "small") },
        { opcode := .ret, dataType := .i64, src1 := some (.general 1) }] },
    { name := "small"
      id := 2
      instructions := [{ opcode := .ret, dataType := .i64, src1 := some (.imm 0) }] }]

/-- Its call is reached below a word of padding and a pushed argument, and aligned. Behind the
division, whose code takes back its push, the branch is taken and the label is reached at rest. -/
theorem sevenArguments_disciplined :
    ∃ c : FuncCode, sevenArguments.select = .ok c ∧
      c.lines[15]? = some (.instr (.call "use")) ∧
      c.lines[31]? = some (.label ".Lspread.small") ∧
      (∃ p : Pointers, Reaches c.lines ⟨0, ⟨0x7ffff008, 0⟩⟩ ⟨15, p⟩ ∧
        p.sp.toNat ≡ p.fp.toNat [MOD 16]) ∧
      (∃ code ∈ c.code, .push (.qword .rax) ∈ code ∧ ∀ p, Runs code p p) ∧
      ∃ p, Reaches c.lines ⟨0, ⟨0x7ffff008, 0⟩⟩ ⟨31, p⟩ ∧ c.AtRest ⟨0x7ffff008, 0⟩ p := by
  have hends : Ends sevenArguments.select (fun c =>
      c.lines[15]? = some (.instr (.call "use")) ∧
      c.lines[28]? = some (.instr (.jcc .l ".Lspread.small")) ∧
      c.lines[31]? = some (.label ".Lspread.small") ∧
      (∃ code ∈ c.code, .push (.qword .rax) ∈ code) ∧
      ∀ n ∈ [15, 28], n ≤ c.lines.length ∧
        ∀ x ∈ instrs (c.lines.take n), x.fallsThrough = true) fun _ => False := by
    decide +kernel
  obtain ⟨c, hselect, hcall, hjump, hlabel, ⟨code, hcode, hpush⟩, hfalls⟩ := hends.exists_ok
  obtain ⟨-, hbalanced, hstack⟩ := Func.stack_disciplined hselect
  have hreaches : ∀ n ∈ [15, 28], ∃ p, Reaches c.lines ⟨0, ⟨0x7ffff008, 0⟩⟩ ⟨n, p⟩ := by
    intro n hn
    obtain ⟨hlength, hfalls⟩ := hfalls n hn
    obtain ⟨p, hrun⟩ := Runs.total (instrs (c.lines.take n)) ⟨0x7ffff008, 0⟩
    exact ⟨p, .of_runs hlength hfalls hrun⟩
  obtain ⟨p, hp⟩ := hreaches 15 (by decide)
  obtain ⟨q, hq⟩ := hreaches 28 (by decide)
  have htaken := hq.tail (.jump hjump rfl hlabel)
  exact ⟨c, hselect, hcall, hlabel, ⟨p, hp, (hstack _ _ _ (.inr hp)).call "use" hcall⟩,
    ⟨code, hcode, hpush, fun p => (hbalanced code hcode p p).mpr rfl⟩,
    q, htaken, (hstack _ _ _ (.inr htaken)).label _ (by decide) hlabel⟩

end RegIR
