import Mathlib.Logic.Relation
import RegIR.Proofs.X86.Machine

/-!
# The stack pointer and the frame pointer

Machine code is followed here for its effect on two registers only. Where their values after an
instruction do not follow from those before, they may be anything. So whatever the machine does
is a run of the two pointers, and what holds of every such run holds of the machine. Addresses are
words, and so the sums are right for any number of bytes that are pushed.

Calls and returns leave the code that the machine runs. Of a call it is only assumed that it comes
back with the stack pointer it had.

A function is run line by line: control passes to the next line, or to any line that has the
label of a jump, whatever the condition.

## Main definitions

* `X86.Instr.Moves`: what an instruction can do to the pointers.
* `X86.Runs`: what a list of instructions can do to them, one after the other.
* `X86.Step`, `X86.Reaches`: the run of a list of lines.

## Main results

* `X86.Runs.eq_self`: code that writes neither pointer leaves both as they are.
* `X86.Runs.total`: straight-line code always runs to its end.
* `X86.Instr.moves_of_effect?`, `X86.runs_of_exec`: what the machine does, the pointers can do.
* `X86.Reaches.of_runs`: up to a line, straight-line code is a run.
-/

namespace RegIR

namespace X86

/-- The stack pointer and the frame pointer. -/
structure Pointers where
  sp : UInt64
  fp : UInt64
deriving DecidableEq, Repr

/-! ### Instructions -/

/-- Arithmetic on an address with a constant, as far as it is followed. -/
def AluOp.address? : AluOp → UInt64 → Int64 → Option UInt64
  | add, a, v => some (a + v.toUInt64)
  | sub, a, v => some (a - v.toUInt64)
  | _, _, _ => none

namespace Instr

/-- The stack pointer after an instruction, where it follows from the two pointers before. A
call comes back with the stack pointer it had. -/
def spAfter? (x : Instr) (p : Pointers) : Option UInt64 :=
  match x with
  | push _ => some (p.sp - 8)
  | pop dst => if dst.reg? = some .rsp then none else some (p.sp + 8)
  | alu op dst (.imm v) =>
      if dst = .qword .rsp then op.address? p.sp v
      else if .rsp ∈ x.writes then none else some p.sp
  | leave => some (p.fp + 8)
  | ret => some (p.sp + 8)
  | _ => if .rsp ∈ x.writes then none else some p.sp

/-- The frame pointer after an instruction, where it follows from the two pointers before. -/
def fpAfter? (x : Instr) (p : Pointers) : Option UInt64 :=
  match x with
  | mov (.reg .rbp .qword) (.reg .rsp .qword) => some p.sp
  | _ => if .rbp ∈ x.writes then none else some p.fp

/-- `x.Moves p q`: the instruction can take the pointers from `p` to `q`. -/
structure Moves (x : Instr) (p q : Pointers) : Prop where
  sp : ∀ a ∈ x.spAfter? p, q.sp = a
  fp : ∀ a ∈ x.fpAfter? p, q.fp = a

variable {x : Instr} {p q : Pointers}

/-- An instruction does something to the pointers. -/
theorem exists_moves (x : Instr) (p : Pointers) : ∃ q, x.Moves p q := by
  refine ⟨⟨(x.spAfter? p).getD 0, (x.fpAfter? p).getD 0⟩, fun a ha => ?_, fun a ha => ?_⟩
  · rw [Option.mem_def.mp ha]
    rfl
  · rw [Option.mem_def.mp ha]
    rfl

/-- The stack pointer is known where it is not written. -/
theorem spAfter?_of_not_mem (h : .rsp ∉ x.writes) : x.spAfter? p = some p.sp := by
  have hsame : (if .rsp ∈ x.writes then none else some p.sp) = some p.sp := if_neg h
  cases x with
  | push src | ret => exact absurd (List.mem_singleton_self _) h
  | leave => exact absurd List.mem_cons_self h
  | pop dst => exact absurd (List.mem_append_right _ (List.mem_singleton_self _)) h
  | alu op dst src =>
      have hdst : dst ≠ .qword .rsp := by
        rintro rfl
        exact h List.mem_cons_self
      cases src with
      | imm v => exact (if_neg hdst).trans hsame
      | reg | mem | rip => exact hsame
  | _ => exact hsame

/-- The stack pointer is known after arithmetic on it with a constant that is followed. -/
theorem spAfter?_alu_rsp (op : AluOp) (v : Int64) :
    (alu op (.qword .rsp) (.imm v)).spAfter? p = op.address? p.sp v := by
  rw [spAfter?, if_pos rfl]

/-- The frame pointer is known where it is not written. -/
theorem fpAfter?_of_not_mem (h : .rbp ∉ x.writes) : x.fpAfter? p = some p.fp := by
  unfold fpAfter?
  split
  · exact absurd List.mem_cons_self h
  · rw [if_neg h]

/-- The frame pointer is not known where it is written, unless the stack pointer is copied. -/
theorem fpAfter?_of_mem (hmov : x ≠ .mov (.reg .rbp .qword) (.reg .rsp .qword))
    (h : .rbp ∈ x.writes) : x.fpAfter? p = none := by
  unfold fpAfter?
  split
  · exact absurd rfl hmov
  · rw [if_pos h]

/-- Where both pointers are known, there is one outcome. -/
theorem Moves.eq {a b : UInt64} (h : x.Moves p q) (hsp : x.spAfter? p = some a)
    (hfp : x.fpAfter? p = some b) : q = ⟨a, b⟩ := by
  obtain rfl := h.sp a hsp
  obtain rfl := h.fp b hfp
  rfl

/-- An instruction that writes neither pointer leaves both as they are. -/
theorem Moves.eq_self (h : x.Moves p q) (hsp : .rsp ∉ x.writes) (hfp : .rbp ∉ x.writes) :
    q = p :=
  h.eq (spAfter?_of_not_mem hsp) (fpAfter?_of_not_mem hfp)

/-- Does control pass to the next line? -/
def fallsThrough : Instr → Bool
  | jmp _ | ret => false
  | _ => true

end Instr

/-! ### Straight-line code -/

/-- `Runs xs p q`: the instructions can take the pointers from `p` to `q`, one after the other.
Jumps are not taken. -/
inductive Runs : List Instr → Pointers → Pointers → Prop
  | nil {p : Pointers} : Runs [] p p
  | cons {x : Instr} {xs : List Instr} {p r q : Pointers} (hx : x.Moves p r)
      (hxs : Runs xs r q) : Runs (x :: xs) p q

namespace Runs

variable {xs ys : List Instr} {x : Instr} {p q : Pointers}

/-- Nothing happens in no code. -/
theorem of_nil (h : Runs [] p q) : q = p := by
  cases h
  rfl

/-- One instruction. -/
theorem singleton_iff : Runs [x] p q ↔ x.Moves p q := by
  constructor
  · intro h
    cases h with
    | cons hx hnil =>
        obtain rfl := hnil.of_nil
        exact hx
  · exact fun h => .cons h .nil

/-- Code behind other code. -/
theorem append_iff : Runs (xs ++ ys) p q ↔ ∃ r, Runs xs p r ∧ Runs ys r q := by
  induction xs generalizing p with
  | nil =>
      refine ⟨fun h => ⟨p, .nil, h⟩, ?_⟩
      rintro ⟨r, hnil, h⟩
      obtain rfl := hnil.of_nil
      exact h
  | cons x xs ih =>
      constructor
      · intro h
        cases h with
        | cons hx hxs =>
            obtain ⟨r, hleft, hright⟩ := ih.mp hxs
            exact ⟨r, .cons hx hleft, hright⟩
      · rintro ⟨r, hleft, hright⟩
        cases hleft with
        | cons hx hxs => exact .cons hx (ih.mpr ⟨r, hxs, hright⟩)

/-- Straight-line code runs to its end. -/
theorem total (xs : List Instr) (p : Pointers) : ∃ q, Runs xs p q := by
  induction xs generalizing p with
  | nil => exact ⟨p, .nil⟩
  | cons x xs ih =>
      obtain ⟨r, hx⟩ := x.exists_moves p
      obtain ⟨q, hxs⟩ := ih r
      exact ⟨q, .cons hx hxs⟩

/-- **Quiet code.** Code that writes neither pointer leaves both as they are. -/
theorem eq_self (h : Runs xs p q)
    (hxs : ∀ x ∈ xs, ∀ r ∈ x.writes, r ≠ .rsp ∧ r ≠ .rbp) : q = p := by
  induction h with
  | nil => rfl
  | cons hx _ ih =>
      rw [List.forall_mem_cons] at hxs
      rw [ih hxs.2]
      exact hx.eq_self (fun hr => (hxs.1 _ hr).1 rfl) fun hr => (hxs.1 _ hr).2 rfl

end Runs

/-! ### The machine -/

/-- The two pointers of a machine. -/
def Machine.pointers (m : Machine) : Pointers :=
  ⟨.ofBitVec (m.regs .rsp), .ofBitVec (m.regs .rbp)⟩

namespace Instr

variable {x : Instr} {m m' : Machine}

/-- Arithmetic on the stack pointer is arithmetic on its address. -/
theorem address?_eval {op : AluOp} {v : Int64} {a : UInt64}
    (h : op.address? (.ofBitVec (m.regs .rsp)) v = some a) :
    UInt64.ofBitVec (op.eval (m.read .qword (.qword .rsp)) (m.read .qword (.imm v))) = a := by
  have hrsp : m.read .qword (.qword .rsp) = m.regs .rsp := BitVec.setWidth_eq _
  have himm : m.read .qword (.imm v) = v.toBitVec := BitVec.setWidth_eq _
  rw [hrsp, himm]
  cases op with
  | add | sub =>
      obtain rfl := Option.some.inj h
      rfl
  | imul | and | or | xor => cases h

/-- The stack pointer of the machine is where it is known to be. -/
theorem rsp_of_effect? (h : x.effect? m = some m') {a : UInt64}
    (ha : x.spAfter? m.pointers = some a) : m'.pointers.sp = a := by
  by_cases hrsp : .rsp ∈ x.writes
  · -- Where it is written, only these five say what it is.
    have hunknown : (if .rsp ∈ x.writes then none else some m.pointers.sp) ≠ some a := by
      rw [if_pos hrsp]
      exact (Option.some_ne_none a).symm
    cases x with
    | push src =>
        obtain rfl := Option.some.inj h
        obtain rfl := Option.some.inj ha
        exact congrArg UInt64.ofBitVec (Machine.rsp_push _)
    | pop dst =>
        obtain ⟨hdst, ha⟩ := Option.ite_none_left_eq_some.mp ha
        obtain rfl := Option.some.inj h
        obtain rfl := Option.some.inj ha
        exact congrArg UInt64.ofBitVec
          ((Machine.regs_write_of_reg?_ne hdst).trans (Machine.regs_setReg_qword _))
    | leave =>
        obtain rfl := Option.some.inj h
        obtain rfl := Option.some.inj ha
        refine congrArg UInt64.ofBitVec ((Machine.regs_setReg_of_ne (by decide)).trans ?_)
        refine (Machine.regs_setReg_qword _).trans ?_
        rw [Machine.regs_setReg_qword]
        rfl
    | alu op dst src =>
        cases src with
        | imm v =>
            by_cases hdst : dst = .qword .rsp
            · subst hdst
              rw [spAfter?_alu_rsp] at ha
              obtain rfl := Option.some.inj h
              have hsp := Machine.regs_setReg_qword (m := m) (r := .rsp)
                (op.eval (m.read .qword (.qword .rsp)) (m.read .qword (.imm v)))
              exact (congrArg UInt64.ofBitVec hsp).trans (address?_eval ha)
            · exact absurd ((if_neg hdst).symm.trans ha) hunknown
        | reg | mem | rip => exact absurd ha hunknown
    | ret => cases h
    | _ => exact absurd ha hunknown
  · rw [spAfter?_of_not_mem hrsp] at ha
    obtain rfl := Option.some.inj ha
    exact congrArg UInt64.ofBitVec (regs_of_effect? h hrsp)

/-- The frame pointer of the machine is where it is known to be. -/
theorem rbp_of_effect? (h : x.effect? m = some m') {a : UInt64}
    (ha : x.fpAfter? m.pointers = some a) : m'.pointers.fp = a := by
  by_cases hmov : x = .mov (.reg .rbp .qword) (.reg .rsp .qword)
  · subst hmov
    obtain rfl := Option.some.inj h
    obtain rfl := Option.some.inj ha
    refine congrArg UInt64.ofBitVec ((Machine.regs_setReg_qword _).trans ?_)
    exact BitVec.setWidth_eq (m.regs .rsp)
  · have hrbp : .rbp ∉ x.writes := fun hwrites => by
      rw [fpAfter?_of_mem hmov hwrites] at ha
      cases ha
    rw [fpAfter?_of_not_mem hrbp] at ha
    obtain rfl := Option.some.inj ha
    exact congrArg UInt64.ofBitVec (regs_of_effect? h hrbp)

/-- **One instruction.** What the machine does is a move of its pointers. -/
theorem moves_of_effect? (h : x.effect? m = some m') : x.Moves m.pointers m'.pointers :=
  ⟨fun _ ha => rsp_of_effect? h ha, fun _ ha => rbp_of_effect? h ha⟩

/-- A jump leaves both pointers as they are. -/
theorem moves_of_jump? {target : String} (hx : x.jump? = some target) (p : Pointers) :
    x.Moves p p := by
  have hwrites : ∀ r, r ∉ x.writes := by
    intro r
    rw [writes_of_jump? hx]
    exact List.not_mem_nil
  refine ⟨fun a ha => ?_, fun a ha => ?_⟩
  · rw [Option.mem_def, spAfter?_of_not_mem (hwrites _)] at ha
    exact Option.some.inj ha
  · rw [Option.mem_def, fpAfter?_of_not_mem (hwrites _)] at ha
    exact Option.some.inj ha

end Instr

/-- **Code.** What the machine does with code is a run of its pointers, to the end of the code or up
to the jump that is taken. -/
theorem runs_of_exec {xs : List Instr} {m m' : Machine} {out : Option String}
    (h : exec xs m = some (m', out)) :
    (out = none ∧ Runs xs m.pointers m'.pointers) ∨
      ∃ (before : List Instr) (x : Instr) (after : List Instr) (target : String),
        xs = before ++ x :: after ∧ x.jump? = some target ∧ out = some target ∧
        Runs before m.pointers m'.pointers := by
  fun_induction exec xs m with
  | case1 m =>
      cases h
      exact .inl ⟨rfl, .nil⟩
  | case2 target xs m =>
      cases h
      exact .inr ⟨[], _, xs, target, rfl, rfl, rfl, .nil⟩
  | case3 cond target xs m ih =>
      obtain ⟨flags, -, hrest⟩ := Option.bind_eq_some_iff.mp h
      split at hrest
      next =>
        cases hrest
        exact .inr ⟨[], _, xs, target, rfl, rfl, rfl, .nil⟩
      next =>
        have hjump : (Instr.jcc cond target).Moves m.pointers m.pointers :=
          Instr.moves_of_jump? rfl _
        obtain ⟨rfl, hruns⟩ | ⟨before, x, after, target', rfl, hx, rfl, hruns⟩ := ih hrest
        · exact .inl ⟨rfl, .cons hjump hruns⟩
        · exact .inr ⟨_ :: before, x, after, target', rfl, hx, rfl, .cons hjump hruns⟩
  | case4 x xs m hjmp hjcc ih =>
      obtain ⟨m₁, hstep, hrest⟩ := Option.bind_eq_some_iff.mp h
      obtain ⟨-, heffect⟩ := Option.ite_none_right_eq_some.mp hstep
      have hmoves := Instr.moves_of_effect? heffect
      obtain ⟨rfl, hruns⟩ | ⟨before, y, after, target, rfl, hy, rfl, hruns⟩ := ih m₁ hrest
      · exact .inl ⟨rfl, .cons hmoves hruns⟩
      · exact .inr ⟨x :: before, y, after, target, rfl, hy, rfl, .cons hmoves hruns⟩

/-! ### Lines -/

/-- The instruction of a line that has one. -/
def Line.instr? : Line → Option Instr
  | instr x => some x
  | _ => none

/-- It is what the line is. -/
theorem Line.eq_of_instr? {l : Line} {x : Instr} (h : l.instr? = some x) : l = .instr x := by
  cases l with
  | instr y => rw [Option.some.inj h]
  | _ => cases h

/-- The instructions among lines. -/
def instrs (ls : List Line) : List Instr :=
  ls.filterMap Line.instr?

@[simp] theorem instrs_nil : instrs [] = [] :=
  rfl

@[simp] theorem instrs_append (ls ls' : List Line) :
    instrs (ls ++ ls') = instrs ls ++ instrs ls' :=
  List.filterMap_append

@[simp] theorem instrs_label (name : String) (ls : List Line) :
    instrs (.label name :: ls) = instrs ls :=
  rfl

@[simp] theorem instrs_instr (x : Instr) (ls : List Line) :
    instrs (.instr x :: ls) = x :: instrs ls :=
  rfl

/-- A line without an instruction adds none. -/
theorem instrs_skip {l : Line} (hl : l.instr? = none) (ls : List Line) :
    instrs (l :: ls) = instrs ls :=
  List.filterMap_cons_none hl

@[simp] theorem instrs_map_instr (xs : List Instr) : instrs (xs.map .instr) = xs := by
  rw [instrs, List.filterMap_map]
  exact List.filterMap_some

/-- Where a run is: the number of the line that comes next, and the pointers. -/
structure Config where
  line : Nat
  pointers : Pointers

/-- One step of a run. A line without an instruction does nothing, and a jump goes to any line
with its label. -/
inductive Step (ls : List Line) : Config → Config → Prop
  | skip {n : Nat} {p : Pointers} {l : Line} (hline : ls[n]? = some l) (hl : l.instr? = none) :
      Step ls ⟨n, p⟩ ⟨n + 1, p⟩
  | next {n : Nat} {p q : Pointers} {x : Instr} (hline : ls[n]? = some (.instr x))
      (hx : x.fallsThrough = true) (hmoves : x.Moves p q) : Step ls ⟨n, p⟩ ⟨n + 1, q⟩
  | jump {n k : Nat} {p : Pointers} {x : Instr} {target : String}
      (hline : ls[n]? = some (.instr x)) (hx : x.jump? = some target)
      (htarget : ls[k]? = some (.label target)) : Step ls ⟨n, p⟩ ⟨k, p⟩

/-- A run of any number of steps. -/
def Reaches (ls : List Line) : Config → Config → Prop :=
  Relation.ReflTransGen (Step ls)

/-- Up to a line, straight-line code is a run. -/
theorem Reaches.of_runs {ls : List Line} {n : Nat} {p q : Pointers} (hn : n ≤ ls.length)
    (hfalls : ∀ x ∈ instrs (ls.take n), x.fallsThrough = true)
    (h : Runs (instrs (ls.take n)) p q) : Reaches ls ⟨0, p⟩ ⟨n, q⟩ := by
  induction n generalizing q with
  | zero =>
      obtain rfl := h.of_nil
      exact .refl
  | succ n ih =>
      have hline : ls[n]? = some (ls.get ⟨n, hn⟩) := List.getElem?_eq_getElem hn
      rw [List.take_add_one, hline, Option.toList_some, instrs_append] at hfalls h
      rw [List.forall_mem_append] at hfalls
      obtain ⟨r, hbefore, hlast⟩ := Runs.append_iff.mp h
      refine (ih (Nat.le_of_succ_le hn) hfalls.1 hbefore).tail ?_
      cases hl : (ls.get ⟨n, hn⟩).instr? with
      | none =>
          rw [instrs_skip hl] at hlast
          obtain rfl := hlast.of_nil
          exact .skip hline hl
      | some x =>
          rw [Line.eq_of_instr? hl] at hline hlast hfalls
          exact .next hline (hfalls.2 x List.mem_cons_self) (Runs.singleton_iff.mp hlast)

end X86

end RegIR
