import RegIR.Proofs.Frame.Places

/-!
# Accesses to memory

Which values in memory code reads or writes, in order. The accesses of an instruction are those
through its operands, and one to the stack if it pushes or pops; to take the address of an operand
is not an access. The accesses of a run follow the clauses by which it is run.

## Main definitions

* `X86.Instr.accesses`, `X86.trace`: the accesses of an instruction and of a run.
* `X86.Performs`: code runs to its end, with its accesses.
* `X86.Machine.Follows`: machines that differ only in what is not accessed.
* `X86.Frame.homeAccesses`: the access to the word of an operand.

## Main results

* `X86.trace_append`: code is traced piece by piece.
* `X86.exec_follows`: a run depends on what it accesses, and changes nothing else.
-/

namespace RegIR

namespace X86

/-- A value in memory that is read or written. -/
structure Access where
  address : BitVec 64
  width : Width
deriving DecidableEq

/-- The access through an operand. -/
def Machine.access? (m : Machine) : Operand → Option Access
  | .mem (some w) base disp => some ⟨m.address base disp, w⟩
  | .mem none _ _ | .reg _ _ | .imm _ | .rip _ => none

namespace Instr

/-- The access to the stack that an instruction makes beside those through its operands. -/
def stackAccess? (x : Instr) (m : Machine) : Option Access :=
  match x with
  | push _ => some ⟨m.regs .rsp - 8, .qword⟩
  | pop _ => some ⟨m.regs .rsp, .qword⟩
  | leave => some ⟨m.regs .rbp, .qword⟩
  | _ => none

/-- The accesses of an instruction. -/
def accesses (x : Instr) (m : Machine) : List Access :=
  x.operands.filterMap m.access? ++ (x.stackAccess? m).toList

/-- A value is moved from memory. -/
theorem accesses_from {m : Machine} {src : Operand} (dst : Operand) (h : m.access? dst = none) :
    [dst, src].filterMap m.access? ++ [] = (m.access? src).toList := by
  cases hsrc : m.access? src <;> simp [h, hsrc]

/-- A value is moved to memory. -/
theorem accesses_to {m : Machine} {dst : Operand} (src : Operand) (h : m.access? src = none) :
    [dst, src].filterMap m.access? ++ [] = (m.access? dst).toList := by
  cases hdst : m.access? dst <;> simp [h, hdst]

end Instr

/-- The accesses of code, up to its end or to the first jump that is taken. -/
def trace : List Instr → Machine → List Access
  | [], _ => []
  | .jcc cond _ :: xs, m => if m.flags.any (·.holds cond) then [] else trace xs m
  | x :: xs, m => x.accesses m ++ (x.step? m).elim [] (trace xs)

variable {x : Instr} {xs ys : List Instr} {m m₁ : Machine} {t t' : List Access}

/-- One instruction, then the others. -/
theorem trace_cons (h : x.step? m = some m₁) : trace (x :: xs) m = x.accesses m ++ trace xs m₁ := by
  cases x with
  | jcc cond target =>
      rw [Instr.step?, Instr.effect?, ite_self] at h
      cases h
  | _ => simp [trace, h]

/-- A jump that is not taken, then the others. -/
theorem trace_jcc {cond : Cond} {target : String} {flags : Flags} (h : m.flags = some flags)
    (hno : ¬ flags.holds cond = true) : trace (.jcc cond target :: xs) m = trace xs m := by
  rw [trace, h]
  exact if_neg hno

/-- Code that runs to its end, then more code. -/
theorem trace_append (h : exec xs m = some (m₁, none)) :
    trace (xs ++ ys) m = trace xs m ++ trace ys m₁ := by
  fun_induction exec xs m with
  | case1 m =>
      cases h
      rfl
  | case2 target xs m => cases h
  | case3 cond target xs m ih =>
      obtain ⟨flags, hflags, hrest⟩ := Option.bind_eq_some_iff.mp h
      split at hrest
      next => cases hrest
      next hno =>
        rw [List.cons_append, trace_jcc hflags hno, trace_jcc hflags hno, ih hrest]
  | case4 x xs m hjmp hjcc ih =>
      obtain ⟨m₂, hstep, hrest⟩ := Option.bind_eq_some_iff.mp h
      rw [List.cons_append, trace_cons hstep, trace_cons hstep, ih m₂ hrest, List.append_assoc]

/-- `Performs xs m t Q`: the code runs to its end with the accesses `t`, and there `Q` holds. -/
def Performs (xs : List Instr) (m : Machine) (t : List Access) (Q : Machine → Prop) : Prop :=
  trace xs m = t ∧ Achieves xs m Q

namespace Performs

variable {P Q : Machine → Prop}

theorem nil (h : Q m) : Performs [] m [] Q :=
  ⟨rfl, .nil h⟩

theorem mono (h : Performs xs m t P) (hPQ : ∀ m', P m' → Q m') : Performs xs m t Q :=
  ⟨h.1, h.2.mono hPQ⟩

theorem append (h : Performs xs m t P) (h' : ∀ m', P m' → Performs ys m' t' Q) :
    Performs (xs ++ ys) m (t ++ t') Q := by
  obtain ⟨rfl, m', hexec, hP⟩ := h
  obtain ⟨rfl, m'', hexec', hQ⟩ := h' m' hP
  exact ⟨trace_append hexec, m'', (exec_append hexec).trans hexec', hQ⟩

end Performs

/-- An instruction that is not a jump makes its accesses. -/
theorem trace_single (hx : x.jump? = none) : trace [x] m = x.accesses m := by
  have hrest : (x.step? m).elim [] (trace []) = [] := by
    cases x.step? m <;> rfl
  cases x with
  | jmp | jcc => cases hx
  | _ => rw [trace, hrest, List.append_nil]; exact nofun

theorem Achieves.performs {Q : Machine → Prop} (h : Achieves [x] m Q) (hx : x.jump? = none) :
    Performs [x] m (x.accesses m) Q :=
  ⟨trace_single hx, h⟩

/-! ### What is not accessed -/

/-- The byte is one of those that are accessed. -/
def Access.Covers (b : Access) (a : BitVec 64) : Prop :=
  (a - b.address).toNat < b.width.bytes

/-- `Machine.Follows S mem m n`: the machines are the same up to their memory. On the bytes in `S`
that is the same, too, and on the others the second has the memory `mem`. -/
structure Machine.Follows (S : BitVec 64 → Prop) (mem : Memory) (m n : Machine) : Prop where
  regs : n.regs = m.regs
  flags : n.flags = m.flags
  symbols : n.symbols = m.symbols
  inside : ∀ a, S a → n.mem a = m.mem a
  outside : ∀ a, ¬ S a → n.mem a = mem a

namespace Machine.Follows

variable {S : BitVec 64 → Prop} {mem : Memory} {m n : Machine} {op : Operand} {w : Width}
  {a : BitVec 64}

theorem setReg (h : Follows S mem m n) (r : Reg) (v : BitVec w.bits) :
    Follows S mem (m.setReg r w v) (n.setReg r w v) where
  regs := by simp only [Machine.setReg, h.regs]
  flags := h.flags
  symbols := h.symbols
  inside := h.inside
  outside := h.outside

theorem setFlags (h : Follows S mem m n) (flags : Option Flags) :
    Follows S mem { m with flags := flags } { n with flags := flags } :=
  ⟨h.regs, rfl, h.symbols, h.inside, h.outside⟩

theorem store (h : Follows S mem m n) (ha : ∀ x, (⟨a, w⟩ : Access).Covers x → S x)
    (v : BitVec w.bits) : Follows S mem (m.store a w v) (n.store a w v) where
  regs := h.regs
  flags := h.flags
  symbols := h.symbols
  inside x hx := by
    simp only [Machine.store, Memory.store]
    split
    next => rfl
    next => exact h.inside x hx
  outside x hx := by
    refine (Memory.store_of_le ?_).trans (h.outside x hx)
    exact Nat.le_of_not_lt fun hlt => hx (ha x hlt)

/-- Values that are accessed are the same. -/
theorem load (h : Follows S mem m n) (ha : ∀ x, (⟨a, w⟩ : Access).Covers x → S x) :
    n.mem.load a w.bytes = m.mem.load a w.bytes := by
  refine Memory.load_congr fun k hk => h.inside _ (ha _ ?_)
  have hbytes := w.bytes_le
  rw [slotSize] at hbytes
  rw [Access.Covers, Memory.toNat_add_sub_self a (by omega)]
  exact hk

theorem reg (h : Follows S mem m n) (r : Reg) : n.reg r w = m.reg r w := by
  rw [Machine.reg, Machine.reg, h.regs]

theorem addressOf (h : Follows S mem m n) (op : Operand) : n.addressOf op = m.addressOf op := by
  cases op with
  | mem o base disp => simp only [Machine.addressOf, address, h.regs]
  | rip label => simp only [Machine.addressOf, h.symbols]
  | reg _ _ | imm _ => rfl

/-- Operands have the same values. -/
theorem read (h : Follows S mem m n) (hw : op.imm?.isSome ∨ op.width? = some w)
    (hS : ∀ b ∈ m.access? op, ∀ x, b.Covers x → S x) : n.read w op = m.read w op := by
  cases op with
  | reg r w' => exact h.reg r
  | imm v => rfl
  | mem o base disp =>
      obtain rfl : o = some w := by simpa using hw
      change n.mem.load (n.addressOf _) w.bytes = m.mem.load (m.addressOf _) w.bytes
      rw [h.addressOf]
      exact h.load (hS _ rfl)
  | rip label => simp at hw

/-- Operands are written in the same way. -/
theorem write (h : Follows S mem m n) (hw : op.width? = some w)
    (hS : ∀ b ∈ m.access? op, ∀ x, b.Covers x → S x) (v : BitVec w.bits) :
    Follows S mem (m.write w v op) (n.write w v op) := by
  cases op with
  | reg r w' => exact h.setReg r v
  | imm v => exact h
  | mem o base disp =>
      obtain rfl : o = some w := hw
      change Follows S mem (m.store (m.addressOf _) w v) (n.store (n.addressOf _) w v)
      rw [h.addressOf]
      exact h.store (hS _ rfl) v
  | rip label => cases hw

theorem push (h : Follows S mem m n) (hS : ∀ x, (⟨m.regs .rsp - 8, .qword⟩ : Access).Covers x → S x)
    (v : BitVec 64) : Follows S mem (m.push v) (n.push v) := by
  rw [Machine.push, Machine.push, h.regs]
  exact (h.store hS v).setReg .rsp _

theorem pop (h : Follows S mem m n) (hS : ∀ x, (⟨m.regs .rsp, .qword⟩ : Access).Covers x → S x) :
    n.pop.1 = m.pop.1 ∧ Follows S mem m.pop.2 n.pop.2 := by
  rw [Machine.pop, Machine.pop, h.regs]
  exact ⟨h.load (w := .qword) hS, h.setReg .rsp _⟩

theorem divide? {m' : Machine} {signed : Bool} {divisor : BitVec w.bits} (h : Follows S mem m n)
    (hm : m.divide? signed w divisor = some m') :
    ∃ n', n.divide? signed w divisor = some n' ∧ Follows S mem m' n' := by
  simp only [Machine.divide?, h.reg, Option.ite_none_left_eq_some] at hm ⊢
  obtain ⟨hfits, ⟨⟩⟩ := hm
  exact ⟨_, ⟨hfits, rfl⟩, ((h.setReg .rax _).setReg .rdx _).setFlags none⟩

end Machine.Follows

namespace Operand

variable {dst src : Operand} {w : Width}

/-- What is combined with a destination is a constant or has its width. -/
theorem width?_of_agrees (h : dst.agrees src = true) (hw : dst.width? = some w) :
    src.imm?.isSome = true ∨ src.width? = some w := by
  rw [agrees, hw, Bool.and_eq_true, Bool.or_eq_true, beq_iff_eq] at h
  exact h.2.imp_right Eq.symm

theorem eq_reg_of_isRegAt (h : dst.isRegAt w = true) : ∃ r, dst = .reg r w := by
  cases dst <;> simp_all

end Operand

variable {S : BitVec 64 → Prop} {mem : Memory} {m' n : Machine}

/-- **Steps.** An instruction depends on what it accesses, and changes nothing else. -/
theorem Instr.step?_follows (h : m.Follows S mem n)
    (hS : ∀ b ∈ x.accesses m, ∀ a, b.Covers a → S a) (hstep : x.step? m = some m') :
    ∃ n', x.step? n = some n' ∧ m'.Follows S mem n' := by
  rw [step?] at hstep
  split at hstep
  next hx =>
    rw [step?_eq hx]
    have hop : ∀ op ∈ x.operands, ∀ b ∈ m.access? op, ∀ a, b.Covers a → S a :=
      fun op hop b hb => hS b (List.mem_append_left _ (List.mem_filterMap.mpr ⟨op, hop, hb⟩))
    have hstack : ∀ b ∈ x.stackAccess? m, ∀ a, b.Covers a → S a :=
      fun b hb => hS b (List.mem_append_right _ (Option.mem_toList.mpr hb))
    have hform := hx.form
    cases x with
    | jmp _ | jcc _ _ | call _ | ret => cases hstep
    | mov dst src =>
        obtain ⟨w, hw, ⟨⟩⟩ := Option.bind_eq_some_iff.mp hstep
        have hread := h.read (Operand.width?_of_agrees hform hw) (hop src (by simp))
        refine ⟨_, ?_, h.write hw (hop dst (by simp)) _⟩
        rw [effect?, hw, ← hread]
        rfl
    | movsx dst src =>
        obtain ⟨w, hw, ⟨⟩⟩ := Option.bind_eq_some_iff.mp hstep
        have hread := h.read (.inr hw) (hop src (by simp))
        rw [hasForm, Bool.and_eq_true] at hform
        obtain ⟨r, rfl⟩ := Operand.eq_reg_of_isRegAt hform.1
        refine ⟨_, ?_, h.setReg r _⟩
        rw [effect?, hw, ← hread]
        rfl
    | movzx dst src =>
        obtain ⟨w, hw, ⟨⟩⟩ := Option.bind_eq_some_iff.mp hstep
        have hread := h.read (.inr hw) (hop src (by simp))
        rw [hasForm, Bool.and_eq_true] at hform
        obtain ⟨r, rfl⟩ := Operand.eq_reg_of_isRegAt hform.1
        refine ⟨_, ?_, h.setReg r _⟩
        rw [effect?, hw, ← hread]
        rfl
    | lea dst src =>
        obtain ⟨⟩ := hstep
        rw [hasForm, Bool.and_eq_true] at hform
        obtain ⟨r, rfl⟩ := Operand.eq_reg_of_isRegAt hform.1
        refine ⟨_, ?_, h.setReg r _⟩
        rw [effect?, h.addressOf]
        rfl
    | push src =>
        obtain ⟨⟩ := hstep
        have hwidth : src.imm?.isSome = true ∨ src.width? = some .qword := by
          rw [hasForm, Bool.or_eq_true] at hform
          obtain hreg | himm := hform
          · obtain ⟨r, rfl⟩ := Operand.eq_reg_of_isRegAt hreg
            exact .inr rfl
          · exact .inl himm
        have hread := h.read hwidth (hop src (by simp))
        refine ⟨_, ?_, h.push (hstack _ rfl) _⟩
        rw [effect?, ← hread]
    | pop dst =>
        obtain ⟨⟩ := hstep
        obtain ⟨r, rfl⟩ := Operand.eq_reg_of_isRegAt hform
        obtain ⟨hvalue, hrest⟩ := h.pop (hstack _ rfl)
        refine ⟨_, ?_, hrest.setReg r _⟩
        rw [effect?, hvalue]
        rfl
    | alu op dst src =>
        obtain ⟨w, hw, ⟨⟩⟩ := Option.bind_eq_some_iff.mp hstep
        rw [hasForm, Bool.and_eq_true] at hform
        have hleft := h.read (.inr hw) (hop dst (by simp))
        have hright := h.read (Operand.width?_of_agrees hform.1 hw) (hop src (by simp))
        refine ⟨_, ?_, (h.write hw (hop dst (by simp)) _).setFlags none⟩
        rw [effect?, hw, ← hleft, ← hright]
        rfl
    | imul3 dst src factor =>
        obtain ⟨w, hw, ⟨⟩⟩ := Option.bind_eq_some_iff.mp hstep
        rw [hasForm, Bool.and_eq_true] at hform
        have hleft := h.read (Operand.width?_of_agrees hform.1 hw) (hop src (by simp))
        refine ⟨_, ?_, (h.write hw (hop dst (by simp)) _).setFlags none⟩
        rw [effect?, hw, ← hleft]
        rfl
    | neg dst =>
        obtain ⟨w, hw, ⟨⟩⟩ := Option.bind_eq_some_iff.mp hstep
        have hread := h.read (.inr hw) (hop dst (by simp))
        refine ⟨_, ?_, (h.write hw (hop dst (by simp)) _).setFlags none⟩
        rw [effect?, hw, ← hread]
        rfl
    | not dst =>
        obtain ⟨w, hw, ⟨⟩⟩ := Option.bind_eq_some_iff.mp hstep
        have hread := h.read (.inr hw) (hop dst (by simp))
        refine ⟨_, ?_, h.write hw (hop dst (by simp)) _⟩
        rw [effect?, hw, ← hread]
        rfl
    | cdq =>
        obtain ⟨⟩ := hstep
        refine ⟨_, ?_, h.setReg .rdx _⟩
        rw [effect?, h.reg]
    | cqo =>
        obtain ⟨⟩ := hstep
        refine ⟨_, ?_, h.setReg .rdx _⟩
        rw [effect?, h.reg]
    | idiv src =>
        obtain ⟨w, hw, hdivide⟩ := Option.bind_eq_some_iff.mp hstep
        have hread := h.read (.inr hw) (hop src (by simp))
        obtain ⟨n', hn', hfollows⟩ := h.divide? hdivide
        refine ⟨n', ?_, hfollows⟩
        rw [effect?, hw, ← hn', ← hread]
        rfl
    | div src =>
        obtain ⟨w, hw, hdivide⟩ := Option.bind_eq_some_iff.mp hstep
        have hread := h.read (.inr hw) (hop src (by simp))
        obtain ⟨n', hn', hfollows⟩ := h.divide? hdivide
        refine ⟨n', ?_, hfollows⟩
        rw [effect?, hw, ← hn', ← hread]
        rfl
    | cmp left right =>
        obtain ⟨w, hw, ⟨⟩⟩ := Option.bind_eq_some_iff.mp hstep
        have hleft := h.read (.inr hw) (hop left (by simp))
        have hright := h.read (Operand.width?_of_agrees hform hw) (hop right (by simp))
        refine ⟨_, ?_, h.setFlags _⟩
        rw [effect?, hw, ← hleft, ← hright]
        rfl
    | leave =>
        obtain ⟨⟩ := hstep
        have hmoved := h.setReg (w := .qword) .rsp (m.regs .rbp)
        obtain ⟨hvalue, hrest⟩ := hmoved.pop (hstack _ rfl)
        refine ⟨_, ?_, hrest.setReg .rbp _⟩
        rw [effect?, h.regs, hvalue]
  next => cases hstep

/-- **Accesses.** A run depends on what it accesses, and changes nothing else: from any other
machine that has the same in these bytes, the code runs in the same way, and leaves the other bytes
as they are there. -/
theorem exec_follows {j : Option String} (h : m.Follows S mem n)
    (hS : ∀ b ∈ trace xs m, ∀ a, b.Covers a → S a) (hexec : exec xs m = some (m', j)) :
    ∃ n', exec xs n = some (n', j) ∧ m'.Follows S mem n' := by
  fun_induction exec xs m generalizing n with
  | case1 m =>
      obtain ⟨⟩ := hexec
      exact ⟨n, rfl, h⟩
  | case2 target xs m =>
      obtain ⟨⟩ := hexec
      exact ⟨n, rfl, h⟩
  | case3 cond target xs m ih =>
      obtain ⟨flags, hflags, hrest⟩ := Option.bind_eq_some_iff.mp hexec
      rw [exec, h.flags, hflags, Option.bind_eq_bind, Option.bind_some]
      split at hrest
      next htaken =>
        obtain ⟨⟩ := hrest
        exact ⟨n, if_pos htaken, h⟩
      next hno =>
        rw [trace_jcc hflags hno] at hS
        rw [if_neg hno]
        exact ih h hS hrest
  | case4 x xs m hjmp hjcc ih =>
      obtain ⟨m₁, hstep, hrest⟩ := Option.bind_eq_some_iff.mp hexec
      rw [trace_cons hstep] at hS
      obtain ⟨n₁, hstep', h₁⟩ :=
        Instr.step?_follows h (fun b hb => hS b (List.mem_append_left _ hb)) hstep
      rw [exec_cons hstep']
      exact ih m₁ h₁ (fun b hb => hS b (List.mem_append_right _ hb)) hrest

/-! ### Accesses to the frame -/

/-- The access to a place, if it is in memory. -/
def Location.accesses (loc : Location) (m : Machine) (w : Width) : List Access :=
  match loc with
  | .reg _ => []
  | .slot n => [⟨m.frameAddress n, w⟩]

/-- The access to the word of an operand, if it is kept in the frame. -/
def Frame.homeAccesses (f : Frame) (m : Machine) (op : RegIR.Operand) (w : Width) : List Access :=
  (f.locate? op).elim [] fun loc => loc.accesses m w

section Home

variable {f : Frame} {op : RegIR.Operand} {loc : Location} {w : Width} {m' : Machine}
  {rs : List Reg}

theorem Frame.homeAccesses_of_locate? (h : f.locate? op = some loc) :
    f.homeAccesses m op w = loc.accesses m w := by
  rw [homeAccesses, h, Option.elim_some]

/-- Where an operand is accessed through its place. -/
theorem Machine.toList_access?_operand (h : f.locate? op = some loc) (w : Width) :
    (m.access? (loc.operand w)).toList = loc.accesses m w := by
  cases loc with
  | reg r => rfl
  | slot n =>
      change [Access.mk (m.addressOf (.slotAt n w)) w] = _
      rw [addressOf_slotAt (Frame.slot_le h)]
      rfl

/-- The frame stays where it is. -/
theorem Frame.homeAccesses_of_sameBut (h : m.SameBut rs m') (hrs : .rbp ∉ rs) :
    f.homeAccesses m' op w = f.homeAccesses m op w := by
  have hframe : ∀ loc : Location, loc.accesses m' w = loc.accesses m w := by
    intro loc
    cases loc with
    | reg r => rfl
    | slot n =>
        rw [Location.accesses, Location.accesses, Machine.frameAddress, Machine.frameAddress,
          h.regs .rbp hrs]
  simp only [homeAccesses, hframe]

end Home

end X86

end RegIR
