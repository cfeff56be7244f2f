import Mathlib.Algebra.Group.Nat.Defs
import RegIR.Proofs.Select.Encoding

/-!
# The machine

What machine instructions do: to sixteen registers of 64 bits, to memory, which is made of bytes,
and to the flags. Code is run up to its end or to the first jump that is taken.

## Conventions

*Width.* A register is read at a width by its low bits. Writing 32 bits of it clears the upper half;
writing 8 or 16 leaves the rest as it was.

*Memory.* The lowest byte of a value is at the lowest address. Addresses wrap around, so that no
address is out of reach.

*Flags.* Only what a comparison leaves in the flags is known. After other arithmetic they are
unknown, and a jump that depends on them has no meaning.

*What has no meaning.* The machine has only the instructions that can be encoded. A division that
traps has no outcome, and calls and returns leave the code that is looked at.

## Main definitions

* `X86.Memory.load`, `X86.Memory.store`: values in memory.
* `X86.Machine`, `X86.Machine.read`, `X86.Machine.write`: the state, and operands in it.
* `X86.Instr.step?`: one instruction.
* `X86.exec`: code.

## Main results

* `X86.Memory.load_store`, `X86.Memory.load_store_of_apart`: a value is found where it was put, and
  others are where they were.
* `X86.Flags.zero_ofCompare`, `X86.Flags.sign_ofCompare`: the flags decide signed comparisons.
* `X86.Instr.regs_of_effect?`: an instruction leaves the registers it does not write.
* `X86.exec_append`: code is run piece by piece.
-/

namespace RegIR

namespace X86

/-! ### Memory -/

/-- Memory, byte by byte. -/
abbrev Memory := BitVec 64 → BitVec 8

namespace Memory

/-- The value of `n` bytes from an address on. -/
def load (mem : Memory) (a : BitVec 64) : (n : Nat) → BitVec (8 * n)
  | 0 => 0#0
  | n + 1 => load mem (a + 1) n ++ mem a

/-- Put a value of `n` bytes at an address. -/
def store (mem : Memory) (a : BitVec 64) (n : Nat) (v : BitVec (8 * n)) : Memory :=
  fun x => if (x - a).toNat < n then v.extractLsb' (8 * (x - a).toNat) 8 else mem x

variable {mem mem' : Memory} {a : BitVec 64} {n k : Nat}

/-- Bit by bit: eight from each byte. -/
theorem getLsbD_load (mem : Memory) (a : BitVec 64) (n k : Nat) :
    (mem.load a n).getLsbD k =
      (decide (k < 8 * n) && (mem (a + BitVec.ofNat 64 (k / 8))).getLsbD (k % 8)) := by
  induction n generalizing a k with
  | zero => simp [load]
  | succ n ih =>
      rw [load, BitVec.getLsbD_append]
      split
      next hk =>
        have hzero : k / 8 = 0 := by omega
        have hlt : k < 8 * (n + 1) := by omega
        rw [hzero, Nat.mod_eq_of_lt hk]
        simp [hlt]
      next hk =>
        have hnext : a + 1 + BitVec.ofNat 64 ((k - 8) / 8) = a + BitVec.ofNat 64 (k / 8) := by
          have hdiv : k / 8 = 1 + (k - 8) / 8 := by omega
          rw [hdiv, BitVec.ofNat_add, BitVec.add_assoc]
          rfl
        have hmod : (k - 8) % 8 = k % 8 := by omega
        have hlt : k - 8 < 8 * n ↔ k < 8 * (n + 1) := by omega
        rw [ih, hnext, hmod, decide_eq_decide.mpr hlt]

/-- Fewer bytes at the same address are the low bits of the value. -/
theorem setWidth_load (hk : k ≤ n) : (mem.load a n).setWidth (8 * k) = mem.load a k := by
  apply BitVec.eq_of_getLsbD_eq
  intro i hi
  have hlt : i < 8 * n := by omega
  rw [BitVec.getLsbD_setWidth, getLsbD_load, getLsbD_load]
  simp [hi, hlt]

/-- A value depends on its bytes alone. -/
theorem load_congr (h : ∀ k < n, mem' (a + BitVec.ofNat 64 k) = mem (a + BitVec.ofNat 64 k)) :
    mem'.load a n = mem.load a n := by
  apply BitVec.eq_of_getLsbD_eq
  intro i hi
  have hbyte : i / 8 < n := by omega
  rw [getLsbD_load, getLsbD_load, h _ hbyte]

/-- How far a byte of a value is from its address. -/
theorem toNat_add_sub_self (a : BitVec 64) (hk : k < 2 ^ 64) :
    (a + BitVec.ofNat 64 k - a).toNat = k := by
  rw [BitVec.add_comm, BitVec.add_sub_cancel, BitVec.toNat_ofNat, Nat.mod_eq_of_lt hk]

/-- A value is found where it has been put. -/
theorem load_store (hn : n ≤ 2 ^ 64) (v : BitVec (8 * n)) : (mem.store a n v).load a n = v := by
  apply BitVec.eq_of_getLsbD_eq
  intro i hi
  have hbyte : i / 8 < n := by omega
  have hbit : i % 8 < 8 := by omega
  rw [getLsbD_load, store, toNat_add_sub_self a (by omega), if_pos hbyte,
    BitVec.getLsbD_extractLsb', Nat.div_add_mod]
  simp [hi, hbit]

/-- Bytes that a value does not reach are as they were. -/
theorem store_of_le {x : BitVec 64} {v : BitVec (8 * n)} (h : n ≤ (x - a).toNat) :
    mem.store a n v x = mem x :=
  if_neg (by omega)

/-- Another value is as it was, if each of its bytes is out of reach. -/
theorem load_store_of_apart {b : BitVec 64} {v : BitVec (8 * n)}
    (h : ∀ i < k, n ≤ (b + BitVec.ofNat 64 i - a).toNat) :
    (mem.store a n v).load b k = mem.load b k :=
  load_congr fun i hi => store_of_le (h i hi)

end Memory

/-! ### Flags -/

/-- What a signed comparison leaves in the flags. -/
structure Flags where
  zero : Bool
  sign : Bool
  overflow : Bool
deriving DecidableEq, Repr

namespace Flags

/-- Compare two values by subtracting the second from the first. -/
def ofCompare {n : Nat} (a b : BitVec n) : Flags where
  zero := a - b == 0
  sign := (a - b).msb
  overflow := a.ssubOverflow b

/-- The condition of a jump, as the machine tests it. -/
def holds (f : Flags) : Cond → Bool
  | .e => f.zero
  | .ne => !f.zero
  | .l => f.sign != f.overflow
  | .ge => f.sign == f.overflow
  | .g => !f.zero && f.sign == f.overflow
  | .le => f.zero || f.sign != f.overflow

end Flags

/-! ### The state -/

namespace Width

/-- How many bits a value of a width has. -/
def bits (w : Width) : Nat :=
  8 * w.bytes

/-- A register after a value has been written into its low bits. -/
def insert (w : Width) (old : BitVec 64) (v : BitVec w.bits) : BitVec 64 :=
  match w with
  | byte | word => (old >>> w.bits <<< w.bits) ||| v.setWidth 64
  | dword | qword => v.setWidth 64

end Width

/-- The state of the machine. -/
structure Machine where
  regs : Reg → BitVec 64
  mem : Memory
  /-- The flags, if they are known. -/
  flags : Option Flags
  /-- Where labels are in memory. -/
  symbols : String → BitVec 64

namespace Machine

/-- A register at a width. -/
def reg (m : Machine) (r : Reg) (w : Width) : BitVec w.bits :=
  (m.regs r).setWidth w.bits

/-- Write a register at a width. -/
def setReg (m : Machine) (r : Reg) (w : Width) (v : BitVec w.bits) : Machine :=
  { m with regs := fun r' => if r' = r then w.insert (m.regs r) v else m.regs r' }

/-- Put a value into memory. -/
def store (m : Machine) (a : BitVec 64) (w : Width) (v : BitVec w.bits) : Machine :=
  { m with mem := m.mem.store a w.bytes v }

/-- Forget the flags. -/
def forgetFlags (m : Machine) : Machine :=
  { m with flags := none }

/-- A register plus a displacement. -/
def address (m : Machine) (base : Reg) (disp : Int32) : BitVec 64 :=
  m.regs base + disp.toBitVec.signExtend 64

/-- The address of an operand in memory. -/
def addressOf (m : Machine) : Operand → BitVec 64
  | .mem _ base disp => m.address base disp
  | .rip label => m.symbols label
  | .reg _ _ | .imm _ => 0

/-- The value of an operand at a width. -/
def read (m : Machine) (w : Width) : Operand → BitVec w.bits
  | .reg r _ => m.reg r w
  | .imm v => v.toBitVec.setWidth w.bits
  | op => m.mem.load (m.addressOf op) w.bytes

/-- Write a value of a width to an operand. -/
def write (m : Machine) (w : Width) (v : BitVec w.bits) : Operand → Machine
  | .reg r _ => m.setReg r w v
  | .imm _ => m
  | op => m.store (m.addressOf op) w v

/-- Push a whole word. -/
def push (m : Machine) (v : BitVec 64) : Machine :=
  (m.store (m.regs .rsp - 8) .qword v).setReg .rsp .qword (m.regs .rsp - 8#64)

/-- Pop a whole word. -/
def pop (m : Machine) : BitVec 64 × Machine :=
  (m.mem.load (m.regs .rsp) 8, m.setReg .rsp .qword (m.regs .rsp + 8#64))

/-- Divide `rdx:rax` at a width, if the quotient exists and fits. -/
def divide? (m : Machine) (signed : Bool) (w : Width) (divisor : BitVec w.bits) : Option Machine :=
  let dividend := m.reg .rdx w ++ m.reg .rax w
  let n := if signed then dividend.toInt else dividend.toNat
  let d := if signed then divisor.toInt else divisor.toNat
  let quotient := BitVec.ofInt w.bits (n.tdiv d)
  if d = 0 ∨ (if signed then quotient.toInt else quotient.toNat) ≠ n.tdiv d then
    none
  else
    some ((m.setReg .rax w quotient).setReg .rdx w (BitVec.ofInt w.bits (n.tmod d))).forgetFlags

end Machine

/-! ### Instructions -/

/-- Arithmetic on values of any width. -/
def AluOp.eval {n : Nat} (op : AluOp) (a b : BitVec n) : BitVec n :=
  match op with
  | .add => a + b
  | .sub => a - b
  | .imul => a * b
  | .and => a &&& b
  | .or => a ||| b
  | .xor => a ^^^ b

namespace Instr

/-- What an instruction does, if it is followed by the next one. -/
def effect? (x : Instr) (m : Machine) : Option Machine :=
  match x with
  | mov dst src => do
      let w ← dst.width?
      return m.write w (m.read w src) dst
  | movsx dst src => do
      let w ← src.width?
      return m.write .dword ((m.read w src).signExtend _) dst
  | movzx dst src => do
      let w ← src.width?
      return m.write .dword ((m.read w src).setWidth _) dst
  | lea dst src => some (m.write .qword (m.addressOf src) dst)
  | push src => some (m.push (m.read .qword src))
  | pop dst => some (m.pop.2.write .qword m.pop.1 dst)
  | alu op dst src => do
      let w ← dst.width?
      return (m.write w (op.eval (m.read w dst) (m.read w src)) dst).forgetFlags
  | imul3 dst src factor => do
      let w ← dst.width?
      return (m.write w (m.read w src * m.read w (.imm factor)) dst).forgetFlags
  | neg dst => do
      let w ← dst.width?
      return (m.write w (-m.read w dst) dst).forgetFlags
  | not dst => do
      let w ← dst.width?
      return m.write w (~~~m.read w dst) dst
  | cdq => some (m.setReg .rdx .dword ((m.reg .rax .dword).sshiftRight 31))
  | cqo => some (m.setReg .rdx .qword ((m.reg .rax .qword).sshiftRight 63))
  | idiv src => do
      let w ← src.width?
      m.divide? true w (m.read w src)
  | div src => do
      let w ← src.width?
      m.divide? false w (m.read w src)
  | cmp left right => do
      let w ← left.width?
      return { m with flags := some (.ofCompare (m.read w left) (m.read w right)) }
  | leave =>
      let m := m.setReg .rsp .qword (m.regs .rbp)
      some (m.pop.2.setReg .rbp .qword m.pop.1)
  | jmp _ | jcc _ _ | call _ | ret => none

/-- One instruction; the machine has no others than those that can be encoded. -/
def step? (x : Instr) (m : Machine) : Option Machine :=
  if x.Encodable then x.effect? m else none

end Instr

/-- Run code to its end, or to the first jump that is taken. -/
def exec : List Instr → Machine → Option (Machine × Option String)
  | [], m => some (m, none)
  | .jmp target :: _, m => some (m, some target)
  | .jcc cond target :: xs, m => do
      let flags ← m.flags
      if flags.holds cond then some (m, some target) else exec xs m
  | x :: xs, m => do exec xs (← x.step? m)

/-! ### Registers -/

namespace Width

/-- Nothing is wider than a register. -/
theorem bits_le (w : Width) : w.bits ≤ 64 := by
  cases w <;> decide

/-- The low bits of a register that has been written are those of the value. -/
theorem setWidth_insert (w : Width) (old : BitVec 64) (v : BitVec w.bits) :
    (w.insert old v).setWidth w.bits = v := by
  apply BitVec.eq_of_getLsbD_eq
  intro i hi
  have hi' : i < 64 := Nat.lt_of_lt_of_le hi w.bits_le
  cases w <;> simp [insert, hi, hi']

end Width

namespace Machine

variable {m : Machine} {r r' : Reg} {w : Width} {v : BitVec w.bits}

theorem regs_setReg_self : (m.setReg r w v).regs r = w.insert (m.regs r) v :=
  if_pos rfl

theorem regs_setReg_of_ne (h : r' ≠ r) : (m.setReg r w v).regs r' = m.regs r' :=
  if_neg h

/-- What has been written into a register is there. -/
theorem reg_setReg_self : (m.setReg r w v).reg r w = v := by
  rw [reg, regs_setReg_self, Width.setWidth_insert]

/-- A whole register takes the value that is written to it. -/
theorem regs_setReg_qword (v : BitVec 64) : (m.setReg r .qword v).regs r = v :=
  regs_setReg_self.trans (BitVec.setWidth_eq v)

/-- Where the stack pointer is after a push. -/
theorem rsp_push (v : BitVec 64) : (m.push v).regs .rsp = m.regs .rsp - 8 :=
  regs_setReg_qword (m := m.store _ .qword v) _

/-- An operand that is not the register leaves it as it was. -/
theorem regs_write_of_reg?_ne {op : Operand} (h : op.reg? ≠ some r) :
    (m.write w v op).regs r = m.regs r := by
  cases op with
  | reg r' w' => exact regs_setReg_of_ne fun heq => h (congrArg some heq.symm)
  | imm | mem | rip => rfl

/-- A division writes two registers. -/
theorem regs_divide? {m' : Machine} {signed : Bool} (h : m.divide? signed w v = some m')
    (hrax : r ≠ .rax) (hrdx : r ≠ .rdx) : m'.regs r = m.regs r := by
  obtain ⟨-, hm⟩ := Option.ite_none_left_eq_some.mp h
  obtain rfl := Option.some.inj hm
  exact (regs_setReg_of_ne hrdx).trans (regs_setReg_of_ne hrax)

end Machine

/-- **What is not written** is as it was. -/
theorem Instr.regs_of_effect? {x : Instr} {m m' : Machine} {r : Reg} (h : x.effect? m = some m')
    (hr : r ∉ x.writes) : m'.regs r = m.regs r := by
  rw [Instr.mem_writes, not_or] at hr
  obtain ⟨hdst, hr⟩ := hr
  have himplicit : ∀ r' ∈ x.implicitWrites, r ≠ r' := fun r' hr' heq => hr (heq ▸ hr')
  have hwrite : ∀ {w : Width} {v : BitVec w.bits} {op : Operand} (m : Machine),
      x.dst? = some op → (m.write w v op).regs r = m.regs r := by
    intro w v op m hop
    refine Machine.regs_write_of_reg?_ne fun hreg => ?_
    cases op with
    | reg r' w' =>
        obtain rfl := Option.some.inj hreg
        exact hdst ⟨w', hop⟩
    | imm | mem | rip => cases hreg
  cases x with
  | mov dst src | movsx dst src | movzx dst src | alu op dst src | imul3 dst src factor
  | neg dst | not dst =>
      obtain ⟨w, -, hm⟩ := Option.bind_eq_some_iff.mp h
      obtain rfl := Option.some.inj hm
      exact hwrite m rfl
  | lea dst src =>
      obtain rfl := Option.some.inj h
      exact hwrite m rfl
  | push src | cdq | cqo =>
      obtain rfl := Option.some.inj h
      exact Machine.regs_setReg_of_ne (himplicit _ List.mem_cons_self)
  | pop dst =>
      obtain rfl := Option.some.inj h
      exact (hwrite m.pop.2 rfl).trans
        (Machine.regs_setReg_of_ne (himplicit _ List.mem_cons_self))
  | idiv src | div src =>
      obtain ⟨w, -, hm⟩ := Option.bind_eq_some_iff.mp h
      have hne : ∀ r' ∈ [Reg.rax, .rdx], r ≠ r' := himplicit
      exact Machine.regs_divide? hm (hne _ (by simp)) (hne _ (by simp))
  | cmp left right =>
      obtain ⟨w, -, hm⟩ := Option.bind_eq_some_iff.mp h
      obtain rfl := Option.some.inj hm
      rfl
  | leave =>
      obtain rfl := Option.some.inj h
      have hne : ∀ r' ∈ [Reg.rsp, .rbp], r ≠ r' := himplicit
      refine (Machine.regs_setReg_of_ne (hne _ (by simp))).trans ?_
      refine (Machine.regs_setReg_of_ne (hne _ (by simp))).trans ?_
      exact Machine.regs_setReg_of_ne (hne _ (by simp))
  | jmp | jcc | call | ret => cases h

/-! ### Comparisons -/

namespace Flags

variable {n : Nat} {a b : BitVec n}

/-- The difference is zero if the numbers are the same. -/
theorem zero_ofCompare : (ofCompare a b).zero = decide (a.toInt = b.toInt) := by
  rw [Bool.eq_iff_iff, decide_eq_true_iff, BitVec.toInt_inj]
  simp [ofCompare, BitVec.sub_eq_iff_eq_add]

/-- The difference has the wrong sign exactly if it overflows, and so the two flags together say
which number is smaller. -/
theorem sign_ofCompare :
    ((ofCompare a b).sign != (ofCompare a b).overflow) = decide (a.toInt < b.toInt) := by
  rw [Bool.eq_iff_iff, decide_eq_true_iff]
  change ((a - b).msb != a.ssubOverflow b) = true ↔ _
  by_cases hover : a.ssubOverflow b = true
  · have hsigns := hover
    rw [BitVec.ssubOverflow_eq] at hsigns
    rw [hover]
    simp only [BitVec.msb_eq_toInt, Bool.or_eq_true, Bool.and_eq_true, Bool.not_eq_true',
      decide_eq_true_eq, decide_eq_false_iff_not, bne_iff_ne, ne_eq] at hsigns ⊢
    omega
  · have hexact := BitVec.toInt_sub_of_not_ssubOverflow hover
    rw [Bool.not_eq_true] at hover
    rw [hover, Bool.bne_false, BitVec.msb_eq_toInt, hexact, decide_eq_true_eq]
    omega

end Flags

/-! ### Code -/

variable {x : Instr} {xs ys : List Instr} {m m₁ : Machine}

/-- An instruction that can be encoded does what it does. -/
theorem Instr.step?_eq (h : x.Encodable) : x.step? m = x.effect? m :=
  if_pos h

/-- One instruction, then the others. -/
theorem exec_cons (h : x.step? m = some m₁) : exec (x :: xs) m = exec xs m₁ := by
  have hno : ∀ y : Instr, y.effect? m = none → y.step? m = none := by
    intro y hy
    rw [Instr.step?, hy, ite_self]
  cases x with
  | jmp _ => rw [hno _ rfl] at h; cases h
  | jcc _ _ => rw [hno _ rfl] at h; cases h
  | _ => simp [exec, h]

/-- Code that runs to its end, then more code. -/
theorem exec_append (h : exec xs m = some (m₁, none)) : exec (xs ++ ys) m = exec ys m₁ := by
  fun_induction exec xs m with
  | case1 m =>
      cases h
      rfl
  | case2 target xs m => cases h
  | case3 cond target xs m ih =>
      obtain ⟨flags, hflags, hrest⟩ := Option.bind_eq_some_iff.mp h
      split at hrest
      next => cases hrest
      next hno =>
        rw [List.cons_append, exec, hflags, Option.bind_eq_bind, Option.bind_some, if_neg hno]
        exact ih hrest
  | case4 x xs m hjmp hjcc ih =>
      obtain ⟨m₂, hstep, hrest⟩ := Option.bind_eq_some_iff.mp h
      rw [List.cons_append, exec_cons hstep]
      exact ih m₂ hrest

/-- `Achieves xs m Q`: the code runs to its end, and there `Q` holds. -/
def Achieves (xs : List Instr) (m : Machine) (Q : Machine → Prop) : Prop :=
  ∃ m', exec xs m = some (m', none) ∧ Q m'

namespace Achieves

variable {P Q : Machine → Prop}

theorem nil (h : Q m) : Achieves [] m Q :=
  ⟨m, rfl, h⟩

theorem mono (h : Achieves xs m P) (hPQ : ∀ m', P m' → Q m') : Achieves xs m Q := by
  obtain ⟨m', hexec, hP⟩ := h
  exact ⟨m', hexec, hPQ m' hP⟩

theorem append (h : Achieves xs m P) (h' : ∀ m', P m' → Achieves ys m' Q) :
    Achieves (xs ++ ys) m Q := by
  obtain ⟨m', hexec, hP⟩ := h
  obtain ⟨m'', hexec', hQ⟩ := h' m' hP
  exact ⟨m'', (exec_append hexec).trans hexec', hQ⟩

/-- An instruction that can be encoded and does not jump. -/
theorem single (hx : x.Encodable) (heffect : x.effect? m = some m₁) (h : Q m₁) :
    Achieves [x] m Q :=
  ⟨m₁, exec_cons ((Instr.step?_eq hx).trans heffect), h⟩

end Achieves

end X86

end RegIR
