import RegIR.Proofs.Frame.Places

/-!
# Below the frame

While the body of a function runs, the stack pointer is at the end of the frame. What is pushed
there lies below every word of the frame, so operands keep their values meanwhile. A result may be
written after the stack has been in use; then the bytes below the stack pointer are not as they
were, and all else is as if there had been no push.

## Conventions

*Below.* The bytes below the stack pointer are counted by their distance from it. Addresses wrap
around, and so the count has to be small enough not to reach the frame from the other side.

## Main definitions

* `X86.Frame.IsEntered`: the stack pointer is at the end of the frame.
* `X86.Machine.SameAbove`: machines that differ in some registers and below the stack pointer only.
* `X86.Machine.Stacked`: words have been pushed.
* `X86.Location.hold`: the whole word at a place after fewer bits have been written.
* `X86.Frame.Gives`: an operand has been given a value.

## Main results

* `X86.Machine.SameAbove.content`: places keep their content while the stack is in use.
* `X86.Machine.SameAbove.push`, `X86.Machine.Stacked.push`: one more word.
* `X86.Achieves.push`, `X86.Achieves.pop`: the instructions.
* `X86.Frame.Gives.of_write`: a result is written to its place.
-/

namespace RegIR

open X86

namespace X86.Machine

variable {f : Frame} {op : RegIR.Operand} {loc : Location} {m m' m'' : Machine} {rs rs' : List Reg}
  {k : Nat} {a : BitVec 64}

/-! ### Bytes below the stack pointer -/

/-- The byte is one of the `k` bytes below the stack pointer. -/
def IsBelow (m : Machine) (k : Nat) (a : BitVec 64) : Prop :=
  0 < (m.regs .rsp - a).toNat ∧ (m.regs .rsp - a).toNat ≤ k

/-- There is nothing among no bytes. -/
theorem not_isBelow_zero : ¬ m.IsBelow 0 a := by
  rintro ⟨hpos, hle⟩
  omega

theorem IsBelow.mono {k' : Nat} (h : m.IsBelow k a) (hk : k ≤ k') : m.IsBelow k' a :=
  ⟨h.1, h.2.trans hk⟩

/-- `m.SameAbove k rs m'`: the machines differ in the registers `rs`, in the flags and in the `k`
bytes below the stack pointer of the first at most. -/
structure SameAbove (k : Nat) (rs : List Reg) (m m' : Machine) : Prop where
  regs : ∀ r ∉ rs, m'.regs r = m.regs r
  mem : ∀ a, ¬ m.IsBelow k a → m'.mem a = m.mem a
  symbols : m'.symbols = m.symbols

/-- Nothing has been pushed. -/
theorem SameBut.sameAbove (h : m.SameBut rs m') : m.SameAbove k rs m' :=
  ⟨h.regs, fun a _ => by rw [h.mem], h.symbols⟩

end X86.Machine

namespace X86.Frame

variable {f : Frame} {op : RegIR.Operand} {m : Machine} {n : UInt32} {k : Nat}

/-- The words of operands lie inside the frame. -/
theorem slot_within (h : f.locate? op = some (.slot n)) :
    slotSize ≤ n.toNat ∧ n.toNat ≤ f.totalSize := by
  obtain ⟨-, -, hsaves, hgenerals, htotal⟩ := f.bases_le
  rw [slotSize] at htotal ⊢
  obtain ⟨i, -, hn, hle⟩ | ⟨i, -, -, hn, hle⟩ | ⟨i, -, -, hn, hle⟩ := locate?_eq_slot h <;>
  · rw [slotSize] at hn
    omega

/-- No word of an operand is among the `k` bytes below the stack pointer. -/
def IsClear (f : Frame) (k : Nat) (m : Machine) : Prop :=
  ∀ op n, f.locate? op = some (.slot n) → ∀ i < 8,
    ¬ m.IsBelow k (m.frameAddress n + BitVec.ofNat 64 i)

theorem isClear_zero (f : Frame) (m : Machine) : f.IsClear 0 m :=
  fun _ _ _ _ _ => Machine.not_isBelow_zero

theorem IsClear.mono {k' : Nat} (h : f.IsClear k m) (hk : k' ≤ k) : f.IsClear k' m :=
  fun op n hloc i hi hbelow => h op n hloc i hi (hbelow.mono hk)

/-- The stack pointer is at the end of the frame. -/
def IsEntered (f : Frame) (m : Machine) : Prop :=
  m.regs .rsp = m.regs .rbp - BitVec.ofNat 64 f.totalSize

instance (f : Frame) (m : Machine) : Decidable (f.IsEntered m) :=
  inferInstanceAs (Decidable (_ = _))

/-- What is below the end of the frame is not in the frame. -/
theorem IsEntered.isClear (h : f.IsEntered m) (hk : k + f.totalSize ≤ 2 ^ 64) : f.IsClear k m := by
  rintro op n hloc i hi ⟨hpos, hle⟩
  obtain ⟨hlow, hhigh⟩ := slot_within hloc
  have hsize := f.size_le
  rw [slotSize] at hlow
  rw [maxFrameSize] at hsize
  rw [h, Machine.frameAddress] at hpos hle
  bv_omega

end X86.Frame

namespace X86.Machine

variable {f : Frame} {op : RegIR.Operand} {loc : Location} {m m' m'' : Machine} {rs rs' : List Reg}
  {k : Nat} {a : BitVec 64}

namespace SameAbove

theorem mono {k' : Nat} (h : m.SameAbove k rs m') (hk : k ≤ k') (hrs : rs ⊆ rs') :
    m.SameAbove k' rs' m' :=
  ⟨fun r hr => h.regs r fun hmem => hr (hrs hmem), fun a ha => h.mem a fun hb => ha (hb.mono hk),
    h.symbols⟩

/-- More code that does not push. -/
theorem trans (h : m.SameAbove k rs m') (h' : m'.SameBut rs m'') : m.SameAbove k rs m'' :=
  ⟨fun r hr => (h'.regs r hr).trans (h.regs r hr), fun a ha => by rw [h'.mem, h.mem a ha],
    h'.symbols.trans h.symbols⟩

/-- **Places while the stack is in use.** A place keeps its content if its register and the frame
pointer are not touched. -/
theorem content (h : m.SameAbove k rs m') (hclear : f.IsClear k m) (hrbp : .rbp ∉ rs)
    (hloc : f.locate? op = some loc) (hreg : ∀ r, loc = .reg r → r ∉ rs) :
    m'.content loc = m.content loc := by
  cases loc with
  | reg r => exact h.regs r (hreg r rfl)
  | slot n =>
      rw [Machine.content, Machine.content, frameAddress, frameAddress, h.regs .rbp hrbp]
      exact Memory.load_congr fun i hi => h.mem _ (hclear op n hloc i hi)

end SameAbove

/-! ### Pushes -/

/-- The word that has been pushed is on the stack. -/
theorem load_push (v : BitVec 64) : (m.push v).mem.load (m.regs .rsp - 8) 8 = v :=
  Memory.load_store (n := 8) (by decide) v

/-- **Pushes.** One more word has been pushed. -/
theorem SameAbove.push (h : m.SameAbove k rs m')
    (hrsp : m'.regs .rsp = m.regs .rsp - BitVec.ofNat 64 k) (hmem : .rsp ∈ rs)
    (hk : k + 8 < 2 ^ 64) (v : BitVec 64) :
    m.SameAbove (k + 8) rs (m'.push v) where
  regs r hr := by
    have hne : r ≠ .rsp := fun heq => hr (heq ▸ hmem)
    exact (regs_setReg_of_ne hne).trans (h.regs r hr)
  mem a ha := by
    refine (Memory.store_of_le ?_).trans (h.mem a fun hb => ha (hb.mono (by omega)))
    -- the byte is above the stack pointer or far below it
    have hfar : ¬ (0 < (m.regs .rsp - a).toNat ∧ (m.regs .rsp - a).toNat ≤ k + 8) := ha
    change 8 ≤ (a - (m'.regs .rsp - 8)).toNat
    rw [hrsp]
    bv_omega
  symbols := h.symbols

/-- The first word. -/
theorem sameAbove_push (m : Machine) (v : BitVec 64) : m.SameAbove 8 [.rsp] (m.push v) :=
  (SameBut.refl _ m).sameAbove.push (BitVec.sub_zero _).symm (List.mem_singleton_self _)
    (by decide) v

end X86.Machine

/-- A register is pushed. -/
theorem X86.Achieves.push (m : X86.Machine) (r : Reg) :
    Achieves [.push (.qword r)] m (· = m.push (m.regs r)) := by
  refine .single (Scope.encodable_push r) rfl ?_
  exact congrArg m.push (BitVec.setWidth_eq (m.regs r))

/-- A register is popped. -/
theorem X86.Achieves.pop (m : X86.Machine) {r : Reg} (hr : r ≠ .rsp) :
    Achieves [.pop (.qword r)] m fun m' => m'.regs r = m.mem.load (m.regs .rsp) 8 ∧
      m'.regs .rsp = m.regs .rsp + 8 ∧ m.SameBut [r, .rsp] m' := by
  have hrsp : X86.Machine.SameBut [.rsp] m m.pop.2 := .setReg
  refine .single (Scope.encodable_pop r) rfl ⟨X86.Machine.regs_setReg_qword _, ?_, ?_⟩
  · exact (X86.Machine.regs_setReg_of_ne hr.symm).trans (X86.Machine.regs_setReg_qword _)
  · exact (hrsp.mono (by simp)).trans (X86.Machine.SameBut.setReg.mono (by simp))

/-! ### Words on the stack -/

namespace X86.Machine

variable {m m' m'' : Machine} {rs rs' : List Reg} {k : Nat} {ws : List (BitVec 64)}

/-- A word on the stack, by the number of words between it and the stack pointer. -/
def stackWord (m : Machine) (j : Nat) : BitVec 64 :=
  m.mem.load (m.regs .rsp + BitVec.ofNat 64 (8 * j)) 8

/-- The last word that has been pushed is the first one. -/
theorem stackWord_push_zero (m : Machine) (v : BitVec 64) : (m.push v).stackWord 0 = v := by
  rw [stackWord, rsp_push, Nat.mul_zero, BitVec.add_zero]
  exact load_push v

/-- The others are one word further away. -/
theorem stackWord_push_succ (m : Machine) (v : BitVec 64) {j : Nat} (hj : 8 * (j + 2) ≤ 2 ^ 64) :
    (m.push v).stackWord (j + 1) = m.stackWord j := by
  have haddress : (m.push v).regs .rsp + BitVec.ofNat 64 (8 * (j + 1)) =
      m.regs .rsp + BitVec.ofNat 64 (8 * j) := by
    rw [rsp_push]
    bv_omega
  rw [stackWord, haddress, stackWord]
  refine Memory.load_store_of_apart fun i hi => ?_
  clear haddress
  change 8 ≤ (m.regs .rsp + BitVec.ofNat 64 (8 * j) + BitVec.ofNat 64 i - (m.regs .rsp - 8)).toNat
  bv_omega

/-- `m.Stacked k rs ws m'`: the stack pointer is `k` bytes lower, and the words `ws` are on the
stack. Beside that, the machines differ in the registers `rs` and below the stack pointer only. -/
structure Stacked (k : Nat) (rs : List Reg) (ws : List (BitVec 64)) (m m' : Machine) : Prop where
  same : m.SameAbove k rs m'
  rsp : m'.regs .rsp = m.regs .rsp - BitVec.ofNat 64 k
  room : 8 * ws.length ≤ k
  words : ∀ j a, ws[j]? = some a → m'.stackWord j = a

namespace Stacked

/-- Code that neither pushes nor writes to memory. -/
theorem keep (h : m.Stacked k rs ws m') (h' : m'.SameBut rs' m'') (hrsp : .rsp ∉ rs') :
    m.Stacked k (rs ++ rs') ws m'' where
  same := (h.same.mono (Nat.le_refl k) (List.subset_append_left rs rs')).trans
    (h'.mono (List.subset_append_right rs rs'))
  rsp := (h'.regs .rsp hrsp).trans h.rsp
  room := h.room
  words j a hj := by
    rw [← h.words j a hj, stackWord, stackWord, h'.mem, h'.regs .rsp hrsp]

theorem mono (h : m.Stacked k rs ws m') (hrs : rs ⊆ rs') : m.Stacked k rs' ws m' :=
  ⟨h.same.mono (Nat.le_refl k) hrs, h.rsp, h.room, h.words⟩

/-- One more word is pushed. -/
theorem push (h : m.Stacked k rs ws m') (hrsp : .rsp ∈ rs) (hk : k + 8 < 2 ^ 64) (a : BitVec 64) :
    m.Stacked (k + 8) rs (a :: ws) (m'.push a) where
  same := h.same.push h.rsp hrsp hk a
  rsp := by
    rw [rsp_push, h.rsp]
    bv_omega
  room := by
    have hroom := h.room
    rw [List.length_cons]
    omega
  words j b hj := by
    cases j with
    | zero =>
        obtain rfl := Option.some.inj hj
        exact stackWord_push_zero m' a
    | succ j =>
        have hj : ws[j]? = some b := hj
        have hlt : j < ws.length := (List.getElem?_eq_some_iff.mp hj).1
        have hroom := h.room
        rw [stackWord_push_succ m' a (by omega)]
        exact h.words j b hj

end Stacked

end X86.Machine

/-! ### Whole words -/

namespace X86

/-- The whole word at a place after a value of a width has been written. Writing 32 bits of a
register clears the upper half; in a word of the frame the upper half stays. -/
def Location.hold (loc : Location) (w : Width) (old : BitVec 64) (v : BitVec w.bits) : BitVec 64 :=
  match loc with
  | .reg _ => w.insert old v
  | .slot _ => (old >>> w.bits <<< w.bits) ||| v.setWidth 64

/-- A value that has been put at the start of a larger one replaces its low bits. -/
theorem Memory.load_store_low {mem : Memory} {a : BitVec 64} {n : Nat} (v : BitVec (8 * n)) :
    (mem.store a n v).load a 8 = (mem.load a 8 >>> (8 * n) <<< (8 * n)) ||| v.setWidth 64 := by
  apply BitVec.eq_of_getLsbD_eq
  intro i hi
  rw [getLsbD_load, store, toNat_add_sub_self a (by omega)]
  split
  next hbyte =>
    -- a bit of the value
    have hlow : i < 8 * n := by omega
    rw [BitVec.getLsbD_extractLsb', Nat.div_add_mod]
    simp [hi, hlow, Nat.mod_lt]
  next hbyte =>
    have hhigh : ¬ i < 8 * n := by omega
    have hback : 8 * n + (i - 8 * n) = i := by omega
    rw [← getLsbD_load mem a 8 i, BitVec.getLsbD_or, BitVec.getLsbD_shiftLeft,
      BitVec.getLsbD_ushiftRight, hback, BitVec.getLsbD_setWidth,
      BitVec.getLsbD_of_ge v i (by omega)]
    simp [hi, hhigh]

/-- Where a result is written to a register, the old content does not matter. -/
theorem Location.hold_reg (r : Reg) (w : Width) (old : BitVec 64) (v : BitVec w.widen.bits) :
    (Location.reg r).hold w.widen old v = v.setWidth 64 := by
  cases w <;> rfl

variable {f : Frame} {op : RegIR.Operand} {loc : Location} {m : Machine} {w : Width}
  {v : BitVec w.bits}

/-- The whole word at a place that has been written. -/
theorem Machine.content_write (h : f.locate? op = some loc) :
    (m.write w v (loc.operand w)).content loc = loc.hold w (m.content loc) v := by
  cases loc with
  | reg r => exact regs_setReg_self
  | slot n =>
      rw [write_slot (Frame.slot_le h)]
      exact Memory.load_store_low v

end X86

/-! ### Results -/

namespace X86.Frame

/-- `f.Gives k rs dest loc w v m m'`: the operand `dest`, which is kept at `loc`, has been given the
value `v`. Beside it, the registers `rs`, the flags and the `k` bytes below the stack pointer may
have changed, and nothing else has. -/
structure Gives (f : Frame) (k : Nat) (rs : List Reg) (dest : RegIR.Operand) (loc : Location)
    (w : Width) (v : BitVec w.bits) (m m' : Machine) : Prop where
  result : (m'.content loc).setWidth w.widen.bits = v.signExtend _
  whole : m'.content loc = loc.hold w.widen (m.content loc) (v.signExtend _)
  others : ∀ op ≠ dest, ∀ loc', f.locate? op = some loc' → m'.content loc' = m.content loc'
  stack : m'.regs .rsp = m.regs .rsp ∧ m'.regs .rbp = m.regs .rbp
  regs : ∀ r ∉ rs, loc ≠ .reg r → m'.regs r = m.regs r
  mem : ∀ a, ¬ m.IsBelow k a →
    (∀ n, loc = .slot n → w.widen.bytes ≤ (a - m.frameAddress n).toNat) → m'.mem a = m.mem a
  symbols : m'.symbols = m.symbols

namespace Gives

variable {f : Frame} {k : Nat} {rs rs' : List Reg} {dest : RegIR.Operand} {loc : Location}
  {w : Width} {v : BitVec w.bits} {m m' : Machine}

/-- Without pushes it is an assignment. -/
theorem assigns (h : f.Gives 0 rs dest loc w v m m') : f.Assigns rs dest loc w v m m' where
  result := h.result
  others := h.others
  stack := h.stack
  regs := h.regs
  mem a ha := h.mem a Machine.not_isBelow_zero ha
  symbols := h.symbols

/-- **Results.** A result that has been computed in some registers and on the stack is written to
its place. It does not matter if the register of the destination was used meanwhile. -/
theorem of_write (hloc : f.locate? dest = some loc) (hsame : m.SameAbove k rs' m')
    (hclear : f.IsClear k m) (hrs' : ∀ r ∈ rs', r ∈ rs ∨ loc = .reg r)
    (hrs : ∀ r ∈ rs, r ∉ pinnedRegs) :
    f.Gives k rs dest loc w v m (m'.write w.widen (v.signExtend _) (loc.operand w.widen)) := by
  have hkept : ∀ r, r ∉ rs → loc ≠ .reg r →
      (m'.write w.widen (v.signExtend _) (loc.operand w.widen)).regs r = m.regs r := by
    intro r hr hne
    refine (Machine.regs_write_of_ne hloc hne).trans (hsame.regs r fun hmem => ?_)
    exact (hrs' r hmem).elim hr hne
  have hpointer : ∀ r ∈ pinnedRegs, r ∉ homeRegs → r ∉ rs ∧ loc ≠ .reg r := by
    intro r hpinned hhome
    refine ⟨fun hmem => hrs r hmem hpinned, ?_⟩
    rintro rfl
    exact hhome (mem_homeRegs hloc)
  have hrsp := hpointer .rsp (by decide) (by decide)
  have hrbp := hpointer .rbp (by decide) (by decide)
  have hrbp' : .rbp ∉ rs' := fun hmem => (hrs' _ hmem).elim hrbp.1 hrbp.2
  have hframe : ∀ n, m'.frameAddress n = m.frameAddress n := by
    intro n
    rw [Machine.frameAddress, Machine.frameAddress, hsame.regs .rbp hrbp']
  exact {
    result := Machine.content_write_self hloc
    whole := by
      rw [Machine.content_write hloc]
      cases loc with
      | reg r => rw [Location.hold_reg, Location.hold_reg]
      | slot n => rw [hsame.content hclear hrbp' hloc (by rintro r ⟨⟩)]
    others := by
      intro op hne loc' hloc'
      refine (Machine.content_write_of_ne hloc hloc' hne).trans ?_
      refine hsame.content hclear hrbp' hloc' ?_
      rintro r rfl hmem
      rcases hrs' r hmem with hr | rfl
      · refine hrs r hr ?_
        exact List.mem_cons_of_mem _ (List.mem_cons_of_mem _ (mem_homeRegs hloc'))
      · exact reg_ne_of_ne hloc hloc' hne rfl
    stack := ⟨hkept .rsp hrsp.1 hrsp.2, hkept .rbp hrbp.1 hrbp.2⟩
    regs := hkept
    mem := by
      intro a hbelow ha
      rw [Machine.mem_write_of_le hloc, hsame.mem a hbelow]
      intro n hn
      rw [hframe]
      exact ha n hn
    symbols := (Machine.symbols_write _).trans hsame.symbols }

end Gives

end X86.Frame

end RegIR
