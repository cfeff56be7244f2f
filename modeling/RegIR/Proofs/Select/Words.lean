import RegIR.Proofs.Select.Values

/-!
# Addresses as values

Pointers, indices and arguments of calls may be addresses: the value of a stack slot or of a string
constant is where it is. So every operand that can be loaded stands for a word of 64 bits, and an
instruction of a smaller width uses its low bits.

## Conventions

*Slots.* A slot is as many bytes below the frame pointer as its offset says. An offset is read as a
signed word; inside a frame it is not negative. The one word without a negative has no address.

## Main definitions

* `X86.Frame.word?`: the word that an operand stands for.
* `X86.Frame.address?`: where a pointer points.

## Main results

* `X86.Frame.word?_of_sameBut`, `X86.Frame.word?_of_sameAbove`: when it stays the same.
* `Scope.loadWord_achieves`, `Scope.loadQword_achieves`: operands are loaded.
-/

namespace RegIR

open X86

/-- If the operand is a slot, it is within reach of a displacement. -/
def Operand.InReach (op : Operand) : Prop :=
  ∀ name offset, op = .slot name offset → offset.toNat ≤ 0x7fffffff

namespace X86

/-- Where a stack slot is. -/
def Machine.slotAddress (m : Machine) (offset : UInt32) : BitVec 64 :=
  m.regs .rbp - BitVec.ofInt 64 offset.toInt32.toInt

/-- The slots of a frame are below the frame pointer. -/
theorem Machine.slotAddress_eq {m : Machine} {offset : UInt32} (h : offset.toNat ≤ maxFrameSize) :
    m.slotAddress offset = m.frameAddress offset := by
  rw [maxFrameSize] at h
  rw [slotAddress, toInt_toInt32 (by omega), BitVec.ofInt_natCast, frameAddress]

/-- Where a displacement from the frame pointer leads. -/
theorem Machine.address_rbp {m : Machine} {offset : UInt32} {disp : Int32}
    (h : disp.toInt = -offset.toInt32.toInt) : m.address .rbp disp = m.slotAddress offset := by
  have hdisp : disp.toBitVec.signExtend 64 = BitVec.ofInt 64 (-offset.toInt32.toInt) :=
    congrArg (BitVec.ofInt 64) h
  rw [address, slotAddress, hdisp, BitVec.ofInt_neg, BitVec.sub_eq_add_neg]

/-- A whole register that is known at its width. -/
theorem Machine.regs_of_reg_qword {m : Machine} {r : Reg} {a : BitVec 64}
    (h : m.reg r .qword = a.setWidth _) : m.regs r = a :=
  (BitVec.setWidth_eq (m.regs r)).symm.trans (Eq.trans h (BitVec.setWidth_eq a))

namespace Frame

variable {f : Frame} {m m' : Machine} {op : RegIR.Operand} {a : BitVec 64} {rs : List Reg}

/-- The word that an operand stands for in a machine: the address of a slot or a string, a constant,
or what is kept somewhere. -/
def word? (f : Frame) (m : Machine) : RegIR.Operand → Option (BitVec 64)
  | .slot _ offset => if offset = 0x80000000 then none else some (m.slotAddress offset)
  | .string constant => some (m.symbols constant.name)
  | op => f.value? m op

/-- What has a value stands for its value, in any machine. -/
theorem word?_of_value? (h : f.value? m op = some a) (m' : Machine) :
    f.word? m' op = f.value? m' op := by
  cases op with
  | slot _ _ | string _ => cases h
  | imm _ | reg _ | label _ | general _ | argument _ | pointer _ => rfl

/-- What is kept somewhere stands for what is kept. -/
theorem word?_of_locate? {loc : Location} (h : f.locate? op = some loc) :
    f.word? m op = some (m.content loc) :=
  have hvalue := (value?_of_locate? h).1
  (word?_of_value? hvalue m).trans hvalue

/-- What has a word is a slot, a string or has a value. -/
theorem word?_eq_some (h : f.word? m op = some a) :
    (∃ name offset, op = .slot name offset ∧ offset ≠ 0x80000000 ∧ a = m.slotAddress offset) ∨
    (∃ constant, op = .string constant ∧ a = m.symbols constant.name) ∨
      f.value? m op = some a := by
  cases op with
  | slot name offset =>
      rw [word?] at h
      split at h
      next => cases h
      next hoffset => exact .inl ⟨name, offset, rfl, hoffset, (Option.some.inj h).symm⟩
  | string constant => exact .inr (.inl ⟨constant, rfl, (Option.some.inj h).symm⟩)
  | imm _ | reg _ | label _ | general _ | argument _ | pointer _ => exact .inr (.inr h)

/-- Where a pointer points; a constant is not a pointer. -/
def address? (f : Frame) (m : Machine) : RegIR.Operand → Option (BitVec 64)
  | .imm _ => none
  | op => f.word? m op

/-- A pointer is the address of a slot or a string, or is kept somewhere. -/
theorem address?_eq_some (h : f.address? m op = some a) :
    (∃ name offset, op = .slot name offset ∧ a = m.slotAddress offset) ∨
    (∃ constant, op = .string constant ∧ a = m.symbols constant.name) ∨
      ∃ loc, f.locate? op = some loc ∧ a = m.content loc := by
  have hword : f.word? m op = some a := by
    cases op with
    | imm _ => cases h
    | _ => exact h
  obtain ⟨name, offset, rfl, -, ha⟩ | ⟨constant, rfl, ha⟩ | hvalue := word?_eq_some hword
  · exact .inl ⟨name, offset, rfl, ha⟩
  · exact .inr (.inl ⟨constant, rfl, ha⟩)
  · obtain ⟨v, rfl, -⟩ | ⟨loc, hloc, ha⟩ := value?_eq_some hvalue
    · cases h
    · exact .inr (.inr ⟨loc, hloc, ha⟩)

/-- Words do not change as long as values, the frame pointer and the strings do not. -/
theorem word?_of_value?_imp (hvalue : ∀ a, f.value? m op = some a → f.value? m' op = some a)
    (hrbp : m'.regs .rbp = m.regs .rbp) (hsymbols : m'.symbols = m.symbols)
    (hv : f.word? m op = some a) : f.word? m' op = some a := by
  obtain ⟨name, offset, rfl, hoffset, rfl⟩ | ⟨constant, rfl, rfl⟩ | hv := word?_eq_some hv
  · rw [word?, if_neg hoffset, Machine.slotAddress, Machine.slotAddress, hrbp]
  · rw [word?, hsymbols]
  · exact (word?_of_value? hv m').trans (hvalue a hv)

theorem word?_of_sameBut (h : m.SameBut rs m') (hrs : ∀ r ∈ rs, r ∉ pinnedRegs)
    (hv : f.word? m op = some a) : f.word? m' op = some a :=
  word?_of_value?_imp (fun _ => value?_of_sameBut h hrs) (h.pinned hrs (by decide)) h.symbols hv

theorem word?_of_sameAbove {k : Nat} (h : m.SameAbove k rs m') (hclear : f.IsClear k m)
    (hrs : ∀ r ∈ rs, r = .rsp ∨ r ∉ pinnedRegs) (hv : f.word? m op = some a) :
    f.word? m' op = some a := by
  have hrbp : .rbp ∉ rs := by
    intro hmem
    obtain ⟨⟨⟩⟩ | hnot := hrs _ hmem
    exact hnot (by decide)
  exact word?_of_value?_imp (fun _ => value?_of_sameAbove h hclear hrs) (h.regs _ hrbp) h.symbols hv

end Frame

end X86

/-! ### Loads -/

namespace Scope

variable {s : Scope} {opcode : Opcode} {op : Operand} {m : X86.Machine} {w : Width} {r : Reg}
  {a : BitVec 64}

/-- The code that loads the address of a slot. -/
theorem loadInto_slot {offset : UInt32} (hoffset : offset ≠ 0x80000000) :
    ∃ disp : Int32, disp.toInt = -offset.toInt32.toInt ∧ ∀ opcode r w name,
      s.loadInto opcode r (.slot name offset) w = .ok [.lea (.qword r) (.mem none .rbp disp)] := by
  have hlow := offset.toInt32.le_toInt
  have hhigh := offset.toInt32.toInt_lt
  have hne : offset.toInt32.toInt ≠ -0x80000000 := by
    intro heq
    refine hoffset (UInt32.toBitVec_inj.mp (BitVec.eq_of_toInt_eq ?_))
    exact heq.trans (by decide)
  have hdisp : (Int32.ofInt (-offset.toInt32.toInt)).toInt = -offset.toInt32.toInt :=
    Int32.toInt_ofInt_of_le (by omega) (by omega)
  refine ⟨_, hdisp, fun opcode r w name => ?_⟩
  refine bind_eq_ok_iff.mpr ⟨.mem none .rbp _, liftM_eq_ok_iff.mpr ?_, rfl⟩
  exact bind_eq_ok_iff.mpr ⟨_, narrowSigned32_eq_ok_iff.mpr hdisp, rfl⟩

/-- An address is loaded. -/
theorem lea_achieves {src : X86.Operand} (hsrc : src.isAddress = true) :
    Achieves [.lea (.qword r) src] m fun m' =>
      m'.regs r = m.addressOf src ∧ m.SameBut [r] m' :=
  .single (Instr.encodable_lea hsrc) rfl ⟨X86.Machine.regs_setReg_qword _, .setReg⟩

/-- **Words.** The low bits of the word that an operand stands for get into a register, and nothing
else happens. -/
theorem loadWord_achieves (opcode : Opcode) (r : Reg) (w : Width)
    (hv : s.frame.word? m op = some a) :
    ∃ code, s.loadInto opcode r op w = .ok code ∧ ∀ m', s.frame.word? m' op = some a →
      Achieves code m' fun m'' => m''.reg r w = a.setWidth _ ∧ m'.SameBut [r] m'' := by
  obtain ⟨name, offset, rfl, hoffset, rfl⟩ | ⟨constant, rfl, rfl⟩ | hvalue :=
    X86.Frame.word?_eq_some hv
  -- of an address, too, an instruction uses the low bits
  · obtain ⟨disp, hdisp, hcode⟩ := loadInto_slot (s := s) hoffset
    refine ⟨_, hcode opcode r w name, fun m' hv' => ?_⟩
    rw [X86.Frame.word?, if_neg hoffset, Option.some_inj] at hv'
    rw [← hv', ← X86.Machine.address_rbp hdisp]
    exact (lea_achieves rfl).mono fun _ h => ⟨congrArg (BitVec.setWidth w.bits) h.1, h.2⟩
  · refine ⟨_, rfl, fun m' hv' => ?_⟩
    rw [← Option.some.inj hv']
    exact (lea_achieves rfl).mono fun _ h => ⟨congrArg (BitVec.setWidth w.bits) h.1, h.2⟩
  · obtain ⟨code, hcode, hrun⟩ := loadInto_achieves opcode r w hvalue
    refine ⟨code, hcode, fun m' hv' => ?_⟩
    rw [X86.Frame.word?_of_value? hvalue] at hv'
    refine (hrun m' hv').mono fun m'' hm'' => ⟨?_, hm''.2⟩
    calc m''.reg r w = (m''.reg r w.widen).setWidth w.bits :=
          (BitVec.setWidth_setWidth_of_le _ w.bits_le_widen).symm
      _ = a.setWidth w.bits := by rw [hm''.1, Operand.setWidth_extended]

/-- A whole word is loaded. -/
theorem loadQword_achieves (opcode : Opcode) (r : Reg) (hv : s.frame.word? m op = some a) :
    ∃ code, s.loadInto opcode r op .qword = .ok code ∧ ∀ m', s.frame.word? m' op = some a →
      Achieves code m' fun m'' => m''.regs r = a ∧ m'.SameBut [r] m'' := by
  obtain ⟨code, hcode, hrun⟩ := loadWord_achieves opcode r .qword hv
  exact ⟨code, hcode, fun m' hv' => (hrun m' hv').mono fun m'' hm'' =>
    ⟨X86.Machine.regs_of_reg_qword hm''.1, hm''.2⟩⟩

end Scope

end RegIR
