import RegIR.Proofs.Ty.Layout
import RegIR.Proofs.Select.Code

/-!
# The code of a memory access

Loads and stores, of values and of fields, have one shape: the address is brought into reach,
then the value is moved between memory and its place. Here the memory operand of that move is
found in the code, with its width and how far behind the pointer it lies. It never reaches
beyond the type that the instruction accesses.

## Main results

* `Scope.field_eq_ok`: a selected field lies inside its structure.
* `Scope.selectRaw_access`: the code of any memory access.
* `Scope.memoryAt_slot`: the memory operand of an access to a stack slot.
-/

namespace RegIR

open X86

/-- The pointer through which an instruction accesses memory. -/
def Instruction.pointer? (i : Instruction) : Option Operand :=
  match i.opcode with
  | .load | .structLoad | .structStore => i.src1
  | .store => i.src2
  | _ => none

/-- The operand that says where an instruction branches. -/
def Instruction.branch? (i : Instruction) : Option Operand :=
  match i.opcode with
  | .br => i.src1
  | .branch _ => i.src3
  | _ => none

/-- `Accesses op mem w code`: the code moves a value of width `w` from the memory `mem` if the
opcode is a load, and to it if it is a store. -/
def Accesses (op : Opcode) (mem : X86.Operand) (w : Width) (code : Code) : Prop :=
  match op with
  | .load | .structLoad => ∃ r after, code = Scope.loadFrom r mem w ++ after
  | .store | .structStore => ∃ before src, code = before ++ [.mov mem src]
  | _ => False

/-- The width of so many bytes. -/
theorem X86.Width.bytes_of_ofBytes? {n : Nat} {w : Width} (h : Width.ofBytes? n = some w) :
    w.bytes = n := by
  unfold ofBytes? at h
  split at h <;> cases h <;> rfl

namespace Scope

variable {s : Scope} {op : Opcode} {i : Instruction} {mem : X86.Operand} {w : Width}
  {code address : Code}

/-- An operand that must be there is there. -/
theorem required_eq_ok {o : Option Operand} {x : Operand} (h : s.required op o = .ok x) :
    o = some x := by
  cases o with
  | none => cases h
  | some y => rw [pure_eq_ok_iff.mp h]

/-- A value is as wide as its type is large. -/
theorem valueWidth_eq_ok {t : Ty} (h : s.valueWidth op t = .ok w) : w.bytes = t.size := by
  unfold valueWidth at h
  split at h
  next => cases h
  next =>
    split at h
    next w' hw =>
      obtain rfl := pure_eq_ok_iff.mp h
      exact Width.bytes_of_ofBytes? hw
    next => cases h

/-- A load starts by reading memory. -/
theorem loadToDest_eq_ok {dest : Option Operand} (h : s.loadToDest op dest mem w = .ok code) :
    ∃ r after, code = loadFrom r mem w ++ after := by
  obtain ⟨d, -, h⟩ := bind_eq_ok_iff.mp h
  obtain ⟨loc, -, h⟩ := bind_eq_ok_iff.mp h
  split at h
  next r =>
    obtain rfl := pure_eq_ok_iff.mp h
    exact ⟨r, [], (List.append_nil _).symm⟩
  next =>
    obtain ⟨after, -, h⟩ := bind_eq_ok_iff.mp h
    exact ⟨scratch, after, (pure_eq_ok_iff.mp h).symm⟩

/-- A store ends by writing memory. -/
theorem storeValue_eq_ok {value : Operand} (h : s.storeValue op mem value w = .ok code) :
    ∃ before src, code = before ++ [.mov mem src] := by
  have hscratch : ∀ {code}, (do
      return (← s.loadInto op scratch2 value w) ++ [.mov mem (.reg scratch2 w)]) =
        (.ok code : Selected Code) → ∃ before src, code = before ++ [.mov mem src] := by
    intro code h
    obtain ⟨before, -, h⟩ := bind_eq_ok_iff.mp h
    exact ⟨before, _, (pure_eq_ok_iff.mp h).symm⟩
  unfold storeValue at h
  split at h
  case h_1 =>
    split at h
    · exact ⟨[], _, (pure_eq_ok_iff.mp h).symm⟩
    · exact hscratch h
  case h_2 | h_3 =>
    obtain ⟨loc, -, h⟩ := bind_eq_ok_iff.mp h
    split at h
    · exact ⟨[], _, (pure_eq_ok_iff.mp h).symm⟩
    · exact ⟨[_], _, (pure_eq_ok_iff.mp h).symm⟩
  case h_4 => exact hscratch h

/-- An operand that cannot stand somewhere yields nothing. -/
theorem unsupported_ne_ok {α : Type} {x : Operand} {a : α} : s.unsupported op x ≠ .ok a := by
  cases x <;> exact nofun

/-- **Fields.** A selected field lies inside its structure. -/
theorem field_eq_ok {offset : Nat} (h : s.field i = .ok (offset, w)) :
    offset + w.bytes ≤ i.dataType.size := by
  obtain ⟨x, -, h⟩ := bind_eq_ok_iff.mp h
  dsimp only at h
  -- a field is only selected by a constant that is not negative
  split at h
  next v =>
    split at h
    next =>
      obtain ⟨index, -, h⟩ := bind_eq_ok_iff.mp h
      split at h
      next offset' t hoffset htype =>
        obtain ⟨w', hw, h⟩ := bind_eq_ok_iff.mp h
        obtain ⟨rfl, rfl⟩ := Prod.mk.inj (pure_eq_ok_iff.mp h)
        rw [valueWidth_eq_ok hw]
        exact Ty.fieldOffset_add_size_le hoffset htype
      next => cases h
    next =>
      obtain ⟨_, hfail, -⟩ := bind_eq_ok_iff.mp h
      exact absurd hfail unsupported_ne_ok
  next =>
    obtain ⟨_, hfail, -⟩ := bind_eq_ok_iff.mp h
    exact absurd hfail unsupported_ne_ok

/-- `s.Reaches op ptr t code`: the code brings the pointer `ptr` into reach and then moves a
value that lies, behind the pointer, inside the type `t`. -/
def Reaches (s : Scope) (op : Opcode) (ptr : Operand) (t : Ty) (code : Code) : Prop :=
  ∃ disp w address mem rest, s.memoryAt op ptr disp w = .ok (address, mem) ∧
    disp + w.bytes ≤ t.size ∧ code = address ++ rest ∧ Accesses op mem w rest

/-- The code of a load. -/
theorem load_eq_ok (hop : i.opcode = .load) (h : s.load i = .ok code) :
    ∃ ptr, i.src1 = some ptr ∧ s.Reaches i.opcode ptr i.dataType code := by
  obtain ⟨w, hw, h⟩ := bind_eq_ok_iff.mp h
  obtain ⟨ptr, hptr, h⟩ := bind_eq_ok_iff.mp h
  obtain ⟨⟨address, mem⟩, hmem, h⟩ := bind_eq_ok_iff.mp h
  obtain ⟨rest, hrest, h⟩ := bind_eq_ok_iff.mp h
  have haccess := loadToDest_eq_ok hrest
  have hbound := valueWidth_eq_ok hw
  refine ⟨ptr, required_eq_ok hptr, 0, w, address, mem, rest, hmem, by omega,
    (pure_eq_ok_iff.mp h).symm, ?_⟩
  rwa [hop]

/-- The code of a store. -/
theorem store_eq_ok (hop : i.opcode = .store) (h : s.store i = .ok code) :
    ∃ ptr, i.src2 = some ptr ∧ s.Reaches i.opcode ptr i.dataType code := by
  obtain ⟨w, hw, h⟩ := bind_eq_ok_iff.mp h
  obtain ⟨value, -, h⟩ := bind_eq_ok_iff.mp h
  obtain ⟨ptr, hptr, h⟩ := bind_eq_ok_iff.mp h
  obtain ⟨⟨address, mem⟩, hmem, h⟩ := bind_eq_ok_iff.mp h
  obtain ⟨rest, hrest, h⟩ := bind_eq_ok_iff.mp h
  have haccess := storeValue_eq_ok hrest
  have hbound := valueWidth_eq_ok hw
  refine ⟨ptr, required_eq_ok hptr, 0, w, address, mem, rest, hmem, by omega,
    (pure_eq_ok_iff.mp h).symm, ?_⟩
  rwa [hop]

/-- The code of a load of a field. -/
theorem structLoad_eq_ok (hop : i.opcode = .structLoad) (h : s.structLoad i = .ok code) :
    ∃ ptr, i.src1 = some ptr ∧ s.Reaches i.opcode ptr i.dataType code := by
  obtain ⟨⟨offset, w⟩, hfield, h⟩ := bind_eq_ok_iff.mp h
  obtain ⟨ptr, hptr, h⟩ := bind_eq_ok_iff.mp h
  obtain ⟨⟨address, mem⟩, hmem, h⟩ := bind_eq_ok_iff.mp h
  obtain ⟨rest, hrest, h⟩ := bind_eq_ok_iff.mp h
  have haccess := loadToDest_eq_ok hrest
  refine ⟨ptr, required_eq_ok hptr, offset, w, address, mem, rest, hmem, field_eq_ok hfield,
    (pure_eq_ok_iff.mp h).symm, ?_⟩
  rwa [hop]

/-- The code of a store to a field. -/
theorem structStore_eq_ok (hop : i.opcode = .structStore) (h : s.structStore i = .ok code) :
    ∃ ptr, i.src1 = some ptr ∧ s.Reaches i.opcode ptr i.dataType code := by
  obtain ⟨⟨offset, w⟩, hfield, h⟩ := bind_eq_ok_iff.mp h
  obtain ⟨ptr, hptr, h⟩ := bind_eq_ok_iff.mp h
  obtain ⟨value, -, h⟩ := bind_eq_ok_iff.mp h
  obtain ⟨⟨address, mem⟩, hmem, h⟩ := bind_eq_ok_iff.mp h
  obtain ⟨rest, hrest, h⟩ := bind_eq_ok_iff.mp h
  have haccess := storeValue_eq_ok hrest
  refine ⟨ptr, required_eq_ok hptr, offset, w, address, mem, rest, hmem, field_eq_ok hfield,
    (pure_eq_ok_iff.mp h).symm, ?_⟩
  rwa [hop]

/-- **Accesses.** The code of a memory access moves a value inside the type that is
accessed. -/
theorem selectRaw_access {ptr : Operand} {isLast : Bool} (hptr : i.pointer? = some ptr)
    (h : s.selectRaw i isLast = .ok code) : s.Reaches i.opcode ptr i.dataType code := by
  rw [Instruction.pointer?] at hptr
  rw [selectRaw] at h
  -- the pointer that the code is for is the pointer of the instruction
  have hsame : ∀ {src : Option Operand}, src = some ptr →
      (∃ ptr, src = some ptr ∧ s.Reaches i.opcode ptr i.dataType code) →
      s.Reaches i.opcode ptr i.dataType code := by
    rintro src hsrc ⟨ptr', hptr', hreaches⟩
    obtain rfl : ptr' = ptr := Option.some.inj (hptr'.symm.trans hsrc)
    exact hreaches
  split at hptr
  next hop =>
    rw [hop] at h
    exact hsame hptr (load_eq_ok hop h)
  next hop =>
    rw [hop] at h
    exact hsame hptr (structLoad_eq_ok hop h)
  next hop =>
    rw [hop] at h
    exact hsame hptr (structStore_eq_ok hop h)
  next hop =>
    rw [hop] at h
    exact hsame hptr (store_eq_ok hop h)
  next => cases hptr

/-- The memory behind a stack slot is at the frame pointer. -/
theorem memoryAt_slot {name : RegName} {offset : UInt32} {disp : Nat}
    (h : s.memoryAt op (.slot name offset) disp w = .ok (address, mem)) :
    address = [] ∧ ∃ place : Int32, mem = .deref .rbp place w ∧
      place.toInt = (Int32.ofNat disp).toInt - offset.toInt32.toInt := by
  obtain ⟨place, hplace, h⟩ := bind_eq_ok_iff.mp h
  obtain ⟨rfl, rfl⟩ := Prod.mk.inj (pure_eq_ok_iff.mp h)
  refine ⟨rfl, place, rfl, ?_⟩
  exact narrowSigned32_eq_ok_iff.mp (liftM_eq_ok_iff.mp hplace)

end Scope

end RegIR
