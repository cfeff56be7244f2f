import Mathlib.Order.CompletePartialOrder
import Mathlib.Order.Interval.Set.Disjoint
import RegIR.Proofs.Ty.Layout

/-!
# The natural layout

A structure is laid out naturally if each field stands at a multiple of its alignment, and
tightly if it stands at the first one behind the field before it. The size of the structure and
the offset of a field come from two runs over the elements, which agree: the bytes that are taken
when a field is placed are those up to the end of the field before it, and all fields end where
the structure starts its padding.

Sizes are exact. No offset and no end of a field is beyond the size of the structure, so whatever
words the size fits in are wide enough for all of them.

## Main definitions

* `Ty.HasField`: a field, with its offset and its type.
* `Ty.IsNatural`: the layout of a structure, said without the functions that compute it.

## Main results

* `Ty.alignment_mem`: the alignments there are.
* `Ty.size_eq_alignment`: scalars are as large as their alignment.
* `Ty.extent_take_succ`: what is taken once a field is placed.
* `Ty.layout_natural`: every structure is laid out naturally.
-/

namespace RegIR

namespace Ty

/-! ### Alignments -/

/-- The larger of two alignments is an alignment. -/
theorem max_mem_alignments {a b : Nat} (ha : a ∈ [1, 2, 4, 8]) (hb : b ∈ [1, 2, 4, 8]) :
    max a b ∈ [1, 2, 4, 8] := by
  rcases Nat.le_total a b with hle | hle
  · rwa [Nat.max_eq_right hle]
  · rwa [Nat.max_eq_left hle]

mutual

/-- **Alignments** are one, two, four and eight. -/
theorem alignment_mem : (t : Ty) → t.alignment ∈ [1, 2, 4, 8]
  | void | i8 | i16 | i32 | f32 | i64 | f64 | pointer _ => by simp [alignment]
  | struct _ elements => by
      rw [alignment]
      exact maxAlignment_mem elements

/-- So is the largest alignment in a list. -/
theorem maxAlignment_mem : (es : List Ty) → maxAlignment es ∈ [1, 2, 4, 8]
  | [] => by simp [maxAlignment]
  | e :: es => by
      rw [maxAlignment]
      exact max_mem_alignments (alignment_mem e) (maxAlignment_mem es)

end

/-- An alignment is positive. -/
theorem alignment_pos (t : Ty) : 0 < t.alignment := by
  have hmem := t.alignment_mem
  simp only [List.mem_cons, List.not_mem_nil, or_false] at hmem
  omega

/-- No element has a larger alignment. -/
theorem alignment_le_maxAlignment {es : List Ty} {e : Ty} (h : e ∈ es) :
    e.alignment ≤ maxAlignment es := by
  induction es with
  | nil => cases h
  | cons e' es ih =>
      rw [maxAlignment]
      obtain rfl | h := List.mem_cons.mp h
      · exact Nat.le_max_left _ _
      · exact (ih h).trans (Nat.le_max_right _ _)

/-- Some element has the largest alignment, if there are elements. -/
theorem exists_alignment_eq {es : List Ty} (h : es ≠ []) :
    ∃ e ∈ es, e.alignment = maxAlignment es := by
  induction es with
  | nil => exact absurd rfl h
  | cons e es ih =>
      rw [maxAlignment]
      rcases Nat.le_total (maxAlignment es) e.alignment with hle | hle
      · exact ⟨e, List.mem_cons_self, (Nat.max_eq_left hle).symm⟩
      · rw [Nat.max_eq_right hle]
        by_cases hes : es = []
        · -- without further elements the largest alignment is one, which is no larger than any
          subst hes
          refine ⟨e, List.mem_cons_self, Nat.le_antisymm hle ?_⟩
          exact e.alignment_pos
        · obtain ⟨e', he', heq⟩ := ih hes
          exact ⟨e', List.mem_cons_of_mem _ he', heq⟩

/-- A size is a multiple of the alignment. -/
theorem alignment_dvd_size (t : Ty) : t.alignment ∣ t.size := by
  cases t with
  | struct name elements =>
      have hpos := (struct name elements).alignment_pos
      rw [alignment] at hpos ⊢
      rw [size]
      exact dvd_alignUp _ hpos
  | _ => simp [alignment, size]

/-- A scalar is as large as its alignment. -/
theorem size_eq_alignment (t : Ty) :
    t = void ∨ (∃ name es, t = struct name es) ∨ t.size = t.alignment := by
  cases t with
  | void => exact .inl rfl
  | struct name es => exact .inr (.inl ⟨name, es, rfl⟩)
  | _ => exact .inr (.inr rfl)

/-! ### Fields -/

/-- `t.HasField i offset e`: field `i` of the structure has the type `e` and starts at the
offset. -/
structure HasField (t : Ty) (i offset : Nat) (e : Ty) : Prop where
  offset_eq : t.fieldOffset? i = some offset
  type_eq : t.fieldType? i = some e

/-- The bytes of a value that starts at an offset. -/
def bytesAt (e : Ty) (offset : Nat) : Set Nat :=
  Set.Ico offset (offset + e.size)

variable {name : String} {es : List Ty} {i j offset offset' : Nat} {e e' : Ty}

/-- A field stands at the first multiple of its alignment behind what is taken. -/
theorem hasField_iff :
    (struct name es).HasField i offset e ↔
      es[i]? = some e ∧ alignUp (extent 0 (es.take i)) e.alignment = offset := by
  constructor
  · rintro ⟨hoffset, htype⟩
    rw [fieldType?] at htype
    rw [fieldOffset?, htype] at hoffset
    exact ⟨htype, Option.some.inj hoffset⟩
  · rintro ⟨htype, rfl⟩
    refine ⟨?_, htype⟩
    rw [fieldOffset?, htype]
    rfl

/-- Once a field is placed, the bytes up to its end are taken. -/
theorem extent_take_succ (h : (struct name es).HasField i offset e) :
    extent 0 (es.take (i + 1)) = offset + e.size := by
  obtain ⟨hget, rfl⟩ := hasField_iff.mp h
  rw [List.take_add_one, hget, extent_append]
  rfl

/-- More elements take more bytes. -/
theorem extent_take_mono (es : List Ty) (h : i ≤ j) :
    extent 0 (es.take i) ≤ extent 0 (es.take j) := by
  obtain ⟨k, rfl⟩ := Nat.exists_eq_add_of_le h
  rw [List.take_add, extent_append]
  exact le_extent _ _

namespace HasField

/-- A field is aligned. -/
theorem dvd_offset (h : (struct name es).HasField i offset e) : e.alignment ∣ offset := by
  obtain ⟨-, rfl⟩ := hasField_iff.mp h
  exact dvd_alignUp _ e.alignment_pos

/-- A field stands at the first multiple of its alignment behind the field before it. -/
theorem isLeast_offset (h : (struct name es).HasField i offset e)
    (h' : (struct name es).HasField (i + 1) offset' e') :
    IsLeast {m | e'.alignment ∣ m ∧ offset + e.size ≤ m} offset' := by
  obtain ⟨-, rfl⟩ := hasField_iff.mp h'
  rw [extent_take_succ h]
  exact isLeast_alignUp _ e'.alignment_pos

/-- The structure ends at the first multiple of its alignment behind the last field. -/
theorem isLeast_size (h : (struct name es).HasField i offset e) (hlast : i + 1 = es.length) :
    IsLeast {m | (struct name es).alignment ∣ m ∧ offset + e.size ≤ m} (struct name es).size := by
  have hpos := (struct name es).alignment_pos
  rw [← extent_take_succ h, hlast, List.take_length]
  rw [alignment] at hpos ⊢
  rw [size]
  exact isLeast_alignUp _ hpos

/-- A field ends before the later ones start. -/
theorem end_le_offset (h : (struct name es).HasField i offset e)
    (h' : (struct name es).HasField j offset' e') (hlt : i < j) : offset + e.size ≤ offset' := by
  obtain ⟨-, rfl⟩ := hasField_iff.mp h'
  calc offset + e.size
      = extent 0 (es.take (i + 1)) := (extent_take_succ h).symm
    _ ≤ extent 0 (es.take j) := extent_take_mono es hlt
    _ ≤ alignUp (extent 0 (es.take j)) e'.alignment := le_alignUp _ _

/-- Fields do not overlap. -/
theorem disjoint_bytesAt (h : (struct name es).HasField i offset e)
    (h' : (struct name es).HasField j offset' e') (hne : i ≠ j) :
    Disjoint (e.bytesAt offset) (e'.bytesAt offset') := by
  rcases Nat.lt_or_gt_of_ne hne with hlt | hlt
  · have hle := h.end_le_offset h' hlt
    exact Set.Ico_disjoint_Ico_same.mono_right (Set.Ico_subset_Ico_left hle)
  · have hle := h'.end_le_offset h hlt
    exact (Set.Ico_disjoint_Ico_same.mono_right (Set.Ico_subset_Ico_left hle)).symm

end HasField

/-! ### Structures -/

/-- `t.IsNatural es`: the structure with the elements `es` is laid out naturally and without
waste. -/
structure IsNatural (t : Ty) (es : List Ty) : Prop where
  /-- The alignment is the largest one among the elements. -/
  greatest : es ≠ [] → IsGreatest {a | ∃ e ∈ es, e.alignment = a} t.alignment
  /-- Without elements there are no bytes to align. -/
  empty : es = [] → t.alignment = 1 ∧ t.size = 0
  /-- Each element is a field, and there are no other fields. -/
  types : ∀ i, t.fieldType? i = es[i]?
  placed : ∀ i, (t.fieldOffset? i).isSome ↔ i < es.length
  typed : ∀ i, (t.fieldType? i).isSome ↔ i < es.length
  /-- The fields start with the structure, -/
  first : es ≠ [] → t.fieldOffset? 0 = some 0
  /-- each at a multiple of its alignment, -/
  aligned : ∀ i offset e, t.HasField i offset e → e.alignment ∣ offset
  /-- which is the first one behind the field before it; -/
  next : ∀ i offset e offset' e', t.HasField i offset e → t.HasField (i + 1) offset' e' →
    IsLeast {m | e'.alignment ∣ m ∧ offset + e.size ≤ m} offset'
  /-- and behind the last field the structure ends as soon as its alignment allows. -/
  last : ∀ i offset e, t.HasField i offset e → i + 1 = es.length →
    IsLeast {m | t.alignment ∣ m ∧ offset + e.size ≤ m} t.size
  /-- So the fields lie inside the structure, -/
  within : ∀ i offset e, t.HasField i offset e → e.bytesAt offset ⊆ Set.Iio t.size
  /-- and they do not overlap. -/
  apart : ∀ i j offset offset' e e', i ≠ j → t.HasField i offset e → t.HasField j offset' e' →
    Disjoint (e.bytesAt offset) (e'.bytesAt offset')

/-- **The natural layout.** Alignments are one, two, four or eight and divide sizes; scalars have
the sizes listed here, and a scalar is as large as its alignment; and every structure is laid out
naturally, however deep its elements are nested. -/
theorem layout_natural :
    (∀ t : Ty, t.alignment ∈ [1, 2, 4, 8] ∧ t.alignment ∣ t.size) ∧
    [void, i8, i16, i32, i64, f32, f64].map size = [0, 1, 2, 4, 8, 4, 8] ∧
    (∀ t : Ty, (pointer t).size = 8) ∧
    (∀ t : Ty, t = void ∨ (∃ name es, t = struct name es) ∨ t.size = t.alignment) ∧
    ∀ (name : String) (es : List Ty), (struct name es).IsNatural es := by
  refine ⟨fun t => ⟨t.alignment_mem, t.alignment_dvd_size⟩, rfl, fun _ => rfl, size_eq_alignment,
    fun name es => ?_⟩
  constructor
  case greatest =>
    intro hne
    rw [alignment]
    refine ⟨exists_alignment_eq hne, ?_⟩
    rintro a ⟨e, he, rfl⟩
    exact alignment_le_maxAlignment he
  case empty =>
    rintro rfl
    exact ⟨rfl, rfl⟩
  case types => exact fun i => rfl
  case placed =>
    intro i
    rw [fieldOffset?, Option.isSome_map, isSome_getElem?]
  case typed =>
    intro i
    rw [fieldType?, isSome_getElem?]
  case first =>
    intro hne
    obtain ⟨e, es, rfl⟩ := List.exists_cons_of_ne_nil hne
    have hzero : alignUp 0 e.alignment = 0 := Nat.le_zero.mp (alignUp_le (Nat.dvd_zero _) le_rfl)
    exact congrArg some hzero
  case aligned => exact fun i offset e h => h.dvd_offset
  case next => exact fun i offset e offset' e' h h' => h.isLeast_offset h'
  case last => exact fun i offset e h hlast => h.isLeast_size hlast
  case within =>
    intro i offset e h x hx
    exact hx.2.trans_le (fieldOffset_add_size_le h.offset_eq h.type_eq)
  case apart => exact fun i j offset offset' e e' hne h h' => h.disjoint_bytesAt h' hne

example :
    (List.range 4).map (struct "s" [i8, i32, i16]).fieldOffset? = [some 0, some 4, some 8, none] ∧
      (struct "s" [i8, i32, i16]).size = 12 := by
  decide

end Ty

end RegIR
