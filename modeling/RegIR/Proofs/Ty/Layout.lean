import Mathlib.Order.Bounds.Basic
import RegIR.Ty.Layout

/-!
# Fields lie inside their structure

The elements of a structure are placed one after the other, each from the first aligned
offset at which the bytes before it end. So an element ends before the next one begins, and
all of them before the structure does.

## Main results

* `isLeast_alignUp`: rounding up gives the least multiple that is large enough.
* `Ty.extent_eq_of_getElem?`: the extent of the elements, split at one of them.
* `Ty.fieldOffset_add_size_le`: a field ends inside its structure.
-/

namespace RegIR

/-- Rounding up never goes below. -/
theorem le_alignUp (n a : Nat) : n ≤ alignUp n a := by
  rw [alignUp]
  split
  next => exact Nat.le_refl n
  next ha =>
    have hpos : 0 < a := by omega
    have hlt : n + (a - 1) < (n + (a - 1)) / a * a + a := Nat.lt_div_mul_add hpos
    omega

/-- Rounding up gives a multiple. -/
theorem dvd_alignUp (n : Nat) {a : Nat} (ha : 0 < a) : a ∣ alignUp n a := by
  rw [alignUp]
  split
  next hle =>
    obtain rfl : a = 1 := by omega
    exact Nat.one_dvd n
  next => exact Nat.dvd_mul_left _ _

/-- Rounding up goes no further than to a multiple. -/
theorem alignUp_le {n a m : Nat} (hdvd : a ∣ m) (hle : n ≤ m) : alignUp n a ≤ m := by
  rw [alignUp]
  split
  next => exact hle
  next ha =>
    obtain ⟨k, rfl⟩ := hdvd
    have hlt : n + (a - 1) < a * (k + 1) := by
      rw [Nat.mul_add, Nat.mul_one]
      omega
    have hquot : (n + (a - 1)) / a ≤ k := Nat.lt_succ_iff.mp (Nat.div_lt_of_lt_mul hlt)
    calc (n + (a - 1)) / a * a ≤ k * a := Nat.mul_le_mul_right a hquot
      _ = a * k := Nat.mul_comm k a

/-- **Rounding up** gives the least multiple that is large enough. -/
theorem isLeast_alignUp (n : Nat) {a : Nat} (ha : 0 < a) :
    IsLeast {m | a ∣ m ∧ n ≤ m} (alignUp n a) :=
  ⟨⟨dvd_alignUp n ha, le_alignUp n a⟩, fun _ hm => alignUp_le hm.1 hm.2⟩

namespace Ty

/-- Elements are placed behind those before them. -/
theorem extent_append (start : Nat) (es fs : List Ty) :
    extent start (es ++ fs) = extent (extent start es) fs := by
  induction es generalizing start with
  | nil => simp only [List.nil_append, extent]
  | cons e es ih => simp only [List.cons_append, extent, ih]

/-- Elements end behind where they start. -/
theorem le_extent (start : Nat) (es : List Ty) : start ≤ extent start es := by
  induction es generalizing start with
  | nil => simp only [extent, Nat.le_refl]
  | cons e es ih =>
      rw [extent]
      have halign := le_alignUp start e.alignment
      have hrest := ih (alignUp start e.alignment + e.size)
      omega

/-- The elements end where those behind one of them do. -/
theorem extent_eq_of_getElem? {es : List Ty} {k : Nat} {e : Ty} (h : es[k]? = some e) :
    extent 0 es =
      extent (alignUp (extent 0 (es.take k)) e.alignment + e.size) (es.drop (k + 1)) := by
  obtain ⟨hk, rfl⟩ := List.getElem?_eq_some_iff.mp h
  calc extent 0 es
      = extent 0 (es.take k ++ es[k] :: es.drop (k + 1)) := by
        rw [← List.drop_eq_getElem_cons hk, List.take_append_drop]
    _ = extent (alignUp (extent 0 (es.take k)) es[k].alignment + es[k].size)
          (es.drop (k + 1)) := by
        rw [extent_append, extent]

/-- **Fields.** A field ends inside its structure. -/
theorem fieldOffset_add_size_le {t e : Ty} {k offset : Nat}
    (hoffset : t.fieldOffset? k = some offset) (htype : t.fieldType? k = some e) :
    offset + e.size ≤ t.size := by
  cases t with
  | struct name elements =>
      rw [fieldType?] at htype
      rw [fieldOffset?, htype] at hoffset
      obtain rfl := Option.some.inj hoffset
      rw [size]
      calc alignUp (extent 0 (elements.take k)) e.alignment + e.size
          ≤ extent 0 elements := by
            rw [extent_eq_of_getElem? htype]
            exact le_extent _ _
        _ ≤ alignUp (extent 0 elements) (maxAlignment elements) := le_alignUp _ _
  | _ => cases htype

end Ty

end RegIR
