import RegIR.Ty

/-!
# Layout of types

Sizes, alignments and field offsets under the natural layout: each element of a structure
is placed at the least multiple of its own alignment that is free, and the structure ends
at the least multiple of the largest alignment that holds them all. Sizes are exact
natural numbers. Storage checks the offsets of its slots, which it keeps in words; selection
takes sizes and offsets as they are (see `RegIR.Select.Memory`).

## Main definitions

* `alignUp n a`: the least multiple of `a` that is at least `n`.
* `Ty.size`, `Ty.alignment`: in bytes.
* `Ty.fieldOffset?`, `Ty.fieldType?`: the place and type of an element of a structure.
-/

namespace RegIR

/-- The least multiple of `a` that is at least `n`; any number is a multiple of the
trivial alignments `0` and `1`. -/
def alignUp (n a : Nat) : Nat :=
  if a ≤ 1 then n else (n + (a - 1)) / a * a

namespace Ty

mutual

/-- The natural alignment in bytes: a scalar is aligned to its size, a structure to the
largest alignment among its elements. -/
def alignment : Ty → Nat
  | void => 1
  | i8 => 1
  | i16 => 2
  | i32 | f32 => 4
  | i64 | f64 | pointer _ => 8
  | struct _ elements => maxAlignment elements

/-- The largest alignment in a list of elements, `1` if there are none. -/
def maxAlignment : List Ty → Nat
  | [] => 1
  | e :: es => max e.alignment (maxAlignment es)

end

mutual

/-- The size in bytes. A structure is padded at the end to a multiple of its alignment, so
that an array of them keeps every element aligned. -/
def size : Ty → Nat
  | void => 0
  | i8 => 1
  | i16 => 2
  | i32 | f32 => 4
  | i64 | f64 | pointer _ => 8
  | struct _ elements => alignUp (extent 0 elements) (maxAlignment elements)

/-- Where a run of elements ends, if the bytes below `start` are taken. -/
def extent (start : Nat) : List Ty → Nat
  | [] => start
  | e :: es => extent (alignUp start e.alignment + e.size) es

end

/-- The byte offset of element `index` of a structure. -/
def fieldOffset? (t : Ty) (index : Nat) : Option Nat :=
  match t with
  | struct _ elements =>
      elements[index]?.map fun e => alignUp (extent 0 (elements.take index)) e.alignment
  | _ => none

/-- The type of element `index` of a structure. -/
def fieldType? (t : Ty) (index : Nat) : Option Ty :=
  match t with
  | struct _ elements => elements[index]?
  | _ => none

end Ty

end RegIR
