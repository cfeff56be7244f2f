import RegIR.Json.Codec
import RegIR.Proofs.Json.Reading

/-!
# Reading the parts of a tree

What the readers of IR values have in common: numbers, fields of objects, arrays of values, and
members that may be left out. Each is shown to read back what is written for it, and to say no
more about a tree than it has looked at.

A tree has a depth, and a reader is told how many containers may still be opened. Only types
nest without bound, so for every other kind of value the question is whether the types in it
are read back. Both ways in which that can be known are kept together in `Faithful`: the tree
is shallow enough, or the value has been read before, from a tree that may look different.

## Main results

* `fields?_object`, `forall₂_of_fields?_obj`: the fields of an object, written and read.
* `Faithful.mapM_shallow`, `Faithful.mapM_again`: an array of values is read back.
* `optional?_ofOption`, `lookup_filter`: a value that is absent may be left out.
-/

namespace RegIR

namespace Json

/-! ### Nesting -/

mutual

/-- How many containers are open around the innermost place of a tree. -/
def depth : Json → Nat
  | arr items => itemsDepth items + 1
  | obj members => membersDepth members + 1
  | _ => 0

/-- The depth of the deepest item. -/
def itemsDepth : List Json → Nat
  | [] => 0
  | j :: js => max j.depth (itemsDepth js)

/-- The depth of the deepest member. -/
def membersDepth : List (Option String × Json) → Nat
  | [] => 0
  | (_, j) :: ms => max j.depth (membersDepth ms)

end

/-- The items of an array are less deep than it. -/
theorem depth_lt_of_mem_arr {items : List Json} {j : Json} (h : j ∈ items) :
    j.depth < (arr items).depth := by
  rw [depth, Nat.lt_succ_iff]
  induction items with
  | nil => cases h
  | cons i is ih =>
      rw [itemsDepth]
      obtain rfl | h := List.mem_cons.mp h
      · exact Nat.le_max_left ..
      · exact (ih h).trans (Nat.le_max_right ..)

/-- The values of an object are less deep than it. -/
theorem depth_lt_of_mem_object {members : List (String × Json)} {key : String} {j : Json}
    (h : (key, j) ∈ members) : j.depth < (object members).depth := by
  rw [object, depth, Nat.lt_succ_iff]
  induction members with
  | nil => cases h
  | cons m ms ih =>
      rw [List.map_cons, membersDepth]
      obtain rfl | h := List.mem_cons.mp h
      · exact Nat.le_max_left ..
      · exact (ih h).trans (Nat.le_max_right ..)

/-- A tagged value is one deeper than its data. -/
theorem depth_tagged (tag : String) (j : Json) : (tagged tag j).depth = j.depth + 1 := by
  simp [tagged, object, depth, membersDepth]

/-! ### Parts of a tree -/

@[simp] theorem string?_string (s : String) : (string s).string? = some s := rfl

@[simp] theorem array?_arr (items : List Json) : (arr items).array? = some items := rfl

@[simp] theorem bool?_bool (b : Bool) : (bool b).bool? = some b := rfl

@[simp] theorem unit?_string (s : String) : (string s).unit? = some s := rfl

@[simp] theorem word32?_ofWord32 (n : UInt32) : (ofWord32 n).word32? = some n := by
  have hn := n.toNat_lt_size
  rw [ofWord32, word32?, if_pos (by omega), Int.toNat_natCast, UInt32.ofNat_toNat]

@[simp] theorem signed64?_integer (n : Int64) : (integer n.toInt).signed64? = some n := by
  have hlow := n.le_toInt
  have hhigh := n.toInt_lt
  rw [signed64?, if_pos (by omega), Int64.ofInt_toInt]

/-- A field of an object with distinct keys. -/
theorem field?_map {members : List (String × Json)} (hnodup : (members.map Prod.fst).Nodup)
    (key : String) :
    field? (members.map fun m => (some m.1, m.2)) key = some (members.lookup key) := by
  induction members with
  | nil => rfl
  | cons m ms ih =>
      obtain ⟨k, j⟩ := m
      rw [List.map_cons, List.nodup_cons] at hnodup
      rw [field?, List.map_cons, List.lookup_cons]
      by_cases hkey : k = key
      · subst hkey
        have hrest : (ms.map fun m => (some m.1, m.2)).filter (·.1 == some k) = [] := by
          rw [List.filter_eq_nil_iff, List.forall_mem_map]
          intro m hm heq
          exact hnodup.1 (List.mem_map.mpr ⟨m, hm, by simpa using heq⟩)
        simp [hrest]
      · have hne : (some k == some key) = false := by simpa using hkey
        have hne' : (key == k) = false := by simpa using Ne.symm hkey
        rw [List.filter_cons, hne, hne', ← ih hnodup.2]
        rfl

/-- The fields of an object with distinct keys. -/
theorem fields?_object {members : List (String × Json)}
    (hnodup : (members.map Prod.fst).Nodup) (keys : List String) (spare : Nat) :
    fields? keys spare (object members) = some (keys.map fun key => members.lookup key) := by
  rw [object, fields?, if_pos (by simp)]
  induction keys with
  | nil => rfl
  | cons key keys ih => simp [List.mapM_cons, field?_map hnodup, ih]

/-- The fields that are read off an object, one for each key. -/
theorem forall₂_of_fields?_obj {keys : List String} {spare : Nat}
    {members : List (Option String × Json)} {values : List (Option Json)}
    (h : fields? keys spare (obj members) = some values) :
    List.Forall₂ (fun key value => field? members key = some value) keys values := by
  rw [fields?] at h
  split at h
  · induction keys generalizing values with
    | nil =>
        obtain rfl : [] = values := Option.some.inj h
        exact .nil
    | cons key keys ih =>
        simp only [List.mapM_cons, Option.bind_eq_bind, Option.bind_eq_some_iff, Option.pure_def,
          Option.some.injEq] at h
        obtain ⟨value, hvalue, values, hvalues, rfl⟩ := h
        exact .cons hvalue (ih hvalues)
  · cases h

/-- A key that no member has. -/
theorem field?_of_missing {members : List (Option String × Json)} {key : String}
    (h : ∀ m ∈ members, m.1 ≠ some key) : field? members key = some none := by
  have hfilter : members.filter (·.1 == some key) = [] := by
    rw [List.filter_eq_nil_iff]
    exact fun m hm heq => h m hm (by simpa using heq)
  rw [field?, hfilter]

/-- A member that is missing from an object is read as absent. -/
theorem eq_none_of_missing {α : Type} {read : Json → Option α}
    {members : List (Option String × Json)} {key : String} {value : Option Json} {a : Option α}
    (hmissing : ∀ m ∈ members, m.1 ≠ some key) (hvalue : field? members key = some value)
    (hread : optional? read value = some a) : a = none := by
  obtain rfl : none = value := Option.some.inj ((field?_of_missing hmissing).symm.trans hvalue)
  exact (Option.some.inj hread).symm

section Lists

variable {α : Type} {read : Json → Option α} {write : α → Json}

/-- A list is read back if each of its elements is. -/
theorem mapM_map_write {as : List α} (h : ∀ a ∈ as, read (write a) = some a) :
    (as.map write).mapM read = some as := by
  induction as with
  | nil => rfl
  | cons a as ih =>
      rw [List.forall_mem_cons] at h
      rw [List.map_cons, List.mapM_cons, h.1, ih h.2]
      rfl

/-- The elements of a list that has been read have been read. -/
theorem exists_of_mem_mapM {js : List Json} {as : List α} (h : js.mapM read = some as) :
    ∀ a ∈ as, ∃ j, read j = some a := by
  induction js generalizing as with
  | nil =>
      obtain rfl : [] = as := Option.some.inj h
      simp
  | cons j js ih =>
      simp only [List.mapM_cons, Option.bind_eq_bind, Option.bind_eq_some_iff, Option.pure_def,
        Option.some.injEq] at h
      obtain ⟨a, ha, as, has, rfl⟩ := h
      exact List.forall_mem_cons.mpr ⟨⟨j, ha⟩, ih has⟩

end Lists

/-! ### Faithful readers -/

/-- Values are written as plain trees and read back: where the tree is not too deep, and
where the value itself has been read from some tree. -/
structure Faithful {α : Type} (write : α → Json) (read? : Nat → Json → Option α) : Prop where
  plain : ∀ a, (write a).Plain
  shallow : ∀ {levels a}, (write a).depth ≤ levels → read? levels (write a) = some a
  again : ∀ {levels j a}, read? levels j = some a → read? levels (write a) = some a

section Faithful

variable {α : Type} {write : α → Json} {read? : Nat → Json → Option α} {as : List α}
  {levels : Nat}

/-- An array of values that are written as plain trees. -/
theorem Faithful.plain_arr (h : Faithful write read?) (as : List α) :
    (arr (as.map write)).Plain :=
  Json.plain_arr.mpr (List.forall_mem_map.mpr fun a _ => h.plain a)

/-- The items of an array in an object that is not too deep. -/
theorem Faithful.mapM_shallow (h : Faithful write read?) (key : String)
    {members : List (String × Json)} (hdepth : (object members).depth ≤ levels)
    (hmem : (key, arr (as.map write)) ∈ members) :
    (as.map write).mapM (read? (levels - 2)) = some as := by
  refine mapM_map_write fun a ha => h.shallow ?_
  have hmember := depth_lt_of_mem_object hmem
  have hitem := depth_lt_of_mem_arr (List.mem_map_of_mem (f := write) ha)
  omega

/-- The items of an array that has been read. -/
theorem Faithful.mapM_again (h : Faithful write read?) {js : List Json}
    (hread : js.mapM (read? levels) = some as) :
    (as.map write).mapM (read? levels) = some as := by
  refine mapM_map_write fun a ha => ?_
  obtain ⟨j, hj⟩ := exists_of_mem_mapM hread a ha
  exact h.again hj

end Faithful

/-! ### Members that may be left out -/

/-- A value that may be absent is read back; where it is absent it may be left out. -/
theorem optional?_ofOption {α : Type} {read : Json → Option α} {write : α → Json}
    (hread : ∀ a, read (write a) = some a) (hnull : ∀ a, write a ≠ null) {value : Option α}
    {left : Prop} [Decidable left] (hleft : left → value = none) :
    optional? read (if left then none else some (ofOption write value)) = some value := by
  split
  next h => rw [hleft h, optional?]
  next =>
    cases value with
    | none => rfl
    | some a =>
        have hvalue := hread a
        have hne := hnull a
        rw [ofOption]
        generalize write a = j at hvalue hne
        cases j with
        | null => exact absurd rfl hne
        | _ => rw [optional?, hvalue, Option.map_some]; exact nofun

theorem plain_ofOption {α : Type} {write : α → Json} (h : ∀ a, (write a).Plain)
    (value : Option α) : (ofOption write value).Plain := by
  cases value with
  | none => exact plain_null
  | some a => exact h a

/-- The object without the members of some keys. -/
def without (keys : List String) : Json → Json
  | obj members => obj (members.filter fun m => m.1.all (· ∉ keys))
  | j => j

@[simp] theorem without_nil (j : Json) : j.without [] = j := by
  cases j <;> simp [without]

theorem without_object (keys : List String) (members : List (String × Json)) :
    (object members).without keys = object (members.filter (·.1 ∉ keys)) := by
  simp [object, without, List.filter_map, Function.comp_def]

/-- A plain object is plain without some of its members. -/
theorem plain_without {members : List (String × Json)} (h : (object members).Plain)
    (keys : List String) : ((object members).without keys).Plain := by
  rw [without_object, plain_object]
  exact fun m hm => plain_object.mp h m (List.mem_of_mem_filter hm)

/-- The value of a key, if the key has not been left out. -/
theorem lookup_filter (keys : List String) (members : List (String × Json)) (key : String) :
    (members.filter (·.1 ∉ keys)).lookup key =
      if key ∈ keys then none else members.lookup key := by
  induction members with
  | nil => simp
  | cons m ms ih =>
      obtain ⟨k, j⟩ := m
      rw [List.filter_cons, List.lookup_cons]
      by_cases hkey : key = k
      · subst hkey
        split
        next hkept => rw [List.lookup_cons, if_neg (of_decide_eq_true hkept), beq_self_eq_true]
        next hleft =>
          have hmem : key ∈ keys := by simpa using hleft
          rw [ih, if_pos hmem, if_pos hmem]
      · have hne : (key == k) = false := by simpa using hkey
        rw [hne]
        split
        · rw [List.lookup_cons, hne]
          exact ih
        · exact ih

end Json

end RegIR
