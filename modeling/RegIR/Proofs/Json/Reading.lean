import RegIR.Json.Reader
import RegIR.Proofs.Json.Lexing

/-!
# Trees are read back

The stack machine that reads trees is followed through the stream of a tree: a value leaves it
in the state that `Reader.complete` says, whatever is open around it. With
`RegIR.Proofs.Json.Lexing` this makes reading a left inverse of both layouts.

## Main results

* `Reader.foldlM_tokens`: the stream of a tree is read as that tree.
* `isChain_of_foldlM`: no stream that is accepted has two integers in a row.
* `parse?_compact`, `parse?_pretty`: both layouts of a tree are read as that tree.
-/

namespace RegIR

namespace Json

namespace Reader

/-! ### The stream of a tree -/

/-- The first item of an array begins like any value in it. -/
theorem foldlM_firstItem (j : Json) (rest : List Token) (stack : List Open) :
    (j.tokens ++ rest).foldlM step (firstItem stack) =
      (j.tokens ++ rest).foldlM step (value (.arr [] :: stack)) := by
  cases j <;> rfl

mutual

/-- The stream of a tree is read as that tree, inside any containers. -/
theorem foldlM_tokens (j : Json) (stack : List Open) :
    j.tokens.foldlM step (value stack) = some (complete j stack) := by
  cases j with
  | arr items =>
      cases items with
      | nil => rfl
      | cons j js =>
          have hitems := foldlM_items j js [] stack
          rw [itemTokens, List.append_assoc] at hitems
          rw [tokens, List.foldlM_cons, itemTokens, List.append_assoc]
          exact (foldlM_firstItem j _ stack).trans hitems
  | obj members =>
      cases members with
      | nil => rfl
      | cons m ms =>
          obtain ⟨k, j⟩ := m
          rw [tokens, List.foldlM_cons]
          exact foldlM_members k j ms [] stack
  | _ => rfl
termination_by sizeOf j

/-- The items of an array, behind those that have been read. -/
theorem foldlM_items (j : Json) (js done : List Json) (stack : List Open) :
    (itemTokens (j :: js) ++ [Token.closeArr]).foldlM step (value (.arr done :: stack)) =
      some (complete (.arr (done.reverse ++ j :: js)) stack) := by
  rw [itemTokens, List.append_assoc, List.foldlM_append, foldlM_tokens j]
  cases js with
  | nil => simp [complete, step]
  | cons j' js =>
      -- A comma leads back to this statement, with one item more behind it.
      have hitems := foldlM_items j' js (j :: done) stack
      rw [List.reverse_cons, List.append_assoc] at hitems
      exact hitems
termination_by sizeOf (j :: js)

/-- The members of an object, behind those that have been read. -/
theorem foldlM_members (k : Option String) (j : Json) (ms done : List (Option String × Json))
    (stack : List Open) :
    (memberTokens ((k, j) :: ms) ++ [Token.closeObj]).foldlM step (key done stack) =
      some (complete (.obj (done.reverse ++ (k, j) :: ms)) stack) := by
  have hvalue : ∀ rest, (j.tokens ++ rest).foldlM step (value (.obj done k :: stack)) =
      rest.foldlM step (afterMember ((k, j) :: done) stack) := by
    intro rest
    rw [List.foldlM_append, foldlM_tokens j]
    rfl
  rw [memberTokens, List.cons_append, List.cons_append, List.append_assoc]
  refine (hvalue _).trans ?_
  cases ms with
  | nil => simp [step]
  | cons m ms =>
      obtain ⟨k', j'⟩ := m
      have hmembers := foldlM_members k' j' ms ((k, j) :: done) stack
      rw [List.reverse_cons, List.append_assoc] at hmembers
      exact hmembers
termination_by sizeOf ((k, j) :: ms)

end

/-! ### Streams that are accepted -/

/-- Behind an integer a value is complete. -/
theorem exists_complete {r r' : Reader} {n : Int} (h : r.step (.integer n) = some r') :
    ∃ stack, r' = complete (.integer n) stack := by
  cases r with
  | value stack => exact ⟨stack, (Option.some.inj h).symm⟩
  | firstItem stack => exact ⟨_, (Option.some.inj h).symm⟩
  | _ => cases h

/-- Where a value is complete no other can begin. -/
theorem step_complete_integer (j : Json) (stack : List Open) (n : Int) :
    (complete j stack).step (.integer n) = none := by
  cases stack with
  | nil => rfl
  | cons o stack => cases o <;> rfl

/-- A stream that is accepted has no two integers in a row. -/
theorem isChain_of_foldlM {ts : List Token} {r r' : Reader}
    (h : ts.foldlM step r = some r') : ts.IsChain Apart := by
  induction ts generalizing r with
  | nil => exact .nil
  | cons t ts ih =>
      rw [List.foldlM_cons, Option.bind_eq_bind, Option.bind_eq_some_iff] at h
      obtain ⟨r₁, ht, hts⟩ := h
      refine List.isChain_cons.mpr ⟨fun b hb hinteger => ?_, ih hts⟩
      cases t with
      | integer n =>
          obtain ⟨stack, rfl⟩ := exists_complete ht
          cases ts with
          | nil => cases hb
          | cons t ts =>
              obtain rfl : t = b := Option.some.inj hb
              cases t with
              | integer m => simp [List.foldlM_cons, step_complete_integer] at hts
              | _ => cases hinteger
      | _ => rfl

end Reader

/-! ### Texts -/

/-- Is the tree read back from its text? Every string in it denotes its text, and every number
is an integer. -/
def Plain (j : Json) : Prop :=
  ∀ t ∈ j.tokens, t.isPlain = true

/-- A text is read as the tree whose stream it spells. -/
theorem parse?_of_spells {j : Json} {text : String} (hplain : j.Plain)
    (hspells : Spells text.toList j.tokens) : parse? text = some j := by
  have hrun : j.tokens.foldlM Reader.step (.value []) = some (.done j) :=
    Reader.foldlM_tokens j []
  rw [parse?, lex?_of_spells hspells hplain (Reader.isChain_of_foldlM hrun), Option.bind_some,
    ofTokens?, hrun]
  rfl

/-- **The compact layout is read back.** -/
theorem parse?_compact {j : Json} (h : j.Plain) : parse? j.compact = some j :=
  parse?_of_spells h (spells_compact j.tokens)

/-- **The indented layout is read back.** -/
theorem parse?_pretty {j : Json} (h : j.Plain) : parse? j.pretty = some j :=
  parse?_of_spells h (spells_layout 0 j.tokens)

/-! ### Plain trees -/

/-- The items of an array are plain if each of them is. -/
theorem plain_itemTokens {items : List Json} :
    (∀ t ∈ itemTokens items, t.isPlain = true) ↔ ∀ j ∈ items, j.Plain := by
  induction items with
  | nil => simp [itemTokens]
  | cons j js ih =>
      rw [itemTokens, List.forall_mem_append, List.forall_mem_cons, ← ih]
      cases js with
      | nil => simp [itemTokens, Plain]
      | cons j' js => simp [Plain, Token.isPlain]

/-- The members of an object are plain if each of them is, with a key that denotes its text. -/
theorem plain_memberTokens {members : List (Option String × Json)} :
    (∀ t ∈ memberTokens members, t.isPlain = true) ↔
      ∀ m ∈ members, m.1.isSome = true ∧ m.2.Plain := by
  induction members with
  | nil => simp [memberTokens]
  | cons m ms ih =>
      obtain ⟨k, j⟩ := m
      have hkey : Token.isPlain (.str k) = k.isSome := by
        cases k <;> rfl
      rw [memberTokens, List.forall_mem_cons, List.forall_mem_cons, List.forall_mem_append,
        List.forall_mem_cons, ← ih, hkey]
      cases ms with
      | nil => simp [memberTokens, Plain, Token.isPlain]
      | cons m' ms => simp [Plain, Token.isPlain, and_assoc]

@[simp] theorem plain_null : Plain null := by
  simp [Plain, tokens, Token.isPlain]

@[simp] theorem plain_bool (b : Bool) : Plain (bool b) := by
  simp [Plain, tokens, Token.isPlain]

@[simp] theorem plain_integer (n : Int) : Plain (integer n) := by
  simp [Plain, tokens, Token.isPlain]

@[simp] theorem plain_string (s : String) : Plain (string s) := by
  simp [Plain, tokens, string, Token.isPlain]

/-- An array is plain if its items are. -/
@[simp] theorem plain_arr {items : List Json} : Plain (arr items) ↔ ∀ j ∈ items, j.Plain := by
  rw [Plain, tokens, List.forall_mem_cons, List.forall_mem_append, plain_itemTokens]
  simp [Token.isPlain]

/-- An object is plain if the values of its members are. -/
@[simp] theorem plain_object {members : List (String × Json)} :
    Plain (object members) ↔ ∀ m ∈ members, m.2.Plain := by
  rw [Plain, object, tokens, List.forall_mem_cons, List.forall_mem_append, plain_memberTokens,
    List.forall_mem_map]
  simp [Token.isPlain]

end Json

end RegIR
