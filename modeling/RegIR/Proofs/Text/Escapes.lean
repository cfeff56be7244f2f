import RegIR.Proofs.Build.Command
import RegIR.X86.Assembly

/-!
# Reading string literals

How an assembler reads what stands between the quotes of a `.string` directive: a backslash begins
an escape, a quote that no backslash escapes ends the literal, and every other character stands for
its bytes. After a backslash there is one of five characters or a number of up to three octal
digits, of which the reader takes as many as it finds.

A text that is written by `Literal.escape` is read as the bytes it was written for. Every octal
number has all three digits, so that none of what follows is read as a part of it; every backslash
and every quote of the text is escaped, so that the literal ends at the quote behind it.

## Main definitions

* `Literal.decode?`: the bytes of a literal.
* `Literal.escaping`: is the character after these escaped?
* `Literal.quoted?`: what stands before the closing quote, and what behind it.

## Main results

* `Literal.Written.decode?_append`: reading one byte, whatever follows it.
* `Literal.closed_escape`: a text is written in whole escapes and characters that need none.
* `Literal.escape_reads_back`: what is written is read back, and ends at the closing quote.
-/

namespace RegIR

namespace Literal

/-! ### Reading -/

/-- The byte of an escape of one character. -/
def shortEscape? : Char → Option UInt8
  | '\\' => some '\\'.toUInt8
  | '"' => some '"'.toUInt8
  | 'n' => some '\n'.toUInt8
  | 't' => some '\t'.toUInt8
  | 'r' => some '\r'.toUInt8
  | _ => none

def isOctalDigit (c : Char) : Bool :=
  '0' ≤ c && c ≤ '7'

/-- The number that octal digits stand for. -/
def octalValue (digits : List Char) : Nat :=
  digits.foldl (fun value c => 8 * value + (c.toNat - '0'.toNat)) 0

/-- The byte of an escape, behind its backslash, and what follows the escape. -/
def readEscape? (cs : List Char) : Option (UInt8 × List Char) :=
  match cs.head?.bind shortEscape? with
  | some b => some (b, cs.tail)
  | none =>
      let digits := (cs.take 3).takeWhile isOctalDigit
      if digits = [] then none
      else some (UInt8.ofNat (octalValue digits), cs.drop digits.length)

/-- An escape takes at least one character. -/
theorem length_lt_of_readEscape? {cs : List Char} {r : UInt8 × List Char}
    (h : readEscape? cs = some r) : r.2.length < cs.length := by
  unfold readEscape? at h
  split at h
  next b hshort =>
    obtain ⟨c, hc, -⟩ := Option.bind_eq_some_iff.mp hshort
    obtain rfl := Option.some.inj h
    obtain ⟨cs, rfl⟩ := List.head?_eq_some_iff.mp hc
    exact Nat.lt_succ_self _
  next =>
    dsimp only at h
    split at h
    · cases h
    next hdigits =>
      obtain rfl := Option.some.inj h
      have hpos := List.length_pos_iff.mpr hdigits
      have hle := (List.takeWhile_sublist isOctalDigit (l := cs.take 3)).length_le
      rw [List.length_take] at hle
      rw [List.length_drop]
      omega

/-- The bytes that a literal stands for. -/
def decode? (cs : List Char) : Option (List UInt8) :=
  match cs with
  | [] => some []
  | c :: cs =>
      if c = '\\' then
        match _h : readEscape? cs with
        | some r => (r.1 :: ·) <$> decode? r.2
        | none => none
      else if c = '"' then none
      else (String.utf8EncodeChar c ++ ·) <$> decode? cs
termination_by cs.length
decreasing_by
  · exact Nat.lt_succ_of_lt (length_lt_of_readEscape? ‹_›)
  · exact Nat.lt_succ_self _

/-- An escape, and what follows it. -/
theorem decode?_escape {cs rest : List Char} {b : UInt8} (h : readEscape? cs = some (b, rest)) :
    decode? ('\\' :: cs) = (b :: ·) <$> decode? rest := by
  rw [decode?, if_pos rfl]
  split
  next r hr =>
    obtain rfl : r = (b, rest) := Option.some.inj (hr.symm.trans h)
    rfl
  next hnone => cases hnone.symm.trans h

/-- A character of its own, and what follows it. -/
theorem decode?_char {c : Char} (cs : List Char) (hc : c ≠ '\\') (hquote : c ≠ '"') :
    decode? (c :: cs) = (String.utf8EncodeChar c ++ ·) <$> decode? cs := by
  rw [decode?, if_neg hc, if_neg hquote]

/-! ### One byte -/

/-- Octal digits are read as what they are, and begin no other escape. -/
theorem digitChar_spec {d : Nat} (h : d < 8) :
    isOctalDigit (Nat.digitChar d) = true ∧ (Nat.digitChar d).toNat - '0'.toNat = d ∧
      shortEscape? (Nat.digitChar d) = none := by
  revert d
  decide

/-- All three digits of an octal escape are read, and no more. -/
theorem readEscape?_octal (b : UInt8) (rest : List Char) :
    readEscape? (octal b ++ rest) = some (b, rest) := by
  have hb : b.toNat < 256 := b.toNat_lt
  obtain ⟨h₁, v₁, hshort⟩ := @digitChar_spec (b.toNat / 64) (by omega)
  obtain ⟨h₂, v₂, -⟩ := @digitChar_spec (b.toNat / 8 % 8) (by omega)
  obtain ⟨h₃, v₃, -⟩ := @digitChar_spec (b.toNat % 8) (by omega)
  have hdigits : ((octal b ++ rest).take 3).takeWhile isOctalDigit = octal b := by
    simp [octal, h₁, h₂, h₃]
  have hvalue : octalValue (octal b) = b.toNat := by
    simp only [octalValue, octal, List.foldl_cons, List.foldl_nil, v₁, v₂, v₃]
    omega
  have hhead : (octal b ++ rest).head?.bind shortEscape? = none := hshort
  have hne : octal b ≠ [] := List.cons_ne_nil _ _
  rw [readEscape?, hhead]
  dsimp only
  rw [hdigits, if_neg hne, hvalue, UInt8.ofNat_toNat, List.drop_left]

/-- An escape of one character. -/
theorem decode?_short {c : Char} {b : UInt8} (rest : List Char) (h : shortEscape? c = some b) :
    decode? ('\\' :: c :: rest) = (b :: ·) <$> decode? rest := by
  refine decode?_escape ?_
  have hhead : (c :: rest).head?.bind shortEscape? = some b := h
  rw [readEscape?, hhead]
  rfl

/-- The code of a character that is written for a byte. -/
theorem toNat_ofNat_byte (b : UInt8) : (Char.ofNat b.toNat).toNat = b.toNat := by
  have hb : b.toNat < 256 := b.toNat_lt
  have hvalid : b.toNat.isValidChar := .inl (by omega)
  rw [Char.ofNat, dif_pos hvalid]
  rfl

/-- A character of ASCII is one byte. -/
theorem utf8EncodeChar_ofNat {b : UInt8} (h : b.toNat < 128) :
    String.utf8EncodeChar (Char.ofNat b.toNat) = [b] := by
  have hval : (Char.ofNat b.toNat).val.toNat = b.toNat := toNat_ofNat_byte b
  simp only [String.utf8EncodeChar, hval]
  rw [if_pos (Nat.le_of_lt_succ h), UInt8.ofNat_toNat]

/-- `Written b cs`: how a byte is written, by an escape of one character, as a character of its own,
or in octal. -/
inductive Written (b : UInt8) : List Char → Prop
  | short {c : Char} (hc : shortEscape? c = some b) : Written b ['\\', c]
  | char (hprintable : 0x20 ≤ b.toNat ∧ b.toNat ≤ 0x7e) (hbackslash : Char.ofNat b.toNat ≠ '\\')
      (hquote : Char.ofNat b.toNat ≠ '"') : Written b [Char.ofNat b.toNat]
  | octal : Written b ('\\' :: octal b)

/-- Every byte is written in one of these ways. -/
theorem written_escapeByte (b : UInt8) : Written b (escapeByte b) := by
  have hshort : ∀ {c d : Char}, shortEscape? c = some d.toUInt8 → d.toUInt8.toNat = d.toNat →
      b.toNat = d.toNat → Written b ['\\', c] := by
    intro c d hc hd hb
    obtain rfl : b = d.toUInt8 := UInt8.toNat_inj.mp (hb.trans hd.symm)
    exact .short hc
  have hne : ∀ {c : Char}, b.toNat ≠ c.toNat → Char.ofNat b.toNat ≠ c := by
    rintro _ hne rfl
    exact hne (toNat_ofNat_byte b).symm
  unfold escapeByte
  split
  next hb => exact hshort rfl rfl hb
  next hbackslash =>
    split
    next hb => exact hshort rfl rfl hb
    next hquote =>
      split
      next hb => exact hshort rfl rfl hb
      split
      next hb => exact hshort rfl rfl hb
      split
      next hb => exact hshort rfl rfl hb
      split
      next hprintable => exact .char hprintable (hne hbackslash) (hne hquote)
      next => exact .octal

/-- **Reading a byte** that has been written, whatever follows it. -/
theorem Written.decode?_append {b : UInt8} {cs : List Char} (h : Written b cs) (rest : List Char) :
    decode? (cs ++ rest) = (b :: ·) <$> decode? rest := by
  cases h with
  | short hc => exact decode?_short rest hc
  | char hprintable hbackslash hquote =>
      have hascii : b.toNat < 128 := by omega
      rw [List.singleton_append, decode?_char rest hbackslash hquote, utf8EncodeChar_ofNat hascii]
      rfl
  | octal => exact decode?_escape (readEscape?_octal b rest)

/-- Reading all bytes. -/
theorem decode?_flatMap (bs : List UInt8) : decode? (bs.flatMap escapeByte) = some bs := by
  induction bs with
  | nil => rw [List.flatMap_nil, decode?]
  | cons b bs ih =>
      rw [List.flatMap_cons, (written_escapeByte b).decode?_append, ih]
      rfl

/-! ### Where a literal ends -/

/-- Is the character after these escaped? -/
def escaping (cs : List Char) : Bool :=
  cs.foldl (fun escaped c => !escaped && c == '\\') false

/-- Another character escapes nothing. -/
theorem escaping_char {c : Char} (cs : List Char) (h : c ≠ '\\') :
    escaping (c :: cs) = escaping cs := by
  simp [escaping, beq_eq_false_iff_ne.mpr h]

/-- A whole escape escapes nothing behind it. -/
theorem escaping_escape (c : Char) (cs : List Char) :
    escaping ('\\' :: c :: cs) = escaping cs :=
  rfl

/-- What stands before the first quote that is not escaped, and what behind it. -/
def quoted? : List Char → Option (List Char × List Char)
  | [] => none
  | '"' :: cs => some ([], cs)
  | '\\' :: c :: cs => (fun r => ('\\' :: c :: r.1, r.2)) <$> quoted? cs
  | c :: cs => (fun r => (c :: r.1, r.2)) <$> quoted? cs

/-- `Closed cs`: the text is made of whole escapes and of characters that need none. -/
inductive Closed : List Char → Prop
  | nil : Closed []
  | char {c : Char} {cs : List Char} (hbackslash : c ≠ '\\') (hquote : c ≠ '"') (h : Closed cs) :
      Closed (c :: cs)
  | escape {c : Char} {cs : List Char} (h : Closed cs) : Closed ('\\' :: c :: cs)

namespace Closed

variable {cs ds : List Char}

theorem append (hcs : Closed cs) (hds : Closed ds) : Closed (cs ++ ds) := by
  induction hcs with
  | nil => exact hds
  | char hbackslash hquote _ ih => exact .char hbackslash hquote ih
  | escape _ ih => exact .escape ih

/-- Characters that need no escape. -/
theorem of_forall (h : ∀ c ∈ cs, c ≠ '\\' ∧ c ≠ '"') : Closed cs := by
  induction cs with
  | nil => exact .nil
  | cons c cs ih =>
      obtain ⟨⟨hbackslash, hquote⟩, hcs⟩ := List.forall_mem_cons.mp h
      exact .char hbackslash hquote (ih hcs)

/-- It does not end inside an escape. -/
theorem escaping_eq_false (h : Closed cs) : escaping cs = false := by
  induction h with
  | nil => rfl
  | char hbackslash _ _ ih => rw [escaping_char _ hbackslash, ih]
  | escape _ ih => rw [escaping_escape, ih]

/-- Every quote in it is escaped. -/
theorem escaping_of_quote (h : Closed cs) {before after : List Char}
    (heq : cs = before ++ '"' :: after) : escaping before = true := by
  induction h generalizing before with
  | nil => simp at heq
  | @char c cs hbackslash hquote _ ih =>
      rcases before with - | ⟨d, before⟩
      · exact absurd (List.cons.inj heq).1 hquote
      · obtain ⟨rfl, htail⟩ := List.cons.inj heq
        rw [escaping_char _ hbackslash, ih htail]
  | @escape c cs _ ih =>
      rcases before with - | ⟨d, - | ⟨e, before⟩⟩
      · cases (List.cons.inj heq).1
      · obtain ⟨rfl, -⟩ := List.cons.inj heq
        rfl
      · obtain ⟨rfl, rfl, htail⟩ : '\\' = d ∧ c = e ∧ cs = before ++ '"' :: after := by
          simpa using heq
        rw [escaping_escape, ih htail]

/-- It ends at the next quote behind it. -/
theorem quoted?_append (h : Closed cs) (rest : List Char) :
    quoted? (cs ++ '"' :: rest) = some (cs, rest) := by
  induction h with
  | nil => rfl
  | @char c cs hbackslash hquote _ ih =>
      rw [List.cons_append, quoted?, ih]
      · rfl
      · exact hquote
      · rintro _ _ rfl
        exact absurd rfl hbackslash
  | @escape c cs _ ih =>
      rw [List.cons_append, List.cons_append, quoted?, ih]
      rfl

end Closed

/-- An octal digit is printable, and neither a backslash nor a quote. -/
theorem isOctalDigit_spec {c : Char} (h : isOctalDigit c = true) :
    (0x20 ≤ c.toNat ∧ c.toNat ≤ 0x7e) ∧ c ≠ '\\' ∧ c ≠ '"' := by
  rw [isOctalDigit, Bool.and_eq_true, decide_eq_true_eq, decide_eq_true_eq] at h
  have hlow : '0'.toNat ≤ c.toNat := h.1
  have hhigh : c.toNat ≤ '7'.toNat := h.2
  have hzero : '0'.toNat = 0x30 := rfl
  have hseven : '7'.toNat = 0x37 := rfl
  refine ⟨⟨by omega, by omega⟩, ?_, ?_⟩
  · rintro rfl
    exact absurd hhigh (by decide)
  · rintro rfl
    exact absurd hlow (by decide)

/-- The digits of a byte are octal digits. -/
theorem isOctalDigit_of_mem_octal {b : UInt8} {c : Char} (h : c ∈ octal b) :
    isOctalDigit c = true := by
  have hb : b.toNat < 256 := b.toNat_lt
  simp only [octal, List.mem_cons, List.not_mem_nil, or_false] at h
  rcases h with rfl | rfl | rfl
  · exact (digitChar_spec (by omega)).1
  · exact (digitChar_spec (by omega)).1
  · exact (digitChar_spec (by omega)).1

/-- A byte is written as a whole. -/
theorem Written.closed {b : UInt8} {cs : List Char} (h : Written b cs) : Closed cs := by
  cases h with
  | short hc => exact .escape .nil
  | char _ hbackslash hquote => exact .char hbackslash hquote .nil
  | octal =>
      -- The first digit belongs to the backslash, the others are characters of their own.
      refine .escape (.of_forall fun c hc => ?_)
      exact (isOctalDigit_spec (isOctalDigit_of_mem_octal (List.mem_cons_of_mem _ hc))).2

/-- So is a text. -/
theorem closed_escape (s : String) : Closed (escape s).toList := by
  rw [escape, String.toList_ofList]
  induction bytes s with
  | nil => exact .nil
  | cons b bs ih =>
      rw [List.flatMap_cons]
      exact (written_escapeByte b).closed.append ih

/-- A byte is written in printable characters. -/
theorem Written.printable {b : UInt8} {cs : List Char} (h : Written b cs) :
    ∀ c ∈ cs, 0x20 ≤ c.toNat ∧ c.toNat ≤ 0x7e := by
  intro c hc
  cases h with
  | short hshort =>
      rcases List.mem_pair.mp hc with rfl | rfl
      · decide
      · unfold shortEscape? at hshort
        split at hshort
        on_goal 6 => cases hshort
        all_goals decide
  | char hprintable _ _ =>
      obtain rfl := List.mem_singleton.mp hc
      rwa [toNat_ofNat_byte]
  | octal =>
      rcases List.mem_cons.mp hc with rfl | hdigit
      · decide
      · exact (isOctalDigit_spec (isOctalDigit_of_mem_octal hdigit)).1

/-- So is a text. -/
theorem printable_escape {s : String} {c : Char} (h : c ∈ (escape s).toList) :
    0x20 ≤ c.toNat ∧ c.toNat ≤ 0x7e := by
  rw [escape, String.toList_ofList] at h
  obtain ⟨b, -, hc⟩ := List.mem_flatMap.mp h
  exact (written_escapeByte b).printable c hc

/-- The bytes of a text are those of its encoding. -/
theorem bytes_eq (s : String) : bytes s = s.toUTF8.data.toList := by
  rw [String.toUTF8, ← String.utf8Encode_toList, List.utf8Encode, List.data_toByteArray]
  rfl

/-- **A text is read back.** -/
theorem decode?_escape_eq (s : String) : decode? (escape s).toList = some s.toUTF8.data.toList := by
  rw [escape, String.toList_ofList, decode?_flatMap, bytes_eq]

/-- Different texts are written differently. -/
theorem escape_injective : Function.Injective escape := by
  intro s t h
  have hdata : s.toUTF8.data.toList = t.toUTF8.data.toList := by
    rw [← Option.some_inj, ← decode?_escape_eq, ← decode?_escape_eq, h]
  rw [← String.toByteArray_inj]
  exact ByteArray.ext (Array.toList_inj.mp hdata)

/-! ### Lines -/

/-- `ReadsBack s t`: the text `t` is a literal for `s`. -/
structure ReadsBack (s t : String) : Prop where
  printable : ∀ c ∈ t.toList, 0x20 ≤ c.toNat ∧ c.toNat ≤ 0x7e
  /-- Every quote in it is escaped. -/
  quotes : ∀ before after, t.toList = before ++ '"' :: after → escaping before = true
  /-- It does not end inside an escape. -/
  whole : escaping t.toList = false
  bytes : decode? t.toList = some s.toUTF8.data.toList

/-- `EndsWith line t`: the text is one line, and what follows its first quote is the literal `t`,
the closing quote and nothing more. -/
structure EndsWith (line t : String) : Prop where
  single : '\n' ∉ line.toList
  last : quoted? (line.toList.dropWhile (· ≠ '"')).tail = some (t.toList, [])

/-- What is written is a literal. -/
theorem readsBack_escape (s : String) : ReadsBack s (escape s) :=
  ⟨fun _ => printable_escape, fun _ _ => (closed_escape s).escaping_of_quote,
    (closed_escape s).escaping_eq_false, decode?_escape_eq s⟩

/-- The line of a string constant ends with its literal if its label is harmless. -/
theorem endsWith_escape {name : String} (value : String)
    (hname : ∀ c ∈ name.toList, c ≠ '"' ∧ c ≠ '\n') :
    EndsWith (X86.Line.stringConst name (escape value)).text (escape value) := by
  have htext : (X86.Line.stringConst name (escape value)).text.toList =
      name.toList ++ (": .string ".toList ++ '"' :: ((escape value).toList ++ ['"'])) := by
    simp [X86.Line.text]
  have hhead : ∀ c ∈ name.toList ++ ": .string ".toList, decide (c ≠ '"') = true := by
    rw [List.forall_mem_append]
    exact ⟨fun c hc => decide_eq_true (hname c hc).1, List.all_eq_true.mp (by decide)⟩
  constructor
  · rw [htext]
    simp only [List.mem_append, List.mem_cons, List.not_mem_nil, or_false, not_or]
    refine ⟨fun hc => (hname _ hc).2 rfl, by decide, by decide, fun hc => ?_, by decide⟩
    exact absurd (printable_escape hc).1 (by decide)
  · rw [htext, ← List.append_assoc, List.dropWhile_append_of_pos hhead]
    exact (closed_escape value).quoted?_append []

/-- A label that is given out is harmless. -/
theorem label_spec (n : Nat) : ∀ c ∈ ("STR" ++ n.repr).toList, c ≠ '"' ∧ c ≠ '\n' := by
  intro c hc
  rw [String.toList_append, List.mem_append] at hc
  rcases hc with hc | hc
  · have hall : "STR".toList.all (fun c => c != '"' && c != '\n') = true := by decide
    simpa using List.all_eq_true.mp hall c hc
  · rw [Nat.toList_repr] at hc
    have hdigit := Nat.isDigit_of_mem_toDigits (by decide) (by decide) hc
    constructor
    · rintro rfl
      cases hdigit
    · rintro rfl
      cases hdigit

/-- **Literals are read back.** Every text is written in printable characters in which every quote
is escaped, which do not end inside an escape, and which are read as the bytes of the text; so
different texts are written differently. The line of a string constant that is built for a text is
one line, and its literal ends at its last character. -/
theorem escape_reads_back :
    (∀ s : String, ReadsBack s (escape s)) ∧ Function.Injective escape ∧
    ∀ (value : String) (b b' : Builder) (op : Operand), (Build.string value).run b = .ok (op, b') →
      ∃ s : StringConst, op = .string s ∧ s ∈ b'.module.strings ∧ s.value = escape value ∧
        EndsWith (X86.Line.stringConst s.name s.value).text s.value := by
  refine ⟨readsBack_escape, escape_injective, fun value b b' op hrun => ?_⟩
  have hstep := Command.step_of_run (c := .string value) (Build.map_eq_ok.mpr ⟨op, hrun, rfl⟩)
  cases hstep with
  | string hs _ =>
      subst hs
      exact ⟨_, rfl, List.mem_append_right _ List.mem_cons_self, rfl,
        endsWith_escape value (label_spec _)⟩
  | fold hfold => cases hfold
  | define _ hi _ _ _ _ => cases hi

/-- A text with a byte that has no short escape before a digit, a quote, a backslash, a line end and
a letter outside ASCII. -/
def oddText : String :=
  "\x017\"\\\né"

/-- The digit is not read as a part of the octal number before it. -/
theorem oddText_reads_back :
    escape oddText = "\\0017\\\"\\\\\\n\\303\\251" ∧ ReadsBack oddText (escape oddText) ∧
      ∃ op b', (Build.string oddText).run (.new "m") = .ok (op, b') ∧
        ∃ s : StringConst, op = .string s ∧ s ∈ b'.module.strings ∧
          EndsWith (X86.Line.stringConst s.name s.value).text s.value := by
  obtain ⟨hreads, -, hstring⟩ := escape_reads_back
  obtain ⟨op, b', hrun⟩ : ∃ op b', (Build.string oddText).run (.new "m") = .ok (op, b') :=
    ⟨_, _, rfl⟩
  obtain ⟨s, hop, hmem, -, hends⟩ := hstring oddText _ _ _ hrun
  exact ⟨by decide +kernel, hreads oddText, op, b', hrun, s, hop, hmem, hends⟩

end Literal

end RegIR
