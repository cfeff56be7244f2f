import RegIR.Json.Lexer
import Mathlib.Data.List.Chain

/-!
# Tokens are read back

A text that spells a stream of tokens, with any blanks between them, is read as that stream.
Both layouts of a tree spell its stream, so nothing later has to look at characters.

The automaton decides at every character whether a token goes on, and only a number can be
ended by what follows it. `Lexer.Settled` says what holds between two tokens in spite of that:
the stream so far is complete, and a character that no number goes on with is read as the first
one of a token. The stream may have no two integers in a row, which is a property of every
stream that the reader of trees accepts.

Numbers with a fraction and string literals without a text are not written by this library, and
are left out here (`Token.isPlain`).

## Main results

* `Lexer.Settled.token`: the text of a token is read as that token.
* `lex?_of_spells`: a text is read as the stream that it spells.
* `spells_compact`, `spells_layout`: both layouts spell their stream.
-/

namespace RegIR

namespace Json

/-! ### Texts of a stream -/

/-- The characters that may stand between tokens. -/
def IsBlank (c : Char) : Prop :=
  c = ' ' ∨ c = '\n' ∨ c = '\t' ∨ c = '\r'

/-- `Spells cs ts`: the characters are the texts of the tokens in order, with blanks around
them. -/
inductive Spells : List Char → List Token → Prop
  | nil : Spells [] []
  | blank {c : Char} {cs : List Char} {ts : List Token} (hc : IsBlank c) (h : Spells cs ts) :
      Spells (c :: cs) ts
  | token {cs : List Char} {ts : List Token} (t : Token) (h : Spells cs ts) :
      Spells (t.text.toList ++ cs) (t :: ts)

/-- Blanks may be added in front. -/
theorem Spells.blanks {bs cs : List Char} {ts : List Token} (hbs : ∀ c ∈ bs, IsBlank c)
    (h : Spells cs ts) : Spells (bs ++ cs) ts := by
  induction bs with
  | nil => exact h
  | cons b bs ih =>
      rw [List.forall_mem_cons] at hbs
      exact .blank hbs.1 (ih hbs.2)

/-- A line end and an indentation are blank. -/
theorem isBlank_of_mem_newline {depth : Nat} {c : Char} (h : c ∈ (newline depth).toList) :
    IsBlank c := by
  rw [newline, String.toList_ofList, List.mem_cons] at h
  obtain rfl | h := h
  · exact .inr (.inl rfl)
  · exact .inl (List.eq_of_mem_replicate h)

/-- The compact layout spells the stream. -/
theorem spells_compact (ts : List Token) :
    Spells (String.join (ts.map Token.text)).toList ts := by
  rw [String.toList_join, List.flatMap_map]
  induction ts with
  | nil => exact .nil
  | cons t ts ih => exact .token t ih

/-- The indented layout spells the stream, at every depth. -/
theorem spells_layout (depth : Nat) (ts : List Token) :
    Spells (String.join (layout depth ts)).toList ts := by
  have hnewline : ∀ {depth cs ts}, Spells cs ts → Spells ((newline depth).toList ++ cs) ts :=
    fun h => .blanks (fun _ => isBlank_of_mem_newline) h
  rw [String.toList_join]
  fun_induction layout depth ts with
  | case1 => exact .nil
  | case2 depth rest ih => exact .token .openArr (.token .closeArr ih)
  | case3 depth rest ih => exact .token .openObj (.token .closeObj ih)
  | case4 depth rest _ ih => exact .token .openArr (hnewline ih)
  | case5 depth rest _ ih => exact .token .openObj (hnewline ih)
  | case6 depth rest ih => exact hnewline (.token .closeArr ih)
  | case7 depth rest ih => exact hnewline (.token .closeObj ih)
  | case8 depth rest ih => exact .token .comma (hnewline ih)
  | case9 depth rest ih => exact .token .colon (.blank (.inl rfl) ih)
  | case10 =>
      rename_i ih
      exact .token _ ih

/-! ### Between tokens -/

/-- Does the token denote something that its text can be read back as? -/
def Token.isPlain : Token → Bool
  | real _ | str none => false
  | _ => true

def Token.isInteger : Token → Bool
  | integer _ => true
  | _ => false

/-- May one token follow another without a blank? Two integers may not. -/
def Apart (a b : Token) : Prop :=
  b.isInteger = true → a.isInteger = false

/-- Can a number go on with the character? -/
def extendsNumber (c : Char) : Bool :=
  c.isDigit || c == '.' || c == 'e' || c == 'E'

namespace Lexer

/-- `l.Settled out`: the tokens `out`, last first, are complete. A number among them may still
be open, so a character that could extend it is read as a new token only behind other tokens. -/
structure Settled (l : Lexer) (out : List Token) : Prop where
  finish : l.finish? = some out.reverse
  next : ∀ c, (extendsNumber c = true → ∀ t ∈ out.head?, t.isInteger = false) →
    l.step c = begin? out c

variable {l : Lexer} {out : List Token}

/-- Nothing is open between tokens. -/
theorem settled_ready (out : List Token) : Settled { scan := .ready, output := out } out where
  finish := rfl
  next _ _ := rfl

/-- An integer ends with the first character that does not extend it. -/
theorem settled_number {phase : Phase} {lexeme : List Char} (hphase : phase.isInteger = true)
    (htoken : (numberToken phase lexeme.reverse).isInteger = true) :
    Settled { scan := .number phase lexeme, output := out }
      (numberToken phase lexeme.reverse :: out) where
  finish := by
    have hcomplete : phase.isComplete = true := by
      cases phase <;> first | rfl | cases hphase
    simp [finish?, hcomplete]
  next c hc := by
    have hextends : extendsNumber c = false := by
      by_contra h
      rw [hc (by simpa using h) _ rfl] at htoken
      cases htoken
    simp only [extendsNumber, Bool.or_eq_false_iff, beq_eq_false_iff_ne] at hextends
    obtain ⟨⟨⟨hdigit, hpoint⟩, hlower⟩, hupper⟩ := hextends
    cases phase with
    | zero => simp [Lexer.step, Phase.next?, Phase.isComplete, hpoint, hlower, hupper]
    | digits => simp [Lexer.step, Phase.next?, Phase.isComplete, hdigit, hpoint, hlower, hupper]
    | _ => cases hphase

/-- A character that extends no number is the first one of a token, or a blank. -/
theorem Settled.first {c : Char} (h : l.Settled out) (hc : extendsNumber c = false) :
    l.step c = begin? out c :=
  h.next c fun hextends => absurd (hc.symm.trans hextends) Bool.false_ne_true

/-- A blank between tokens leads on to the next one. -/
theorem Settled.blank {c : Char} (h : l.Settled out) (hc : IsBlank c) :
    l.step c = some { scan := .ready, output := out } := by
  have hextends : extendsNumber c = false := by
    obtain rfl | rfl | rfl | rfl := hc <;> decide
  rw [h.first hextends, begin?]
  exact if_pos hc

/-! ### Strings -/

/-- The piece that an escaped character is read as: a code unit where it has no escape of its
own. -/
def pieceOf (c : Char) : Piece :=
  if c.toNat < 32 ∧ c ≠ '\x08' ∧ c ≠ '\x0c' ∧ c ≠ '\n' ∧ c ≠ '\r' ∧ c ≠ '\t' then .unit c.toNat
  else .char c

/-- A hexadecimal digit has its value. -/
theorem hexValue?_hexDigit : ∀ n < 16, hexValue? (hexDigit n) = some n := by
  decide

/-- A character of a string is read back as its piece. -/
theorem foldlM_escapeChar (c : Char) (pieces : List Piece) (out : List Token) :
    (escapeChar c).foldlM step { scan := .string pieces, output := out } =
      some { scan := .string (pieceOf c :: pieces), output := out } := by
  unfold escapeChar
  split_ifs with hquote hbackslash hb hf hn hr ht hcontrol
  · subst hquote; rfl
  · subst hbackslash; rfl
  · subst hb; rfl
  · subst hf; rfl
  · subst hn; rfl
  · subst hr; rfl
  · subst ht; rfl
  · have hhigh := hexValue?_hexDigit (c.toNat / 16) (by omega)
    have hlow := hexValue?_hexDigit (c.toNat % 16) (by omega)
    have hzero : hexValue? '0' = some 0 := rfl
    have hvalue : 16 * (c.toNat / 16) + c.toNat % 16 = c.toNat := Nat.div_add_mod ..
    have hpiece : pieceOf c = .unit c.toNat := if_pos ⟨hcontrol, hb, hf, hn, hr, ht⟩
    simp [List.foldlM_cons, step, hhigh, hlow, hzero, hvalue, hpiece]
  · have hpiece : pieceOf c = .char c := if_neg fun h => hcontrol h.1
    simp [List.foldlM_cons, step, hquote, hbackslash, hcontrol, hpiece]

/-- The characters of a string are read back as their pieces. -/
theorem foldlM_escape (cs : List Char) (pieces : List Piece) (out : List Token) :
    (cs.flatMap escapeChar).foldlM step { scan := .string pieces, output := out } =
      some { scan := .string ((cs.map pieceOf).reverse ++ pieces), output := out } := by
  induction cs generalizing pieces with
  | nil => rfl
  | cons c cs ih =>
      rw [List.flatMap_cons, List.foldlM_append, foldlM_escapeChar]
      simpa using ih (pieceOf c :: pieces)

/-- A code unit in front of any pieces, if it belongs to no pair. -/
theorem assemble_unit {u : Nat} (hu : u < 32) (rest : List Piece) :
    assemble (.unit u :: rest) = (assemble rest).map (Char.ofNat u :: ·) := by
  have hleading : isLeading u = false := by simp [isLeading]; omega
  have htrailing : isTrailing u = false := by simp [isTrailing]; omega
  cases rest with
  | nil => simp [assemble, hleading, htrailing]
  | cons p rest => cases p <;> simp [assemble, hleading, htrailing]

/-- The pieces of a string denote its characters. -/
theorem assemble_map_pieceOf (cs : List Char) : assemble (cs.map pieceOf) = some cs := by
  induction cs with
  | nil => rfl
  | cons c cs ih =>
      rw [List.map_cons, pieceOf]
      split_ifs with hunit
      · rw [assemble_unit hunit.1, ih, Option.map_some, Char.ofNat_toNat]
      · rw [assemble, ih, Option.map_some]

/-- The text of a string literal is read back. -/
theorem Settled.quote (h : l.Settled out) (s : String) :
    (quote s).toList.foldlM step l =
      some { scan := .ready, output := .str (some s) :: out } := by
  have hfirst : l.step '"' = some { scan := .string [], output := out } :=
    h.first (by decide)
  rw [Json.quote, String.toList_ofList, List.foldlM_cons, hfirst]
  simp only [Option.bind_eq_bind, Option.bind_some, List.foldlM_append, foldlM_escape]
  simp [step, emit, assemble_map_pieceOf]

/-! ### Integers -/

/-- Digits go on with a number. -/
theorem foldlM_digits {cs : List Char} (hcs : ∀ c ∈ cs, c.isDigit = true) (lexeme : List Char)
    (out : List Token) :
    cs.foldlM step { scan := .number .digits lexeme, output := out } =
      some { scan := .number .digits (cs.reverse ++ lexeme), output := out } := by
  induction cs generalizing lexeme with
  | nil => rfl
  | cons c cs ih =>
      rw [List.forall_mem_cons] at hcs
      rw [List.foldlM_cons]
      simpa [step, Phase.next?, hcs.1] using ih hcs.2 (c :: lexeme)

/-- The decimal digits of a positive number are digits, of which the first is not zero. -/
theorem exists_toDigits {n : Nat} (hn : 0 < n) :
    ∃ c cs, Nat.toDigits 10 n = c :: cs ∧ c ≠ '0' ∧ c.isDigit = true ∧
      ∀ d ∈ cs, d.isDigit = true := by
  have hfirst : ∃ c cs, Nat.toDigits 10 n = c :: cs ∧ c ≠ '0' := by
    induction n using Nat.strongRecOn with
    | ind n ih =>
        by_cases hlt : n < 10
        · have hdigit : ∀ n < 10, 0 < n → Nat.digitChar n ≠ '0' := by decide
          exact ⟨_, [], Nat.toDigits_of_lt_base hlt, hdigit n hlt hn⟩
        · obtain ⟨c, cs, heq, hc⟩ := ih (n / 10) (by omega) (by omega)
          rw [Nat.toDigits_of_base_le (by decide) (by omega), heq]
          exact ⟨c, _, rfl, hc⟩
  obtain ⟨c, cs, heq, hc⟩ := hfirst
  have hdigits : ∀ d ∈ c :: cs, d.isDigit = true := fun d hd =>
    Nat.isDigit_of_mem_toDigits (by decide) (by decide) (heq ▸ hd)
  rw [List.forall_mem_cons] at hdigits
  exact ⟨c, cs, heq, hc, hdigits⟩

/-- The decimal digits of a number have its value. -/
theorem digitsValue_toDigits (n : Nat) : digitsValue (Nat.toDigits 10 n) = n := by
  rw [digitsValue, ← Nat.ofDigitChars_eq_foldl]
  exact Nat.ofDigitChars_ten_toDigits

/-- A digit is no other character. -/
theorem ne_of_isDigit {c d : Char} (hc : c.isDigit = true) (hd : d.isDigit = false) : c ≠ d := by
  rintro rfl
  rw [hc] at hd
  cases hd

/-- A digit other than zero is the first character of a number. -/
theorem begin?_digit {c : Char} (hdigit : c.isDigit = true) (hzero : c ≠ '0')
    (out : List Token) :
    begin? out c = some { scan := .number .digits [c], output := out } := by
  have hne : ∀ d : Char, d.isDigit = false → c ≠ d := fun d => ne_of_isDigit hdigit
  unfold begin?
  simp (disch := decide) [hne, hdigit, hzero]

/-- The token of digits. -/
theorem numberToken_digits {c : Char} (hc : c.isDigit = true) (cs : List Char) :
    numberToken .digits (c :: cs) = .integer (digitsValue (c :: cs)) := by
  have hne : c ≠ '-' := ne_of_isDigit hc (by decide)
  simp [numberToken, Phase.isInteger, hne]

/-- The token of digits behind a sign. -/
theorem numberToken_sign {cs : List Char} (hcs : digitsValue cs ≠ 0) :
    numberToken .digits ('-' :: cs) = .integer (-digitsValue cs) := by
  simp [numberToken, Phase.isInteger, hcs]

/-- A positive number is read back, behind any other token than an integer. -/
theorem Settled.positive (h : l.Settled out) (hout : ∀ t ∈ out.head?, t.isInteger = false)
    {n : Nat} (hn : 0 < n) :
    ∃ l', (Nat.toDigits 10 n).foldlM step l = some l' ∧ l'.Settled (.integer n :: out) := by
  obtain ⟨c, cs, heq, hc, hdigit, hdigits⟩ := exists_toDigits hn
  have htoken : numberToken .digits (cs.reverse ++ [c]).reverse = .integer n := by
    rw [← digitsValue_toDigits n, heq, ← numberToken_digits hdigit]
    simp
  refine ⟨_, ?_, htoken ▸ settled_number rfl (by rw [htoken]; rfl)⟩
  rw [heq, List.foldlM_cons, h.next c fun _ => hout, begin?_digit hdigit hc]
  exact foldlM_digits hdigits [c] out

/-- A negative number is read back, behind any token. -/
theorem Settled.negative (h : l.Settled out) {n : Nat} (hn : 0 < n) :
    ∃ l', ('-' :: Nat.toDigits 10 n).foldlM step l = some l' ∧
      l'.Settled (.integer (-n) :: out) := by
  obtain ⟨c, cs, heq, hc, hdigit, hdigits⟩ := exists_toDigits hn
  have hvalue : digitsValue (c :: cs) = n := heq ▸ digitsValue_toDigits n
  have htoken : numberToken .digits (cs.reverse ++ [c, '-']).reverse = .integer (-n) := by
    rw [← hvalue, ← numberToken_sign (by omega)]
    simp
  have hsign : begin? out '-' = some { scan := .number .sign ['-'], output := out } := rfl
  refine ⟨_, ?_, htoken ▸ settled_number rfl (by rw [htoken]; rfl)⟩
  rw [heq, List.foldlM_cons, h.first (by decide), hsign]
  simpa [step, Phase.next?, hc, hdigit] using foldlM_digits hdigits [c, '-'] out

/-- The text of an integer is read back, behind any other token than an integer. -/
theorem Settled.integer (h : l.Settled out) (hout : ∀ t ∈ out.head?, t.isInteger = false)
    (n : Int) :
    ∃ l', n.repr.toList.foldlM step l = some l' ∧ l'.Settled (.integer n :: out) := by
  rw [Int.repr_eq_if]
  obtain hneg | rfl | hpos := Int.lt_trichotomy n 0
  · have hrun := h.negative (show 0 < (-n).toNat by omega)
    rw [show -((-n).toNat : Int) = n by omega] at hrun
    rw [if_neg (by omega), String.toList_append, Nat.toList_repr]
    exact hrun
  · refine ⟨{ scan := .number .zero ['0'], output := out }, ?_, settled_number rfl rfl⟩
    rw [if_pos (by omega), Nat.toList_repr, Int.toNat_zero, Nat.toDigits_zero, List.foldlM_cons,
      h.next '0' fun _ => hout]
    rfl
  · have hrun := h.positive hout (show 0 < n.toNat by omega)
    rw [show (n.toNat : Int) = n by omega] at hrun
    rw [if_pos (by omega), Nat.toList_repr]
    exact hrun

/-! ### Streams -/

/-- **A token is read back.** An integer needs another token in front of it. -/
theorem Settled.token {t : Token} (h : l.Settled out) (hplain : t.isPlain = true)
    (hout : t.isInteger = true → ∀ t ∈ out.head?, t.isInteger = false) :
    ∃ l', t.text.toList.foldlM step l = some l' ∧ l'.Settled (t :: out) := by
  have hpunctuation : ∀ {c : Char} {t : Token}, extendsNumber c = false →
      begin? out c = some (emit out t) →
      ∃ l', [c].foldlM step l = some l' ∧ l'.Settled (t :: out) := by
    intro c t hc hbegin
    exact ⟨emit out t, by simp [h.first hc, hbegin], settled_ready _⟩
  cases t with
  | openArr => exact hpunctuation (by decide) rfl
  | closeArr => exact hpunctuation (by decide) rfl
  | openObj => exact hpunctuation (by decide) rfl
  | closeObj => exact hpunctuation (by decide) rfl
  | comma => exact hpunctuation (by decide) rfl
  | colon => exact hpunctuation (by decide) rfl
  | null =>
      refine ⟨_, ?_, settled_ready _⟩
      show ['n', 'u', 'l', 'l'].foldlM step l = _
      rw [List.foldlM_cons, h.first (by decide)]
      rfl
  | bool b =>
      refine ⟨_, ?_, settled_ready _⟩
      cases b with
      | true =>
          show ['t', 'r', 'u', 'e'].foldlM step l = _
          rw [List.foldlM_cons, h.first (by decide)]
          rfl
      | false =>
          show ['f', 'a', 'l', 's', 'e'].foldlM step l = _
          rw [List.foldlM_cons, h.first (by decide)]
          rfl
  | integer n => exact h.integer (hout rfl) n
  | real lexeme => cases hplain
  | str text =>
      cases text with
      | none => cases hplain
      | some s => exact ⟨_, h.quote s, settled_ready _⟩

/-- A text is read as the stream that it spells, from any place between two tokens. -/
theorem Settled.spells {cs : List Char} {ts : List Token} (hspells : Spells cs ts)
    (h : l.Settled out) (hplain : ∀ t ∈ ts, t.isPlain = true)
    (hout : ∀ a ∈ out.head?, ∀ b ∈ ts.head?, Apart a b) (hchain : ts.IsChain Apart) :
    ∃ l', cs.foldlM step l = some l' ∧ l'.Settled (ts.reverse ++ out) := by
  induction hspells generalizing l out with
  | nil => exact ⟨l, rfl, h⟩
  | blank hc hspells ih =>
      rw [List.foldlM_cons, h.blank hc]
      exact ih (settled_ready out) hplain hout hchain
  | token t hspells ih =>
      rw [List.forall_mem_cons] at hplain
      rw [List.isChain_cons] at hchain
      obtain ⟨l₁, hrun₁, h₁⟩ := h.token hplain.1 fun ht a ha => hout a ha t rfl ht
      obtain ⟨l₂, hrun₂, h₂⟩ := ih h₁ hplain.2 (by simpa using hchain.1) hchain.2
      refine ⟨l₂, ?_, by simpa using h₂⟩
      rw [List.foldlM_append, hrun₁]
      exact hrun₂

end Lexer

/-- **A text is read as the stream that it spells.** -/
theorem lex?_of_spells {text : String} {ts : List Token} (hspells : Spells text.toList ts)
    (hplain : ∀ t ∈ ts, t.isPlain = true) (hchain : ts.IsChain Apart) :
    lex? text = some ts := by
  obtain ⟨l, hrun, hl⟩ :=
    Lexer.Settled.spells hspells (Lexer.settled_ready []) hplain (by simp) hchain
  have hfinish := hl.finish
  rw [List.append_nil, List.reverse_reverse] at hfinish
  rw [lex?, Lexer.start, hrun]
  exact hfinish

end Json

end RegIR
