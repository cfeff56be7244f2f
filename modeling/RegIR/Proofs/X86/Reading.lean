import RegIR.Proofs.Select.Encoding

/-!
# Reading instructions back

The text of an instruction determines it. This is shown by a reader: the mnemonic ends at the
first blank, the operands stand between commas, and the first characters of an operand tell its
kind.

## Conventions

*Symbols.* A label is printed as it is, so nothing can be said of labels with blanks or commas in
them. `IsSymbol` allows what assemblers allow in a symbol: letters, digits, and three more
characters. Letters outside ASCII are allowed, and the empty symbol does no harm.

*Readers.* A reader is only asked to give back what was printed. What it makes of other texts does
not matter, so it skips punctuation without a look at it.

## Main results

* `Operand.read?_text`: an operand can be read back.
* `Instr.read?_text`: so can an instruction.
-/

namespace RegIR

namespace X86

/-! ### Symbols -/

/-- A character that may stand in a symbol. -/
def isSymbolChar (c : Char) : Bool :=
  c.isAlphanum || c == '_' || c == '$' || c == '.' || 127 < c.toNat

/-- Every character of the text may stand in a symbol. -/
def IsSymbol (s : String) : Prop :=
  s.toList.all isSymbolChar = true

instance (s : String) : Decidable (IsSymbol s) :=
  inferInstanceAs (Decidable (s.toList.all isSymbolChar = true))

theorem IsSymbol.isSymbolChar {s : String} (h : IsSymbol s) :
    ∀ c ∈ s.toList, X86.isSymbolChar c = true :=
  List.all_eq_true.mp h

/-- A character that may stand in an operand. -/
def isOperandChar (c : Char) : Bool :=
  isSymbolChar c || c == ' ' || c == '[' || c == ']' || c == '+' || c == '-'

theorem isOperandChar_of_isSymbolChar {c : Char} (h : isSymbolChar c = true) :
    isOperandChar c = true := by
  simp [isOperandChar, h]

theorem isOperandChar_of_isAlphanum {c : Char} (h : c.isAlphanum = true) :
    isOperandChar c = true := by
  simp [isOperandChar, isSymbolChar, h]

/-- A character outside a class is in no text of that class. -/
theorem notMem_of_all {p : Char → Bool} {cs : List Char} {a : Char}
    (h : ∀ c ∈ cs, p c = true) (ha : p a = false) : a ∉ cs := by
  intro hmem
  rw [h a hmem] at ha
  cases ha

/-! ### Cutting a text -/

/-- A text, cut in front of the first occurrence of a character. -/
def cutAt (a : Char) (cs : List Char) : List Char × List Char :=
  (cs.takeWhile (· != a), cs.dropWhile (· != a))

theorem bne_of_notMem {a : Char} {cs : List Char} (h : a ∉ cs) : ∀ c ∈ cs, (c != a) = true :=
  fun _ hc => bne_iff_ne.mpr (ne_of_mem_of_not_mem hc h)

theorem cutAt_append {a : Char} {cs : List Char} (h : a ∉ cs) (rest : List Char) :
    cutAt a (cs ++ a :: rest) = (cs, a :: rest) := by
  have hne := bne_of_notMem h
  simp [cutAt, List.takeWhile_append_of_pos hne, List.dropWhile_append_of_pos hne]

theorem cutAt_of_notMem {a : Char} {cs : List Char} (h : a ∉ cs) : cutAt a cs = (cs, []) := by
  have hne := bne_of_notMem h
  have htake := @List.takeWhile_append_of_pos _ (· != a) cs [] hne
  have hdrop := @List.dropWhile_append_of_pos _ (· != a) cs [] hne
  simpa [cutAt] using And.intro htake hdrop

theorem mem_intercalate {sep c : Char} {rows : List (List Char)}
    (h : c ∈ [sep].intercalate rows) : c = sep ∨ ∃ row ∈ rows, c ∈ row := by
  induction rows with
  | nil => cases h
  | cons row rows ih =>
    cases rows with
    | nil => exact .inr ⟨row, List.mem_cons_self, by simpa using h⟩
    | cons row' rest =>
      rw [List.intercalate_cons_cons, List.mem_append, List.mem_append] at h
      rcases h with (hrow | hsep) | hrest
      · exact .inr ⟨row, List.mem_cons_self, hrow⟩
      · exact .inl (List.mem_singleton.mp hsep)
      · rcases ih hrest with hsep | ⟨r, hr, hc⟩
        · exact .inl hsep
        · exact .inr ⟨r, List.mem_cons_of_mem _ hr, hc⟩

/-! ### Registers and numbers -/

/-- Is the character the first of a number? -/
def startsNumber (c : Char) : Bool :=
  c.isDigit || c == '-'

namespace Reg

/-- Every register at every width. -/
def named : List (Reg × Width) :=
  all.flatMap fun r => [(r, .byte), (r, .word), (r, .dword), (r, .qword)]

theorem mem_named (r : Reg) (w : Width) : (r, w) ∈ named := by
  refine List.mem_flatMap.mpr ⟨r, r.mem_all, ?_⟩
  cases w <;> simp

/-- The register of a name, and the width. -/
def ofName? (s : String) : Option (Reg × Width) :=
  named.find? fun p => p.1.name p.2 == s

theorem ofName?_name (r : Reg) (w : Width) : ofName? (r.name w) = some (r, w) := by
  have hall : ∀ p ∈ named, ofName? (p.1.name p.2) = some p := by decide +kernel
  exact hall (r, w) (mem_named r w)

theorem isAlphanum_of_mem_name {r : Reg} {w : Width} {c : Char} (h : c ∈ (r.name w).toList) :
    c.isAlphanum = true := by
  have hall : ∀ p ∈ named, (p.1.name p.2).toList.all Char.isAlphanum = true := by
    decide +kernel
  exact List.all_eq_true.mp (hall (r, w) (mem_named r w)) c h

/-- A name does not start as a number does. -/
theorem name_startsNumber (r : Reg) (w : Width) :
    (r.name w).toList.head?.all startsNumber = false := by
  have hall : ∀ p ∈ named, (p.1.name p.2).toList.head?.all startsNumber = false := by
    decide +kernel
  exact hall (r, w) (mem_named r w)

end Reg

theorem isDigit_of_mem_repr {n : Nat} {c : Char} (h : c ∈ n.repr.toList) : c.isDigit = true := by
  rw [Nat.toList_repr] at h
  exact Nat.isDigit_of_mem_toDigits (by decide) (by decide) h

theorem isAlphanum_of_isDigit {c : Char} (h : c.isDigit = true) : c.isAlphanum = true := by
  simp [Char.isAlphanum, h]

theorem mem_repr_int {n : Int} {c : Char} (h : c ∈ n.repr.toList) :
    c.isDigit = true ∨ c = '-' := by
  rw [Int.repr_eq_if] at h
  split at h
  · exact .inl (isDigit_of_mem_repr h)
  · rw [String.toList_append, List.mem_append] at h
    rcases h with hsign | hdigits
    · exact .inr (by simpa using hsign)
    · exact .inl (isDigit_of_mem_repr hdigits)

theorem repr_int_startsNumber (n : Int) : n.repr.toList.head?.all startsNumber = true := by
  cases hchars : n.repr.toList with
  | nil => rfl
  | cons c cs =>
    have hmem : c ∈ n.repr.toList := hchars ▸ List.mem_cons_self
    rcases mem_repr_int hmem with hdigit | rfl
    · simp [startsNumber, hdigit]
    · rfl

/-- The number of a text with a sign or none. The empty text is zero. -/
def readInt (cs : List Char) : Int :=
  (if '-' ∈ cs then -1 else 1) * Nat.ofDigitChars 10 (cs.filter Char.isDigit) 0

theorem readInt_append (sign : List Char) (hsign : sign.filter Char.isDigit = []) (n : Nat) :
    readInt (sign ++ n.repr.toList) = (if '-' ∈ sign then -1 else 1) * n := by
  have hdigits : n.repr.toList.filter Char.isDigit = n.repr.toList :=
    List.filter_eq_self.mpr fun c hc => isDigit_of_mem_repr hc
  have hminus : '-' ∉ n.repr.toList := notMem_of_all (fun c hc => isDigit_of_mem_repr hc) rfl
  have hvalue : Nat.ofDigitChars 10 n.repr.toList 0 = n := by
    rw [Nat.toList_repr, Nat.ofDigitChars_ten_toDigits]
  simp only [readInt, List.filter_append, hsign, hdigits, List.nil_append, hvalue,
    List.mem_append, hminus, or_false]

theorem readInt_repr (n : Int) : readInt n.repr.toList = n := by
  rw [Int.repr_eq_if]
  split
  · have hread := readInt_append [] rfl n.toNat
    rw [List.nil_append] at hread
    rw [hread, if_neg List.not_mem_nil]
    omega
  · have hread := readInt_append ['-'] rfl (-n).toNat
    rw [String.toList_append, show "-".toList = ['-'] from rfl, hread,
      if_pos List.mem_cons_self]
    omega

/-! ### Operands -/

namespace Operand

/-- The width that is written in front of a bracket. -/
def readWidth? : String → Option (Option Width)
  | "" => some none
  | "BYTE PTR " => some (some .byte)
  | "WORD PTR " => some (some .word)
  | "DWORD PTR " => some (some .dword)
  | "QWORD PTR " => some (some .qword)
  | _ => none

/-- The operand of a text without brackets. -/
def readPlain? (cs : List Char) : Option Operand :=
  if cs.head?.all startsNumber then some (imm (Int64.ofInt (readInt cs)))
  else (Reg.ofName? (String.ofList cs)).map fun p => reg p.1 p.2

/-- The memory at a register, from the text behind the bracket. -/
def readMem? (w : Option Width) (cs : List Char) : Option Operand :=
  (Reg.ofName? (String.ofList (cs.takeWhile Char.isAlphanum))).map fun p =>
    mem w p.1 (Int32.ofInt (readInt (cs.dropWhile Char.isAlphanum).dropLast))

/-- The operand of a text. Inside brackets, only an address at a label has blanks. -/
def read? (cs : List Char) : Option Operand :=
  match cutAt '[' cs with
  | (plain, []) => readPlain? plain
  | (width, _ :: inner) =>
      match cutAt ' ' inner with
      | (_, []) => (readWidth? (String.ofList width)).bind fun w => readMem? w inner
      | (_, rest) => some (rip (String.ofList (rest.drop 3).dropLast))

/-- The label of an operand. -/
def label? : Operand → Option String
  | rip label => some label
  | _ => none

/-- The keyword of an access with the blank behind it. -/
def widthText : Option Width → String
  | some w => w.keyword ++ " "
  | none => ""

theorem toList_text_mem (w : Option Width) (base : Reg) (disp : Int32) :
    (mem w base disp).text.toList =
      (widthText w).toList ++ '[' :: (base.text.toList ++ ((dispText disp).toList ++ [']'])) := by
  cases w <;> simp [text, widthText]

theorem toList_text_rip (label : String) :
    (rip label).text.toList =
      '[' :: ("rip".toList ++ ' ' :: '+' :: ' ' :: (label.toList ++ [']'])) := by
  simp [text]

theorem readWidth?_widthText (w : Option Width) : readWidth? (widthText w) = some w := by
  cases w with
  | none => rfl
  | some w => cases w <;> rfl

theorem isOperandChar_of_mem_widthText {w : Option Width} {c : Char}
    (h : c ∈ (widthText w).toList) : isOperandChar c = true ∧ c ≠ '[' := by
  have hall : (widthText w).toList.all (fun c => isOperandChar c && c != '[') = true := by
    cases w with
    | none => decide
    | some w => cases w <;> decide
  simpa using List.all_eq_true.mp hall c h

/-- A displacement is nothing, or a sign and a number. -/
theorem toList_dispText (disp : Int32) :
    (disp.toInt = 0 ∧ (dispText disp).toList = []) ∨
    (disp.toInt < 0 ∧ (dispText disp).toList = ['-'] ++ disp.toInt.natAbs.repr.toList) ∨
    (0 < disp.toInt ∧ (dispText disp).toList = ['+'] ++ disp.toInt.natAbs.repr.toList) := by
  unfold dispText
  split
  · exact .inl ⟨‹_›, rfl⟩
  split
  · exact .inr (.inl ⟨‹_›, String.toList_append⟩)
  · exact .inr (.inr ⟨by omega, String.toList_append⟩)

theorem isOperandChar_of_mem_dispText {disp : Int32} {c : Char}
    (h : c ∈ (dispText disp).toList) : isOperandChar c = true ∧ c ≠ ' ' := by
  have hdigit : c ∈ disp.toInt.natAbs.repr.toList → isOperandChar c = true ∧ c ≠ ' ' := by
    intro hmem
    have hd := isDigit_of_mem_repr hmem
    refine ⟨isOperandChar_of_isAlphanum (isAlphanum_of_isDigit hd), ?_⟩
    rintro rfl
    exact absurd hd (by decide)
  rcases toList_dispText disp with ⟨-, htext⟩ | ⟨-, htext⟩ | ⟨-, htext⟩ <;> rw [htext] at h
  · cases h
  all_goals
    rcases List.mem_cons.mp h with rfl | hmem
    · decide
    · exact hdigit hmem

theorem readInt_dispText (disp : Int32) : readInt (dispText disp).toList = disp.toInt := by
  rcases toList_dispText disp with ⟨hsign, htext⟩ | ⟨hsign, htext⟩ | ⟨hsign, htext⟩ <;>
    rw [htext]
  · exact hsign.symm
  · rw [readInt_append _ rfl, if_pos List.mem_cons_self]
    omega
  · rw [readInt_append _ rfl, if_neg (by decide)]
    omega

/-- The name of a register ends where its displacement or the bracket starts. -/
theorem dispText_bracket (disp : Int32) :
    ∃ c rest, (dispText disp).toList ++ [']'] = c :: rest ∧ c.isAlphanum = false := by
  rcases toList_dispText disp with ⟨-, htext⟩ | ⟨-, htext⟩ | ⟨-, htext⟩ <;> rw [htext]
  · exact ⟨']', [], rfl, rfl⟩
  · exact ⟨'-', _, rfl, rfl⟩
  · exact ⟨'+', _, rfl, rfl⟩

theorem readMem?_text (w : Option Width) (base : Reg) (disp : Int32) :
    readMem? w (base.text.toList ++ ((dispText disp).toList ++ [']'])) =
      some (mem w base disp) := by
  have hname : ∀ c ∈ base.text.toList, c.isAlphanum = true := fun c hc =>
    Reg.isAlphanum_of_mem_name hc
  obtain ⟨c, rest, hrest, hc⟩ := dispText_bracket disp
  have htake : (c :: rest).takeWhile Char.isAlphanum = [] := by simp [hc]
  have hdrop : (c :: rest).dropWhile Char.isAlphanum = c :: rest := by simp [hc]
  have hbase : Reg.ofName? (String.ofList base.text.toList) = some (base, .qword) := by
    rw [String.ofList_toList]
    exact Reg.ofName?_name base .qword
  rw [readMem?, List.takeWhile_append_of_pos hname, List.dropWhile_append_of_pos hname, hrest,
    htake, hdrop, List.append_nil, hbase, ← hrest, List.dropLast_concat, readInt_dispText,
    Int32.ofInt_toInt]
  rfl

theorem readPlain?_reg (r : Reg) (w : Width) : readPlain? (r.name w).toList = some (reg r w) := by
  rw [readPlain?, Reg.name_startsNumber, if_neg Bool.false_ne_true, String.ofList_toList,
    Reg.ofName?_name]
  rfl

theorem readPlain?_imm (value : Int64) :
    readPlain? value.toInt.repr.toList = some (imm value) := by
  rw [readPlain?, if_pos (repr_int_startsNumber _), readInt_repr, Int64.ofInt_toInt]

/-- Everything in an operand whose label is a symbol is of one class of characters, to which
commas and line ends do not belong. -/
theorem isOperandChar_of_mem_text {o : Operand} (h : ∀ s ∈ o.label?, IsSymbol s) {c : Char}
    (hc : c ∈ o.text.toList) : isOperandChar c = true := by
  cases o with
  | reg r w =>
    exact isOperandChar_of_isAlphanum (Reg.isAlphanum_of_mem_name hc)
  | imm value =>
    rcases mem_repr_int hc with hdigit | rfl
    · exact isOperandChar_of_isAlphanum (isAlphanum_of_isDigit hdigit)
    · rfl
  | mem w base disp =>
    rw [toList_text_mem] at hc
    simp only [List.mem_append, List.mem_cons, List.not_mem_nil, or_false] at hc
    rcases hc with hwidth | rfl | hbase | hdisp | rfl
    · exact (isOperandChar_of_mem_widthText hwidth).1
    · rfl
    · exact isOperandChar_of_isAlphanum (Reg.isAlphanum_of_mem_name hbase)
    · exact (isOperandChar_of_mem_dispText hdisp).1
    · rfl
  | rip label =>
    have hrip : "rip".toList.all isOperandChar = true := by decide
    rw [toList_text_rip] at hc
    simp only [List.mem_append, List.mem_cons, List.not_mem_nil, or_false] at hc
    rcases hc with rfl | hword | rfl | rfl | rfl | hlabel | rfl
    · rfl
    · exact List.all_eq_true.mp hrip c hword
    · rfl
    · rfl
    · rfl
    · exact isOperandChar_of_isSymbolChar ((h label rfl).isSymbolChar c hlabel)
    · rfl

/-- An operand can be read back. -/
theorem read?_text (o : Operand) : read? o.text.toList = some o := by
  cases o with
  | reg r w =>
    have hplain : '[' ∉ (r.name w).toList :=
      notMem_of_all (fun c hc => Reg.isAlphanum_of_mem_name hc) rfl
    simp only [text, read?, cutAt_of_notMem hplain, readPlain?_reg]
  | imm value =>
    have hplain : '[' ∉ value.toInt.repr.toList := by
      intro hmem
      rcases mem_repr_int hmem with h | h <;> exact absurd h (by decide)
    simp only [text, read?, cutAt_of_notMem hplain, readPlain?_imm]
  | mem w base disp =>
    have hwidth : '[' ∉ (widthText w).toList := fun hmem =>
      (isOperandChar_of_mem_widthText hmem).2 rfl
    have hinner : ' ' ∉ base.text.toList ++ ((dispText disp).toList ++ [']']) := by
      simp only [List.mem_append, List.mem_singleton, not_or]
      exact ⟨notMem_of_all (fun c hc => Reg.isAlphanum_of_mem_name hc) rfl,
        fun hmem => (isOperandChar_of_mem_dispText hmem).2 rfl, by decide⟩
    simp only [toList_text_mem, read?, cutAt_append hwidth, cutAt_of_notMem hinner,
      String.ofList_toList, readWidth?_widthText, Option.bind_some, readMem?_text]
  | rip label =>
    have hrip : ' ' ∉ "rip".toList := by decide
    have hcut (cs : List Char) : cutAt '[' ('[' :: cs) = ([], '[' :: cs) :=
      cutAt_append List.not_mem_nil cs
    simp only [toList_text_rip, read?, hcut, cutAt_append hrip, List.drop_succ_cons,
      List.drop_zero, List.dropLast_concat, String.ofList_toList]

end Operand

/-! ### Instructions -/

namespace Instr

/-- The word in front of the operands. -/
def mnemonic : Instr → String
  | mov _ _ => "mov"
  | movsx _ _ => "movsx"
  | movzx _ _ => "movzx"
  | lea _ _ => "lea"
  | push _ => "push"
  | pop _ => "pop"
  | alu op _ _ => op.text
  | imul3 _ _ _ => "imul"
  | neg _ => "neg"
  | not _ => "not"
  | cdq => "cdq"
  | cqo => "cqo"
  | idiv _ => "idiv"
  | div _ => "div"
  | cmp _ _ => "cmp"
  | jmp _ => "jmp"
  | jcc cond _ => "j" ++ cond.text
  | call _ => "call"
  | leave => "leave"
  | ret => "ret"

/-- The symbol an instruction goes to. -/
def symbol? : Instr → Option String
  | jmp target | jcc _ target | call target => some target
  | _ => none

/-- The symbols in the text of an instruction. -/
def symbols (i : Instr) : List String :=
  i.symbol?.toList ++ i.operands.filterMap Operand.label?

/-- What stands behind the mnemonic, without the commas. -/
def arguments (i : Instr) : List (List Char) :=
  (i.symbol?.toList ++ i.operands.map Operand.text).map String.toList

/-- The instruction that goes to a symbol, for its mnemonic. -/
def ofTarget? : String → Option (String → Instr)
  | "jmp" => some jmp
  | "call" => some call
  | "je" => some (jcc .e)
  | "jne" => some (jcc .ne)
  | "jg" => some (jcc .g)
  | "jl" => some (jcc .l)
  | "jge" => some (jcc .ge)
  | "jle" => some (jcc .le)
  | _ => none

/-- The instruction of a mnemonic and operands. -/
def ofOperands? : String → List Operand → Option Instr
  | "mov", [dst, src] => some (mov dst src)
  | "movsx", [dst, src] => some (movsx dst src)
  | "movzx", [dst, src] => some (movzx dst src)
  | "lea", [dst, src] => some (lea dst src)
  | "push", [src] => some (push src)
  | "pop", [dst] => some (pop dst)
  | "add", [dst, src] => some (alu .add dst src)
  | "sub", [dst, src] => some (alu .sub dst src)
  | "imul", [dst, src] => some (alu .imul dst src)
  | "and", [dst, src] => some (alu .and dst src)
  | "or", [dst, src] => some (alu .or dst src)
  | "xor", [dst, src] => some (alu .xor dst src)
  | "imul", [dst, src, .imm factor] => some (imul3 dst src factor)
  | "neg", [dst] => some (neg dst)
  | "not", [dst] => some (not dst)
  | "cdq", [] => some cdq
  | "cqo", [] => some cqo
  | "idiv", [src] => some (idiv src)
  | "div", [src] => some (div src)
  | "cmp", [left, right] => some (cmp left right)
  | "leave", [] => some leave
  | "ret", [] => some ret
  | _, _ => none

/-- What stands between the commas, without the blank in front of it. -/
def readArguments (cs : List Char) : List (List Char) :=
  if cs.isEmpty then [] else (cs.splitOn ',').map List.tail

/-- The instruction of a text. -/
def read? (cs : List Char) : Option Instr :=
  let word := String.ofList (cutAt ' ' cs).1
  let args := (cutAt ' ' cs).2
  match ofTarget? word with
  | some make => some (make (String.ofList args.tail))
  | none => ((readArguments args).mapM Operand.read?).bind (ofOperands? word)

theorem toList_text (i : Instr) :
    i.text.toList = i.mnemonic.toList ++ [','].intercalate (i.arguments.map (' ' :: ·)) := by
  cases i <;>
    simp [text, binaryText, mnemonic, arguments, symbol?, List.intercalate, Operand.text]

theorem isAlphanum_of_mem_mnemonic {i : Instr} {c : Char} (h : c ∈ i.mnemonic.toList) :
    c.isAlphanum = true := by
  have hall : i.mnemonic.toList.all Char.isAlphanum = true := by
    cases i with
    | alu op _ _ => cases op <;> dsimp only [mnemonic] <;> decide
    | jcc cond _ => cases cond <;> dsimp only [mnemonic] <;> decide
    | _ => dsimp only [mnemonic]; decide
  exact List.all_eq_true.mp hall c h

theorem ofTarget?_of_symbol? {i : Instr} {s : String} (h : i.symbol? = some s) :
    ∃ make, ofTarget? i.mnemonic = some make ∧ make s = i := by
  cases i with
  | jmp _ | call _ => cases h; exact ⟨_, rfl, rfl⟩
  | jcc cond _ => cases h; cases cond <;> exact ⟨_, rfl, rfl⟩
  | _ => cases h

theorem ofTarget?_eq_none {i : Instr} (h : i.symbol? = none) : ofTarget? i.mnemonic = none := by
  cases i with
  | alu op _ _ => cases op <;> rfl
  | jmp _ | call _ | jcc _ _ => cases h
  | _ => rfl

theorem ofOperands?_operands {i : Instr} (h : i.symbol? = none) :
    ofOperands? i.mnemonic i.operands = some i := by
  cases i with
  | alu op _ _ => cases op <;> rfl
  | jmp _ | call _ | jcc _ _ => cases h
  | _ => rfl

theorem arguments_of_symbol? {i : Instr} {s : String} (h : i.symbol? = some s) :
    i.arguments = [s.toList] := by
  cases i with
  | jmp _ | call _ | jcc _ _ => cases h; rfl
  | _ => cases h

theorem arguments_of_symbol?_eq_none {i : Instr} (h : i.symbol? = none) :
    i.arguments = i.operands.map (·.text.toList) := by
  rw [arguments, h, Option.toList_none, List.nil_append, List.map_map]
  rfl

/-- Everything behind the mnemonic is of the class of characters of operands. -/
theorem isOperandChar_of_mem_arguments {i : Instr} (h : ∀ s ∈ i.symbols, IsSymbol s)
    {arg : List Char} (harg : arg ∈ i.arguments) : ∀ c ∈ arg, isOperandChar c = true := by
  obtain ⟨s, hs, rfl⟩ := List.mem_map.mp harg
  rcases List.mem_append.mp hs with htarget | hoperand
  · have hsymbol := h s (List.mem_append_left _ htarget)
    exact fun c hc => isOperandChar_of_isSymbolChar (hsymbol.isSymbolChar c hc)
  · obtain ⟨o, ho, rfl⟩ := List.mem_map.mp hoperand
    have hlabel : ∀ s ∈ o.label?, IsSymbol s := fun s hs =>
      h s (List.mem_append_right _ (List.mem_filterMap.mpr ⟨o, ho, hs⟩))
    exact fun c hc => Operand.isOperandChar_of_mem_text hlabel hc

/-- The mnemonic ends at the first blank. -/
theorem cutAt_text (i : Instr) :
    cutAt ' ' i.text.toList =
      (i.mnemonic.toList, [','].intercalate (i.arguments.map (' ' :: ·))) := by
  have hword : ' ' ∉ i.mnemonic.toList :=
    notMem_of_all (fun c hc => isAlphanum_of_mem_mnemonic hc) rfl
  rw [toList_text]
  cases i.arguments with
  | nil => simpa using cutAt_of_notMem hword
  | cons arg args => cases args <;> exact cutAt_append hword _

theorem readArguments_intercalate {args : List (List Char)} (h : ∀ arg ∈ args, ',' ∉ arg) :
    readArguments ([','].intercalate (args.map (' ' :: ·))) = args := by
  cases args with
  | nil => rfl
  | cons arg args =>
    have hne : ([','].intercalate ((arg :: args).map (' ' :: ·))).isEmpty = false := by
      cases args <;> rfl
    have hcomma : ∀ row ∈ (arg :: args).map (' ' :: ·), ',' ∉ row := by
      intro row hrow
      obtain ⟨arg', harg', rfl⟩ := List.mem_map.mp hrow
      simp [h arg' harg']
    rw [readArguments, hne, if_neg Bool.false_ne_true,
      List.splitOn_intercalate _ hcomma (by simp), List.map_map]
    exact List.map_id _

theorem mapM_read?_text (os : List Operand) :
    (os.map (·.text.toList)).mapM Operand.read? = some os := by
  induction os with
  | nil => rfl
  | cons o os ih => simp [Operand.read?_text, ih]

/-- An instruction whose labels are symbols can be read back. -/
theorem read?_text {i : Instr} (h : ∀ s ∈ i.symbols, IsSymbol s) :
    read? i.text.toList = some i := by
  simp only [read?, cutAt_text, String.ofList_toList]
  cases hsymbol : i.symbol? with
  | some s =>
    obtain ⟨make, hmake, hi⟩ := ofTarget?_of_symbol? hsymbol
    simp only [hmake, arguments_of_symbol? hsymbol, List.map_cons, List.map_nil,
      List.intercalate_singleton, List.tail_cons, String.ofList_toList, hi]
  | none =>
    have hcomma : ∀ arg ∈ i.arguments, ',' ∉ arg := fun arg harg =>
      notMem_of_all (isOperandChar_of_mem_arguments h harg) rfl
    simp only [ofTarget?_eq_none hsymbol, readArguments_intercalate hcomma]
    rw [arguments_of_symbol?_eq_none hsymbol, mapM_read?_text, Option.bind_some,
      ofOperands?_operands hsymbol]

/-- The text of an instruction is one line. -/
theorem lineEnd_notMem_text {i : Instr} (h : ∀ s ∈ i.symbols, IsSymbol s) :
    '\n' ∉ i.text.toList := by
  rw [toList_text, List.mem_append, not_or]
  refine ⟨notMem_of_all (fun c hc => isAlphanum_of_mem_mnemonic hc) rfl, fun hmem => ?_⟩
  rcases mem_intercalate hmem with hcomma | ⟨row, hrow, hc⟩
  · exact absurd hcomma (by decide)
  · obtain ⟨arg, harg, rfl⟩ := List.mem_map.mp hrow
    have harg := notMem_of_all (a := '\n') (isOperandChar_of_mem_arguments h harg) rfl
    simp [harg] at hc

end Instr

end X86

end RegIR
