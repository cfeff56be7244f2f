import RegIR.Proofs.X86.Reading

/-!
# Printing loses nothing

Two files with the same text have the same lines. A file is cut at its line ends, and each line is
read back: what starts with a blank is an instruction, what has a colon is a label or a string
constant, and the first word tells the directives apart.

## Conventions

*Printable lines.* Symbols and string constants are printed as they are. A line is `Printable` if
its symbols are symbols to an assembler and its constant has no line end in it. Nothing else is
asked of the constant: quotes and colons in it do not confuse the reader, which takes what stands
between the first colon and the last quote.

## Main results

* `Line.read?_row`: a printable line can be read back.
* `splitOn_render`: the text of a file has one line for each of its lines.
* `render_inj_of_printable`: printable files with the same text are the same.
-/

namespace RegIR

namespace X86

namespace Line

/-- The symbols in a line. -/
def symbols : Line → List String
  | globl name | functionType name | external name | stringConst name _ | label name => [name]
  | instr i => i.symbols
  | intelSyntax | dataSection | textSection | blank => []

/-- The string constant in a line. -/
def constant? : Line → Option String
  | stringConst _ value => some value
  | _ => none

/-- What is printed as it is cannot be taken for anything else. -/
structure Printable (l : Line) : Prop where
  symbols : ∀ s ∈ l.symbols, IsSymbol s
  constant : ∀ value ∈ l.constant?, '\n' ∉ value.toList

instance (l : Line) : Decidable l.Printable :=
  decidable_of_iff ((∀ s ∈ l.symbols, IsSymbol s) ∧ ∀ value ∈ l.constant?, '\n' ∉ value.toList)
    ⟨fun h => ⟨h.1, h.2⟩, fun h => ⟨h.symbols, h.constant⟩⟩

/-- The characters of a line in front of its line end. -/
def row (l : Line) : List Char :=
  (if l.isUnindented then [] else [' ', ' ']) ++ l.text.toList

theorem toList_render (l : Line) : l.render.toList = l.row ++ ['\n'] := by
  cases h : l.isUnindented <;> simp [render, row, h]

/-! ### One line each -/

theorem Printable.lineEnd_notMem_row {l : Line} (h : l.Printable) : '\n' ∉ l.row := by
  have hsymbol : ∀ s ∈ l.symbols, '\n' ∉ s.toList := fun s hs =>
    notMem_of_all (h.symbols s hs).isSymbolChar rfl
  cases l with
  | instr i => simpa [row, isUnindented, text] using Instr.lineEnd_notMem_text h.symbols
  | stringConst name value =>
    have hname := hsymbol name List.mem_cons_self
    have hvalue := h.constant value rfl
    simp [row, isUnindented, text, hname, hvalue]
  | globl name | functionType name | external name | label name =>
    have hname := hsymbol name List.mem_cons_self
    simp [row, isUnindented, text, hname]
  | _ => decide

/-! ### Reading a line -/

/-- The directive of a first word, and of the name behind it where it takes one. -/
def ofDirective? (word name : String) : Option Line :=
  match word with
  | "" => some blank
  | ".intel_syntax" => some intelSyntax
  | ".data" => some dataSection
  | ".text" => some textSection
  | ".globl" => some (globl name)
  | ".type" => some (functionType name)
  | ".extern" => some (external name)
  | _ => none

/-- The directive of a text. Its name ends at a comma or with the text. -/
def readDirective? (cs : List Char) : Option Line :=
  ofDirective? (String.ofList (cutAt ' ' cs).1)
    (String.ofList (cutAt ',' (cutAt ' ' cs).2.tail).1)

/-- The line of a text at the margin. -/
def readMargin? (cs : List Char) : Option Line :=
  match cutAt ':' cs with
  | (_, []) => readDirective? cs
  | (name, [_]) => some (label (String.ofList name))
  | (name, rest) => some (stringConst (String.ofList name) (String.ofList (rest.drop 11).dropLast))

/-- The line of a text. -/
def read? (cs : List Char) : Option Line :=
  if cs.head? = some ' ' then (Instr.read? (cs.drop 2)).map instr else readMargin? cs

theorem readDirective?_word {word : String} (hword : ' ' ∉ word.toList) (cs : List Char) :
    readDirective? (word.toList ++ ' ' :: cs) =
      ofDirective? word (String.ofList (cutAt ',' cs).1) := by
  rw [readDirective?, cutAt_append hword, String.ofList_toList, List.tail_cons]

theorem readMargin?_of_notMem {cs : List Char} (h : ':' ∉ cs) :
    readMargin? cs = readDirective? cs := by
  rw [readMargin?, cutAt_of_notMem h]

/-- A directive with a name can be read back, whatever it puts behind a comma. -/
theorem readMargin?_named (word : String) {name : String} (tail : List Char)
    (hblank : ' ' ∉ word.toList) (hcolon : ':' ∉ word.toList) (hname : IsSymbol name)
    (htail : tail = [] ∨ ∃ rest, tail = ',' :: rest ∧ ':' ∉ rest) :
    readMargin? (word.toList ++ ' ' :: (name.toList ++ tail)) = ofDirective? word name := by
  have hcomma : ',' ∉ name.toList := notMem_of_all hname.isSymbolChar rfl
  have hnameColon : ':' ∉ name.toList := notMem_of_all hname.isSymbolChar rfl
  rcases htail with rfl | ⟨rest, rfl, hrest⟩
  · rw [readMargin?_of_notMem (by simp [hcolon, hnameColon]), readDirective?_word hblank,
      List.append_nil, cutAt_of_notMem hcomma, String.ofList_toList]
  · rw [readMargin?_of_notMem (by simp [hcolon, hnameColon, hrest]), readDirective?_word hblank,
      cutAt_append hcomma, String.ofList_toList]

theorem readMargin?_label {name : String} (h : IsSymbol name) :
    readMargin? (name.toList ++ [':']) = some (label name) := by
  have hcolon : ':' ∉ name.toList := notMem_of_all h.isSymbolChar rfl
  simp only [readMargin?, cutAt_append hcolon, String.ofList_toList]

theorem readMargin?_stringConst {name : String} (h : IsSymbol name) (value : String) :
    readMargin? (name.toList ++ ':' :: (" .string \"".toList ++ (value.toList ++ ['"']))) =
      some (stringConst name value) := by
  have hcolon : ':' ∉ name.toList := notMem_of_all h.isSymbolChar rfl
  have hopen : " .string \"".toList = [' ', '.', 's', 't', 'r', 'i', 'n', 'g', ' ', '"'] := rfl
  simp only [readMargin?, cutAt_append hcolon, hopen, List.cons_append, List.nil_append,
    List.drop_succ_cons, List.drop_zero, List.dropLast_concat, String.ofList_toList]

/-- A line at the margin does not start with a blank. -/
theorem head?_append_ne_blank {name : String} (h : IsSymbol name) {c : Char} (hc : c ≠ ' ')
    (rest : List Char) : (name.toList ++ c :: rest).head? ≠ some ' ' := by
  have hblank : ' ' ∉ name.toList := notMem_of_all h.isSymbolChar rfl
  cases hchars : name.toList with
  | nil => simpa using hc
  | cons d ds =>
    rw [hchars, List.mem_cons, not_or] at hblank
    simpa using Ne.symm hblank.1

theorem read?_instr {i : Instr} (h : ∀ s ∈ i.symbols, IsSymbol s) :
    read? (instr i).row = some (instr i) := by
  have hread := Instr.read?_text h
  simp [read?, row, isUnindented, text, hread]

/-- A printable line can be read back. -/
theorem read?_row {l : Line} (h : l.Printable) : read? l.row = some l := by
  cases l with
  | intelSyntax | dataSection | textSection | blank => decide +kernel
  | instr i => exact read?_instr h.symbols
  | globl name =>
    have hname := h.symbols name List.mem_cons_self
    have hread := readMargin?_named ".globl" [] (by decide) (by decide) hname (.inl rfl)
    simpa [read?, row, isUnindented, text, ofDirective?] using hread
  | functionType name =>
    have hname := h.symbols name List.mem_cons_self
    have hread := readMargin?_named ".type" ", @function".toList (by decide) (by decide) hname
      (.inr ⟨_, rfl, by decide⟩)
    simpa [read?, row, isUnindented, text, ofDirective?] using hread
  | external name =>
    have hname := h.symbols name List.mem_cons_self
    have hread := readMargin?_named ".extern" [] (by decide) (by decide) hname (.inl rfl)
    simpa [read?, row, isUnindented, text, ofDirective?] using hread
  | stringConst name value =>
    have hname := h.symbols name List.mem_cons_self
    have hrow : (stringConst name value).row =
        name.toList ++ ':' :: (" .string \"".toList ++ (value.toList ++ ['"'])) := by
      simp [row, isUnindented, text]
    rw [hrow, read?, if_neg (head?_append_ne_blank hname (by decide) _),
      readMargin?_stringConst hname]
  | label name =>
    have hname := h.symbols name List.mem_cons_self
    have hrow : (label name).row = name.toList ++ [':'] := by
      simp [row, isUnindented, text]
    rw [hrow, read?, if_neg (head?_append_ne_blank hname (by decide) _), readMargin?_label hname]

theorem row_inj {l m : Line} (hl : l.Printable) (hm : m.Printable) (h : l.row = m.row) :
    l = m := by
  have hread := read?_row hl
  rw [h, read?_row hm] at hread
  exact (Option.some.inj hread).symm

end Line

/-! ### Files -/

theorem toList_render (ls : List Line) :
    (render ls).toList = ls.flatMap fun l => l.row ++ ['\n'] := by
  simp only [render, String.toList_join, List.flatMap_map, Line.toList_render]

/-- The text of a file has one line for each of its lines, and nothing behind the last line end. -/
theorem splitOn_render {ls : List Line} (h : ∀ l ∈ ls, l.Printable) :
    (render ls).toList.splitOn '\n' = ls.map Line.row ++ [[]] := by
  rw [toList_render]
  induction ls with
  | nil => rfl
  | cons l ls ih =>
    have hrow := (h l List.mem_cons_self).lineEnd_notMem_row
    rw [List.flatMap_cons, List.append_assoc, List.singleton_append,
      List.splitOn_append_cons_self_of_not_mem hrow,
      ih fun m hm => h m (List.mem_cons_of_mem _ hm)]
    rfl

theorem map_row_inj {ls ms : List Line} (hls : ∀ l ∈ ls, l.Printable)
    (hms : ∀ m ∈ ms, m.Printable) (h : ls.map Line.row = ms.map Line.row) : ls = ms := by
  induction ls generalizing ms with
  | nil => exact (List.map_eq_nil_iff.mp h.symm).symm
  | cons l ls ih =>
    cases ms with
    | nil => cases h
    | cons m ms =>
      obtain ⟨hhead, htail⟩ := List.cons.inj h
      have hlm := Line.row_inj (hls l List.mem_cons_self) (hms m List.mem_cons_self) hhead
      have hrest := ih (fun x hx => hls x (List.mem_cons_of_mem _ hx))
        (fun x hx => hms x (List.mem_cons_of_mem _ hx)) htail
      rw [hlm, hrest]

/-- **Printing loses nothing.** The text of a printable file has one line for each of its lines,
and files with the same text have the same lines. -/
theorem render_inj_of_printable {ls ms : List Line} (hls : ∀ l ∈ ls, l.Printable)
    (hms : ∀ m ∈ ms, m.Printable) :
    (render ls = render ms ↔ ls = ms) ∧
      (render ls).toList.splitOn '\n' = ls.map Line.row ++ [[]] := by
  refine ⟨⟨fun h => map_row_inj hls hms ?_, fun h => h ▸ rfl⟩, splitOn_render hls⟩
  have hrows := congrArg (fun s : String => s.toList.splitOn '\n') h
  simp only [splitOn_render hls, splitOn_render hms] at hrows
  exact List.append_cancel_right hrows

/-- A constant that looks like two constants, and a product of two operands and of three. -/
def lookalikes : List Line × List Line :=
  ([.stringConst "s" "a\": .string \"b", .label "s", .instr (.imul3 (.qword .rax) (.qword .rax) 8)],
   [.stringConst "s" "a", .stringConst "s" "b", .instr (.alu .imul (.qword .rax) (.qword .rax))])

theorem lookalikes_differ :
    (∀ l ∈ lookalikes.1, l.Printable) ∧ (∀ m ∈ lookalikes.2, m.Printable) ∧
      render lookalikes.1 ≠ render lookalikes.2 ∧
      (render lookalikes.1).toList.splitOn '\n' = lookalikes.1.map Line.row ++ [[]] := by
  have hls : ∀ l ∈ lookalikes.1, l.Printable := by decide
  have hms : ∀ m ∈ lookalikes.2, m.Printable := by decide
  have hprinted := render_inj_of_printable hls hms
  exact ⟨hls, hms, fun h => absurd (hprinted.1.mp h) (by decide), hprinted.2⟩

end X86

end RegIR
