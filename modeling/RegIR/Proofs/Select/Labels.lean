import Mathlib.Data.List.Flatten
import Mathlib.Data.List.Nodup
import Mathlib.Data.List.Pairwise
import Mathlib.Data.List.Perm.Basic
import RegIR.Proofs.Select.Code
import RegIR.Select.Program

/-!
# When labels clash

A local label is made of the name of a function and the name of a block, with a dot between
them; the epilogue is labelled as a block `.epilogue` would be. Names may hold dots, so a label
need not say where the one name ends and the other begins. Here it is found out exactly when two
labels are the same: a block is called `.epilogue`, or the name of a function goes on behind the
whole name of another one and a dot, and what it goes on with is how a block name of the other
begins.

## Main results

* `blockLabel_eq_iff`: the two ways in which labels agree.
* `nodup_labels_iff`: labels are distinct if and only if no names are of these kinds.
* `Module.filterMap_label_lines`: the labels that an assembly file defines.
-/

namespace RegIR

open X86

/-! ### Two labels -/

/-- Where a text with a dot in it can be cut at a dot: at that one, or at one in front of it or
behind it. -/
theorem append_dot_eq_iff {f b g c : List Char} :
    f ++ '.' :: b = g ++ '.' :: c ↔
      (f = g ∧ b = c) ∨ (∃ x, g = f ++ '.' :: x ∧ b = x ++ '.' :: c) ∨
        ∃ x, f = g ++ '.' :: x ∧ c = x ++ '.' :: b := by
  constructor
  · intro h
    rcases List.append_eq_append_iff.mp h with ⟨x, hg, hb⟩ | ⟨x, hf, hc⟩
    · rcases x with - | ⟨d, x⟩
      · exact .inl ⟨by simpa using hg.symm, by simpa using hb⟩
      · obtain ⟨rfl, htail⟩ := List.cons.inj hb
        exact .inr (.inl ⟨x, hg, htail⟩)
    · rcases x with - | ⟨d, x⟩
      · exact .inl ⟨by simpa using hf, by simpa using hc.symm⟩
      · obtain ⟨rfl, htail⟩ := List.cons.inj hc
        exact .inr (.inr ⟨x, hf, htail⟩)
  · rintro (⟨rfl, rfl⟩ | ⟨x, rfl, rfl⟩ | ⟨x, rfl, rfl⟩) <;> simp

/-- `Carries f b g c`: the function name `g` is `f` and more, and with what is more the block
name `b` begins, in front of `c`. -/
def Carries (f b g c : String) : Prop :=
  ∃ x, g = f ++ "." ++ x ∧ b = x ++ "." ++ c

/-- A name that is carried over, character by character. -/
theorem carries_iff {f b g c : String} :
    Carries f b g c ↔ ∃ x, g.toList = f.toList ++ '.' :: x ∧ b.toList = x ++ '.' :: c.toList := by
  have hdot : ".".toList = ['.'] := rfl
  constructor
  · rintro ⟨x, rfl, rfl⟩
    exact ⟨x.toList, by simp [hdot], by simp [hdot]⟩
  · rintro ⟨x, hg, hb⟩
    refine ⟨String.ofList x, ?_, ?_⟩
    · apply String.toList_inj.mp
      simp [hdot, hg]
    · apply String.toList_inj.mp
      simp [hdot, hb]

/-- A function name is not carried into itself. -/
theorem not_carries_self {f b c : String} : ¬ Carries f b f c := by
  rintro ⟨x, hf, -⟩
  have hlength := congrArg String.length hf
  have hdot : ".".length = 1 := rfl
  simp only [String.length_append] at hlength
  omega

/-- **Two labels** agree if the names do, or if one name is carried into the other. -/
theorem blockLabel_eq_iff {f b g c : String} :
    blockLabel f b = blockLabel g c ↔
      (f = g ∧ b = c) ∨ Carries f b g c ∨ Carries g c f b := by
  have hdot : ".".toList = ['.'] := rfl
  have hlist : blockLabel f b = blockLabel g c ↔
      f.toList ++ '.' :: b.toList = g.toList ++ '.' :: c.toList := by
    rw [← String.toList_inj]
    simp [blockLabel, hdot]
  rw [hlist, append_dot_eq_iff, carries_iff, carries_iff, String.toList_inj, String.toList_inj]

/-- In one function, distinct blocks have distinct labels. -/
theorem blockLabel_injective (f : String) : Function.Injective (blockLabel f) := by
  intro b c h
  rcases blockLabel_eq_iff.mp h with ⟨-, hbc⟩ | hcarries | hcarries
  · exact hbc
  · exact absurd hcarries not_carries_self
  · exact absurd hcarries not_carries_self

/-- The epilogue is labelled like a block. -/
theorem epilogueLabel_eq (f : String) : epilogueLabel f = blockLabel f ".epilogue" := by
  apply String.toList_inj.mp
  have hdot : "..epilogue".toList = ".".toList ++ ".epilogue".toList := rfl
  simp only [epilogueLabel, blockLabel, String.toList_append, hdot, List.append_assoc]

/-! ### The labels of functions -/

/-- The labels of a function: one for every block, and one for the epilogue. -/
def Func.labels (f : Func) : List String :=
  f.blocks.map (fun b => blockLabel f.name b.name) ++ [epilogueLabel f.name]

/-- The names behind the labels of a function, with that of the epilogue. -/
def Func.labelNames (f : Func) : List String :=
  f.blocks.map Block.name ++ [".epilogue"]

/-- `f.Clashes g`: the name of `g` goes on behind that of `f`, and a label of `g` can be read as
one of `f`. -/
def Func.Clashes (f g : Func) : Prop :=
  ∃ b ∈ f.labelNames, ∃ c ∈ g.labelNames, Carries f.name b g.name c

/-- Labels are made of the name of the function and the names behind them. -/
theorem Func.labels_eq (f : Func) : f.labels = f.labelNames.map (blockLabel f.name) := by
  simp [Func.labels, Func.labelNames, epilogueLabel_eq]

/-- **One function.** If its blocks have distinct names, the epilogue is all that a label can
clash with. -/
theorem Func.nodup_labels_iff {f : Func} (hblocks : (f.blocks.map Block.name).Nodup) :
    f.labels.Nodup ↔ ∀ b ∈ f.blocks, b.name ≠ ".epilogue" := by
  rw [f.labels_eq, List.nodup_map_iff (blockLabel_injective f.name), Func.labelNames,
    List.nodup_append]
  simp [hblocks]

/-- **Two functions** of distinct names share no label unless the name of one goes on behind that
of the other. -/
theorem Func.disjoint_labels_iff {f g : Func} (hname : f.name ≠ g.name) :
    f.labels.Disjoint g.labels ↔ ¬ f.Clashes g ∧ ¬ g.Clashes f := by
  rw [f.labels_eq, g.labels_eq, List.disjoint_left]
  constructor
  · intro h
    constructor
    · rintro ⟨b, hb, c, hc, hcarries⟩
      refine h (List.mem_map_of_mem hb) ?_
      rw [blockLabel_eq_iff.mpr (.inr (.inl hcarries))]
      exact List.mem_map_of_mem hc
    · rintro ⟨c, hc, b, hb, hcarries⟩
      refine h (List.mem_map_of_mem hb) ?_
      rw [blockLabel_eq_iff.mpr (.inr (.inr hcarries))]
      exact List.mem_map_of_mem hc
  · rintro ⟨hfg, hgf⟩ l hf hg
    obtain ⟨b, hb, rfl⟩ := List.mem_map.mp hf
    obtain ⟨c, hc, hlabel⟩ := List.mem_map.mp hg
    rcases blockLabel_eq_iff.mp hlabel with ⟨heq, -⟩ | hcarries | hcarries
    · exact hname heq.symm
    · exact hgf ⟨c, hc, b, hb, hcarries⟩
    · exact hfg ⟨b, hb, c, hc, hcarries⟩

/-- A function does not clash with itself in this way. -/
theorem Func.not_clashes_self (f : Func) : ¬ f.Clashes f := by
  rintro ⟨b, -, c, -, hcarries⟩
  exact not_carries_self hcarries

/-- **All functions.** Their labels are distinct if and only if no block is called `.epilogue` and
no two functions clash. -/
theorem nodup_labels_iff {fs : List Func} (hnames : (fs.map Func.name).Nodup)
    (hblocks : ∀ f ∈ fs, (f.blocks.map Block.name).Nodup) :
    (fs.flatMap Func.labels).Nodup ↔
      (∀ f ∈ fs, ∀ b ∈ f.blocks, b.name ≠ ".epilogue") ∧ ∀ f ∈ fs, ∀ g ∈ fs, ¬ f.Clashes g := by
  have hfs : fs.Nodup := hnames.of_map _
  have hne : ∀ f ∈ fs, ∀ g ∈ fs, f ≠ g → f.name ≠ g.name := by
    intro f hf g hg hfg hname
    exact hfg (List.inj_on_of_nodup_map hnames hf hg hname)
  rw [List.nodup_flatMap]
  refine and_congr ?_ ?_
  · exact forall₂_congr fun f hf => Func.nodup_labels_iff (hblocks f hf)
  · constructor
    · intro hpairs f hf g hg
      have : Std.Symm (Function.onFun List.Disjoint Func.labels) := ⟨fun _ _ h _ hg hf => h hf hg⟩
      by_cases heq : f = g
      · exact heq ▸ f.not_clashes_self
      · have hdisjoint : f.labels.Disjoint g.labels :=
          hpairs.forall hf hg heq
        exact ((Func.disjoint_labels_iff (hne f hf g hg heq)).mp hdisjoint).1
    · intro hclash
      refine hfs.pairwise_of_forall_ne fun f hf g hg hfg => ?_
      exact (Func.disjoint_labels_iff (hne f hf g hg hfg)).mpr ⟨hclash f hf g hg, hclash g hg f hf⟩

/-- Functions whose names hold no dot do not clash. -/
theorem Func.not_clashes {f g : Func} (hdot : '.' ∉ g.name.toList) : ¬ f.Clashes g := by
  rintro ⟨b, -, c, -, hcarries⟩
  obtain ⟨x, hname, -⟩ := carries_iff.mp hcarries
  exact hdot (by simp [hname])

/-- A name without a dot is not a label. -/
theorem Func.name_not_mem_labels {f g : Func} (hdot : '.' ∉ f.name.toList) :
    f.name ∉ g.labels := by
  intro hmem
  rw [g.labels_eq] at hmem
  obtain ⟨b, -, hname⟩ := List.mem_map.mp hmem
  refine hdot ?_
  rw [← hname]
  have hL : ".L".toList = ['.', 'L'] := rfl
  simp [blockLabel, hL]

/-! ### The labels of a file -/

/-- The label that a line defines. -/
def X86.Line.label? : Line → Option String
  | label name => some name
  | _ => none

/-- Instructions define no labels. -/
theorem filterMap_label_map_instr (code : Code) :
    (code.map Line.instr).filterMap Line.label? = [] := by
  simp [List.filterMap_map, Function.comp_def, Line.label?]

/-- The labels in the code of a function: its name, those of the blocks, and that of the epilogue
if it has one. -/
theorem FuncCode.filterMap_label_lines (c : FuncCode) :
    c.lines.filterMap Line.label? =
      c.name :: c.blocks.map BlockCode.label ++ c.exit.toList := by
  have hblock : ∀ b : BlockCode, b.lines.filterMap Line.label? = [b.label] := by
    intro b
    simp only [BlockCode.lines, List.filterMap_cons, Line.label?, filterMap_label_map_instr]
  have hexit : (c.exit.map Line.label).toList.filterMap Line.label? = c.exit.toList := by
    cases c.exit <;> rfl
  have hblocks : (c.blocks.flatMap BlockCode.lines).filterMap Line.label? =
      c.blocks.map BlockCode.label := by
    simp only [List.filterMap_flatMap, hblock, List.map_eq_flatMap]
  simp only [FuncCode.lines, List.filterMap_append, List.filterMap_cons, Line.label?, hexit,
    hblocks, filterMap_label_map_instr]
  simp

/-- The functions of a module that have code. -/
def Module.bodies (m : Module) : List Func :=
  m.functions.filter fun f => !f.isExternal

/-- The labels that the code of a function defines. -/
def Func.definedLabels (f : Func) : List String :=
  f.name :: f.blocks.map (fun b => blockLabel f.name b.name)
    ++ if f.returnsEarly then [epilogueLabel f.name] else []

/-- The labels of a function in a file. -/
theorem Func.filterMap_label_lines {f : Func} {ls : List Line} (h : f.lines = .ok ls) :
    ls.filterMap Line.label? = if f.isExternal then [] else f.definedLabels := by
  have hdirectives : (f.linkage.directives f.name).filterMap Line.label? = [] := by
    cases f.linkage <;> rfl
  cases hext : f.isExternal with
  | true =>
      simp only [Func.lines, hext, ↓reduceIte] at h
      obtain rfl := pure_eq_ok_iff.mp h
      rw [List.append_nil, List.filterMap_cons, hdirectives]
      rfl
  | false =>
      simp only [Func.lines, hext, Bool.false_eq_true, ↓reduceIte] at h
      obtain ⟨code, hcode, hls⟩ := bind_eq_ok_iff.mp h
      obtain rfl := pure_eq_ok_iff.mp hls
      cases hselect : f.select with
      | error e =>
          rw [hselect] at hcode
          cases hcode
      | ok c =>
          rw [hselect] at hcode
          cases hcode
          simp only [List.cons_append, List.filterMap_cons, Line.label?, List.filterMap_append,
            hdirectives, List.nil_append, c.filterMap_label_lines, name_of_select hselect,
            map_label_of_select hselect, exit_of_select hselect]
          cases hearly : f.returnsEarly <;> simp [definedLabels, hearly]

/-- The labels of functions one after the other. -/
theorem filterMap_label_flatten {fs : List Func} {ls : List (List Line)}
    (h : List.Forall₂ (fun f l => f.lines = .ok l) fs ls) :
    ls.flatten.filterMap Line.label? =
      (fs.filter fun f => !f.isExternal).flatMap Func.definedLabels := by
  induction h with
  | nil => rfl
  | @cons f l fs ls hf _ ih =>
      rw [List.flatten_cons, List.filterMap_append, ih, Func.filterMap_label_lines hf]
      cases hext : f.isExternal <;> simp [hext]

/-- **The labels of a file** are those of its functions, in order. -/
theorem Module.filterMap_label_lines {m : Module} {ls : List Line} (h : m.lines = .ok ls) :
    ls.filterMap Line.label? = m.bodies.flatMap Func.definedLabels := by
  have hstrings : (m.strings.map fun s => Line.stringConst s.name s.value).filterMap
      Line.label? = [] := by
    simp [List.filterMap_map, Function.comp_def, Line.label?]
  obtain ⟨functions, hfunctions, hls⟩ := bind_eq_ok_iff.mp h
  obtain rfl := pure_eq_ok_iff.mp hls
  have hlabels := filterMap_label_flatten (mapM_eq_ok_iff.mp hfunctions)
  simp only [List.filterMap_append, hstrings, hlabels, List.filterMap_cons, Line.label?,
    List.filterMap_nil, List.nil_append, Module.bodies]

/-- The labels of a file are distinct if those of its functions are and no function is called like
one of them. -/
theorem Module.nodup_label_lines {m : Module} {ls : List Line} (h : m.lines = .ok ls)
    (hnames : (m.bodies.map Func.name).Nodup) (hlabels : (m.bodies.flatMap Func.labels).Nodup)
    (hname : ∀ f ∈ m.bodies, ∀ g ∈ m.bodies, f.name ∉ g.labels) :
    (ls.filterMap Line.label?).Nodup := by
  have hall : (m.bodies.map Func.name ++ m.bodies.flatMap Func.labels).Nodup := by
    refine List.nodup_append.mpr ⟨hnames, hlabels, ?_⟩
    rintro name hmem label hlabel rfl
    obtain ⟨f, hf, rfl⟩ := List.mem_map.mp hmem
    obtain ⟨g, hg, hlabel⟩ := List.mem_flatMap.mp hlabel
    exact hname f hf g hg hlabel
  have hperm := List.map_append_flatMap_perm m.bodies Func.name Func.labels
  rw [filterMap_label_lines h]
  refine (hperm.nodup_iff.mp hall).sublist ?_
  refine List.Sublist.flatMap_right _ fun f _ => ?_
  simp only [Func.definedLabels, Func.labels, List.cons_append]
  split <;> simp

/-- **Clashes of labels.** The labels of functions with distinct names, each with distinct block
names, are distinct if and only if no block is called `.epilogue` and no two functions clash. It
is enough that no name of a function holds a dot and no block is called `.epilogue`; then no
function is called like a label either. Where labels are distinct and no function is called like
one of them, a file defines no label twice. -/
theorem labels_distinct_iff (fs : List Func) (hnames : (fs.map Func.name).Nodup)
    (hblocks : ∀ f ∈ fs, (f.blocks.map Block.name).Nodup) :
    ((fs.flatMap Func.labels).Nodup ↔
      (∀ f ∈ fs, ∀ b ∈ f.blocks, b.name ≠ ".epilogue") ∧ ∀ f ∈ fs, ∀ g ∈ fs, ¬ f.Clashes g) ∧
    ((∀ f ∈ fs, '.' ∉ f.name.toList) → (∀ f ∈ fs, ∀ b ∈ f.blocks, b.name ≠ ".epilogue") →
      (fs.flatMap Func.labels).Nodup ∧ ∀ f ∈ fs, ∀ g ∈ fs, f.name ∉ g.labels) ∧
    ∀ (m : Module) (ls : List Line), m.lines = .ok ls → m.bodies = fs →
      (fs.flatMap Func.labels).Nodup → (∀ f ∈ fs, ∀ g ∈ fs, f.name ∉ g.labels) →
      (ls.filterMap Line.label?).Nodup := by
  refine ⟨nodup_labels_iff hnames hblocks, ?_, ?_⟩
  · intro hdot hepilogue
    have hclash : ∀ f ∈ fs, ∀ g ∈ fs, ¬ f.Clashes g :=
      fun f _ g hg => Func.not_clashes (hdot g hg)
    exact ⟨(nodup_labels_iff hnames hblocks).mpr ⟨hepilogue, hclash⟩,
      fun f hf g _ => Func.name_not_mem_labels (hdot f hf)⟩
  · rintro m ls hls rfl hlabels hname
    exact Module.nodup_label_lines hls hnames hlabels hname

/-- Functions `a` and `a.b`, whose blocks are called so that nothing clashes. -/
def dottedApart : Module where
  name := "apart"
  functions := [
    { name := "a", linkage := .exported, returnType := .void
      blocks := [{ name := "b", id := 1
                   instructions := [{ opcode := .retVoid, dataType := .void }] },
                 { name := "b.d", id := 2
                   instructions := [{ opcode := .retVoid, dataType := .void }] }]
      nextBlockId := 3 },
    { name := "a.b", linkage := .internal, returnType := .void
      blocks := [{ name := "c", id := 1
                   instructions := [{ opcode := .retVoid, dataType := .void }] }]
      nextBlockId := 2 }]

/-- Dots alone do no harm: these functions do not clash, and their file defines no label twice. -/
theorem dottedApart_labels :
    (dottedApart.bodies.map Func.name).Nodup ∧
    (∀ f ∈ dottedApart.bodies, (f.blocks.map Block.name).Nodup) ∧
    (∀ f ∈ dottedApart.bodies, ∀ g ∈ dottedApart.bodies, ¬ f.Clashes g) ∧
    ∃ ls, dottedApart.lines = .ok ls ∧ (ls.filterMap Line.label?).Nodup := by
  have hnames : (dottedApart.bodies.map Func.name).Nodup := by decide
  have hblocks : ∀ f ∈ dottedApart.bodies, (f.blocks.map Block.name).Nodup := by decide
  have hlabels : (dottedApart.bodies.flatMap Func.labels).Nodup := by decide
  have hname : ∀ f ∈ dottedApart.bodies, ∀ g ∈ dottedApart.bodies, f.name ∉ g.labels := by decide
  have hlines : Ends dottedApart.lines (fun _ => True) fun _ => False := by decide +kernel
  obtain ⟨hiff, -, hfile⟩ := labels_distinct_iff dottedApart.bodies hnames hblocks
  obtain ⟨ls, hls, -⟩ := hlines.exists_ok
  exact ⟨hnames, hblocks, (hiff.mp hlabels).2, ls, hls,
    hfile dottedApart ls hls rfl hlabels hname⟩

/-- A function that returns early and has a block `.epilogue`. -/
def namedEpilogue : Module where
  name := "named"
  functions := [
    { name := "main", linkage := .exported, returnType := .i32
      blocks := [
        { name := "entry", id := 1
          instructions := [{ opcode := .ret, dataType := .i32, src1 := some (.imm 0) }] },
        { name := ".epilogue", id := 2
          instructions := [{ opcode := .ret, dataType := .i32, src1 := some (.imm 1) }] }]
      nextBlockId := 3 }]

/-- A function `a` with a block `b.c`, and a function `a.b` with a block `c`. -/
def dottedTogether : Module where
  name := "together"
  functions := [
    { name := "a", linkage := .internal, returnType := .void
      blocks := [{ name := "b.c", id := 1
                   instructions := [{ opcode := .retVoid, dataType := .void }] }]
      nextBlockId := 2 },
    { name := "a.b", linkage := .internal, returnType := .void
      blocks := [{ name := "c", id := 1
                   instructions := [{ opcode := .retVoid, dataType := .void }] }]
      nextBlockId := 2 }]

/-- `m.Ambiguous`: the names of the functions are distinct, and those of the blocks of each are
distinct and not empty; but their labels are not distinct, and the file defines one of them
twice. -/
structure Module.Ambiguous (m : Module) : Prop where
  functions : (m.bodies.map Func.name).Nodup
  blocks : ∀ f ∈ m.bodies, (f.blocks.map Block.name).Nodup ∧ ∀ b ∈ f.blocks, b.name ≠ ""
  labels : ¬ (m.bodies.flatMap Func.labels).Nodup
  file : ∃ ls, m.lines = .ok ls ∧ ¬ (ls.filterMap Line.label?).Nodup

/-- **Labels do clash.** A block may be labelled like the epilogue of its function, or like a block
of another function. -/
theorem labels_clash : namedEpilogue.Ambiguous ∧ dottedTogether.Ambiguous := by
  constructor
  · exact ⟨by decide, by decide, by decide, Ends.exists_ok (by decide +kernel)⟩
  · exact ⟨by decide, by decide, by decide, Ends.exists_ok (by decide +kernel)⟩

end RegIR
