import RegIR.Proofs.Storage.Run
import RegIR.Select.Function

/-!
# The code of a function, instruction by instruction

The code of a function is selected block by block, each instruction with a mark that says
whether it is the last of the function. Here the blocks and marks are taken away again: the
code of the function is one list, with the code of the instruction at every position.

## Main results

* `flatMap_markBlocks`: marking changes no instruction.
* `FuncCode.lines_cases`: a line is in the entry, in the code of an instruction or in the
  epilogue.
* `Func.select_blocks`: every block has its label and the code of its instructions.
* `Func.select_at`: the code at a position is selected for the instruction there.
* `Func.select_eq_error`: what it is that has no code.
-/

namespace RegIR

/-- Marking the last instruction of a block changes no instruction. -/
theorem map_markLast (lastBlock : Bool) (is : List Instruction) :
    (markLast lastBlock is).map Prod.fst = is := by
  fun_induction markLast lastBlock is with
  | case1 => rfl
  | case2 i => rfl
  | case3 i is _ ih => rw [List.map_cons, ih]

/-- Marking the last instruction of a function changes no instruction. -/
theorem flatMap_markBlocks (bs : List Block) :
    ((markBlocks bs).flatMap Prod.snd).map Prod.fst = bs.flatMap Block.instructions := by
  fun_induction markBlocks bs with
  | case1 => rfl
  | case2 b =>
      rw [List.flatMap_singleton, List.flatMap_singleton, map_markLast]
  | case3 b bs _ ih =>
      rw [List.flatMap_cons, List.flatMap_cons, List.map_append, ih, map_markLast]

/-- Marking the last instruction of a function changes no block. -/
theorem map_fst_markBlocks (bs : List Block) : (markBlocks bs).map Prod.fst = bs := by
  fun_induction markBlocks bs with
  | case1 => rfl
  | case2 b => rfl
  | case3 b bs _ ih => rw [List.map_cons, ih]

/-- The code of a function, one piece for every instruction. -/
def FuncCode.code (c : FuncCode) : List Code :=
  c.blocks.flatMap BlockCode.code

/-! ### Lines -/

/-- A line of two lists, one behind the other, is a line of the first or of the second. -/
theorem append_eq_append_cons {α : Type} {xs ys before after : List α} {a : α}
    (h : xs ++ ys = before ++ a :: after) :
    (∃ rest, xs = before ++ a :: rest) ∨
      ∃ first, before = xs ++ first ∧ ys = first ++ a :: after := by
  obtain ⟨first, hbefore, hys⟩ | ⟨rest, hxs, hafter⟩ := List.append_eq_append_iff.mp h
  · exact .inr ⟨first, hbefore, hys⟩
  · cases rest with
    | nil => exact .inr ⟨[], by simpa using hxs.symm, by simpa using hafter.symm⟩
    | cons b rest =>
        obtain ⟨rfl, -⟩ := List.cons.inj hafter
        exact .inl ⟨rest, hxs⟩

/-- A line of a list of pieces is a line of one of them. -/
theorem flatten_eq_append_cons {α : Type} {pieces : List (List α)} {before after : List α} {a : α}
    (h : pieces.flatten = before ++ a :: after) :
    ∃ (whole : List (List α)) (piece : List α) (others : List (List α)) (first rest : List α),
      pieces = whole ++ piece :: others ∧ piece = first ++ a :: rest ∧
      before = whole.flatten ++ first := by
  induction pieces generalizing before with
  | nil => simp at h
  | cons piece pieces ih =>
      obtain ⟨rest, hpiece⟩ | ⟨first, rfl, hpieces⟩ := append_eq_append_cons h
      · exact ⟨[], piece, pieces, before, rest, rfl, hpiece, rfl⟩
      · obtain ⟨whole, piece', others, first, rest, rfl, hpiece, rfl⟩ := ih hpieces
        exact ⟨piece :: whole, piece', others, first, rest, rfl, hpiece,
          (List.append_assoc _ _ _).symm⟩

/-- The lines of a block, one piece for its label and one for every instruction. -/
def BlockCode.pieces (b : BlockCode) : List (List X86.Line) :=
  [.label b.label] :: b.code.map (·.map .instr)

namespace FuncCode

/-- The lines between prologue and epilogue, in pieces. -/
def pieces (c : FuncCode) : List (List X86.Line) :=
  c.blocks.flatMap BlockCode.pieces ++ (c.exit.map fun name => [X86.Line.label name]).toList

/-- The label of a function and its prologue. -/
def entry (c : FuncCode) : List X86.Line :=
  .label c.name :: c.frame.prologue.map .instr

variable {c : FuncCode}

/-- The lines of a function are its entry, the pieces of its body and its epilogue. -/
theorem lines_eq (c : FuncCode) :
    c.lines = c.entry ++ c.pieces.flatten ++ c.frame.epilogue.map .instr := by
  have hblock : ∀ b : BlockCode, b.pieces.flatten = b.lines := by
    intro b
    simp [BlockCode.pieces, BlockCode.lines, List.map_flatten]
  have hexit : (c.exit.map fun name => [X86.Line.label name]).toList.flatten =
      (c.exit.map X86.Line.label).toList := by
    cases c.exit <;> rfl
  have hblocks : (c.blocks.flatMap BlockCode.pieces).flatten =
      c.blocks.flatMap BlockCode.lines := by
    rw [List.flatMap, List.flatten_flatten, List.map_map, List.flatMap]
    exact congrArg List.flatten (List.map_congr_left fun b _ => hblock b)
  rw [lines, pieces, entry, List.flatten_append, hexit, hblocks]
  simp only [List.append_assoc]

/-- A piece is a label or the code of an instruction. -/
theorem mem_pieces {piece : List X86.Line} (h : piece ∈ c.pieces) :
    (∃ name, piece = [.label name]) ∨ ∃ code ∈ c.code, piece = code.map .instr := by
  obtain hblock | hexit := List.mem_append.mp h
  · obtain ⟨b, hb, hpiece⟩ := List.mem_flatMap.mp hblock
    obtain rfl | hpiece := List.mem_cons.mp hpiece
    · exact .inl ⟨_, rfl⟩
    · obtain ⟨code, hcode, rfl⟩ := List.mem_map.mp hpiece
      exact .inr ⟨code, List.mem_flatMap.mpr ⟨b, hb, hcode⟩, rfl⟩
  · obtain ⟨name, -, rfl⟩ := Option.map_eq_some_iff.mp (Option.mem_toList.mp hexit)
    exact .inl ⟨name, rfl⟩

/-- The instructions among the lines of a function are those of its prologue, its body and its
epilogue. -/
theorem mem_lines {x : X86.Instr} (h : .instr x ∈ c.lines) :
    x ∈ c.frame.prologue ∨ x ∈ c.code.flatten ∨ x ∈ c.frame.epilogue := by
  have hinstr : ∀ {xs : Code}, .instr x ∈ xs.map X86.Line.instr → x ∈ xs := by
    intro xs hx
    obtain ⟨y, hy, heq⟩ := List.mem_map.mp hx
    exact X86.Line.instr.inj heq ▸ hy
  rw [lines_eq, List.mem_append, List.mem_append] at h
  obtain (hentry | hbody) | hepilogue := h
  · obtain hname | hprologue := List.mem_cons.mp hentry
    · cases hname
    · exact .inl (hinstr hprologue)
  · obtain ⟨piece, hpiece, hx⟩ := List.mem_flatten.mp hbody
    obtain ⟨name, rfl⟩ | ⟨code, hcode, rfl⟩ := mem_pieces hpiece
    · cases List.mem_singleton.mp hx
    · exact .inr (.inl (List.mem_flatten.mpr ⟨code, hcode, hinstr hx⟩))
  · exact .inr (.inr (hinstr hepilogue))

/-- Where a line of a function is: in its entry, in a piece of its body or in its epilogue. -/
theorem lines_cases {before after : List X86.Line} {l : X86.Line}
    (h : c.lines = before ++ l :: after) :
    (∃ rest, c.entry = before ++ l :: rest) ∨
    (∃ (whole : List (List X86.Line)) (piece : List X86.Line) (others : List (List X86.Line))
      (first rest : List X86.Line), c.pieces = whole ++ piece :: others ∧
      piece = first ++ l :: rest ∧ before = c.entry ++ whole.flatten ++ first) ∨
    ∃ first, before = c.entry ++ c.pieces.flatten ++ first ∧
      c.frame.epilogue.map .instr = first ++ l :: after := by
  rw [lines_eq] at h
  obtain ⟨rest, h⟩ | hepilogue := append_eq_append_cons h
  · obtain hentry | ⟨first, rfl, hpieces⟩ := append_eq_append_cons h
    · exact .inl hentry
    · obtain ⟨whole, piece, others, first, rest, hsplit, hpiece, rfl⟩ :=
        flatten_eq_append_cons hpieces
      exact .inr (.inl ⟨whole, piece, others, first, rest, hsplit, hpiece,
        (List.append_assoc _ _ _).symm⟩)
  · exact .inr (.inr hepilogue)

end FuncCode

/-! ### Instructions -/

/-- Code that is selected has passed the check for moves. -/
theorem Scope.selectRaw_of_select {s : Scope} {i : Instruction} {isLast : Bool} {code : Code}
    (h : s.select i isLast = .ok code) : s.selectRaw i isLast = .ok code := by
  obtain ⟨code', hraw, hcheck⟩ := bind_eq_ok_iff.mp h
  split at hcheck
  next => cases hcheck
  next => rw [hraw, pure_eq_ok_iff.mp hcheck]

namespace Func

variable {f : Func} {c : FuncCode} {n : Nat} {i : Instruction}

/-- The code of a function is selected in the scope of its frame. -/
theorem makeFrame_of_select (h : f.select = .ok c) : f.makeFrame = .ok c.frame := by
  obtain ⟨frame, hframe, hcode⟩ := bind_eq_ok_iff.mp h
  obtain ⟨blocks, -, hblocks⟩ := bind_eq_ok_iff.mp hcode
  obtain rfl := pure_eq_ok_iff.mp hblocks
  exact hframe

/-- The code of a function has its name. -/
theorem name_of_select (h : f.select = .ok c) : c.name = f.name := by
  obtain ⟨frame, -, hcode⟩ := bind_eq_ok_iff.mp h
  obtain ⟨blocks, -, hblocks⟩ := bind_eq_ok_iff.mp hcode
  obtain rfl := pure_eq_ok_iff.mp hblocks
  rfl

/-- The epilogue has a label if the function returns early. -/
theorem exit_of_select (h : f.select = .ok c) :
    c.exit = if f.returnsEarly then some (epilogueLabel f.name) else none := by
  obtain ⟨frame, -, hcode⟩ := bind_eq_ok_iff.mp h
  obtain ⟨blocks, -, hblocks⟩ := bind_eq_ok_iff.mp hcode
  obtain rfl := pure_eq_ok_iff.mp hblocks
  rfl

/-- **Code by block.** Every block has its label and the code of its instructions. -/
theorem select_blocks (h : f.select = .ok c) :
    List.Forall₂ (fun b bc => bc.label = blockLabel f.name b.1.name ∧
      List.Forall₂ (fun p code => Scope.select { func := f, frame := c.frame } p.1 p.2 = .ok code)
        b.2 bc.code) (markBlocks f.blocks) c.blocks := by
  obtain ⟨frame, -, hcode⟩ := bind_eq_ok_iff.mp h
  obtain ⟨blocks, hblocks, hc⟩ := bind_eq_ok_iff.mp hcode
  obtain rfl := pure_eq_ok_iff.mp hc
  refine (mapM_eq_ok_iff.mp hblocks).imp ?_
  intro b bc hb
  obtain ⟨code, hcode, hbc⟩ := bind_eq_ok_iff.mp hb
  obtain rfl := pure_eq_ok_iff.mp hbc
  exact ⟨rfl, mapM_eq_ok_iff.mp hcode⟩

/-- The labels of the blocks carry their names. -/
theorem map_label_of_select (h : f.select = .ok c) :
    c.blocks.map BlockCode.label = f.blocks.map fun b => blockLabel f.name b.name := by
  have hmarked : f.blocks.map (fun b => blockLabel f.name b.name) =
      (markBlocks f.blocks).map fun p => blockLabel f.name p.1.name := by
    conv_lhs => rw [← map_fst_markBlocks f.blocks, List.map_map]
    rfl
  rw [hmarked, ← List.forall₂_eq_eq_eq, List.forall₂_map_left_iff, List.forall₂_map_right_iff]
  exact (select_blocks h).flip.imp fun _ _ hb => hb.1

/-- An instruction with its mark is one of the function. -/
theorem mem_instructions_of_mem_marked {p : Instruction × Bool}
    (hp : p ∈ (markBlocks f.blocks).flatMap Prod.snd) : p.1 ∈ f.instructions := by
  rw [Func.instructions, ← flatMap_markBlocks]
  exact List.mem_map_of_mem hp

/-- The code of a function is the code of its instructions, in order. -/
theorem select_forall₂ (h : f.select = .ok c) :
    List.Forall₂ (fun p code => Scope.select { func := f, frame := c.frame } p.1 p.2 = .ok code)
      ((markBlocks f.blocks).flatMap Prod.snd) c.code :=
  List.rel_flatMap (select_blocks h) fun _ _ hb => hb.2

/-- **Code by position.** The code at a position is selected for the instruction there. -/
theorem select_at (h : f.select = .ok c) (hi : f.instructions[n]? = some i) :
    ∃ code, c.code[n]? = some code ∧
      ∃ isLast, Scope.selectRaw { func := f, frame := c.frame } i isLast = .ok code := by
  rw [Func.instructions, ← flatMap_markBlocks, List.getElem?_map, Option.map_eq_some_iff] at hi
  obtain ⟨⟨_, isLast⟩, hmarked, rfl⟩ := hi
  obtain ⟨code, hn, hselect⟩ := exists_getElem?_of_forall₂ (select_forall₂ h) hmarked
  exact ⟨code, hn, isLast, Scope.selectRaw_of_select hselect⟩

/-- Every piece of code is selected for an instruction with its mark. -/
theorem select_mem_marked {code : Code} (h : f.select = .ok c) (hcode : code ∈ c.code) :
    ∃ p ∈ (markBlocks f.blocks).flatMap Prod.snd,
      Scope.selectRaw { func := f, frame := c.frame } p.1 p.2 = .ok code := by
  obtain ⟨n, hn⟩ := List.getElem?_of_mem hcode
  obtain ⟨p, hp, hselect⟩ := exists_getElem?_of_forall₂ (List.Forall₂.flip (select_forall₂ h)) hn
  exact ⟨p, List.mem_of_getElem? hp, Scope.selectRaw_of_select hselect⟩

/-- Every piece of code is selected for an instruction. -/
theorem select_mem {code : Code} (h : f.select = .ok c) (hcode : code ∈ c.code) :
    ∃ i ∈ f.instructions, ∃ isLast,
      Scope.selectRaw { func := f, frame := c.frame } i isLast = .ok code := by
  obtain ⟨p, hp, hraw⟩ := select_mem_marked h hcode
  exact ⟨p.1, mem_instructions_of_mem_marked hp, p.2, hraw⟩

/-- **Failures.** A function has no code because it has no frame, or because of one of its
instructions. -/
theorem select_eq_error {e : Failure CodeError} (h : f.select = .error e) :
    f.makeFrame = .error e ∨ ∃ frame, f.makeFrame = .ok frame ∧
      ∃ i ∈ f.instructions, ∃ isLast,
        Scope.select { func := f, frame := frame } i isLast = .error e := by
  obtain hframe | ⟨frame, hframe, h⟩ := bind_eq_error_iff.mp h
  · exact .inl hframe
  refine .inr ⟨frame, hframe, ?_⟩
  obtain hblocks | ⟨blocks, -, hblocks⟩ := bind_eq_error_iff.mp h
  · obtain ⟨_, b, _, hb, -, hblock⟩ := mapM_eq_error_iff.mp hblocks
    obtain hblock | ⟨code, -, hcode⟩ := bind_eq_error_iff.mp hblock
    · obtain ⟨_, p, _, hp, -, hselect⟩ := mapM_eq_error_iff.mp hblock
      refine ⟨p.1, mem_instructions_of_mem_marked ?_, p.2, hselect⟩
      refine List.mem_flatMap.mpr ⟨b, ?_, ?_⟩
      · rw [hb]
        exact List.mem_append_right _ List.mem_cons_self
      · rw [hp]
        exact List.mem_append_right _ List.mem_cons_self
    · cases hcode
  · cases hblocks

end Func

end RegIR
