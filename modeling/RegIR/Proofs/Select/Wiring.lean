import RegIR.Proofs.Build.Targets
import RegIR.Proofs.Select.Errors
import RegIR.Proofs.Select.Stack

/-!
# Control flow

Code goes where its instructions say. A branch jumps to the label of a block that it names, which
stands directly in front of the code of that block; a return jumps to the epilogue, except the last
instruction of the last block, which falls into it; everything else goes on to the next instruction.
The epilogue has a label if something jumps to it.

A branch to a block that does not exist is an error. It cannot happen in a module that has been
built by commands alone, since a label is then always that of a block.

## Main results

* `Scope.flows_of_selectRaw`: where control goes from the code of an instruction.
* `Func.wired_of_select`: where the jumps of a function go.
* `Func.Resolved.select_ne_unknownBlock`: labels of blocks are never unknown.
* `control_flow_wired`: both, for code and for modules under construction.
-/

namespace RegIR

open X86

/-! ### The last instruction -/

/-- The mark of an instruction: it is the last of the last block. -/
theorem getElem?_markLast (lastBlock : Bool) (is : List Instruction) (n : Nat) :
    (markLast lastBlock is)[n]? =
      is[n]?.map fun i => (i, lastBlock && n + 1 == is.length) := by
  fun_induction markLast lastBlock is generalizing n with
  | case1 => rfl
  | case2 i =>
      rcases n with - | n
      · simp
      · simp
  | case3 i is hne ih =>
      rcases n with - | n
      · rcases is with - | ⟨j, is⟩
        · exact absurd rfl hne
        · simp
      · simp [ih]

/-- The marks of a block: its last instruction counts if it is the last block. -/
theorem getElem?_markBlocks (bs : List Block) (k : Nat) :
    (markBlocks bs)[k]? =
      bs[k]?.map fun b => (b, markLast (k + 1 == bs.length) b.instructions) := by
  fun_induction markBlocks bs generalizing k with
  | case1 => rfl
  | case2 b =>
      rcases k with - | k
      · simp
      · simp
  | case3 b bs hne ih =>
      rcases k with - | k
      · rcases bs with - | ⟨c, bs⟩
        · exact absurd rfl hne
        · simp
      · simp [ih]

/-! ### One instruction -/

/-- `f.Flows isLast i code`: where control goes from the code of an instruction of `f`. The mark
says whether it is the last instruction of the last block. -/
inductive Func.Flows (f : Func) (isLast : Bool) (i : Instruction) : Code → Prop
  /-- Whatever neither branches nor returns goes on. -/
  | straight {code : Code} (hop : i.opcode ≠ .ret ∧ i.opcode ≠ .retVoid ∧ i.opcode ≠ .br ∧
        ∀ rel, i.opcode ≠ .branch rel) (hcode : ∀ x ∈ code, x.jump? = none) :
      Flows f isLast i code
  | jump {name : String} (hop : i.opcode = .br) (hname : i.src1 = some (.label name))
      (hblock : ∃ b ∈ f.blocks, b.name = name) :
      Flows f isLast i [.jmp (blockLabel f.name name)]
  | branch {rel : Relation} {name : String} {load : Code} (hop : i.opcode = .branch rel)
      (hname : i.src3 = some (.label name)) (hblock : ∃ b ∈ f.blocks, b.name = name)
      (hload : ∀ x ∈ load, x.jump? = none) :
      Flows f isLast i (load ++ [.jcc (Scope.condition rel) (blockLabel f.name name)])
  | leave {load : Code} (hop : i.opcode = .ret ∨ i.opcode = .retVoid) (hlast : isLast = false)
      (hload : ∀ x ∈ load, x.jump? = none) :
      Flows f isLast i (load ++ [.jmp (epilogueLabel f.name)])
  /-- The epilogue follows. -/
  | fall {load : Code} (hop : i.opcode = .ret ∨ i.opcode = .retVoid) (hlast : isLast = true)
      (hload : ∀ x ∈ load, x.jump? = none) : Flows f isLast i load

/-- A block that is found by its name. -/
theorem Func.exists_of_blockNamed? {f : Func} {name : String}
    (h : (f.blockNamed? name).isSome = true) : ∃ b ∈ f.blocks, b.name = name := by
  obtain ⟨b, hb⟩ := Option.isSome_iff_exists.mp h
  exact ⟨b, List.mem_of_find?_eq_some hb, by simpa using List.find?_some hb⟩

namespace Scope

variable {s : Scope} {i : Instruction} {isLast : Bool} {code : Code}

/-- Code that leaves the stack alone does not jump. -/
theorem EmitsAll.jump?_eq_none (h : s.EmitsAll i code) : ∀ x ∈ code, x.jump? = none :=
  fun _ hx => Instr.jump?_of_isStraight (h.isStraight hx)

/-- Only branches and early returns jump. -/
theorem Shape.jump?_eq_none (h : s.Shape i isLast code) (hbranch : i.branch? = none)
    (hreturn : isEarlyReturn (i, isLast) = false) : ∀ x ∈ code, x.jump? = none := by
  intro x hx
  rcases hjump : x.jump? with - | target
  · rfl
  · cases h.target_of_jump hx hjump with
    | block hname _ =>
        rw [hbranch] at hname
        cases hname
    | epilogue hearly =>
        rw [hreturn] at hearly
        cases hearly

/-- The label of a branch is that of a block that it names. -/
theorem target_eq_ok {op : Opcode} {src : Option Operand} {target : String}
    (h : s.target op src = .ok target) :
    ∃ name, src = some (.label name) ∧ (∃ b ∈ s.func.blocks, b.name = name) ∧
      target = blockLabel s.func.name name := by
  obtain ⟨x, hx, htarget⟩ := bind_eq_ok_iff.mp h
  cases x with
  | label name =>
      dsimp only at htarget
      split at htarget
      next hblock =>
        exact ⟨name, required_eq_ok hx, Func.exists_of_blockNamed? hblock,
          (pure_eq_ok_iff.mp htarget).symm⟩
      next => cases htarget
  | imm _ | reg _ | string _ | slot _ _ | general _ | argument _ | pointer _ =>
      exact absurd htarget unsupported_ne_ok

/-- A return jumps to the epilogue, or falls into it. -/
theorem flows_leave (hop : i.opcode = .ret ∨ i.opcode = .retVoid)
    (hload : ∀ x ∈ code, x.jump? = none) :
    s.func.Flows isLast i (code ++ s.leave isLast) := by
  unfold leave
  cases isLast with
  | true =>
      rw [if_pos rfl, List.append_nil]
      exact .fall hop rfl hload
  | false =>
      rw [if_neg Bool.false_ne_true]
      exact .leave hop rfl hload

/-- The code of a jump. -/
theorem flows_jump (hop : i.opcode = .br) (h : s.jump i = .ok code) :
    s.func.Flows isLast i code := by
  obtain ⟨target, htarget, hcode⟩ := bind_eq_ok_iff.mp h
  obtain rfl := pure_eq_ok_iff.mp hcode
  obtain ⟨name, hname, hblock, rfl⟩ := target_eq_ok htarget
  exact .jump hop hname hblock

/-- The code of a conditional branch: only the last instruction of it jumps. -/
theorem flows_branch {rel : Relation} (hop : i.opcode = .branch rel)
    (h : s.branch rel i = .ok code) : s.func.Flows isLast i code := by
  obtain ⟨w, -, h₁⟩ := bind_eq_ok_iff.mp h
  obtain ⟨left, hleft, h₂⟩ := bind_eq_ok_iff.mp h₁
  obtain ⟨right, hright, h₃⟩ := bind_eq_ok_iff.mp h₂
  obtain ⟨target, htarget, h₄⟩ := bind_eq_ok_iff.mp h₃
  obtain ⟨loadLeft, hloadLeft, h₅⟩ := bind_eq_ok_iff.mp h₄
  obtain ⟨⟨loadRight, x⟩, hloadRight, h₆⟩ := bind_eq_ok_iff.mp h₅
  obtain rfl := pure_eq_ok_iff.mp h₆
  obtain ⟨name, hname, hblock, rfl⟩ := target_eq_ok htarget
  have hopLeft := Instruction.mem_operands_of_source (required_eq_ok hleft) (.inl rfl)
  have hopRight := Instruction.mem_operands_of_source (required_eq_ok hright) (.inr (.inl rfl))
  have hleft' := ((loadInto_ends scratch_mem hopLeft).of_ok hloadLeft).jump?_eq_none
  have hright' := ((rightOperand_ends hopRight).of_ok hloadRight).1.jump?_eq_none
  have hflows : s.func.Flows isLast i
      ((loadLeft ++ loadRight ++ [.cmp (.reg scratch w.widen) x])
        ++ [.jcc (condition rel) (blockLabel s.func.name name)]) := by
    refine .branch hop hname hblock ?_
    simp only [List.forall_mem_append, List.forall_mem_singleton]
    exact ⟨⟨hleft', hright'⟩, rfl⟩
  simpa using hflows

/-- The code of a return with a value. -/
theorem flows_ret (hop : i.opcode = .ret) (h : s.ret i isLast = .ok code) :
    s.func.Flows isLast i code := by
  have hrax : returnReg ∈ callerSavedRegs := by decide
  obtain ⟨w, -, h₁⟩ := bind_eq_ok_iff.mp h
  obtain ⟨value, hvalue, h₂⟩ := bind_eq_ok_iff.mp h₁
  have hopValue := Instruction.mem_operands_of_source (required_eq_ok hvalue) (.inl rfl)
  dsimp only at h₂
  split at h₂
  · obtain rfl := pure_eq_ok_iff.mp h₂
    exact flows_leave (.inl hop) (by simp)
  · obtain ⟨load, hload, h₃⟩ := bind_eq_ok_iff.mp h₂
    obtain rfl := pure_eq_ok_iff.mp h₃
    exact flows_leave (.inl hop) ((loadInto_ends hrax hopValue).of_ok hload).jump?_eq_none

/-- **One instruction.** Where control goes from its code. -/
theorem flows_of_selectRaw (h : s.selectRaw i isLast = .ok code) : s.func.Flows isLast i code := by
  cases hop : i.opcode with
  | ret => exact flows_ret hop (by simpa only [selectRaw, hop] using h)
  | retVoid =>
      simp only [selectRaw, hop] at h
      obtain rfl := pure_eq_ok_iff.mp h
      have hflows : s.func.Flows isLast i ([] ++ s.leave isLast) := flows_leave (.inr hop) (by simp)
      exact hflows
  | br => exact flows_jump hop (by simpa only [selectRaw, hop] using h)
  | branch rel => exact flows_branch hop (by simpa only [selectRaw, hop] using h)
  | alloca | load | store | structLoad | structStore | gep | arith _ | divide _ | unary _ | call =>
      have hshape : s.Shape i isLast code := selectRaw_ends.of_ok h
      refine .straight (by simp [hop]) (hshape.jump?_eq_none ?_ ?_)
      · simp only [Instruction.branch?, hop]
      · simp [isEarlyReturn, hop]

end Scope

/-! ### Whole functions -/

namespace Func

variable {f g : Func} {c : FuncCode} {k n : Nat} {b : Block} {i : Instruction}

/-- **Code by position.** The code of an instruction is where the instruction is. -/
theorem exists_code_at (h : f.select = .ok c) (hb : f.blocks[k]? = some b)
    (hi : b.instructions[n]? = some i) :
    ∃ bc code, c.blocks[k]? = some bc ∧ bc.code[n]? = some code ∧
      f.Flows (k + 1 == f.blocks.length && n + 1 == b.instructions.length) i code := by
  have hmarked : (markBlocks f.blocks)[k]? =
      some (b, markLast (k + 1 == f.blocks.length) b.instructions) := by
    rw [getElem?_markBlocks, hb]
    rfl
  obtain ⟨bc, hbc, -, hcode⟩ := exists_getElem?_of_forall₂ (select_blocks h) hmarked
  have hlast : (markLast (k + 1 == f.blocks.length) b.instructions)[n]? =
      some (i, k + 1 == f.blocks.length && n + 1 == b.instructions.length) := by
    rw [getElem?_markLast, hi]
    rfl
  obtain ⟨code, hcode', hselect⟩ := exists_getElem?_of_forall₂ hcode hlast
  exact ⟨bc, code, hbc, hcode', Scope.flows_of_selectRaw (Scope.selectRaw_of_select hselect)⟩

/-- Does a return stand somewhere else than at the end of the last block? -/
def LeavesEarly (f : Func) : Prop :=
  ∃ (k : Nat) (b : Block) (n : Nat) (i : Instruction), f.blocks[k]? = some b ∧
    b.instructions[n]? = some i ∧ (i.opcode = .ret ∨ i.opcode = .retVoid) ∧
    ¬ (k + 1 = f.blocks.length ∧ n + 1 = b.instructions.length)

/-- An early return by its mark. -/
theorem isEarlyReturn_iff {isLast : Bool} :
    isEarlyReturn (i, isLast) = true ↔
      (i.opcode = .ret ∨ i.opcode = .retVoid) ∧ isLast = false := by
  simp [isEarlyReturn]

/-- Early returns are found by their marks. -/
theorem returnsEarly_iff : f.returnsEarly = true ↔ f.LeavesEarly := by
  simp only [returnsEarly, List.any_eq_true]
  constructor
  · rintro ⟨q, hq, p, hp, hearly⟩
    obtain ⟨k, hk⟩ := List.getElem?_of_mem hq
    rw [getElem?_markBlocks, Option.map_eq_some_iff] at hk
    obtain ⟨b, hb, rfl⟩ := hk
    obtain ⟨n, hn⟩ := List.getElem?_of_mem hp
    rw [getElem?_markLast, Option.map_eq_some_iff] at hn
    obtain ⟨i, hi, rfl⟩ := hn
    obtain ⟨hop, hlast⟩ := isEarlyReturn_iff.mp hearly
    exact ⟨k, b, n, i, hb, hi, hop, by simpa using hlast⟩
  · rintro ⟨k, b, n, i, hb, hi, hop, hlast⟩
    have hmarked := getElem?_markBlocks f.blocks k
    have hmark := getElem?_markLast (k + 1 == f.blocks.length) b.instructions n
    rw [hb] at hmarked
    rw [hi] at hmark
    exact ⟨_, List.mem_of_getElem? hmarked, _, List.mem_of_getElem? hmark,
      isEarlyReturn_iff.mpr ⟨hop, by simpa using hlast⟩⟩

/-- `f.Wired c`: the control flow of the code `c` of a function. -/
structure Wired (f : Func) (c : FuncCode) : Prop where
  /-- Behind the entry come the blocks, the code of each directly behind its label, then the label
  of the epilogue, if it has one, and the epilogue. -/
  layout : c.lines = .label f.name :: c.frame.prologue.map .instr
    ++ c.blocks.flatMap (fun bc => .label bc.label :: bc.code.flatten.map .instr)
    ++ (c.exit.map Line.label).toList ++ c.frame.epilogue.map .instr
  /-- There is code for every block and every instruction, and no other. -/
  blocks : List.Forall₂ (fun b bc => bc.label = blockLabel f.name b.name ∧
    bc.code.length = b.instructions.length) f.blocks c.blocks
  /-- Every jump goes to a label of the function. -/
  targets : ∀ x target, .instr x ∈ c.lines → x.jump? = some target → .label target ∈ c.lines
  /-- Where control goes from each instruction. -/
  flow : ∀ k b n i, f.blocks[k]? = some b → b.instructions[n]? = some i →
    ∃ bc code, c.blocks[k]? = some bc ∧ bc.code[n]? = some code ∧
      f.Flows (k + 1 == f.blocks.length && n + 1 == b.instructions.length) i code
  /-- A block that a branch names stands somewhere with its label. -/
  named : ∀ i ∈ f.instructions, ∀ name, i.branch? = some (.label name) →
    ∃ (k : Nat) (b : Block) (bc : BlockCode), f.blocks[k]? = some b ∧ b.name = name ∧
      c.blocks[k]? = some bc ∧ bc.label = blockLabel f.name name
  /-- The epilogue has a label if and only if a return jumps to it. -/
  exit : ∀ label, c.exit = some label ↔ label = epilogueLabel f.name ∧ f.LeavesEarly

/-- The blocks of a function and of its code, in order. -/
theorem forall₂_blocks (h : f.select = .ok c) :
    List.Forall₂ (fun b bc => bc.label = blockLabel f.name b.name ∧
      bc.code.length = b.instructions.length) f.blocks c.blocks := by
  have hmarks : ∀ q ∈ markBlocks f.blocks, q.2.length = q.1.instructions.length := by
    intro q hq
    obtain ⟨k, hk⟩ := List.getElem?_of_mem hq
    rw [getElem?_markBlocks, Option.map_eq_some_iff] at hk
    obtain ⟨b, -, rfl⟩ := hk
    simpa using congrArg List.length (map_markLast (k + 1 == f.blocks.length) b.instructions)
  have hblocks : List.Forall₂ (fun b bc => bc.label = blockLabel f.name b.name ∧
      bc.code.length = b.instructions.length) ((markBlocks f.blocks).map Prod.fst) c.blocks := by
    refine List.forall₂_map_left_iff.mpr ?_
    refine ((List.forall₂_and_left _ _).mpr ⟨hmarks, select_blocks h⟩).imp ?_
    rintro q bc ⟨hlength, hlabel, hcode⟩
    exact ⟨hlabel, hcode.length_eq.symm.trans hlength⟩
  rwa [map_fst_markBlocks] at hblocks

/-- A block is at a position, and its code has its label. -/
theorem exists_block_at {name : String} (h : f.select = .ok c)
    (hname : ∃ b ∈ f.blocks, b.name = name) :
    ∃ (k : Nat) (b : Block) (bc : BlockCode), f.blocks[k]? = some b ∧ b.name = name ∧
      c.blocks[k]? = some bc ∧ bc.label = blockLabel f.name name := by
  obtain ⟨b, hb, rfl⟩ := hname
  obtain ⟨k, hk⟩ := List.getElem?_of_mem hb
  obtain ⟨bc, hbc, hlabel, -⟩ := exists_getElem?_of_forall₂ (forall₂_blocks h) hk
  exact ⟨k, b, bc, hk, rfl, hbc, hlabel⟩

/-- The label of a block is among the lines. -/
theorem label_mem_lines {bc : BlockCode} (hbc : c.blocks[k]? = some bc) :
    .label bc.label ∈ c.lines := by
  have hmem : .label bc.label ∈ c.blocks.flatMap BlockCode.lines :=
    List.mem_flatMap.mpr ⟨bc, List.mem_of_getElem? hbc, List.mem_cons_self⟩
  simp [FuncCode.lines, hmem]

/-- A jump in the code of a function goes to one of its labels. -/
theorem target_mem_lines {x : Instr} {target : String} (h : f.select = .ok c)
    (hx : .instr x ∈ c.lines) (hjump : x.jump? = some target) : .label target ∈ c.lines := by
  obtain ⟨code, hcode, hx⟩ := List.mem_flatten.mp (c.mem_code_of_jump hx hjump)
  obtain ⟨⟨i, isLast⟩, hmarked, hraw⟩ := select_mem_marked h hcode
  have hshape : Scope.Shape { func := f, frame := c.frame } i isLast code :=
    Scope.selectRaw_ends.of_ok hraw
  cases hshape.target_of_jump hx hjump with
  | block _ hblock =>
      obtain ⟨k, b, bc, -, -, hbc, hlabel⟩ := exists_block_at h (exists_of_blockNamed? hblock)
      exact hlabel ▸ label_mem_lines hbc
  | epilogue hearly =>
      obtain ⟨q, hq, hp⟩ := List.mem_flatMap.mp hmarked
      have hreturns : f.returnsEarly = true :=
        List.any_eq_true.mpr ⟨q, hq, List.any_eq_true.mpr ⟨_, hp, hearly⟩⟩
      simp [FuncCode.lines, exit_of_select h, hreturns]

/-- A branch that has code names a block. -/
theorem Flows.exists_name {isLast : Bool} {code : Code} {name : String}
    (h : f.Flows isLast i code) (hname : i.branch? = some (.label name)) :
    ∃ b ∈ f.blocks, b.name = name := by
  cases h with
  | straight hop _ =>
      unfold Instruction.branch? at hname
      split at hname
      next hbr => exact absurd hbr hop.2.2.1
      next rel hbranch => exact absurd hbranch (hop.2.2.2 rel)
      next => cases hname
  | jump hop hsrc hblock =>
      simp only [Instruction.branch?, hop, hsrc] at hname
      cases hname
      exact hblock
  | branch hop hsrc hblock _ =>
      simp only [Instruction.branch?, hop, hsrc] at hname
      cases hname
      exact hblock
  | leave hop _ _ | fall hop _ _ =>
      rcases hop with hop | hop <;> simp [Instruction.branch?, hop] at hname

/-- **Functions.** The control flow of the code of a function. -/
theorem wired_of_select (h : f.select = .ok c) : f.Wired c := by
  refine ⟨?_, forall₂_blocks h, fun x target => target_mem_lines h,
    fun k b n i => exists_code_at h, ?_, ?_⟩
  · rw [FuncCode.lines, name_of_select h]
    rfl
  · intro i hi name hname
    obtain ⟨b, hb, hi⟩ := List.mem_flatMap.mp hi
    obtain ⟨k, hk⟩ := List.getElem?_of_mem hb
    obtain ⟨n, hn⟩ := List.getElem?_of_mem hi
    obtain ⟨bc, code, -, -, hflows⟩ := exists_code_at h hk hn
    exact exists_block_at h (hflows.exists_name hname)
  · intro label
    rw [exit_of_select h, ← returnsEarly_iff]
    cases f.returnsEarly <;> simp [eq_comm]

end Func

/-! ### Modules under construction -/

/-- Only a branch is rejected for an unknown block. -/
theorem Scope.Rejects.of_unknownBlock {s : Scope} {i : Instruction} {function name : String}
    (h : s.Rejects i (.error ⟨function, .unknownBlock name⟩)) :
    i.branch? = some (.label name) ∧ s.func.blockNamed? name = none := by
  generalize he : Failure.error (CodeError.mk function (.unknownBlock name)) = e at h
  cases h with
  | block hname hblock =>
      cases he
      exact ⟨hname, hblock⟩
  | @general _ e _ _ | @pointer _ e _ _ | @argument _ e _ _ => cases e <;> cases he
  | missing | type _ | operand _ _ | unassigned _ _ | slotAddress _ _ | slotAccess _ _ _ => cases he

/-- Instructions that match branch to operands that are related. -/
theorem Instruction.Matches.branch? {D R : Operand → Operand → Prop} {i j : Instruction}
    (h : i.Matches D R j) : Option.Rel R i.branch? j.branch? := by
  unfold Instruction.branch?
  rw [h.opcode]
  split
  · exact h.src1
  · exact h.src3
  · exact .none

namespace Func

variable {f g : Func}

/-- Where labels are those of blocks, no block is unknown. -/
theorem Resolved.select_ne_unknownBlock (hf : f.Resolved) (function name : String) :
    f.select ≠ .error (.error ⟨function, .unknownBlock name⟩) := by
  intro h
  rcases select_eq_error h with hframe | ⟨frame, -, i, hi, isLast, hselect⟩
  · rcases makeFrame_eq_error hframe with hdemand | ⟨-, heq⟩ | ⟨fault, heq⟩ | ⟨bytes, heq⟩
    · obtain ⟨text, hcause⟩ := demand_eq_error hdemand
      cases hcause
    · cases heq
    · cases heq
    · cases heq
  · rcases Scope.select_eq_error hselect with hrejects | ⟨line, heq⟩
    · obtain ⟨hname, hnone⟩ := hrejects.of_unknownBlock
      obtain ⟨b, hb, hb'⟩ := hf i hi name hname
      exact name_ne_of_blockNamed? hnone hb hb'
    · cases heq

/-- Storage assignment keeps the labels. -/
theorem Lowers.resolved (h : f.Lowers g) (hf : f.Resolved) : g.Resolved := by
  intro j hj name hname
  obtain ⟨i, hi, hmatch⟩ := h.exists_matches hj
  have hlabel : i.branch? = some (.label name) := by
    have hrel := hmatch.branch?
    rw [hname] at hrel
    generalize i.branch? = source at hrel
    cases hrel with
    | some hsub =>
        cases hsub with
        | kept _ => rfl
        | placed hplace => cases hplace
  obtain ⟨b, hb, rfl⟩ := hf i hi name hlabel
  obtain ⟨k, hk⟩ := List.getElem?_of_mem hb
  obtain ⟨b', hb', hblock⟩ := exists_getElem?_of_forall₂ h.blocks hk
  exact ⟨b', List.mem_of_getElem? hb', hblock.name⟩

end Func

/-- **No unknown blocks.** A module whose labels are those of blocks is written without an unknown
block once storage has been assigned. -/
theorem Module.assembly_ne_unknownBlock {m m' : Module} (h : m.lower = .ok m')
    (hm : ∀ f ∈ m.functions, f.Resolved) (function name : String) :
    m'.assembly ≠ .error (.error ⟨function, .unknownBlock name⟩) := by
  intro htext
  rw [Module.assembly_eq_error_iff, Module.lines_eq_error_iff] at htext
  obtain ⟨before, g, after, hsplit, -, hbody, hselect⟩ := htext
  have hg : g ∈ m'.functions := by simp [hsplit]
  obtain ⟨f, hf, -, hlower⟩ := Module.exists_lower_of_mem h hg hbody
  have hresolved : g.Resolved := (Func.lowers_of_lower hlower).resolved (hm f hf)
  exact hresolved.select_ne_unknownBlock function name hselect

/-- **Control flow is wired.** The code of a function goes where its instructions say, and all its
jumps go to its labels. In a module that is built by commands alone, a branch goes to the block that
it was built for, whatever commands follow, and no block is unknown when the module is written. -/
theorem control_flow_wired :
    (∀ (f : Func) (c : FuncCode), f.select = .ok c → f.Wired c) ∧
    ∀ (name : String) (cs : List Command) (as : List Answer) (b : Builder),
      (Command.runAll cs).run (Builder.new name) = .ok (as, b) →
      (∀ c ∈ cs, c.isPlain = true) →
      (∀ (before since : List Command) (c : Command) (target : UInt32),
        cs = before ++ c :: since → c.target? = some target →
        ∃ first b₁ p f g id src block,
          (Command.runAll before).run (Builder.new name) = .ok (first, b₁) ∧ b₁.At p f ∧
          b₁.insertPoint = some id ∧ f.block? id = some src ∧ f.block? target = some block ∧
          b.module.functions[p]? = some g ∧ g.name = f.name ∧
          g.BranchesTo id src.instructions.length target block.name) ∧
      ∀ m', b.module.lower = .ok m' → ∀ function block,
        m'.assembly ≠ .error (.error ⟨function, .unknownBlock block⟩) := by
  refine ⟨fun f c => Func.wired_of_select, fun name cs as b h hplain => ⟨?_, ?_⟩⟩
  · rintro before since c target rfl htarget
    exact Command.branchesTo_of_runAll hplain (Builder.sound_new name) h htarget
  · intro m' hlower function block
    have hsound := Command.sound_of_runAll hplain h (Builder.sound_new name)
    exact Module.assembly_ne_unknownBlock hlower (fun f hf => (hsound f hf).2) function block

/-- Commands that build a branch over a block which is inserted afterwards, an early return and a
jump out of the inserted block. -/
def branchOver : List Command := [
  .addFunction (({ name := "main", linkage := .exported, returnType := .i32 } : Func).setArgs
    [.i32]),
  .selectFunction "main",
  .createBlock "entry",
  .addBlock "done",
  .branch .lt .i32 (.reg (.num 0)) (.imm 10) 2,
  .ret .i32 (.imm 0),
  .addBlockAfter 1 "between",
  .selectBlock 3,
  .br 2,
  .selectBlock 2,
  .ret .i32 (.reg (.num 0))]

/-- The branch over the inserted block goes to the block it was built for, and the code of the
function is wired. -/
theorem branchOver_wired :
    ∃ (as : List Answer) (b : Builder) (m' : Module) (f : Func) (c : FuncCode),
      (Command.runAll branchOver).run (Builder.new "m") = .ok (as, b) ∧
      (∀ command ∈ branchOver, command.isPlain = true) ∧
      (∃ (p : Nat) (g : Func) (id : UInt32) (n : Nat) (name : String),
        b.module.functions[p]? = some g ∧ g.BranchesTo id n 2 name) ∧
      b.module.lower = .ok m' ∧
      (∀ function block, m'.assembly ≠ .error (.error ⟨function, .unknownBlock block⟩)) ∧
      m'.functions = [f] ∧ f.select = .ok c ∧ f.Wired c := by
  have hplain : ∀ command ∈ branchOver, command.isPlain = true := by decide
  obtain ⟨⟨as, b⟩, hrun, hlower⟩ :
      ∃ r, (Command.runAll branchOver).run (Builder.new "m") = .ok r ∧
        Ends r.2.module.lower (fun m' => ∃ f ∈ m'.functions.head?, m'.functions = [f] ∧
          Ends f.select (fun _ => True) fun _ => False) fun _ => False :=
    Ends.exists_ok (by decide +kernel)
  obtain ⟨m', hlower, f, -, hm', hselect⟩ := hlower.exists_ok
  obtain ⟨c, hselect, -⟩ := hselect.exists_ok
  obtain ⟨hwired, hbuilt⟩ := control_flow_wired
  obtain ⟨hbranches, hunknown⟩ := hbuilt "m" branchOver as b hrun hplain
  obtain ⟨_, _, p, _, g, id, src, block, -, -, -, -, -, hg, -, hbranch⟩ :=
    hbranches (branchOver.take 4) (branchOver.drop 5)
      (.branch .lt .i32 (.reg (.num 0)) (.imm 10) 2) 2 rfl rfl
  exact ⟨as, b, m', f, c, hrun, hplain, ⟨p, g, id, _, _, hg, hbranch⟩, hlower, hunknown m' hlower,
    hm', hselect, hwired f c hselect⟩

end RegIR
