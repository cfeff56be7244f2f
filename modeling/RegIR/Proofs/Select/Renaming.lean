import RegIR.Proofs.Select.Code
import RegIR.Proofs.Storage.Renaming
import RegIR.Select.Program
import Mathlib.Logic.Equiv.Basic

/-!
# Register names do not matter

Selection never looks at a register name: it reads the offset of a stack slot and not the
variable that the slot is for, and it stops at a virtual register whatever its name. Every
function of selection therefore has the same results on renamed code. Only messages differ,
since they show operands as they are written.

No renaming has to be injective for this. Injectivity is what storage assignment needs in front
of it (`RegIR.Proofs.Storage.Renaming`), and both together say that the names of registers do
not reach the assembly text.

## Main results

* `Scope.select_mapNames`: the code of an instruction.
* `Func.select_mapNames`, `Module.assembly_mapNames`: a function, the text of a module.
* `Module.registerNames_irrelevant`: a module with renamed registers is lowered alike and
  compiled to the same text.
-/

namespace RegIR

open X86

/-- The scope with all register names of its function renamed. -/
def Scope.mapNames (ρ : RegName → RegName) (s : Scope) : Scope :=
  { s with func := s.func.mapNames ρ }

namespace Scope

variable {ρ : RegName → RegName} {s : Scope} {opcode : Opcode} {r : Reg} {w : Width}

/-! ### Values -/

/-- An operand that must be there is renamed. -/
theorem required_mapNames (dest : Option Operand) :
    Mirrors (Operand.mapName ρ) (s.required opcode dest)
      ((s.mapNames ρ).required opcode (dest.map (Operand.mapName ρ))) := by
  cases dest with
  | none => trivial
  | some op => exact Mirrors.pure rfl

/-- An operand that cannot stand somewhere cannot stand there under another name. -/
theorem unsupported_mapNames {α : Type} (op : Operand) :
    Mirrors (id : α → α) (s.unsupported opcode op)
      ((s.mapNames ρ).unsupported opcode (op.mapName ρ)) := by
  cases op <;> trivial

theorem location_mapNames (op : Operand) :
    Mirrors id (s.location opcode op) ((s.mapNames ρ).location opcode (op.mapName ρ)) := by
  cases op with
  | reg name => trivial
  | slot name offset => trivial
  | _ => exact Mirrors.refl _

theorem loadInto_mapNames (op : Operand) :
    Mirrors id (s.loadInto opcode r op w)
      ((s.mapNames ρ).loadInto opcode r (op.mapName ρ) w) := by
  cases op with
  | reg name => exact location_mapNames (.reg name) |>.seq fun _ => Mirrors.refl _
  | _ => exact Mirrors.refl _

theorem loadUnsigned_mapNames (op : Operand) :
    Mirrors id (s.loadUnsigned opcode r op w)
      ((s.mapNames ρ).loadUnsigned opcode r (op.mapName ρ) w) := by
  unfold loadUnsigned
  split
  · cases op with
    | reg name => exact unsupported_mapNames (.reg name)
    | slot name offset => exact unsupported_mapNames (.slot name offset)
    | _ => exact Mirrors.refl _
  · exact loadInto_mapNames op

theorem rightOperand_mapNames (op : Operand) :
    Mirrors id (s.rightOperand opcode op w)
      ((s.mapNames ρ).rightOperand opcode (op.mapName ρ) w) := by
  cases op with
  | reg name => exact loadInto_mapNames (.reg name) |>.seq fun _ => Mirrors.refl _
  | _ => exact Mirrors.refl _

theorem memoryAt_mapNames (op : Operand) {disp : Nat} :
    Mirrors id (s.memoryAt opcode op disp w)
      ((s.mapNames ρ).memoryAt opcode (op.mapName ρ) disp w) := by
  cases op with
  | reg name => exact location_mapNames (.reg name) |>.seq fun _ => Mirrors.refl _
  | _ => exact Mirrors.refl _

theorem storeResult_mapNames {dest : Option Operand} :
    Mirrors id (s.storeResult opcode dest r w)
      ((s.mapNames ρ).storeResult opcode (dest.map (Operand.mapName ρ)) r w) := by
  refine (required_mapNames dest).bind fun op => ?_
  exact (location_mapNames op).seq fun loc => Mirrors.refl _

/-! ### Instructions -/

variable {i : Instruction}

theorem arithmetic_mapNames {o : ArithOp} :
    Mirrors id (s.arithmetic o i)
      ((s.mapNames ρ).arithmetic o (i.mapOperands (Operand.mapName ρ))) := by
  refine (Mirrors.refl _).seq fun w => ?_
  refine (required_mapNames i.src1).bind fun left => ?_
  refine (required_mapNames i.src2).bind fun right => ?_
  refine (loadInto_mapNames _).seq fun loadLeft => ?_
  refine (rightOperand_mapNames _).seq fun r => ?_
  exact storeResult_mapNames.seq fun store => Mirrors.refl _

theorem division_mapNames {o : DivOp} :
    Mirrors id (s.division o i)
      ((s.mapNames ρ).division o (i.mapOperands (Operand.mapName ρ))) := by
  refine (Mirrors.refl _).seq fun w => ?_
  refine (required_mapNames i.src1).bind fun dividend => ?_
  refine (required_mapNames i.src2).bind fun divisor => ?_
  refine (required_mapNames i.dest).bind fun dest => ?_
  refine (location_mapNames _).seq fun loc => ?_
  -- Which of the two loads is used depends on the operation alone.
  have hload : ∀ (r : Reg) (op : Operand),
      Mirrors id ((if o.isSigned then s.loadInto i.opcode else s.loadUnsigned i.opcode) r op w)
        ((if o.isSigned then (s.mapNames ρ).loadInto i.opcode
          else (s.mapNames ρ).loadUnsigned i.opcode) r (op.mapName ρ) w) := by
    intro r op
    split
    · exact loadInto_mapNames op
    · exact loadUnsigned_mapNames op
  refine (hload scratch divisor).seq fun loadDivisor => ?_
  refine (hload .rax dividend).seq fun loadDividend => ?_
  exact storeResult_mapNames.seq fun store => Mirrors.refl _

theorem unary_mapNames {o : UnaryOp} :
    Mirrors id (s.unary o i) ((s.mapNames ρ).unary o (i.mapOperands (Operand.mapName ρ))) := by
  refine (Mirrors.refl _).seq fun w => ?_
  refine (required_mapNames i.src1).bind fun src => ?_
  refine (loadInto_mapNames _).seq fun load => ?_
  exact storeResult_mapNames.seq fun store => Mirrors.refl _

theorem loadToDest_mapNames {dest : Option Operand} {mem : X86.Operand} :
    Mirrors id (s.loadToDest opcode dest mem w)
      ((s.mapNames ρ).loadToDest opcode (dest.map (Operand.mapName ρ)) mem w) := by
  refine (required_mapNames dest).bind fun op => (location_mapNames op).seq fun loc => ?_
  cases loc with
  | reg r => exact Mirrors.refl _
  | slot offset => exact storeResult_mapNames.seq fun store => Mirrors.refl _

theorem storeValue_mapNames (op : Operand) {mem : X86.Operand} :
    Mirrors id (s.storeValue opcode mem op w)
      ((s.mapNames ρ).storeValue opcode mem (op.mapName ρ) w) := by
  cases op with
  | reg name => exact loadInto_mapNames (.reg name) |>.seq fun _ => Mirrors.refl _
  | _ => exact Mirrors.refl _

theorem load_mapNames :
    Mirrors id (s.load i) ((s.mapNames ρ).load (i.mapOperands (Operand.mapName ρ))) := by
  refine (Mirrors.refl _).seq fun w => ?_
  refine (required_mapNames i.src1).bind fun src => ?_
  refine (memoryAt_mapNames _).seq fun place => ?_
  exact loadToDest_mapNames.seq fun code => Mirrors.refl _

theorem store_mapNames :
    Mirrors id (s.store i) ((s.mapNames ρ).store (i.mapOperands (Operand.mapName ρ))) := by
  refine (Mirrors.refl _).seq fun w => ?_
  refine (required_mapNames i.src1).bind fun value => ?_
  refine (required_mapNames i.src2).bind fun dest => ?_
  refine (memoryAt_mapNames _).seq fun place => ?_
  exact (storeValue_mapNames _).seq fun code => Mirrors.refl _

theorem field_mapNames :
    Mirrors id (s.field i) ((s.mapNames ρ).field (i.mapOperands (Operand.mapName ρ))) := by
  refine (required_mapNames i.src2).bind fun op => ?_
  cases op with
  | imm v => exact Mirrors.refl _
  | _ => exact (unsupported_mapNames _).seq fun index => Mirrors.refl _

theorem structLoad_mapNames :
    Mirrors id (s.structLoad i)
      ((s.mapNames ρ).structLoad (i.mapOperands (Operand.mapName ρ))) := by
  refine field_mapNames.seq fun field => ?_
  refine (required_mapNames i.src1).bind fun src => ?_
  refine (memoryAt_mapNames _).seq fun place => ?_
  exact loadToDest_mapNames.seq fun code => Mirrors.refl _

theorem structStore_mapNames :
    Mirrors id (s.structStore i)
      ((s.mapNames ρ).structStore (i.mapOperands (Operand.mapName ρ))) := by
  refine field_mapNames.seq fun field => ?_
  refine (required_mapNames i.src1).bind fun ptr => ?_
  refine (required_mapNames i.src3).bind fun value => ?_
  refine (memoryAt_mapNames _).seq fun place => ?_
  exact (storeValue_mapNames _).seq fun code => Mirrors.refl _

theorem scaleIndex_mapNames (op : Operand) {size : Int64} :
    Mirrors id (s.scaleIndex opcode op size)
      ((s.mapNames ρ).scaleIndex opcode (op.mapName ρ) size) := by
  cases op with
  | reg name => exact loadInto_mapNames (.reg name) |>.seq fun _ => Mirrors.refl _
  | _ => exact Mirrors.refl _

theorem gep_mapNames :
    Mirrors id (s.gep i) ((s.mapNames ρ).gep (i.mapOperands (Operand.mapName ρ))) := by
  refine (required_mapNames i.src1).bind fun ptr => ?_
  refine (required_mapNames i.src2).bind fun index => ?_
  refine (loadInto_mapNames _).seq fun loadPtr => ?_
  refine (scaleIndex_mapNames _).seq fun scale => ?_
  exact storeResult_mapNames.seq fun store => Mirrors.refl _

theorem pushArg_mapNames (op : Operand) :
    Mirrors id (s.pushArg opcode op) ((s.mapNames ρ).pushArg opcode (op.mapName ρ)) := by
  cases op with
  | reg name => exact loadInto_mapNames (.reg name) |>.seq fun _ => Mirrors.refl _
  | _ => exact Mirrors.refl _

theorem call_mapNames :
    Mirrors id (s.call i) ((s.mapNames ρ).call (i.mapOperands (Operand.mapName ρ))) := by
  obtain ⟨opcode, dataType, dest, src1, src2, src3, call⟩ := i
  cases call with
  | none => trivial
  | some c =>
      have hpushes : Mirrors id ((c.args.drop maxRegArgs).reverse.mapM (s.pushArg opcode))
          (((c.args.map (Operand.mapName ρ)).drop maxRegArgs).reverse.mapM
            ((s.mapNames ρ).pushArg opcode)) := by
        rw [← List.map_drop, ← List.map_reverse]
        exact Mirrors.mapM fun op _ => pushArg_mapNames op
      have hloads : Mirrors id
          ((argRegs.zip c.args).mapM fun p => s.loadInto opcode p.1 p.2 .qword)
          ((argRegs.zip (c.args.map (Operand.mapName ρ))).mapM
            fun p => (s.mapNames ρ).loadInto opcode p.1 p.2 .qword) := by
        rw [List.zip_map_right]
        exact Mirrors.mapM fun p _ => loadInto_mapNames p.2
      unfold Scope.call
      simp only [Instruction.mapOperands, Instruction.replace, Option.map_some, Option.isSome_map,
        List.length_drop, List.length_map]
      refine hpushes.seq fun pushes => hloads.seq fun loads => ?_
      split
      · refine (Mirrors.refl _).seq fun w => ?_
        exact storeResult_mapNames.seq fun store => Mirrors.refl _
      · exact Mirrors.refl _

/-- A branch reaches the same label: blocks keep their names. -/
theorem target_mapNames {dest : Option Operand} :
    Mirrors id (s.target opcode dest)
      ((s.mapNames ρ).target opcode (dest.map (Operand.mapName ρ))) := by
  refine (required_mapNames dest).bind fun op => ?_
  cases op with
  | label name =>
      have hblock : ((s.mapNames ρ).func.blockNamed? name).isSome =
          (s.func.blockNamed? name).isSome := by
        have hblocks : (s.mapNames ρ).func.blocks =
            s.func.blocks.map (·.mapOperands (Operand.mapName ρ)) := rfl
        rw [Func.blockNamed?, hblocks, List.find?_map, Option.isSome_map]
        rfl
      dsimp only [Operand.mapName]
      rw [hblock]
      exact Mirrors.refl _
  | _ => exact unsupported_mapNames _

theorem jump_mapNames :
    Mirrors id (s.jump i) ((s.mapNames ρ).jump (i.mapOperands (Operand.mapName ρ))) :=
  target_mapNames.seq fun _ => Mirrors.refl _

theorem branch_mapNames {rel : Relation} :
    Mirrors id (s.branch rel i)
      ((s.mapNames ρ).branch rel (i.mapOperands (Operand.mapName ρ))) := by
  refine (Mirrors.refl _).seq fun w => ?_
  refine (required_mapNames i.src1).bind fun left => ?_
  refine (required_mapNames i.src2).bind fun right => ?_
  refine target_mapNames.seq fun target => ?_
  refine (loadInto_mapNames _).seq fun loadLeft => ?_
  exact (rightOperand_mapNames _).seq fun r => Mirrors.refl _

theorem ret_mapNames {isLast : Bool} :
    Mirrors id (s.ret i isLast)
      ((s.mapNames ρ).ret (i.mapOperands (Operand.mapName ρ)) isLast) := by
  refine (Mirrors.refl _).seq fun w => ?_
  refine (required_mapNames i.src1).bind fun value => ?_
  have hfirst : value.mapName ρ = .general 0 ↔ value = .general 0 := by
    cases value <;> simp [Operand.mapName]
  simp only [hfirst]
  split
  · exact Mirrors.refl _
  · exact (loadInto_mapNames value).seq fun load => Mirrors.refl _

theorem selectRaw_mapNames {isLast : Bool} :
    Mirrors id (s.selectRaw i isLast)
      ((s.mapNames ρ).selectRaw (i.mapOperands (Operand.mapName ρ)) isLast) := by
  have hopcode : (i.mapOperands (Operand.mapName ρ)).opcode = i.opcode := rfl
  unfold selectRaw
  rw [hopcode]
  cases i.opcode with
  | ret => exact ret_mapNames
  | retVoid => exact Mirrors.refl _
  | alloca => exact Mirrors.refl _
  | load => exact load_mapNames
  | store => exact store_mapNames
  | structLoad => exact structLoad_mapNames
  | structStore => exact structStore_mapNames
  | gep => exact gep_mapNames
  | arith op => exact arithmetic_mapNames
  | divide op => exact division_mapNames
  | unary op => exact unary_mapNames
  | br => exact jump_mapNames
  | branch rel => exact branch_mapNames
  | call => exact call_mapNames

/-- **The code of an instruction.** It is the same under both names. -/
theorem select_mapNames {isLast : Bool} :
    Mirrors id (s.select i isLast)
      ((s.mapNames ρ).select (i.mapOperands (Operand.mapName ρ)) isLast) :=
  selectRaw_mapNames.seq fun _ => Mirrors.refl _

end Scope

/-! ### Functions -/

section Positions

variable {g : Operand → Operand}

/-- The last instruction is marked where the renamed one is. -/
theorem markLast_map (last : Bool) (is : List Instruction) :
    markLast last (is.map (·.mapOperands g)) =
      (markLast last is).map (Prod.map (·.mapOperands g) id) := by
  fun_induction markLast last is with
  | case1 => rfl
  | case2 i => rfl
  | case3 i is hne ih =>
      cases is with
      | nil => exact (hne rfl).elim
      | cons j is => exact congrArg (_ :: ·) ih

/-- Blocks are marked where renamed blocks are. -/
theorem markBlocks_map (bs : List Block) :
    markBlocks (bs.map (·.mapOperands g)) =
      (markBlocks bs).map
        (Prod.map (·.mapOperands g) (List.map (Prod.map (·.mapOperands g) id))) := by
  fun_induction markBlocks bs with
  | case1 => rfl
  | case2 b => simp [markBlocks, Block.mapOperands, markLast_map]
  | case3 b bs hne ih =>
      cases bs with
      | nil => exact (hne rfl).elim
      | cons c bs =>
          have hfirst : markLast false (b.mapOperands g).instructions =
              (markLast false b.instructions).map (Prod.map (·.mapOperands g) id) :=
            markLast_map false b.instructions
          rw [List.map_cons, List.map_cons, markBlocks, ← List.map_cons, ih, hfirst]
          · rfl
          · intro hnil
            cases hnil

end Positions

namespace Func

variable {ρ : RegName → RegName} (f : Func)

/-- A renamed function returns early where the function does. -/
theorem returnsEarly_mapNames : (f.mapNames ρ).returnsEarly = f.returnsEarly := by
  have hblocks : (f.mapNames ρ).blocks = f.blocks.map (·.mapOperands (Operand.mapName ρ)) := rfl
  rw [returnsEarly, returnsEarly, hblocks, markBlocks_map]
  simp only [List.any_map, Function.comp_def, Prod.map]
  rfl

/-- A renamed function asks the same of its frame. -/
theorem makeFrame_mapNames : Mirrors id f.makeFrame (f.mapNames ρ).makeFrame := by
  have hoperands : (f.mapNames ρ).operands = f.operands.map (Operand.mapName ρ) := by
    simp [operands, mapNames, mapRegs, Block.mapOperands, List.flatMap_map, List.map_flatMap]
  have hargs : (f.mapNames ρ).args.length = f.args.length := List.length_map _
  have hcount : ∀ counts op, Mirrors id (countOperand f.name counts op)
      (countOperand (f.mapNames ρ).name counts (op.mapName ρ)) := by
    intro counts op
    cases op with
    | reg name => trivial
    | _ => exact Mirrors.refl _
  have hdemand : Mirrors id f.demand (f.mapNames ρ).demand := by
    rw [demand, demand, hoperands, hargs]
    exact (Mirrors.foldlM hcount (0, 0)).seq fun counts => Mirrors.pure rfl
  exact hdemand.seq fun demand => Mirrors.refl _

/-- **The code of a function.** It is the same under both names. -/
theorem select_mapNames : Mirrors id f.select (f.mapNames ρ).select := by
  have hblocks : (f.mapNames ρ).blocks = f.blocks.map (·.mapOperands (Operand.mapName ρ)) := rfl
  rw [select, select, hblocks, markBlocks_map, returnsEarly_mapNames]
  refine f.makeFrame_mapNames.seq fun frame => ?_
  refine (Mirrors.mapM fun b _ => ?_).seq fun blocks => Mirrors.pure rfl
  refine (Mirrors.mapM fun i _ => ?_).seq fun code => Mirrors.pure rfl
  exact Scope.select_mapNames (s := ⟨f, frame⟩)

/-- The lines of a function are the same under both names. -/
theorem lines_mapNames : Mirrors id f.lines (f.mapNames ρ).lines := by
  have hexternal : (f.mapNames ρ).isExternal = f.isExternal := rfl
  rw [lines, lines, hexternal]
  split
  · exact Mirrors.refl _
  · have hcode : Mirrors id (FuncCode.lines <$> f.select)
        (FuncCode.lines <$> (f.mapNames ρ).select) := by
      rw [map_eq_pure_bind, map_eq_pure_bind]
      exact f.select_mapNames.seq fun code => Mirrors.refl _
    exact hcode.seq fun code => Mirrors.refl _

end Func

/-- **The text of a module.** It is the same under both names. -/
theorem Module.assembly_mapNames (ρ : Nat → RegName → RegName) (m : Module) :
    Mirrors id m.assembly (m.mapNames ρ).assembly := by
  have hlines : Mirrors (List.mapIdx fun _ => id) (m.functions.mapM Func.lines)
      ((m.mapNames ρ).functions.mapM Func.lines) :=
    Mirrors.mapIdxM fun k f _ => f.lines_mapNames
  have hid : (List.mapIdx fun _ => id : List (List Line) → List (List Line)) = id := by
    funext functions
    exact List.ext_getElem? fun n => by simp
  rw [hid] at hlines
  exact (hlines.seq fun functions => Mirrors.refl _).seq fun lines => Mirrors.refl _

/-- **Register names do not matter.** Take a module without hardware operands and rename the
argument registers and virtual registers of each function injectively, each function in its own
way. Storage assignment accepts both modules or none. What it makes of the renamed one is what
it makes of the other, with the same places, offsets and stack sizes; only the names of
arguments and of the variables that slots are for are renamed. Both are compiled to the same
text, or neither is compiled. -/
theorem Module.registerNames_irrelevant (m : Module) (ρ : Nat → RegName → RegName)
    (hρ : ∀ k, Function.Injective (ρ k))
    (hplain : ∀ f ∈ m.functions, ∀ i ∈ f.instructions, ∀ op ∈ i.operands,
      op.isHardware = false) :
    ((∃ l, m.lower = .ok l) ↔ ∃ l, (m.renameRegs ρ).lower = .ok l) ∧
      ∀ l l', m.lower = .ok l → (m.renameRegs ρ).lower = .ok l' →
        l' = l.mapNames ρ ∧ ∀ text, l.assembly = .ok text ↔ l'.assembly = .ok text := by
  have hlower := Module.lower_renameRegs hρ hplain
  refine ⟨hlower.exists_ok_iff, fun l l' hl hl' => ?_⟩
  obtain rfl : l' = l.mapNames ρ := Except.ok.inj (hl'.symm.trans (hlower.ok hl))
  have hassembly := Module.assembly_mapNames ρ l
  refine ⟨rfl, fun text => ⟨hassembly.ok, fun h => ?_⟩⟩
  obtain ⟨text', htext, rfl⟩ := hassembly.ok_right h
  exact htext

/-- Two functions that use the number one and the name "1" as registers: a variable and an
argument of the first, an argument and a result of the second. -/
def twoOnes : Module where
  name := "ones"
  functions := [
    { name := "keep"
      linkage := .internal
      returnType := .i32
      args := [(.i32, .named "1")]
      nextBlockId := 2
      blocks := [
        { name := "entry", id := 1, instructions := [
            { opcode := .alloca, dataType := .i32, dest := some (.reg (.num 1)) },
            { opcode := .store, dataType := .i32, src1 := some (.reg (.named "1")),
              src2 := some (.reg (.num 1)) },
            { opcode := .load, dataType := .i32, dest := some (.reg (.num 2)),
              src1 := some (.reg (.num 1)) },
            { opcode := .ret, dataType := .i32, src1 := some (.reg (.num 2)) }] }] },
    { name := "main"
      linkage := .exported
      returnType := .i32
      args := [(.i32, .num 1)]
      nextBlockId := 2
      blocks := [
        { name := "entry", id := 1, instructions := [
            { opcode := .call, dataType := .i32, dest := some (.reg (.named "1")),
              call := some { callee := "keep", args := [.reg (.num 1)] } },
            { opcode := .ret, dataType := .i32, src1 := some (.reg (.named "1")) }] }] }]

/-- Exchange the number one with the name "1" in the first function, and with a new name in the
others. -/
def exchangeOne (k : Nat) : RegName → RegName :=
  Equiv.swap (.num 1) (.named (if k = 0 then "1" else "one"))

/-- The module is accepted and compiled with its registers exchanged, to the same text. -/
theorem twoOnes_exchanged :
    ∃ l text, twoOnes.lower = .ok l ∧
      (twoOnes.renameRegs exchangeOne).lower = .ok (l.mapNames exchangeOne) ∧
      l.assembly = .ok text ∧ (l.mapNames exchangeOne).assembly = .ok text := by
  have hrun : Ends twoOnes.lower
      (fun l => Ends l.assembly (fun _ => True) fun _ => False) fun _ => False := by
    decide +kernel
  obtain ⟨l, hl, hassembly⟩ := hrun.exists_ok
  obtain ⟨text, htext, -⟩ := hassembly.exists_ok
  obtain ⟨hiff, hsame⟩ := Module.registerNames_irrelevant twoOnes exchangeOne
    (fun k => Equiv.injective _) (by decide)
  obtain ⟨l', hl'⟩ := hiff.mp ⟨l, hl⟩
  obtain ⟨rfl, hsame⟩ := hsame l l' hl hl'
  exact ⟨l, text, hl, hl', htext, (hsame text).mp htext⟩

end RegIR
