import RegIR.Proofs.Select.Demand
import RegIR.Proofs.Select.Emitted
import RegIR.Proofs.Storage.Substitution
import RegIR.Select.Program

/-!
# What can go wrong when code is selected

Errors come from the scan of the operands, from the layout of the frame, from questions to the
frame and from each instruction's own checks. The scan comes first, and it counts every register
that a later question is about. So the frame always has a place for a register, and a virtual
register is found by the scan and nowhere else. Storage assignment leaves no virtual register,
and numbers no argument that is not declared.

## Main results

* `Scope.Rejects.cause`: the errors of an instruction whose operands have been counted.
* `Func.select_eq_unassigned_iff`: a virtual register that is left is reported, the first one.
* `Func.Lowers.select_eq_tooManyArguments`: of a lowered function only its own arguments are too
  many.
* `Module.lines_eq_error_iff`: the first function without code decides the error of a module.
* `Module.selection_errors`: what can go wrong with a function, and with a lowered module.
-/

namespace RegIR

open X86

/-! ### Questions to the frame -/

namespace X86.Frame

variable {f : Frame} {index : UInt32}

/-- A general register that has been counted has a place. -/
theorem exists_generalLocation (h : index < f.general) :
    ∃ loc, f.generalLocation index = .ok loc := by
  rw [generalLocation]
  split
  · exact ⟨_, rfl⟩
  · rw [if_pos h]
    exact ⟨_, rfl⟩

/-- A pointer register that has been counted has a place. -/
theorem exists_pointerLocation (h : index < f.pointer) :
    ∃ loc, f.pointerLocation index = .ok loc := by
  rw [pointerLocation]
  split
  · exact ⟨_, rfl⟩
  · rw [if_pos h]
    exact ⟨_, rfl⟩

/-- An argument without a home is beyond those that the frame has. -/
theorem argHome_eq_error {index : UInt64} {a : AbiError}
    (h : f.argHome index = .error (.error a)) :
    f.args ≤ index.toNat ∧ ∃ count, a = .tooManyArguments count f.args := by
  rw [argHome] at h
  split at h
  next => cases h
  next hindex =>
    obtain h | ⟨count, -, h⟩ := bind_eq_error_iff.mp h
    · exact absurd h liftM_ne_error
    · cases h
      exact ⟨Nat.le_of_not_lt hindex, count, rfl⟩

end X86.Frame

/-! ### Instructions -/

namespace Scope

variable {s : Scope} {i : Instruction}

/-- **Causes.** The errors of an instruction whose operands have been counted: no virtual
register is left, no register is without a place, and too many arguments are reported only for
an operand that numbers an argument which the frame does not have. -/
theorem Rejects.cause {function : String} {cause : Cause}
    (h : s.Rejects i (.error ⟨function, cause⟩))
    (hcounted : ∀ op ∈ i.operands, op.CountedBy (s.frame.general, s.frame.pointer)) :
    function = s.func.name ∧ (∀ text, cause ≠ .unassigned text) ∧ (∀ a, cause ≠ .abi a) ∧
      ∀ count max, cause = .tooManyArguments count max →
        ∃ index, .argument index ∈ i.operands ∧ s.frame.args ≤ index.toNat := by
  generalize he : Failure.error (CodeError.mk function cause) = e at h
  cases h with
  | missing | type _ | operand _ _ | block _ _ =>
      cases he
      exact ⟨rfl, nofun, nofun, nofun⟩
  | @unassigned op hop hreg =>
      have hop' := hcounted op hop
      cases op with
      | reg name => exact absurd hop' id
      | _ => cases hreg
  | general hop hloc =>
      obtain ⟨loc, hok⟩ := Frame.exists_generalLocation (hcounted _ hop)
      rw [hok] at hloc
      cases hloc
  | pointer hop hloc =>
      obtain ⟨loc, hok⟩ := Frame.exists_pointerLocation (hcounted _ hop)
      rw [hok] at hloc
      cases hloc
  | @argument index a hop hhome =>
      obtain ⟨hindex, count, rfl⟩ := Frame.argHome_eq_error hhome
      cases he
      rw [UInt32.toNat_toUInt64] at hindex
      exact ⟨rfl, nofun, nofun, fun _ _ _ => ⟨index, hop, hindex⟩⟩
  | slotAddress _ _ | slotAccess _ _ _ => cases he

/-- A failure of an instruction is one of the reasons to reject it, or a move that the machine
does not have. -/
theorem select_eq_error {isLast : Bool} {e : Failure CodeError}
    (h : s.select i isLast = .error e) :
    s.Rejects i e ∨ ∃ line, e = .fault (.memoryMove line) := by
  obtain h | ⟨code, -, h⟩ := bind_eq_error_iff.mp h
  · have hends : Ends (s.selectRaw i isLast) (s.Shape i isLast) (s.Rejects i) := selectRaw_ends
    exact .inl (hends.of_error h)
  · split at h
    next move _ =>
      cases h
      exact .inr ⟨_, rfl⟩
    next => cases h

end Scope

/-! ### Functions -/

namespace Func

variable {f : Func}

/-- **Errors of a function** are those of its scan, of its frame, or of an instruction whose
operands have been counted. -/
theorem select_eq_error_cases {function : String} {cause : Cause}
    (h : f.select = .error (.error ⟨function, cause⟩)) :
    f.demand = .error (.error ⟨function, cause⟩) ∨
    (function = f.name ∧ 6 < f.args.length ∧ cause = .tooManyArguments f.args.length 6) ∨
    (function = f.name ∧ ∃ bytes, cause = .abi (.frameTooLarge bytes)) ∨
    (function = f.name ∧ (∀ text, cause ≠ .unassigned text) ∧ (∀ a, cause ≠ .abi a) ∧
      ∀ count max, cause = .tooManyArguments count max →
        ∃ index, .argument index ∈ f.operands ∧ f.args.length ≤ index.toNat) := by
  obtain h | ⟨frame, hframe, i, hi, isLast, h⟩ := select_eq_error h
  · obtain h | ⟨hargs, heq⟩ | ⟨fault, heq⟩ | ⟨bytes, heq⟩ := makeFrame_eq_error h
    · exact .inl h
    · cases heq
      exact .inr (.inl ⟨rfl, hargs, rfl⟩)
    · cases heq
    · cases heq
      exact .inr (.inr (.inl ⟨rfl, bytes, rfl⟩))
  · obtain h | ⟨line, heq⟩ := Scope.select_eq_error h
    · obtain ⟨hcounted, hargs⟩ := counts_of_makeFrame hframe
      obtain ⟨hname, hreg, habi, hmany⟩ := h.cause fun op hop => hcounted op (mem_operands hi hop)
      refine .inr (.inr (.inr ⟨hname, hreg, habi, fun count max hcause => ?_⟩))
      obtain ⟨index, hop, hle⟩ := hmany count max hcause
      exact ⟨index, mem_operands hi hop, hargs ▸ hle⟩
    · cases heq

/-- The scan reports nothing but virtual registers. -/
theorem demand_eq_error {function : String} {cause : Cause}
    (h : f.demand = .error (.error ⟨function, cause⟩)) :
    ∃ text, cause = .unassigned text := by
  rw [demand_eq_error_iff] at h
  obtain ⟨op, -, hop⟩ := List.exists_of_findSome?_eq_some h
  obtain ⟨name, -, heq⟩ := countFailure?_eq_error_iff.mp hop
  exact ⟨op.text, congrArg CodeError.cause heq⟩

/-- **Virtual registers.** A virtual register that is left is reported, the first one in layout
order, unless a register before it cannot be counted. -/
theorem select_eq_unassigned_iff {function text : String} :
    f.select = .error (.error ⟨function, .unassigned text⟩) ↔
      function = f.name ∧ ∃ (before : List Operand) (name : RegName) (after : List Operand),
        f.operands = before ++ .reg name :: after ∧ text = (Operand.reg name).text ∧
        ∀ op ∈ before, op.isReg = false ∧ op.isUncountable = false := by
  have hscan : f.select = .error (.error ⟨function, .unassigned text⟩) ↔
      f.demand = .error (.error ⟨function, .unassigned text⟩) := by
    constructor
    · intro h
      obtain h | ⟨-, -, hcause⟩ | ⟨-, _, hcause⟩ | ⟨-, hreg, -⟩ := select_eq_error_cases h
      · exact h
      · cases hcause
      · cases hcause
      · exact absurd rfl (hreg text)
    · intro h
      rw [select, makeFrame, h]
      rfl
  rw [hscan, demand_eq_error_iff, List.findSome?_eq_some_iff]
  simp only [countFailure?_eq_none_iff, countFailure?_eq_error_iff]
  constructor
  · rintro ⟨before, _, after, hops, ⟨name, rfl, heq⟩, hbefore⟩
    cases heq
    exact ⟨rfl, before, name, after, hops, rfl, hbefore⟩
  · rintro ⟨rfl, before, name, after, hops, rfl, hbefore⟩
    exact ⟨before, _, after, hops, ⟨name, rfl, rfl⟩, hbefore⟩

/-- No register is ever without a place in the frame. -/
theorem select_ne_unreservedSlot {function : String} {cls : RegClass} {index : UInt32} :
    f.select ≠ .error (.error ⟨function, .abi (.unreservedSlot cls index)⟩) := by
  intro h
  obtain h | ⟨-, -, hcause⟩ | ⟨-, _, hcause⟩ | ⟨-, -, habi, -⟩ := select_eq_error_cases h
  · obtain ⟨text, hcause⟩ := demand_eq_error h
    cases hcause
  · cases hcause
  · cases hcause
  · exact habi _ rfl

/-- In a lowered function an argument is numbered only if it is declared. -/
theorem Lowers.argument_lt {f₀ : Func} (h : f₀.Lowers f)
    (hplain : ∀ i ∈ f₀.instructions, ∀ op ∈ i.operands, op.isHardware = false)
    {index : UInt32} (hop : .argument index ∈ f.operands) : index.toNat < f.args.length := by
  rw [operands_eq] at hop
  obtain ⟨j, hj, hop⟩ := List.mem_flatMap.mp hop
  have hplace := h.place hplain hj hop rfl
  generalize hindex : Operand.argument index = op at hplace
  cases hplace with
  | @argument k hk =>
      obtain rfl := Operand.argument.inj hindex
      have hle : (UInt32.ofNat k).toNat ≤ k := by
        rw [UInt32.toNat_ofNat']
        exact Nat.mod_le _ _
      omega
  | _ => cases hindex

/-- **Too many arguments** are reported of a lowered function only if it declares them. -/
theorem Lowers.select_eq_tooManyArguments {f₀ : Func} (h : f₀.Lowers f)
    (hplain : ∀ i ∈ f₀.instructions, ∀ op ∈ i.operands, op.isHardware = false)
    {function : String} {count max : Nat}
    (hselect : f.select = .error (.error ⟨function, .tooManyArguments count max⟩)) :
    f.name = function ∧ 6 < f.args.length ∧ count = f.args.length ∧ max = 6 := by
  obtain hscan | ⟨hname, hargs, hcause⟩ | ⟨-, _, hcause⟩ | ⟨-, -, -, hmany⟩ :=
    select_eq_error_cases hselect
  · obtain ⟨text, hcause⟩ := demand_eq_error hscan
    cases hcause
  · obtain ⟨rfl, rfl⟩ := Cause.tooManyArguments.inj hcause
    exact ⟨hname.symm, hargs, rfl, rfl⟩
  · cases hcause
  · obtain ⟨index, hop, hle⟩ := hmany count max rfl
    have hlt := h.argument_lt hplain hop
    omega

/-- The lines of a function fail if it has a body and the body has no code. -/
theorem lines_eq_error_iff {e : Failure CodeError} :
    f.lines = .error e ↔ f.isExternal = false ∧ f.select = .error e := by
  cases hext : f.isExternal <;> cases hselect : f.select <;>
    simp [lines, hext, hselect, bind, Except.bind, pure, Except.pure, Functor.map, Except.map]

/-- A function has lines if it has no body, or if the body has code. -/
theorem exists_lines_iff :
    (∃ ls, f.lines = .ok ls) ↔ f.isExternal = true ∨ ∃ c, f.select = .ok c := by
  cases hext : f.isExternal <;> cases hselect : f.select <;>
    simp [lines, hext, hselect, bind, Except.bind, pure, Except.pure, Functor.map, Except.map]

end Func

/-! ### Modules -/

/-- The text of a module fails as its lines do. -/
theorem Module.assembly_eq_error_iff {m : Module} {e : Failure CodeError} :
    m.assembly = .error e ↔ m.lines = .error e := by
  cases h : m.lines <;> simp [assembly, h, bind, Except.bind, pure, Except.pure]

/-- **The first function without code** decides the error of a module. -/
theorem Module.lines_eq_error_iff {m : Module} {e : Failure CodeError} :
    m.lines = .error e ↔
      ∃ (before : List Func) (f : Func) (after : List Func), m.functions = before ++ f :: after ∧
        (∀ g ∈ before, g.isExternal = true ∨ ∃ c, g.select = .ok c) ∧
        f.isExternal = false ∧ f.select = .error e := by
  have hlines : m.lines = .error e ↔ m.functions.mapM Func.lines = .error e := by
    rw [lines, bind_eq_error_iff]
    refine ⟨fun h => ?_, .inl⟩
    obtain h | ⟨_, -, h⟩ := h
    · exact h
    · cases h
  rw [hlines, mapM_eq_error_iff]
  simp only [Func.lines_eq_error_iff, Func.exists_lines_iff]

/-- **What can go wrong.** No function fails because a register has no place in its frame. A
function is rejected for a virtual register exactly if one is left, and the first one in layout
order is named, unless a register before it cannot be counted. The first function without code
decides the error of a module. Of a module that is lowered from one without hardware operands,
no virtual register is reported, and too many arguments are reported only of a function with a
body that declares more than six, with their number. -/
theorem Module.selection_errors :
    (∀ f : Func,
      (∀ function cls index,
        f.select ≠ .error (.error ⟨function, .abi (.unreservedSlot cls index)⟩)) ∧
      ∀ function text, f.select = .error (.error ⟨function, .unassigned text⟩) ↔
        function = f.name ∧ ∃ (before : List Operand) (name : RegName) (after : List Operand),
          f.operands = before ++ .reg name :: after ∧ text = (Operand.reg name).text ∧
          ∀ op ∈ before, op.isReg = false ∧ op.isUncountable = false) ∧
    (∀ (m : Module) (e : Failure CodeError), m.lines = .error e ↔
      ∃ (before : List Func) (f : Func) (after : List Func), m.functions = before ++ f :: after ∧
        (∀ g ∈ before, g.isExternal = true ∨ ∃ c, g.select = .ok c) ∧
        f.isExternal = false ∧ f.select = .error e) ∧
    ∀ m m' : Module, m.lower = .ok m' →
      (∀ f ∈ m.functions, ∀ i ∈ f.instructions, ∀ op ∈ i.operands, op.isHardware = false) →
      (∀ function text, m'.lines ≠ .error (.error ⟨function, .unassigned text⟩)) ∧
      ∀ function count max,
        m'.lines = .error (.error ⟨function, .tooManyArguments count max⟩) →
        ∃ f ∈ m'.functions, f.isExternal = false ∧ f.name = function ∧ 6 < f.args.length ∧
          count = f.args.length ∧ max = 6 := by
  refine ⟨fun f => ⟨fun _ _ _ => Func.select_ne_unreservedSlot, fun _ _ =>
    Func.select_eq_unassigned_iff⟩, fun m e => Module.lines_eq_error_iff, ?_⟩
  intro m m' hlower hplain
  -- a function of the module that has no code has been lowered
  have hfailing : ∀ {e}, m'.lines = .error e → ∃ f₀ ∈ m.functions, ∃ f ∈ m'.functions,
      f₀.Lowers f ∧ f.isExternal = false ∧ f.select = .error e := by
    intro e he
    obtain ⟨before, f, after, hsplit, -, hbody, hselect⟩ := Module.lines_eq_error_iff.mp he
    have hf : f ∈ m'.functions := by
      rw [hsplit]
      exact List.mem_append_right _ List.mem_cons_self
    obtain ⟨f₀, hf₀, -, hf₀lower⟩ := Module.exists_lower_of_mem hlower hf hbody
    exact ⟨f₀, hf₀, f, hf, Func.lowers_of_lower hf₀lower, hbody, hselect⟩
  constructor
  · intro function text he
    obtain ⟨f₀, -, f, -, hlowers, -, hselect⟩ := hfailing he
    obtain ⟨-, before, name, after, hops, -⟩ := Func.select_eq_unassigned_iff.mp hselect
    have hop : .reg name ∈ f.operands := by
      rw [hops]
      exact List.mem_append_right _ List.mem_cons_self
    rw [Func.operands_eq] at hop
    obtain ⟨j, hj, hop⟩ := List.mem_flatMap.mp hop
    cases hlowers.placed j hj _ hop
  · intro function count max he
    obtain ⟨f₀, hf₀, f, hf, hlowers, hbody, hselect⟩ := hfailing he
    exact ⟨f, hf, hbody, hlowers.select_eq_tooManyArguments (hplain f₀ hf₀) hselect⟩

/-- A module that declares a function with nine arguments and defines one with seven, which
returns its last argument. -/
def nineAndSeven : Module where
  name := "many"
  functions := [
    { name := "nine"
      linkage := .external
      returnType := .void
      args := List.replicate 9 (.i64, .num 0) },
    { name := "seven"
      linkage := .exported
      returnType := .i64
      args := [(.i64, .num 0), (.i64, .num 1), (.i64, .num 2), (.i64, .num 3), (.i64, .num 4),
        (.i64, .num 5), (.i64, .num 6)]
      nextBlockId := 2
      blocks := [{
        name := "entry"
        id := 1
        instructions := [
          { opcode := .ret, dataType := .i64, src1 := some (.reg (.num 6)) }] }] }]

/-- As it is, the function with seven arguments has a virtual register left; once it is lowered
it has too many arguments. The declaration with nine is no error. -/
theorem nineAndSeven_errors :
    (∃ f : Func, nineAndSeven.functions[1]? = some f ∧
      f.select = .error (.error ⟨"seven", .unassigned "%6"⟩)) ∧
    ∃ m' : Module, nineAndSeven.lower = .ok m' ∧
      m'.lines = .error (.error ⟨"seven", .tooManyArguments 7 6⟩) ∧
      ∃ f ∈ m'.functions, f.isExternal = false ∧ f.name = "seven" ∧ 6 < f.args.length := by
  obtain ⟨hfunc, -, hmodule⟩ := Module.selection_errors
  refine ⟨⟨_, rfl, (hfunc _).2 _ _ |>.mpr ⟨rfl, [], .num 6, [], rfl, by decide, nofun⟩⟩, ?_⟩
  have hends : Ends nineAndSeven.lower
      (fun m' => m'.lines = .error (.error ⟨"seven", .tooManyArguments 7 6⟩)) fun _ => False := by
    decide +kernel
  obtain ⟨m', hm, hlines⟩ := hends.exists_ok
  obtain ⟨f, hf, hbody, hname, hargs, -⟩ := (hmodule _ m' hm (by decide)).2 _ _ _ hlines
  exact ⟨m', hm, hlines, f, hf, hbody, hname, hargs⟩

end RegIR
