/-!
# Faults

The library tells two kinds of failure apart. An *error* is an answer about bad input: a
stage that reports errors has its own type of them. A *fault* is a broken contract: the
caller asked for something an operation never promised, or a fixed-width number left its
range. A fault ends the computation wherever it happens, so it travels in the same
`Except` channel as the errors and the first of either kind wins.

## Main definitions

* `Fault`: every contract the library can find broken, with its wording in
  `Fault.message`.
* `Failure ε`: an error of type `ε` or a fault.
* `Checked α` and `Outcome ε α`: computations that may fault, and that may also report
  an error.
-/

namespace RegIR

/-- The arithmetic operations that can leave a fixed-width range. -/
inductive Arithmetic where
  | add
  | subtract
  | multiply
  | negate
deriving DecidableEq, Repr

/-- The operation's name, as it stands in a message. -/
def Arithmetic.text : Arithmetic → String
  | .add => "add"
  | .subtract => "subtract"
  | .multiply => "multiply"
  | .negate => "negate"

/-- A broken contract. -/
inductive Fault where
  /-- A fixed-width result is out of range. -/
  | overflow (operation : Arithmetic)
  /-- A block was added to a function that is only declared. -/
  | externalBody (function : String)
  /-- A function already has a block of that name. -/
  | duplicateBlock (function block : String)
  /-- A function has no block with that number. -/
  | missingBlock (function : String) (id : UInt32)
  /-- A module already has a function of that name. -/
  | duplicateFunction (owner function : String)
  /-- A module has no function of that name. -/
  | missingFunction (owner function : String)
  /-- A builder was asked to build before a function was selected. -/
  | noCurrentFunction
  /-- A builder was asked to build before a block was selected. -/
  | noInsertPoint (function : String)
  /-- A move with two memory operands, which the machine does not have. -/
  | memoryMove (line : String)
deriving DecidableEq, Repr

/-- The wording of a fault. -/
def Fault.message : Fault → String
  | .overflow operation => "attempt to " ++ operation.text ++ " with overflow"
  | .externalBody function => "extern function '" ++ function ++ "' cannot have blocks"
  | .duplicateBlock function block =>
      "function '" ++ function ++ "' already has a block named '" ++ block ++ "'"
  | .missingBlock function id =>
      "function '" ++ function ++ "' has no block with id " ++ id.toNat.repr
  | .duplicateFunction owner function =>
      "module '" ++ owner ++ "' already defines function '" ++ function ++ "'"
  | .missingFunction owner function =>
      "module '" ++ owner ++ "' has no function named '" ++ function ++ "'"
  | .noCurrentFunction => "no current function set on the builder"
  | .noInsertPoint function => "no insertion point set in function '" ++ function ++ "'"
  | .memoryMove line => "memory to memory move: " ++ line

/-- Why a computation stopped: an error of its stage, or a fault. -/
inductive Failure (ε : Type) where
  | error (e : ε)
  | fault (f : Fault)
deriving DecidableEq, Repr

/-- A computation that may fault. -/
abbrev Checked (α : Type) := Except Fault α

/-- A computation that may report an error of type `ε` or fault. -/
abbrev Outcome (ε α : Type) := Except (Failure ε) α

/-- Report an error. -/
def Outcome.fail {ε α : Type} (e : ε) : Outcome ε α :=
  .error (.error e)

/-- A faulting computation, run where errors may be reported too. -/
def Checked.lift {ε α : Type} : Checked α → Outcome ε α
  | .ok a => .ok a
  | .error f => .error (.fault f)

instance {ε : Type} : MonadLift (Except Fault) (Except (Failure ε)) where
  monadLift := Checked.lift

/-! ### Narrowing

Arithmetic that must stay in a fixed width is done exactly, in `Nat` or `Int`, and then
narrowed: the result is the exact one, or the fault of the operation that produced it. -/

/-- An exact natural number as an unsigned 32-bit word, or the overflow of `operation`. -/
def narrow32 (operation : Arithmetic) (n : Nat) : Checked UInt32 :=
  if n < UInt32.size then .ok (UInt32.ofNat n) else .error (.overflow operation)

/-- An exact integer as a signed 32-bit word, or the overflow of `operation`. -/
def narrowSigned32 (operation : Arithmetic) (n : Int) : Checked Int32 :=
  if -0x80000000 ≤ n ∧ n < 0x80000000 then .ok (Int32.ofInt n) else .error (.overflow operation)

/-- The successor of a counter. -/
def successor32 (n : UInt32) : Checked UInt32 :=
  narrow32 .add (n.toNat + 1)

end RegIR
