import RegIR.Opcode

/-!
# Constant folding

Operations on constants that are done while code is built. Constants are 64-bit words
whatever the type of the operation; sums, differences, products and bitwise operations keep
the low bits right at every width. A signed quotient is folded unless it is undefined or
does not fit a word. Unsigned operations and remainders are left to the machine, because
they depend on the width.
-/

namespace RegIR

/-- A signed quotient, truncated toward zero, if it exists and fits. -/
def quotient? (a b : Int64) : Option Int64 :=
  if b = 0 ∨ (a = Int64.minValue ∧ b = -1) then none else some (a / b)

/-- Fold an operation on two constants. -/
def Opcode.fold? (op : Opcode) (a b : Int64) : Option Int64 :=
  match op with
  | .arith .add => some (a + b)
  | .arith .sub => some (a - b)
  | .arith .smul => some (a * b)
  | .arith .and => some (a &&& b)
  | .arith .or => some (a ||| b)
  | .arith .xor => some (a ^^^ b)
  | .divide .sdiv => quotient? a b
  | _ => none

/-- Fold an operation on one constant. -/
def UnaryOp.fold (op : UnaryOp) (a : Int64) : Int64 :=
  match op with
  | .neg => -a
  | .not => ~~~a

end RegIR
