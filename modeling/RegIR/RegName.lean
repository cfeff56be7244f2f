/-!
# Register names

Virtual registers are numbered by the builder or named by hand. The two kinds never
meet: the register numbered `1` and the register named `"1"` are different.
-/

namespace RegIR

/-- The name of a virtual register. -/
inductive RegName where
  | num (n : UInt32)
  | named (s : String)
deriving DecidableEq, Repr

namespace RegName

/-- The name without any sigil. -/
def text : RegName → String
  | num n => n.toNat.repr
  | named s => s

/-- Numbers come before names, numbers go by value and names by their characters. -/
def order : RegName → RegName → Ordering
  | num m, num n => compare m n
  | num _, named _ => .lt
  | named _, num _ => .gt
  | named s, named t => compare s t

instance : Ord RegName where
  compare := order

end RegName

end RegIR
