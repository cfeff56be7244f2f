/-!
# Labels

The labels of a function's blocks are local symbols that carry the function's name, so that
two functions may use one block name. The label of the epilogue has an empty block name and
a suffix.
-/

namespace RegIR

/-- The label of a block. -/
def blockLabel (function block : String) : String :=
  ".L" ++ function ++ "." ++ block

/-- The label of the code that leaves a function. -/
def epilogueLabel (function : String) : String :=
  ".L" ++ function ++ "..epilogue"

end RegIR
