/-!
# Errors of the pipeline

What a user of the whole pipeline is told. Each stage has its own errors and turns them
into these.
-/

namespace RegIR

/-- An error of the pipeline. -/
inductive CompileError where
  /-- Storage could not be assigned. -/
  | lowering (function message : String)
  /-- Code could not be selected. -/
  | codegen (function message : String)
  /-- A file could not be read or written. -/
  | file (message : String)
  /-- The pipeline was used in the wrong order. -/
  | internal (message : String)
deriving DecidableEq, Repr

def CompileError.message : CompileError → String
  | lowering function text => "Lowering error in " ++ function ++ ": " ++ text
  | codegen function text => "Code generation error in " ++ function ++ ": " ++ text
  | file text => "IO error: " ++ text
  | internal text => "Internal compiler error: " ++ text

end RegIR
