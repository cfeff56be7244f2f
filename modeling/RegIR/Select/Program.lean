import RegIR.Module
import RegIR.Select.Function

/-!
# Code of a module

An assembly file holds the string constants of a module and then its functions. A function
that is defined elsewhere is only announced; one that is visible elsewhere is declared as
such.
-/

namespace RegIR

open X86

/-- The lines in front of a function. -/
def Linkage.directives (linkage : Linkage) (name : String) : List Line :=
  match linkage with
  | .exported => [.globl name, .functionType name]
  | .internal => []
  | .external => [.external name]

/-- The lines of a function in a file, after a blank one. -/
def Func.lines (f : Func) : Selected (List Line) := do
  let code ← if f.isExternal then pure [] else FuncCode.lines <$> f.select
  return .blank :: f.linkage.directives f.name ++ code

/-- The lines of a module. -/
def Module.lines (m : Module) : Selected (List Line) := do
  let functions ← m.functions.mapM Func.lines
  return [.intelSyntax, .dataSection]
    ++ m.strings.map (fun s => .stringConst s.name s.value)
    ++ [.textSection] ++ functions.flatten

/-- The assembly text of a module. -/
def Module.assembly (m : Module) : Selected String := do
  return render (← m.lines)

end RegIR
