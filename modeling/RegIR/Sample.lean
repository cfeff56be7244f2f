import RegIR.Builder

/-!
# Samples

Small modules that show the pipeline at work, each written with the builder.
-/

namespace RegIR

/-- A sample module: its name, what it shows, and how it is built. -/
structure Sample where
  name : String
  description : String
  build : Build Unit

namespace Sample

open Build

/-- Add a function that returns a number, and start its first block. -/
def beginFunction (name : String) (linkage : Linkage) (args : List Ty) : Build Unit := do
  let f : Func := { name := name, linkage := linkage, returnType := .i32 }
  addFunction (f.setArgs args)
  selectFunction name
  discard (createBlock "entry")

/-- The register of an argument. -/
def arg (index : UInt32) : Operand :=
  .reg (.num index)

def ret0 : Sample where
  name := "ret0"
  description := "main returns 0"
  build := do
    beginFunction "main" .exported []
    ret .i32 (.imm 0)

def arithmetic : Sample where
  name := "arith"
  description := "two stack slots, loads and an add"
  build := do
    beginFunction "main" .exported []
    let a ← alloca .i32
    let b ← alloca .i32
    store .i32 (.imm 20) a
    store .i32 (.imm 30) b
    let x ← load .i32 a
    let y ← load .i32 b
    let sum ← arith .add .i32 x y
    ret .i32 sum

def maximum : Sample where
  name := "branch"
  description := "local max() with a conditional branch, called from main"
  build := do
    beginFunction "max" .internal [.i32, .i32]
    let first ← addBlock "first"
    branch .gt .i32 (arg 0) (arg 1) first
    ret .i32 (arg 1)
    selectBlock first
    ret .i32 (arg 0)
    beginFunction "main" .exported []
    let result ← call .i32 "max" [.imm 3, .imm 7]
    ret .i32 result

def hello : Sample where
  name := "hello"
  description := "printf of a string constant"
  build := do
    addFunction { name := "printf", linkage := .external, returnType := .i32 }
    beginFunction "main" .exported []
    let message ← string "Hello, world!\n"
    discard (call .i32 "printf" [message])
    ret .i32 (.imm 0)

def remainder : Sample where
  name := "call"
  description := "call into a local function using multiply and remainder"
  build := do
    beginFunction "mix" .internal [.i32, .i32]
    let product ← arith .smul .i32 (arg 0) (arg 1)
    let rem ← divide .srem .i32 product (.imm 7)
    ret .i32 rem
    beginFunction "main" .exported []
    let mixed ← call .i32 "mix" [.imm 6, .imm 9]
    let result ← arith .add .i32 mixed (.imm 1)
    ret .i32 result

/-- The samples, in the order in which they are listed. -/
def all : List Sample :=
  [ret0, arithmetic, maximum, hello, remainder]

/-- The sample of a given name. -/
def named? (name : String) : Option Sample :=
  all.find? (·.name == name)

/-- The module of a sample. -/
def module (s : Sample) : Checked Module := do
  let (_, b) ← s.build.run (Builder.new s.name)
  return b.module

end Sample

end RegIR
