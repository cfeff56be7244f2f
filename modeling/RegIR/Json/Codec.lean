import RegIR.Json.Reader
import RegIR.Module

/-!
# IR values as JSON

Every IR value has one tree that is written for it and several that are read as it.

*Written form.* A structure is an object with all its fields in a fixed order, an absent
operand being `null`. A variant without data is its name, any other an object with one
member, the name and the data.

*Read form.* A structure may have its fields in any order and members of other names,
which are ignored whatever they hold; a field may not be repeated. Absent operands may be
left out, and so may the flag that tells whether a module has been lowered. A structure may
also be an array of its fields in order. A variant without data may be written with the
data `null`. Numbers must be integers in the range of their field.

*Nesting.* At most `maxDepth` containers may be open around a value that is read. All IR
values but types have a bounded depth of their own, so only the reader of types counts: its
argument `levels` is the number of containers that may still be opened.
-/

namespace RegIR

namespace Json

/-- How many containers may be open at once around a value that is read. -/
def maxDepth : Nat :=
  127

/-! ### Reading parts of a tree -/

def string? : Json → Option String
  | str text => text
  | _ => none

def bool? : Json → Option Bool
  | bool b => some b
  | _ => none

def array? : Json → Option (List Json)
  | arr items => some items
  | _ => none

/-- An integer in the range of an unsigned 32-bit word. -/
def word32? : Json → Option UInt32
  | integer n => if 0 ≤ n ∧ n < UInt32.size then some (UInt32.ofNat n.toNat) else none
  | _ => none

/-- An integer in the range of a signed 64-bit word. -/
def signed64? : Json → Option Int64
  | integer n => if -0x8000000000000000 ≤ n ∧ n < 0x8000000000000000 then some (Int64.ofInt n) else none
  | _ => none

/-- A variant: its name, and its data unless the name stands alone. -/
def variant? : Json → Option (String × Option Json)
  | str text => text.map fun name => (name, none)
  | obj [(key, payload)] => key.map fun name => (name, some payload)
  | _ => none

/-- The name of a variant without data. -/
def unit? (j : Json) : Option String :=
  match j.variant? with
  | some (name, none) => some name
  | some (name, some null) => some name
  | _ => none

/-- The name and data of a variant with data. -/
def payload? (j : Json) : Option (String × Json) :=
  match j.variant? with
  | some (name, some payload) => some (name, payload)
  | _ => none

/-- The value of a field among the members of an object: none of them, or exactly one. -/
def field? (members : List (Option String × Json)) (key : String) : Option (Option Json) :=
  match members.filter (·.1 == some key) with
  | [] => some none
  | [(_, value)] => some (some value)
  | _ => none

/-- The fields of a structure in order, from an object or from an array. In an array the
last `spare` fields may be left out. -/
def fields? (keys : List String) (spare : Nat) : Json → Option (List (Option Json))
  | obj members =>
      if members.all (·.1.isSome) then keys.mapM (field? members) else none
  | arr items =>
      if items.length ≤ keys.length ∧ keys.length ≤ items.length + spare then
        some (items.map some ++ List.replicate (keys.length - items.length) none)
      else
        none
  | _ => none

/-- A value that may be `null` or left out. -/
def optional? {α : Type} (read : Json → Option α) : Option Json → Option (Option α)
  | none => some none
  | some null => some none
  | some j => (read j).map some

/-- The tree of a value that may be absent. -/
def ofOption {α : Type} (write : α → Json) : Option α → Json
  | none => null
  | some a => write a

/-- A word as a number. -/
def ofWord32 (n : UInt32) : Json :=
  integer n.toNat

end Json

open Json

/-! ### Register names -/

def RegName.toJson : RegName → Json
  | .num n => tagged "Num" (ofWord32 n)
  | .named s => tagged "Named" (string s)

def RegName.ofJson? (j : Json) : Option RegName := do
  let (name, payload) ← j.payload?
  match name with
  | "Num" => payload.word32?.map .num
  | "Named" => payload.string?.map .named
  | _ => none

/-! ### Types -/

namespace Ty

mutual

def toJson : Ty → Json
  | void => string "Void"
  | i8 => string "I8"
  | i16 => string "I16"
  | i32 => string "I32"
  | i64 => string "I64"
  | f32 => string "F32"
  | f64 => string "F64"
  | pointer base => tagged "Pointer" base.toJson
  | struct name elements =>
      tagged "Struct" (object [("name", string name), ("elements", .arr (listToJson elements))])

def listToJson : List Ty → List Json
  | [] => []
  | t :: ts => t.toJson :: listToJson ts

end

/-- A type that is written as its name. -/
def ofName? : String → Option Ty
  | "Void" => some void
  | "I8" => some i8
  | "I16" => some i16
  | "I32" => some i32
  | "I64" => some i64
  | "F32" => some f32
  | "F64" => some f64
  | _ => none

/-- Read a type while `levels` more containers may be opened. -/
def ofJson? : (levels : Nat) → Json → Option Ty
  | _, .str (some name) => ofName? name
  | levels + 1, .obj [(some "Pointer", payload)] => (ofJson? levels payload).map pointer
  | levels + 3, .obj [(some "Struct", payload)] => do
      match ← payload.fields? ["name", "elements"] 0 with
      | [some name, some elements] =>
          return struct (← name.string?) (← (← elements.array?).mapM (ofJson? levels))
      | _ => none
  | _ + 1, .obj [(some name, .null)] => ofName? name
  | _, _ => none

end Ty

/-! ### Operands -/

def StringConst.toJson (s : StringConst) : Json :=
  object [("name", string s.name), ("value", string s.value)]

def StringConst.ofJson? (j : Json) : Option StringConst := do
  match ← j.fields? ["name", "value"] 0 with
  | [some name, some value] => return { name := ← name.string?, value := ← value.string? }
  | _ => none

namespace Operand

def toJson : Operand → Json
  | imm value => tagged "Imm" (.integer value.toInt)
  | reg name => tagged "Reg" name.toJson
  | label name => tagged "Label" (Json.string name)
  | string constant => tagged "StringPtr" constant.toJson
  | slot name offset =>
      tagged "Mem" (object [("name", name.toJson), ("offset", ofWord32 offset)])
  | general index => tagged "HReg" (ofWord32 index)
  | argument index => tagged "AReg" (ofWord32 index)
  | pointer index => tagged "PReg" (ofWord32 index)

def ofJson? (j : Json) : Option Operand := do
  let (name, payload) ← j.payload?
  match name with
  | "Imm" => payload.signed64?.map imm
  | "Reg" => (RegName.ofJson? payload).map reg
  | "Label" => payload.string?.map label
  | "StringPtr" => (StringConst.ofJson? payload).map string
  | "Mem" => do
      match ← payload.fields? ["name", "offset"] 0 with
      | [some name, some offset] => return slot (← RegName.ofJson? name) (← offset.word32?)
      | _ => none
  | "HReg" => payload.word32?.map general
  | "AReg" => payload.word32?.map argument
  | "PReg" => payload.word32?.map pointer
  | _ => none

end Operand

/-! ### Opcodes -/

namespace Opcode

/-- The name of an opcode in JSON. -/
def jsonName : Opcode → String
  | ret => "Ret"
  | retVoid => "RetVoid"
  | arith .add => "Add"
  | arith .sub => "Sub"
  | arith .smul => "SMul"
  | arith .umul => "UMul"
  | arith .and => "And"
  | arith .or => "Or"
  | arith .xor => "Xor"
  | divide .sdiv => "SDiv"
  | divide .udiv => "UDiv"
  | divide .srem => "SRem"
  | divide .urem => "URem"
  | unary .not => "Not"
  | unary .neg => "Neg"
  | br => "Br"
  | branch .eq => "Beq"
  | branch .ne => "Bne"
  | branch .gt => "Bgt"
  | branch .lt => "Blt"
  | branch .ge => "Bge"
  | branch .le => "Ble"
  | call => "Call"
  | alloca => "Alloca"
  | structLoad => "StructLoad"
  | load => "Load"
  | gep => "GEP"
  | structStore => "StructStore"
  | store => "Store"

def toJson (op : Opcode) : Json :=
  string op.jsonName

def ofJson? (j : Json) : Option Opcode :=
  j.unit?.bind fun name => all.find? (·.jsonName == name)

end Opcode

/-! ### Instructions, blocks, functions, modules

The readers take the number of containers that may still be opened and hand the types
inside what is left of it. -/

def Call.toJson (c : Call) : Json :=
  object [("callee", string c.callee), ("args", .arr (c.args.map Operand.toJson))]

def Call.ofJson? (j : Json) : Option Call := do
  match ← j.fields? ["callee", "args"] 0 with
  | [some callee, some args] =>
      return { callee := ← callee.string?, args := ← (← args.array?).mapM Operand.ofJson? }
  | _ => none

def Instruction.toJson (i : Instruction) : Json :=
  object
    [("opcode", i.opcode.toJson),
     ("data_type", i.dataType.toJson),
     ("dest", ofOption Operand.toJson i.dest),
     ("src1", ofOption Operand.toJson i.src1),
     ("src2", ofOption Operand.toJson i.src2),
     ("src3", ofOption Operand.toJson i.src3),
     ("call", ofOption Call.toJson i.call)]

def Instruction.ofJson? (levels : Nat) (j : Json) : Option Instruction := do
  match ← j.fields? ["opcode", "data_type", "dest", "src1", "src2", "src3", "call"] 0 with
  | [some opcode, some dataType, dest, src1, src2, src3, call] =>
      return {
        opcode := ← Opcode.ofJson? opcode
        dataType := ← Ty.ofJson? (levels - 1) dataType
        dest := ← optional? Operand.ofJson? dest
        src1 := ← optional? Operand.ofJson? src1
        src2 := ← optional? Operand.ofJson? src2
        src3 := ← optional? Operand.ofJson? src3
        call := ← optional? Call.ofJson? call }
  | _ => none

def Block.toJson (b : Block) : Json :=
  object
    [("name", string b.name),
     ("id", ofWord32 b.id),
     ("instructions", .arr (b.instructions.map Instruction.toJson))]

def Block.ofJson? (levels : Nat) (j : Json) : Option Block := do
  match ← j.fields? ["name", "id", "instructions"] 0 with
  | [some name, some id, some instructions] =>
      return {
        name := ← name.string?
        id := ← id.word32?
        instructions :=
          ← (← instructions.array?).mapM (Instruction.ofJson? (levels - 2)) }
  | _ => none

namespace Linkage

def toJson : Linkage → Json
  | exported => string "Global"
  | internal => string "Local"
  | external => string "Extern"

def ofJson? (j : Json) : Option Linkage :=
  match j.unit? with
  | some "Global" => some exported
  | some "Local" => some internal
  | some "Extern" => some external
  | _ => none

end Linkage

namespace Func

/-- An argument is an array of its type and its register. -/
def argToJson (arg : Ty × RegName) : Json :=
  .arr [arg.1.toJson, arg.2.toJson]

def argOfJson? (levels : Nat) : Json → Option (Ty × RegName)
  | .arr [type, reg] => do return (← Ty.ofJson? (levels - 1) type, ← RegName.ofJson? reg)
  | _ => none

def toJson (f : Func) : Json :=
  object
    [("name", string f.name),
     ("linkage", f.linkage.toJson),
     ("return_type", f.returnType.toJson),
     ("args", .arr (f.args.map argToJson)),
     ("blocks", .arr (f.blocks.map Block.toJson)),
     ("stack_size", ofWord32 f.stackSize),
     ("next_block_id", ofWord32 f.nextBlockId)]

def ofJson? (levels : Nat) (j : Json) : Option Func := do
  match ← j.fields?
      ["name", "linkage", "return_type", "args", "blocks", "stack_size", "next_block_id"] 0 with
  | [some name, some linkage, some returnType, some args, some blocks, some stackSize,
      some nextBlockId] =>
      return {
        name := ← name.string?
        linkage := ← Linkage.ofJson? linkage
        returnType := ← Ty.ofJson? (levels - 1) returnType
        args := ← (← args.array?).mapM (argOfJson? (levels - 2))
        blocks := ← (← blocks.array?).mapM (Block.ofJson? (levels - 2))
        stackSize := ← stackSize.word32?
        nextBlockId := ← nextBlockId.word32? }
  | _ => none

end Func

namespace Module

def toJson (m : Module) : Json :=
  object
    [("name", string m.name),
     ("functions", .arr (m.functions.map Func.toJson)),
     ("strings", .arr (m.strings.map StringConst.toJson)),
     ("lowered", .bool m.lowered)]

def ofJson? (levels : Nat) (j : Json) : Option Module := do
  match ← j.fields? ["name", "functions", "strings", "lowered"] 1 with
  | [some name, some functions, some strings, lowered] =>
      return {
        name := ← name.string?
        functions := ← (← functions.array?).mapM (Func.ofJson? (levels - 2))
        strings := ← (← strings.array?).mapM StringConst.ofJson?
        lowered := ← match lowered with
          | some flag => flag.bool?
          | none => some false }
  | _ => none

end Module

end RegIR
