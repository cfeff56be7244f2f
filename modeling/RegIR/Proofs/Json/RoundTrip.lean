import RegIR.Proofs.Json.Values

/-!
# JSON round trip

Texts are read back as the values they were written for, in both layouts, and a value that has
been read from any text survives being written and read again. The first needs the tree of the
value to be no deeper than the reader allows; the second needs nothing, since reading has
checked the depth.

## Main results

* `Json.Faithful.roundTrips`: from trees to texts.
* `json_round_trip`: all kinds of IR values, with the members that may be left out.
-/

namespace RegIR

namespace Json

/-- The value that a text is read as. -/
def readText? {α : Type} (read? : Nat → Json → Option α) (text : String) : Option α :=
  (parse? text).bind (read? maxDepth)

/-- Both layouts of a tree are read as one value. -/
def ReadAs {α : Type} (read? : Nat → Json → Option α) (j : Json) (a : α) : Prop :=
  readText? read? j.compact = some a ∧ readText? read? j.pretty = some a

/-- Values are read back from the texts that are written for them: if the tree is not too deep,
and if the value has itself been read from a text. -/
structure RoundTrips {α : Type} (write : α → Json) (read? : Nat → Json → Option α) : Prop where
  written : ∀ a, (write a).depth ≤ maxDepth → ReadAs read? (write a) a
  reread : ∀ text a, readText? read? text = some a → ReadAs read? (write a) a

variable {α : Type} {write : α → Json} {read? : Nat → Json → Option α} {j : Json} {a : α}

/-- Both layouts of a plain tree are read as that tree is. -/
theorem readAs_of_plain (hplain : j.Plain) (h : read? maxDepth j = some a) :
    ReadAs read? j a := by
  rw [ReadAs, readText?, readText?, parse?_compact hplain, parse?_pretty hplain]
  exact ⟨h, h⟩

/-- **From trees to texts.** -/
theorem Faithful.roundTrips (h : Faithful write read?) : RoundTrips write read? where
  written a hdepth := readAs_of_plain (h.plain a) (h.shallow hdepth)
  reread text a hread := by
    obtain ⟨j, -, hj⟩ := Option.bind_eq_some_iff.mp hread
    exact readAs_of_plain (h.plain a) (h.again hj)

/-- A reader that needs no levels is faithful if it reads back what is written. -/
theorem faithful_of_read {read : Json → Option α} (hplain : ∀ a, (write a).Plain)
    (h : ∀ a, read (write a) = some a) : Faithful write fun _ => read where
  plain := hplain
  shallow _ := h _
  again _ := h _

end Json

open Json

/-- What an instruction does not have may be left out of its text, and what is left out of a
text is absent from the instruction that is read. -/
structure Instruction.OperandsOptional : Prop where
  leftOut : ∀ (i : Instruction) (keys : List String), i.toJson.depth ≤ maxDepth →
    (∀ key ∈ keys, i.Absent key) → ReadAs ofJson? (i.toJson.without keys) i
  missing : ∀ text members i, parse? text = some (.obj members) →
    readText? ofJson? text = some i → ∀ key ∈ ["dest", "src1", "src2", "src3", "call"],
      (∀ m ∈ members, m.1 ≠ some key) → i.Absent key

/-- The flag of a module that has not been lowered may be left out of its text, and a module that
is read from a text without the flag has not been lowered. -/
structure Module.FlagOptional : Prop where
  leftOut : ∀ m : Module, m.toJson.depth ≤ maxDepth → m.lowered = false →
    ReadAs ofJson? (m.toJson.without ["lowered"]) m
  missing : ∀ text members m, parse? text = some (.obj members) →
    readText? ofJson? text = some m → (∀ x ∈ members, x.1 ≠ some "lowered") → m.lowered = false

theorem Instruction.operandsOptional : OperandsOptional where
  leftOut i keys hdepth hkeys :=
    readAs_of_plain (plain_without (faithful.plain i) keys)
      (ofJson?_without hkeys (type_of_depth hdepth))
  missing text members i hparse hread key hkey hmissing := by
    rw [readText?, hparse] at hread
    exact absent_of_missing hread hkey hmissing

theorem Module.flagOptional : FlagOptional where
  leftOut m hdepth hm :=
    readAs_of_plain (plain_without (faithful.plain m) ["lowered"])
      (ofJson?_without_lowered hm (functions_of_depth hdepth))
  missing text members m hparse hread hmissing := by
    rw [readText?, hparse] at hread
    exact lowered_of_missing hread hmissing

/-- **JSON round trip.** Every IR value whose tree is no deeper than the reader allows is read
back from its compact text and from its indented text, and every value that has been read from
any text is read back from its own. Operands that an instruction does not have may be missing
from its text, and so may the flag of a module that has not been lowered. -/
theorem json_round_trip :
    RoundTrips Module.toJson Module.ofJson? ∧ RoundTrips Func.toJson Func.ofJson? ∧
      RoundTrips Block.toJson Block.ofJson? ∧
      RoundTrips Instruction.toJson Instruction.ofJson? ∧
      (RoundTrips Operand.toJson fun _ => Operand.ofJson?) ∧
      RoundTrips Ty.toJson Ty.ofJson? ∧
      (RoundTrips RegName.toJson fun _ => RegName.ofJson?) ∧
      Instruction.OperandsOptional ∧ Module.FlagOptional := by
  have hoperand := faithful_of_read Operand.plain_toJson Operand.ofJson?_toJson
  have hname := faithful_of_read RegName.plain_toJson RegName.ofJson?_toJson
  exact ⟨Module.faithful.roundTrips, Func.faithful.roundTrips, Block.faithful.roundTrips,
    Instruction.faithful.roundTrips, hoperand.roundTrips, Ty.faithful.roundTrips,
    hname.roundTrips, Instruction.operandsOptional, Module.flagOptional⟩

/-- Names with quotes, control characters and characters beyond the basic plane, the extreme
numbers, and a type that nests structures and pointers. -/
def oddNames : Module where
  name := "a\"b\\c/\n\t\x00\x1f\x7fé😀"
  functions := [
    { name := ""
      linkage := .external
      returnType := .struct "\x08" [.pointer (.struct "S" []), .i8, .pointer (.pointer .void)]
      args := [(.f64, .named "1"), (.void, .num 1)]
      stackSize := 4294967295
      nextBlockId := 0
      blocks := [
        { name := "\r", id := 4294967295, instructions := [
            { opcode := .divide .urem, dataType := .i64, dest := some (.imm (-9223372036854775808)),
              src2 := some (.slot (.named "\x0c") 0),
              call := some { callee := "f", args := [.string ⟨"s", "\x1b"⟩, .label ""] } }] }] }]
  strings := [⟨"t", "\\n"⟩]
  lowered := true

/-- The module is read back from both of its texts. -/
theorem oddNames_read_back :
    oddNames.toJson.depth ≤ maxDepth ∧ ReadAs Module.ofJson? oddNames.toJson oddNames := by
  have hdepth : oddNames.toJson.depth ≤ maxDepth := by decide
  exact ⟨hdepth, json_round_trip.1.written oddNames hdepth⟩

end RegIR
