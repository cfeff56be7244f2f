/-!
# Assembler string literals

The text between the quotes of a `.string` directive. It is printable ASCII: every byte of
the UTF-8 encoding that is not, and the two characters with a meaning of their own, are
written as escapes. A byte without a short escape takes three octal digits, so that no
digit behind it can be read as part of it.
-/

namespace RegIR

namespace Literal

/-- The bytes of a text in UTF-8. -/
def bytes (s : String) : List UInt8 :=
  s.toList.flatMap String.utf8EncodeChar

/-- Three octal digits. -/
def octal (b : UInt8) : List Char :=
  [Nat.digitChar (b.toNat / 64), Nat.digitChar (b.toNat / 8 % 8), Nat.digitChar (b.toNat % 8)]

/-- A byte inside a literal. -/
def escapeByte (b : UInt8) : List Char :=
  if b.toNat = '\\'.toNat then ['\\', '\\']
  else if b.toNat = '"'.toNat then ['\\', '"']
  else if b.toNat = '\n'.toNat then ['\\', 'n']
  else if b.toNat = '\t'.toNat then ['\\', 't']
  else if b.toNat = '\r'.toNat then ['\\', 'r']
  else if 0x20 ≤ b.toNat ∧ b.toNat ≤ 0x7e then [Char.ofNat b.toNat]
  else '\\' :: octal b

/-- A text as it stands between the quotes. -/
def escape (s : String) : String :=
  String.ofList ((bytes s).flatMap escapeByte)

end Literal

end RegIR
