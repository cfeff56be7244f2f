import RegIR.Json

/-!
# JSON tokens and their two layouts

A tree is written as a stream of tokens. The compact layout puts nothing between them; the
indented layout differs from it in blanks and line ends only, so both are read back as the
same stream.

## Main definitions

* `Json.tokens`: the stream of a tree.
* `Json.compact`, `Json.pretty`: its two layouts.
-/

namespace RegIR

namespace Json

/-- A lexical unit of JSON. -/
inductive Token where
  | openArr
  | closeArr
  | openObj
  | closeObj
  | comma
  | colon
  | null
  | bool (b : Bool)
  | integer (n : Int)
  | real (lexeme : String)
  | str (text : Option String)
deriving DecidableEq, Repr

/-! ### The stream of a tree -/

mutual

/-- The tokens of a tree, in order. -/
def tokens : Json → List Token
  | null => [.null]
  | bool b => [.bool b]
  | integer n => [.integer n]
  | real lexeme => [.real lexeme]
  | str text => [.str text]
  | arr items => .openArr :: (itemTokens items ++ [.closeArr])
  | obj members => .openObj :: (memberTokens members ++ [.closeObj])

/-- The items of an array, separated by commas. -/
def itemTokens : List Json → List Token
  | [] => []
  | j :: js => j.tokens ++ (if js.isEmpty then [] else .comma :: itemTokens js)

/-- The members of an object, separated by commas. -/
def memberTokens : List (Option String × Json) → List Token
  | [] => []
  | (key, j) :: ms =>
      .str key :: .colon :: (j.tokens ++ (if ms.isEmpty then [] else .comma :: memberTokens ms))

end

/-! ### The text of a token -/

/-- A hexadecimal digit, in lower case. -/
def hexDigit (n : Nat) : Char :=
  Nat.digitChar n

/-- A character inside a string literal. Quotes, backslashes and control characters are
escaped, all else stands for itself. -/
def escapeChar (c : Char) : List Char :=
  if c = '"' then ['\\', '"']
  else if c = '\\' then ['\\', '\\']
  else if c = '\x08' then ['\\', 'b']
  else if c = '\x0c' then ['\\', 'f']
  else if c = '\n' then ['\\', 'n']
  else if c = '\r' then ['\\', 'r']
  else if c = '\t' then ['\\', 't']
  else if c.toNat < 32 then
    ['\\', 'u', '0', '0', hexDigit (c.toNat / 16), hexDigit (c.toNat % 16)]
  else [c]

/-- A string literal. -/
def quote (s : String) : String :=
  String.ofList ('"' :: (s.toList.flatMap escapeChar ++ ['"']))

/-- A token as it is written. A literal that denotes no text is written as the replacement
character. -/
def Token.text : Token → String
  | openArr => "["
  | closeArr => "]"
  | openObj => "\x7b"
  | closeObj => "\x7d"
  | comma => ","
  | colon => ":"
  | null => "null"
  | bool true => "true"
  | bool false => "false"
  | integer n => n.repr
  | real lexeme => lexeme
  | str text => quote (text.getD "\ufffd")

/-! ### Layouts -/

/-- A line end and the indentation of the next line. -/
def newline (depth : Nat) : String :=
  String.ofList ('\n' :: List.replicate (2 * depth) ' ')

/-- The pieces of the indented layout at a given depth: each item and member on a line of
its own, two blanks deeper than its container, and empty containers closed at once. -/
def layout (depth : Nat) : List Token → List String
  | [] => []
  | .openArr :: .closeArr :: rest => "[]" :: layout depth rest
  | .openObj :: .closeObj :: rest => "\x7b\x7d" :: layout depth rest
  | .openArr :: rest => "[" :: newline (depth + 1) :: layout (depth + 1) rest
  | .openObj :: rest => "\x7b" :: newline (depth + 1) :: layout (depth + 1) rest
  | .closeArr :: rest => newline (depth - 1) :: "]" :: layout (depth - 1) rest
  | .closeObj :: rest => newline (depth - 1) :: "\x7d" :: layout (depth - 1) rest
  | .comma :: rest => "," :: newline depth :: layout depth rest
  | .colon :: rest => ": " :: layout depth rest
  | token :: rest => token.text :: layout depth rest

/-- The document on one line. -/
def compact (j : Json) : String :=
  String.join (j.tokens.map Token.text)

/-- The document with one item or member on a line. -/
def pretty (j : Json) : String :=
  String.join (layout 0 j.tokens)

end Json

end RegIR
