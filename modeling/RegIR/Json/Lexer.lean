import RegIR.Json.Token

/-!
# Reading JSON tokens

A finite automaton with registers walks the characters once. Between tokens it skips
blanks; inside one it remembers just what the token needs: the letters a word still lacks,
the phase of a number, the pieces of a string.

String literals are collected as *pieces*, characters and the code units of `\u` escapes,
and turned into text when the literal ends, because a code unit beyond the basic plane
needs its partner.
-/

namespace RegIR

namespace Json

/-- Where a number can stand: each phase has been entered by its last character. -/
inductive Phase where
  | sign
  | zero
  | digits
  | point
  | fraction
  | exponent
  | exponentSign
  | exponentDigits
deriving DecidableEq, Repr

/-- May a number end here? -/
def Phase.isComplete : Phase → Bool
  | zero | digits | fraction | exponentDigits => true
  | sign | point | exponent | exponentSign => false

/-- Has the number neither fraction nor exponent? -/
def Phase.isInteger : Phase → Bool
  | zero | digits => true
  | _ => false

/-- The phase after one more character, if the number goes on with it. -/
def Phase.next? (phase : Phase) (c : Char) : Option Phase :=
  match phase with
  | sign => if c = '0' then some zero else if c.isDigit then some digits else none
  | zero =>
      if c = '.' then some point
      else if c = 'e' ∨ c = 'E' then some exponent
      else none
  | digits =>
      if c.isDigit then some digits
      else if c = '.' then some point
      else if c = 'e' ∨ c = 'E' then some exponent
      else none
  | point => if c.isDigit then some fraction else none
  | fraction =>
      if c.isDigit then some fraction
      else if c = 'e' ∨ c = 'E' then some exponent
      else none
  | exponent =>
      if c = '+' ∨ c = '-' then some exponentSign
      else if c.isDigit then some exponentDigits
      else none
  | exponentSign | exponentDigits => if c.isDigit then some exponentDigits else none

/-- The value of a run of decimal digits. -/
def digitsValue (cs : List Char) : Nat :=
  cs.foldl (fun n c => 10 * n + (c.toNat - '0'.toNat)) 0

/-- The token of a complete number. A negative zero is no integer. -/
def numberToken (phase : Phase) (lexeme : List Char) : Token :=
  if phase.isInteger then
    match lexeme with
    | '-' :: cs =>
        if digitsValue cs = 0 then .real (String.ofList lexeme)
        else .integer (-(digitsValue cs : Int))
    | cs => .integer (digitsValue cs : Int)
  else
    .real (String.ofList lexeme)

/-- A piece of a string literal: a character, or the code unit of an escape. -/
inductive Piece where
  | char (c : Char)
  | unit (u : Nat)
deriving DecidableEq, Repr

/-- Is the code unit the first half of a pair? -/
def isLeading (u : Nat) : Bool :=
  0xD800 ≤ u && u ≤ 0xDBFF

/-- Is the code unit the second half of a pair? -/
def isTrailing (u : Nat) : Bool :=
  0xDC00 ≤ u && u ≤ 0xDFFF

/-- The characters that the pieces denote; none if half of a pair stands alone. -/
def assemble : List Piece → Option (List Char)
  | [] => some []
  | .char c :: rest => (assemble rest).map (c :: ·)
  | .unit u :: .unit v :: rest =>
      if isLeading u && isTrailing v then
        (assemble rest).map (Char.ofNat (0x10000 + (u - 0xD800) * 0x400 + (v - 0xDC00)) :: ·)
      else if isLeading u || isTrailing u then none
      else (assemble (.unit v :: rest)).map (Char.ofNat u :: ·)
  | .unit u :: rest =>
      if isLeading u || isTrailing u then none
      else (assemble rest).map (Char.ofNat u :: ·)

/-- The value of a hexadecimal digit. -/
def hexValue? (c : Char) : Option Nat :=
  if c.isDigit then some (c.toNat - '0'.toNat)
  else if 'a' ≤ c ∧ c ≤ 'f' then some (c.toNat - 'a'.toNat + 10)
  else if 'A' ≤ c ∧ c ≤ 'F' then some (c.toNat - 'A'.toNat + 10)
  else none

/-- The character that a one-letter escape denotes. -/
def escaped? : Char → Option Char
  | '"' => some '"'
  | '\\' => some '\\'
  | '/' => some '/'
  | 'b' => some '\x08'
  | 'f' => some '\x0c'
  | 'n' => some '\n'
  | 'r' => some '\r'
  | 't' => some '\t'
  | _ => none

/-- What the lexer is in the middle of. What a token has collected is in reverse order. -/
inductive Scan where
  /-- Between tokens. -/
  | ready
  /-- Inside a word; the letters still to come. -/
  | word (rest : List Char) (token : Token)
  /-- Inside a number. -/
  | number (phase : Phase) (lexeme : List Char)
  /-- Inside a string. -/
  | string (pieces : List Piece)
  /-- Behind a backslash. -/
  | escape (pieces : List Piece)
  /-- Inside the four digits of a code unit. -/
  | unit (pieces : List Piece) (seen value : Nat)
deriving DecidableEq, Repr

/-- The lexer: its place, and the tokens so far, last first. -/
structure Lexer where
  scan : Scan
  output : List Token
deriving DecidableEq, Repr

namespace Lexer

/-- Before the first character. -/
def start : Lexer :=
  { scan := .ready, output := [] }

/-- A token is finished, and nothing has been read beyond it. -/
def emit (output : List Token) (token : Token) : Lexer :=
  { scan := .ready, output := token :: output }

/-- The first character of a token, or a blank. -/
def begin? (output : List Token) (c : Char) : Option Lexer :=
  if c = ' ' ∨ c = '\n' ∨ c = '\t' ∨ c = '\r' then some { scan := .ready, output := output }
  else if c = '[' then some (emit output .openArr)
  else if c = ']' then some (emit output .closeArr)
  else if c = '\x7b' then some (emit output .openObj)
  else if c = '\x7d' then some (emit output .closeObj)
  else if c = ',' then some (emit output .comma)
  else if c = ':' then some (emit output .colon)
  else if c = '"' then some { scan := .string [], output := output }
  else if c = 'n' then some { scan := .word ['u', 'l', 'l'] .null, output := output }
  else if c = 't' then some { scan := .word ['r', 'u', 'e'] (.bool true), output := output }
  else if c = 'f' then some { scan := .word ['a', 'l', 's', 'e'] (.bool false), output := output }
  else if c = '-' then some { scan := .number .sign [c], output := output }
  else if c = '0' then some { scan := .number .zero [c], output := output }
  else if c.isDigit then some { scan := .number .digits [c], output := output }
  else none

/-- Read one character; none if no token goes on or starts with it. -/
def step (l : Lexer) (c : Char) : Option Lexer :=
  match l.scan with
  | .ready => begin? l.output c
  | .word [] _ => none
  | .word [last] token => if c = last then some (emit l.output token) else none
  | .word (expected :: rest) token =>
      if c = expected then some { l with scan := .word rest token } else none
  | .number phase lexeme =>
      match phase.next? c with
      | some phase => some { l with scan := .number phase (c :: lexeme) }
      | none =>
          if phase.isComplete then begin? (numberToken phase lexeme.reverse :: l.output) c
          else none
  | .string pieces =>
      if c = '"' then
        some (emit l.output (.str ((assemble pieces.reverse).map String.ofList)))
      else if c = '\\' then some { l with scan := .escape pieces }
      else if c.toNat < 32 then none
      else some { l with scan := .string (.char c :: pieces) }
  | .escape pieces =>
      if c = 'u' then some { l with scan := .unit pieces 0 0 }
      else (escaped? c).map fun d => { l with scan := .string (.char d :: pieces) }
  | .unit pieces seen value =>
      (hexValue? c).map fun d =>
        if seen = 3 then { l with scan := .string (.unit (16 * value + d) :: pieces) }
        else { l with scan := .unit pieces (seen + 1) (16 * value + d) }

/-- The tokens at the end of the text; none inside an unfinished token. -/
def finish? (l : Lexer) : Option (List Token) :=
  match l.scan with
  | .ready => some l.output.reverse
  | .number phase lexeme =>
      if phase.isComplete then some (numberToken phase lexeme.reverse :: l.output).reverse
      else none
  | _ => none

end Lexer

/-- The tokens of a text. -/
def lex? (text : String) : Option (List Token) :=
  (text.toList.foldlM Lexer.step Lexer.start).bind Lexer.finish?

end Json

end RegIR
