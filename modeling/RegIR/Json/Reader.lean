import RegIR.Json.Lexer

/-!
# Reading JSON trees

A stack machine takes the tokens one by one. The stack holds the containers that are open
around the place it has reached, so nesting of any depth costs no recursion.
-/

namespace RegIR

namespace Json

/-- A container that waits for a value: an array with its items so far, or an object with
its members so far and the key of the value. Both are in reverse order. -/
inductive Open where
  | arr (items : List Json)
  | obj (members : List (Option String × Json)) (key : Option String)
deriving Repr

/-- What must come next. -/
inductive Reader where
  /-- A value. -/
  | value (stack : List Open)
  /-- The first item of an array, or its end. -/
  | firstItem (stack : List Open)
  /-- The first key of an object, or its end. -/
  | firstKey (stack : List Open)
  /-- Another key of an object. -/
  | key (members : List (Option String × Json)) (stack : List Open)
  /-- The colon behind a key. -/
  | colon (members : List (Option String × Json)) (key : Option String) (stack : List Open)
  /-- A comma, or the end of an array. -/
  | afterItem (items : List Json) (stack : List Open)
  /-- A comma, or the end of an object. -/
  | afterMember (members : List (Option String × Json)) (stack : List Open)
  /-- Nothing: the document is complete. -/
  | done (document : Json)
deriving Repr

namespace Reader

/-- A value is complete: it belongs to the innermost open container. -/
def complete (j : Json) : List Open → Reader
  | [] => done j
  | .arr items :: stack => afterItem (j :: items) stack
  | .obj members k :: stack => afterMember ((k, j) :: members) stack

/-- The first token of a value. -/
def beginValue? (stack : List Open) : Token → Option Reader
  | .openArr => some (firstItem stack)
  | .openObj => some (firstKey stack)
  | .null => some (complete .null stack)
  | .bool b => some (complete (.bool b) stack)
  | .integer n => some (complete (.integer n) stack)
  | .real lexeme => some (complete (.real lexeme) stack)
  | .str text => some (complete (.str text) stack)
  | .closeArr | .closeObj | .comma | .colon => none

/-- Take one token; none if it cannot come here. -/
def step : Reader → Token → Option Reader
  | value stack, token => beginValue? stack token
  | firstItem stack, .closeArr => some (complete (.arr []) stack)
  | firstItem stack, token => beginValue? (.arr [] :: stack) token
  | firstKey stack, .closeObj => some (complete (.obj []) stack)
  | firstKey stack, .str k => some (colon [] k stack)
  | key members stack, .str k => some (colon members k stack)
  | colon members k stack, .colon => some (value (.obj members k :: stack))
  | afterItem items stack, .comma => some (value (.arr items :: stack))
  | afterItem items stack, .closeArr => some (complete (.arr items.reverse) stack)
  | afterMember members stack, .comma => some (key members stack)
  | afterMember members stack, .closeObj => some (complete (.obj members.reverse) stack)
  | _, _ => none

/-- The document, if it is complete. -/
def document? : Reader → Option Json
  | done document => some document
  | _ => none

end Reader

/-- The tree of a token stream. -/
def ofTokens? (tokens : List Token) : Option Json :=
  (tokens.foldlM Reader.step (Reader.value [])).bind Reader.document?

/-- The tree of a text: one value, with blanks around it allowed and nothing else. -/
def parse? (text : String) : Option Json :=
  (lex? text).bind ofTokens?

end Json

end RegIR
