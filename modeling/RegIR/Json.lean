/-!
# JSON trees

A JSON document as a tree, with the members of an object in the order they are written.
The tree keeps what a reader needs to tell apart: integers by value, and other numbers as
they are written, since nothing in this library reads them.

The escapes of a string literal may leave half of a surrogate pair alone. Such a literal is
well-formed JSON but denotes no text, so the text of a literal is an `Option`.
-/

namespace RegIR

/-- A JSON document. -/
inductive Json where
  | null
  | bool (b : Bool)
  | integer (n : Int)
  /-- A number with a fraction or an exponent, or a negative zero. -/
  | real (lexeme : String)
  /-- A string, or a literal that denotes none. -/
  | str (text : Option String)
  | arr (items : List Json)
  | obj (members : List (Option String × Json))
deriving Repr, Inhabited

namespace Json

/-- A string that denotes its text. -/
def string (s : String) : Json :=
  str (some s)

/-- An object from keys and values. -/
def object (members : List (String × Json)) : Json :=
  obj (members.map fun m => (some m.1, m.2))

/-- A single member, the form of a tagged value. -/
def tagged (tag : String) (payload : Json) : Json :=
  object [(tag, payload)]

end Json

end RegIR
