import TypeFlow.Json.Lexer

/-!
# JSON values from tokens

A machine with a stack of the arrays and objects that are still open. Like the lexer it
is a fold, so nesting needs no bound.

* `Json.parse`: the value of a text.
-/

namespace TypeFlow.Json

/-- An array or object that is still open; what it holds so far stands last first. -/
inductive Frame where
  | array (items : List Json)
  | object (fields : List JsonField)
  /-- An object, inside the member of this key. -/
  | member (fields : List JsonField) (key : JsonText)

/-- What may come next, and the frames around it. -/
inductive Reader where
  | value (stack : List Frame)
  /-- After `[`: a value, or the end of the array. -/
  | firstItem (stack : List Frame)
  /-- After the opening of an object: a key, or the end of the object. -/
  | firstKey (stack : List Frame)
  /-- After a comma in an object: a key. -/
  | key (fields : List JsonField) (stack : List Frame)
  | colon (fields : List JsonField) (key : JsonText) (stack : List Frame)
  /-- After a value: a comma, or the end of what it stands in. -/
  | next (stack : List Frame)
  | done (j : Json)

namespace Reader

/-- A value is complete. -/
def deliver (j : Json) : List Frame → Option Reader
  | [] => some (done j)
  | .array items :: stack => some (next (.array (j :: items) :: stack))
  | .member fields k :: stack => some (next (.object (⟨k, j⟩ :: fields) :: stack))
  | .object _ :: _ => none

/-- A value starts. -/
def startValue (stack : List Frame) : Token → Option Reader
  | .null => deliver .null stack
  | .bool b => deliver (.bool b) stack
  | .nat n => deliver (.nat n) stack
  | .number => deliver .number stack
  | .string t => deliver (.string t) stack
  | .openArray => some (firstItem stack)
  | .openObject => some (firstKey stack)
  | _ => none

/-- Reads one token. -/
def step : Reader → Token → Option Reader
  | value stack, t => startValue stack t
  | firstItem stack, .closeArray => deliver (.array []) stack
  | firstItem stack, t => startValue (.array [] :: stack) t
  | firstKey stack, .closeObject => deliver (.object []) stack
  | firstKey stack, .string k => some (colon [] k stack)
  | key fields stack, .string k => some (colon fields k stack)
  | colon fields k stack, .colon => some (value (.member fields k :: stack))
  | next (.array items :: stack), .comma => some (value (.array items :: stack))
  | next (.array items :: stack), .closeArray => deliver (.array items.reverse) stack
  | next (.object fields :: stack), .comma => some (key fields stack)
  | next (.object fields :: stack), .closeObject => deliver (.object fields.reverse) stack
  | _, _ => none

/-- The value, if it is complete. -/
def finish : Reader → Option Json
  | done j => some j
  | _ => none

end Reader

/-- The value that a list of tokens spells. -/
def ofTokens (ts : List Token) : Option Json :=
  (ts.foldlM Reader.step (.value [])).bind Reader.finish

/-- **The value of a JSON text.** -/
def parse (text : String) : Option Json := (tokenize text.toList).bind ofTokens

end TypeFlow.Json
