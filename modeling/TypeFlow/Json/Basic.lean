/-!
# JSON values

A JSON text as a tree. The tree keeps what a program model can be read from: of the
numbers it keeps the value of plain natural numerals only, and a string whose escapes
leave a surrogate unpaired denotes no text at all.

* `Json.tokens`: the tree as a list of tokens, which is what reading and writing share.
-/

namespace TypeFlow

/-- What a JSON string denotes: a text, or nothing if a surrogate in it is unpaired. -/
abbrev JsonText := Option String

mutual

/-- A JSON value. -/
inductive Json where
  | null
  | bool (b : Bool)
  /-- A numeral without sign, fraction and exponent. -/
  | nat (n : Nat)
  /-- Any other number. -/
  | number
  | string (t : JsonText)
  | array (items : List Json)
  | object (fields : List JsonField)

/-- One member of a JSON object. -/
structure JsonField where
  key : JsonText
  value : Json

end

namespace Json

/-- A string that denotes a text. -/
def text (s : String) : Json := string (some s)

/-- An object from texts and values. -/
def ofFields (fields : List (String × Json)) : Json :=
  object (fields.map fun (k, v) => ⟨some k, v⟩)

/-- The smallest parts of a JSON text that have a meaning. -/
inductive Token where
  | openArray
  | closeArray
  | openObject
  | closeObject
  | comma
  | colon
  | null
  | bool (b : Bool)
  | nat (n : Nat)
  | number
  | string (t : JsonText)

mutual

/-- The tokens of a value. -/
def tokens : Json → List Token
  | null => [.null]
  | bool b => [.bool b]
  | nat n => [.nat n]
  | number => [.number]
  | string t => [.string t]
  | array [] => [.openArray, .closeArray]
  | array (j :: js) => .openArray :: (j.tokens ++ itemTokens js)
  | object [] => [.openObject, .closeObject]
  | object (⟨k, v⟩ :: fs) =>
    .openObject :: .string k :: .colon :: (v.tokens ++ fieldTokens fs)
termination_by structural j => j

/-- The tokens of the further items of an array, up to its end. -/
def itemTokens : List Json → List Token
  | [] => [.closeArray]
  | j :: js => .comma :: (j.tokens ++ itemTokens js)
termination_by structural js => js

/-- The tokens of the further members of an object, up to its end. -/
def fieldTokens : List JsonField → List Token
  | [] => [.closeObject]
  | ⟨k, v⟩ :: fs => .comma :: .string k :: .colon :: (v.tokens ++ fieldTokens fs)
termination_by structural fs => fs

end

mutual

/-- How deeply arrays and objects are nested. -/
def depth : Json → Nat
  | null => 0
  | bool _ => 0
  | nat _ => 0
  | number => 0
  | string _ => 0
  | array js => itemDepth js + 1
  | object fs => fieldDepth fs + 1
termination_by structural j => j

/-- The greatest depth of the items. -/
def itemDepth : List Json → Nat
  | [] => 0
  | j :: js => max j.depth (itemDepth js)
termination_by structural js => js

/-- The greatest depth of the member values. -/
def fieldDepth : List JsonField → Nat
  | [] => 0
  | ⟨_, v⟩ :: fs => max v.depth (fieldDepth fs)
termination_by structural fs => fs

end

end Json

end TypeFlow
