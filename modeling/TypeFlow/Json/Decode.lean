import TypeFlow.Json.Reader

/-!
# Decoding JSON

How records, variants and lists are spelled in JSON. Decoders take the number of arrays
and objects that may still be entered, which bounds the nesting of what is kept; members
that no decoder asks for may nest as deeply as they like.
-/

namespace TypeFlow.Json

/-- The text of a string. -/
def text? : Json → Option String
  | string t => t
  | _ => none

/-- A natural number that fits into 32 bits. -/
def id? : Json → Option Nat
  | nat n => if n < 4294967296 then some n else none
  | _ => none

/-- The items of an array. -/
def items? : Json → Option (List Json)
  | array items => some items
  | _ => none

/-- The values of the members with a certain key. -/
def valuesOf (key : String) (fields : List JsonField) : List Json :=
  fields.filterMap fun f => if f.key = some key then some f.value else none

/-- **The named values of a record.** An object may hold other members too, but none of these
twice. An array gives the values in order, and may leave off the last ones. -/
def record? (names : List String) : Json → Option (List (Option Json))
  | array items =>
    if items.length ≤ names.length then some (names.zipIdx.map fun (_, i) => items[i]?) else none
  | object fields =>
    if fields.all (·.key.isSome) ∧ names.all fun k => (valuesOf k fields).length ≤ 1 then
      some (names.map fun k => (valuesOf k fields).head?)
    else none
  | _ => none

section

variable {α : Type}

/-- A value that must be given. -/
def required (decode : Json → Option α) (j : Option Json) : Option α := j.bind decode

/-- A value that may be left out. -/
def optional (missing : α) (decode : Json → Option α) : Option Json → Option α
  | some j => decode j
  | none => some missing

/-- A value or `null`. -/
def nullable (decode : Json → Option α) : Json → Option (Option α)
  | null => some none
  | j => (decode j).map some

/-- An array whose items are decoded one level further down. -/
def list? (decode : Nat → Json → Option α) : Nat → Json → Option (List α)
  | n + 1, array items => items.mapM (decode n)
  | _, _ => none

/-- An array of items that are not nested. -/
def leaves? (decode : Json → Option α) : Nat → Json → Option (List α) :=
  list? fun _ => decode

/-- A variant without data: its bare tag, or the tag with `null`. -/
def bare? (ofTag : String → Option α) : Nat → Json → Option α
  | _, string (some tag) => ofTag tag
  | _ + 1, object [⟨some tag, null⟩] => ofTag tag
  | _, _ => none

/-- A value as JSON, or `null`. -/
def ofOption (encode : α → Json) : Option α → Json
  | some x => encode x
  | none => null

end

/-- A list of texts as JSON. -/
def ofTexts (texts : List String) : Json := array (texts.map text)

end TypeFlow.Json
