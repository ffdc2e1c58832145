/-!
# TOML values

The values of a TOML document and the rules by which keys and table headers extend it.
Floats and dates are kept without their value, since no setting is read from one.

* `Toml.insertAt`: what `a.b.c = value` does to a table.
* `Toml.openTable`, `Toml.openItem`: what a header does to the document.
-/

namespace TypeFlow

/-- How a table came into being, which decides how it may be extended. -/
inductive TomlOrigin where
  /-- It has a header of its own. -/
  | header
  /-- It stands in the header of another table. -/
  | implied
  /-- It stands in front of a dot in a key. -/
  | dotted
deriving DecidableEq

/-- A TOML value. -/
inductive Toml where
  | string (s : String)
  | integer (n : Int)
  | float
  | datetime
  | bool (b : Bool)
  | array (items : List Toml)
  /-- A table in braces, which nothing extends. -/
  | inlineTable (fields : List (String × Toml))
  | table (origin : TomlOrigin) (fields : List (String × Toml))
  /-- An array of tables with headers, the last one first. -/
  | tables (items : List (List (String × Toml)))

namespace Toml

/-- The fields of a table. -/
abbrev Fields := List (String × Toml)

/-- The fields with one of them added or changed, where that is allowed. -/
def update (key : String) (change : Option Toml → Option Toml) : Fields → Option Fields
  | [] => (change none).map fun v => [(key, v)]
  | (k, v) :: rest =>
    if k = key then (change (some v)).map fun v => (k, v) :: rest
    else (update key change rest).map ((k, v) :: ·)

/-- **What `path.key = value` does to a table.** Keys in front of a dot make tables, and may
extend such tables and those implied by headers, but the last of them must be a table made by
dots. Nothing is assigned twice. -/
def insertAt (key : String) (value : Toml) : List String → Fields → Option Fields
  | [], fields =>
    update key (fun old => if old.isSome then none else some value) fields
  | k :: path, fields =>
    update k (fun old =>
      match old with
      | none => (insertAt key value path []).map (table .dotted)
      | some (table origin inner) =>
        if origin = .header ∨ origin = .implied ∧ path = [] then none
        else (insertAt key value path inner).map (table origin)
      | some (tables (inner :: rest)) =>
        if path = [] then none
        else (insertAt key value path inner).map fun inner => tables (inner :: rest)
      | some _ => none) fields

/-- Changes the table at the end of a path of headers. Missing tables are implied, and an array
of tables stands for its last item. -/
def changeAt (change : Fields → Option Fields) : List String → Fields → Option Fields
  | [], fields => change fields
  | k :: path, fields =>
    update k (fun old =>
      match old with
      | none => (changeAt change path []).map (table .implied)
      | some (table origin inner) => (changeAt change path inner).map (table origin)
      | some (tables (inner :: rest)) =>
        (changeAt change path inner).map fun inner => tables (inner :: rest)
      | some _ => none) fields

/-- Opens a table that has no header yet. -/
def openTable (path : List String) (key : String) : Fields → Option Fields :=
  changeAt (update key fun old =>
    match old with
    | none => some (table .header [])
    | some (table .implied inner) => some (table .header inner)
    | some _ => none) path

/-- Opens one more item of an array of tables. -/
def openItem (path : List String) (key : String) : Fields → Option Fields :=
  changeAt (update key fun old =>
    match old with
    | none => some (tables [[]])
    | some (tables items) => some (tables ([] :: items))
    | some _ => none) path

end Toml

end TypeFlow
