import TypeFlow.Toml.Number

/-!
# TOML documents

Reads a document line by line into its top-level table.

* `Toml.value?`: a value, with a bound on the nesting of arrays and tables.
* `Toml.parse`: a whole document.
-/

namespace TypeFlow.Toml

/-- How deeply values may nest, and how many keys dots may join. -/
def maxNesting : Nat := 79

/-- A value that holds no other values. -/
def scalar? : List Char → Option (Toml × List Char)
  | 't' :: 'r' :: 'u' :: 'e' :: cs => some (bool true, cs)
  | 'f' :: 'a' :: 'l' :: 's' :: 'e' :: cs => some (bool false, cs)
  | c :: cs =>
    if c = '"' ∨ c = '\'' then (string? (c :: cs)).map fun (s, rest) => (string s, rest)
    else number? (c :: cs)
  | [] => none

/-- The items of an array, at most `n` of them, up to its closing bracket. A comma may follow
the last item. -/
def items? (item : List Char → Option (Toml × List Char)) :
    Nat → List Char → Option (List Toml × List Char)
  | 0, _ => none
  | n + 1, cs =>
    match skipLines false cs with
    | ']' :: rest => some ([], rest)
    | cs => do
      let (v, cs) ← item cs
      match skipLines false cs with
      | ',' :: cs =>
        let (vs, rest) ← items? item n cs
        return (v :: vs, rest)
      | ']' :: rest => return ([v], rest)
      | _ => none

/-- A key and the value assigned to it. -/
def assignment? (item : List Char → Option (Toml × List Char)) (cs : List Char) :
    Option ((List String × Toml) × List Char) := do
  let (path, cs) ← keyPath? maxNesting cs
  let cs ← expect? '=' cs
  let (v, cs) ← item (skipBlanks cs)
  return ((path, v), cs)

/-- The table with the value of a dotted key assigned. -/
def assign (fields : Fields) (path : List String) (v : Toml) : Option Fields :=
  match path.reverse with
  | key :: front => insertAt key v front.reverse fields
  | [] => none

/-- The members of a table in braces, at most `n` of them, up to its closing brace. No comma
follows the last member. -/
def members? (item : List Char → Option (Toml × List Char)) :
    Nat → Fields → List Char → Option (Fields × List Char)
  | 0, _, _ => none
  | n + 1, fields, cs => do
    let ((path, v), cs) ← assignment? item cs
    let fields ← assign fields path v
    match skipBlanks cs with
    | c :: cs =>
      if c = ',' then members? item n fields cs
      else if c.toNat = 125 then return (fields, cs)
      else none
    | [] => none

/-- **A value** in which at most `n` arrays and tables are nested. -/
def value? : Nat → List Char → Option (Toml × List Char)
  | 0, cs => scalar? cs
  | n + 1, cs =>
    match cs with
    | [] => none
    | c :: rest =>
      if c = '[' then
        (items? (value? n) (rest.length + 1) rest).map fun (vs, rest) => (array vs, rest)
      else if c.toNat = 123 then
        match expect? (Char.ofNat 125) (skipBlanks rest) with
        | some rest => some (inlineTable [], rest)
        | none =>
          (members? (value? n) (rest.length + 1) [] rest).map fun (fields, rest) =>
            (inlineTable fields, rest)
      else scalar? (c :: rest)

/-- A document read in part: its top-level table and the path of the open table. -/
structure PartialDocument where
  root : Fields := []
  path : List String := []

/-- The last key of a path and those before it. -/
def splitLast (path : List String) : Option (List String × String) :=
  match path.reverse with
  | key :: front => some (front.reverse, key)
  | [] => none

/-- Reads one line that is neither empty nor a comment. -/
def line? (doc : PartialDocument) : List Char → Option (PartialDocument × List Char)
  | '[' :: '[' :: cs => do
    let (path, cs) ← keyPath? maxNesting cs
    let cs ← (expect? ']' cs).bind (expect? ']')
    let (front, key) ← splitLast path
    let root ← openItem front key doc.root
    let cs ← lineEnd? cs
    return ({ root, path }, cs)
  | '[' :: cs => do
    let (path, cs) ← keyPath? maxNesting cs
    let cs ← expect? ']' cs
    let (front, key) ← splitLast path
    let root ← openTable front key doc.root
    let cs ← lineEnd? cs
    return ({ root, path }, cs)
  | cs => do
    let ((path, v), cs) ← assignment? (value? maxNesting) cs
    let root ← changeAt (assign · path v) doc.path doc.root
    let cs ← lineEnd? cs
    return ({ doc with root }, cs)

/-- Reads at most `n` lines. -/
def lines? : Nat → PartialDocument → List Char → Option Fields
  | 0, _, _ => none
  | n + 1, doc, cs =>
    match skipBlanks cs with
    | [] => some doc.root
    | '#' :: cs => (lineEnd? ('#' :: cs)).bind (lines? n doc)
    | cs =>
      match newline? cs with
      | some cs => lines? n doc cs
      | none => do
        let (doc, cs) ← line? doc cs
        lines? n doc cs

/-- The text without the mark of its byte order. -/
def skipMark : List Char → List Char
  | c :: cs => if c.toNat = 0xFEFF then cs else c :: cs
  | [] => []

/-- **The top-level table of a document.** Every line takes at least one character, which bounds
their number. -/
def parse (text : String) : Option Fields :=
  let cs := skipMark text.toList
  lines? (cs.length + 1) {} cs

end TypeFlow.Toml
