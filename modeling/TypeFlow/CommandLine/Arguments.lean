import TypeFlow.Config

/-!
# Command-line arguments

The program takes one file to analyse, a few options with a value, and flags. Arguments
are read from left to right; nothing may be given twice, and `--` ends the options.
-/

namespace TypeFlow.CommandLine

/-- An analysis as it is asked for on the command line. -/
structure Invocation where
  program : String
  config : Option String := none
  maxPasses : Option Nat := none
  order : Option ReplayOrder := none
  /-- Whether the property scopes of objects are shown as well. -/
  objects : Bool := false
  json : Bool := false
  verbose : Bool := false

/-- What the command line asks for. -/
inductive Request where
  | analyze (i : Invocation)
  | version
  | help

/-- The arguments read so far. -/
structure Arguments where
  program : Option String := none
  config : Option String := none
  maxPasses : Option Nat := none
  order : Option ReplayOrder := none
  objects : Bool := false
  json : Bool := false
  verbose : Bool := false

/-- An unsigned 64-bit number in decimal digits, after a plus sign if one likes. -/
def count? (text : String) : Option Nat :=
  let digits := match text.toList with
    | '+' :: cs => cs
    | cs => cs
  if digits.isEmpty || !digits.all fun c => '0' ≤ c ∧ c ≤ '9' then none
  else
    let n := digits.foldl (fun n c => 10 * n + (c.toNat - 48)) 0
    if n < UInt64.size then some n else none

/-- The name of a file, which is not empty. -/
def path? (text : String) : Option String := if text.isEmpty then none else some text

/-- What an argument is. -/
inductive Shape where
  /-- The mark that ends the options. -/
  | stop
  /-- A long option `--name`, with the value after `=` if there is one. -/
  | long (name : String) (value : Option String)
  /-- A cluster of short options `-abc`, by its letters. -/
  | short (letters : List Char)
  | plain

/-- Tells options from other arguments. A dash alone is no option. -/
def shapeOf (arg : String) : Shape :=
  match arg.toList with
  | ['-', '-'] => .stop
  | '-' :: '-' :: cs =>
    match cs.span (· ≠ '=') with
    | (name, '=' :: value) => .long (String.ofList name) (some (String.ofList value))
    | (name, _) => .long (String.ofList name) none
  | '-' :: c :: cs => .short (c :: cs)
  | _ => .plain

/-- An option that takes a value. -/
inductive OptionName where
  | config
  | maxPasses
  | order

def OptionName.ofName? : String → Option OptionName
  | "config" => some .config
  | "max-iterations" => some .maxPasses
  | "order" => some .order
  | _ => none

/-- A flag. -/
inductive FlagName where
  | objects
  | json
  | verbose
  | version
  | help

def FlagName.ofName? : String → Option FlagName
  | "instances" => some .objects
  | "json" => some .json
  | "verbose" => some .verbose
  | "version" => some .version
  | "help" => some .help
  | _ => none

def FlagName.ofLetter? : Char → Option FlagName
  | 'v' => some .verbose
  | 'V' => some .version
  | 'h' => some .help
  | _ => none

namespace Arguments

variable (a : Arguments)

/-- The arguments with the value of an option. -/
def setOption (value : String) : OptionName → Option Arguments
  | .config =>
    if a.config.isSome then none else (path? value).map fun p => { a with config := some p }
  | .maxPasses =>
    if a.maxPasses.isSome then none else (count? value).map fun n => { a with maxPasses := some n }
  | .order =>
    if a.order.isSome then none
    else
      match ReplayOrder.parse value with
      | .ok order => some { a with order := some order }
      | .error _ => none

/-- The arguments with a flag set, or the request that the flag makes at once. -/
def setFlag : FlagName → Option (Arguments ⊕ Request)
  | .objects => if a.objects then none else some (.inl { a with objects := true })
  | .json => if a.json then none else some (.inl { a with json := true })
  | .verbose => if a.verbose then none else some (.inl { a with verbose := true })
  | .version => some (.inr .version)
  | .help => some (.inr .help)

/-- Sets the flags of several letters in order. -/
def setLetters : List Char → Arguments → Option (Arguments ⊕ Request)
  | [], a => some (.inl a)
  | c :: cs, a =>
    match (FlagName.ofLetter? c).bind a.setFlag with
    | some (.inl a) => setLetters cs a
    | other => other

/-- The arguments with the file to analyse. -/
def setProgram (arg : String) : Option Arguments :=
  if a.program.isSome then none else (path? arg).map fun p => { a with program := some p }

/-- The request that complete arguments make. -/
def finish : Option Request :=
  a.program.map fun program => .analyze { a with program }

/-- Reads what follows the mark that ends the options. -/
def readPlain : List String → Arguments → Option Request
  | [], a => a.finish
  | arg :: rest, a => (a.setProgram arg).bind (readPlain rest)

/-- Reads arguments from left to right. The value of an option may not look like an option
unless it is attached to it. -/
def read : List String → Arguments → Option Request
  | [], a => a.finish
  | arg :: rest, a =>
    match shapeOf arg with
    | .stop => readPlain rest a
    | .plain => (a.setProgram arg).bind (read rest)
    | .short letters =>
      match a.setLetters letters with
      | some (.inl a) => read rest a
      | some (.inr request) => some request
      | none => none
    | .long name value =>
      match OptionName.ofName? name, value, rest with
      | some o, some v, rest => (a.setOption v o).bind (read rest)
      | some o, none, v :: rest =>
        match shapeOf v with
        | .plain => (a.setOption v o).bind (read rest)
        | _ => none
      | some _, none, [] => none
      | none, some _, _ => none
      | none, none, rest =>
        match (FlagName.ofName? name).bind a.setFlag with
        | some (.inl a) => read rest a
        | some (.inr request) => some request
        | none => none

end Arguments

/-- **The request that a list of arguments makes**, if they are in order. -/
def parse (args : List String) : Option Request := Arguments.read args {}

end TypeFlow.CommandLine
