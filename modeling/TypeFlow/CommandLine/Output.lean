import TypeFlow.Analysis.Process
import TypeFlow.Analysis.Report
import TypeFlow.CommandLine.Arguments
import TypeFlow.Config.Toml
import TypeFlow.Program.Json

/-!
# Command-line output

What the program prints and how it exits. Files are read through a function, so that the
whole of it is an ordinary function of its arguments.

* `CommandLine.run`: from arguments to output and exit code.
-/

namespace TypeFlow

/-! ### Reports as JSON -/

def SlotReport.toJson (r : SlotReport) : Json :=
  .ofFields [("name", .text r.name), ("type", .text r.type)]

def ScopeReport.toJson (r : ScopeReport) : Json :=
  .ofFields
    [("name", .text r.name), ("kind", .text r.kind.label),
      ("slots", .array (r.slots.map SlotReport.toJson))]

def Report.toJson (r : Report) : Json :=
  .ofFields
    [("passes", .nat r.passes), ("actions", .nat r.actions.toNat),
      ("allocated", .ofTexts r.allocated), ("scopes", .array (r.scopes.map ScopeReport.toJson))]

namespace CommandLine

/-! ### Reports as text -/

/-- How a piece of text is set off on a terminal. -/
inductive Style where
  | plain
  | bold
  | dimmed
  | cyan
  | yellow
  | boldGreen

/-- The control sequence that ends a style. -/
def reset : String := "\x1b[0m"

/-- The control sequence that starts a style. -/
def Style.start? : Style → Option String
  | plain => none
  | bold => some "\x1b[1m"
  | dimmed => some "\x1b[2m"
  | cyan => some "\x1b[36m"
  | yellow => some "\x1b[33m"
  | boldGreen => some "\x1b[1;32m"

/-- A text in a style. Where the text itself ends all styles, the style starts again. -/
def paint (color : Bool) (style : Style) (text : String) : String :=
  match color, style.start? with
  | true, some start => start ++ text.replace reset (reset ++ start) ++ reset
  | _, _ => text

/-- The style of a rendered type. -/
def typeStyle (type : String) : Style :=
  if type = "ALL" then .yellow else if type = "NONE" then .dimmed else .plain

def slotText (color : Bool) (r : SlotReport) : String :=
  "  " ++ paint color .cyan (r.name ++ ":") ++ " " ++ paint color (typeStyle r.type) r.type ++ "\n"

def scopeText (color : Bool) (r : ScopeReport) : String :=
  paint color .bold r.name ++ " " ++ paint color .dimmed ("[" ++ r.kind.label ++ "]") ++ "\n" ++
    String.join (r.slots.map (slotText color))

/-- Whether a scope holds the properties of an object. -/
def isObjectScope (r : ScopeReport) : Bool :=
  match r.kind with
  | .object _ => true
  | _ => false

/-- The report as text, with the property scopes of objects only where they are asked for. -/
def reportText (color objects : Bool) (r : Report) : String :=
  String.join ((r.scopes.filter fun c => objects || !isObjectScope c).map (scopeText color)) ++
    paint color .boldGreen "converged:" ++ " " ++ toString r.passes ++ " passes, " ++
    toString r.actions ++ " actions, " ++ toString r.allocated.length ++ " allocated\n"

/-! ### Running -/

/-- What the program prints, its exit code, and its complaint if it fails. -/
structure Output where
  code : Nat := 0
  stdout : String := ""
  message : Option String := none

/-- Name and version. -/
def versionText : String := "tighten 0.1.0\n"

/-- The arguments that the program takes. -/
def helpText : String :=
  "Compute the concrete types every slot of a program may hold\n\n" ++
  "Usage: tighten [OPTIONS] <PROGRAM>\n\n" ++
  "Arguments:\n" ++
  "  <PROGRAM>  Program to analyze (JSON program model)\n\n" ++
  "Options:\n" ++
  "      --config <FILE>       Analysis configuration (TOML)\n" ++
  "      --max-iterations <N>  Ceiling on fixed-point passes\n" ++
  "      --order <ORDER>       Worklist replay order: discovery or reverse\n" ++
  "      --instances           Also print instance property scopes\n" ++
  "      --json                Emit the report as JSON\n" ++
  "  -v, --verbose             Enable debug logging\n" ++
  "  -h, --help                Print help\n" ++
  "  -V, --version             Print version\n"

/-- Why an analysis could not be carried out. -/
inductive Failure where
  | config (path : String)
  | unreadable (path : String)
  | invalid (path : String)
  | fault (f : Fault)

/-- The wording of a failure. -/
def Failure.message : Failure → String
  | config path => "error: failed to load config " ++ path
  | unreadable path => "error: failed to read program " ++ path
  | invalid path => "error: invalid program model in " ++ path
  | fault f => "error: analysis failed: " ++ f.message

variable (readFile : String → Option String)

/-- The configuration of an invocation: that of its file, with what the command line sets. -/
def Invocation.loadConfig (i : Invocation) : Except Failure Config := do
  let base ← match i.config with
    | none => pure {}
    | some path =>
      match (readFile path).bind Config.parse with
      | some c => pure c
      | none => throw (.config path)
  return { base with
    maxPasses := i.maxPasses.getD base.maxPasses
    order := i.order.getD base.order }

/-- Carries out an analysis. The configuration is loaded before the program is read. -/
def Invocation.report (i : Invocation) : Except Failure Report := do
  let config ← i.loadConfig readFile
  let text ← match readFile i.program with
    | some text => pure text
    | none => throw (.unreadable i.program)
  let program ← match Program.parse text with
    | some p => pure p
    | none => throw (.invalid i.program)
  match Setup.analyze { program, config } with
  | .ok a => return a.report program
  | .error f => throw (.fault f)

/-- **What the program does with a list of arguments.** -/
def run (color : Bool) (args : List String) : Output :=
  match parse args with
  | none => { code := 2 }
  | some .version => { stdout := versionText }
  | some .help => { stdout := helpText }
  | some (.analyze i) =>
    match i.report readFile with
    | .error f => { code := 1, message := some f.message }
    | .ok r =>
      { stdout := if i.json then r.toJson.pretty ++ "\n" else reportText color i.objects r }

end CommandLine

end TypeFlow
