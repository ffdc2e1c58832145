import TypeFlow.Config
import TypeFlow.Toml.Document

/-!
# Configuration files

Settings that are left out keep their defaults, and keys that are no settings are passed
over.
-/

namespace TypeFlow

/-- The fields of a table of any kind. -/
def Toml.fields? : Toml → Option Toml.Fields
  | inlineTable fields => some fields
  | table _ fields => some fields
  | _ => none

/-- Whether a value holds nothing. -/
def Toml.isEmpty : Toml → Bool
  | inlineTable [] => true
  | table _ [] => true
  | array [] => true
  | _ => false

/-- An order is written as its name, or as a table in which its name is assigned nothing. -/
def ReplayOrder.ofToml? : Toml → Option ReplayOrder
  | .string s => ofName? s
  | v =>
    match v.fields? with
    | some [(name, v)] => if v.isEmpty then ofName? name else none
    | _ => none

namespace Config

/-- The configuration with one setting read. -/
def readSetting (c : Config) : String × Toml → Option Config
  | ("max_iterations", v) =>
    match v with
    | .integer (.ofNat n) => some { c with maxPasses := n }
    | _ => none
  | ("worklist_order", v) => (ReplayOrder.ofToml? v).map fun order => { c with order }
  | ("memoize_intersections", v) =>
    match v with
    | .bool memoize => some { c with memoize }
    | _ => none
  | _ => some c

/-- **Reads a configuration file.** -/
def parse (text : String) : Option Config :=
  (Toml.parse text).bind fun fields => fields.foldlM readSetting {}

end Config

end TypeFlow
