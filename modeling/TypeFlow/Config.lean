/-!
# Configuration

How an analysis is run: the order within a pass, the largest number of passes, and
whether narrowed types are remembered. Only the number of passes and the time taken
depend on the order and on remembering.
-/

namespace TypeFlow

/-- In which order the units queued so far are replayed within a pass. -/
inductive ReplayOrder where
  /-- As they were first queued. -/
  | discovery
  /-- The most recently queued first. -/
  | reverse
deriving DecidableEq

namespace ReplayOrder

/-- The queue in the order in which it is replayed. -/
def arrange {υ : Type} : ReplayOrder → List υ → List υ
  | discovery, units => units
  | reverse, units => units.reverse

def name : ReplayOrder → String
  | discovery => "discovery"
  | reverse => "reverse"

/-- The order with exactly this name. -/
def ofName? : String → Option ReplayOrder
  | "discovery" => some discovery
  | "reverse" => some reverse
  | _ => none

/-- A character with ASCII capitals made small. -/
def lowerAscii (c : Char) : Char :=
  if 'A' ≤ c ∧ c ≤ 'Z' then Char.ofNat (c.toNat + 32) else c

/-- Reads the name of an order, where ASCII letters may be of either case. The complaint
quotes the text with its ASCII letters made small. -/
def parse (text : String) : Except String ReplayOrder :=
  let small := text.map lowerAscii
  match ofName? small with
  | some order => .ok order
  | none =>
    .error ("unknown worklist order `" ++ small ++ "` (expected `discovery` or `reverse`)")

end ReplayOrder

/-- How an analysis is run. -/
structure Config where
  /-- The largest number of passes. -/
  maxPasses : Nat := 1000
  order : ReplayOrder := .discovery
  /-- Whether narrowed types are remembered as long as they stay valid. -/
  memoize : Bool := true
deriving DecidableEq

end TypeFlow
