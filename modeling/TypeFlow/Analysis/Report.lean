import TypeFlow.Analysis.State

/-!
# Reports

The slot types of an analysis with the names that the program gives to functions and
shapes.
-/

namespace TypeFlow

/-- One slot and its type. -/
structure SlotReport where
  name : String
  type : String

/-- One scope and its own slots. -/
structure ScopeReport where
  name : String
  kind : ScopeKind
  slots : List SlotReport

/-- The result of an analysis. -/
structure Report where
  passes : Nat
  actions : UInt64
  /-- The names of the allocated shapes, sorted. -/
  allocated : List String
  /-- The scopes that have slots, in the order of creation. -/
  scopes : List ScopeReport

/-- The word for a kind of scope. -/
def ScopeKind.label : ScopeKind → String
  | global => "global"
  | body _ => "function"
  | statics _ => "statics"
  | object _ => "instance"

namespace Program

/-- The name under which a function is shown. -/
def functionName (p : Program) (f : FunctionId) : String :=
  ((p.function? f).map (·.displayName)).getD "<unknown>"

/-- The name under which a shape is shown. -/
def shapeName (p : Program) (s : ShapeId) : String :=
  ((p.shape? s).map (·.name)).getD "<unknown>"

/-- The name under which a scope is shown. -/
def scopeName (p : Program) : ScopeKind → String
  | .global => "<global>"
  | .body f => p.functionName f
  | .statics f => p.functionName f ++ " (static)"
  | .object s => p.shapeName s

end Program

/-- Texts in increasing order of their characters. -/
def sortTexts (texts : List String) : List String := texts.mergeSort fun x y => decide (x ≤ y)

namespace Analysis

variable (p : Program) (a : Analysis)

/-- An entity by its name. -/
def describeEntity : Entity → String
  | .function f => "function " ++ ((a.function? f).map (p.functionName ·.decl)).getD "<unknown>"
  | .object o => "instance " ++ ((a.object? o).map (p.shapeName ·.shape)).getD "<unknown>"

/-- A type by the names of its members, which are sorted. -/
def describe (t : ConcreteType) : String := t.renderWith (a.describeEntity p) sortTexts

/-- The report of a scope. -/
def reportScope (c : Scope) : ScopeReport where
  name := p.scopeName c.kind
  kind := c.kind
  slots := c.slots.map fun (name, x) => ⟨name, a.describe p (a.graph.typeOf x)⟩

/-- The report of an analysis. Before it converges no passes and actions are counted. -/
def report : Report :=
  let stats := a.converged.getD {}
  { passes := stats.passes
    actions := stats.actions
    allocated := sortTexts
      (a.allocated.map fun o => ((a.object? o).map (p.shapeName ·.shape)).getD "<unknown>")
    scopes := (a.graph.scopes.filter (!·.slots.isEmpty)).map (a.reportScope p) }

end Analysis

namespace Report

/-- The first scope of a name. -/
def scope? (r : Report) (name : String) : Option ScopeReport :=
  r.scopes.find? (·.name = name)

end Report

/-- The rendered type of a slot. -/
def ScopeReport.slot? (r : ScopeReport) (name : String) : Option String :=
  (r.slots.find? (·.name = name)).map (·.type)

end TypeFlow
