import TypeFlow.Analysis.Binding
import TypeFlow.ImplicitGlobals

/-!
# Processing a program

Collects the actions of a program and replays them, scope by scope, until a pass changes
nothing.

* `AnalysisM.replay`: evaluates all actions of a scope once.
* `Setup.system`: an analysis as a constraint system, with scopes as units.
* `Setup.process`: the whole analysis.
-/

namespace TypeFlow

/-- Joins the assigned types into their slots, and adds the owners of the slots that grew to
`dirty`. -/
def ScopeGraph.apply : List Assignment → List ScopeId → ScopeGraph → List ScopeId × ScopeGraph
  | [], dirty, g => (dirty, g)
  | ⟨x, t⟩ :: rest, dirty, g =>
    let (grew, g) := g.unionInto x t
    let owner := (g.slot? x).map (·.owner)
    apply rest (if grew then enqueue dirty owner.toList else dirty) g

/-- Hoists and collects ambient declarations and a body into the global scope. -/
def extract (p : Program) (ambient body : List Stmt) : GraphM Unit := do
  let site : Extraction.Site := { global := .global, scope := .global }
  Extraction.hoist p .global ambient
  Extraction.hoist p .global body
  ImplicitGlobals.declare p .global body
  Extraction.visit p { site with ambient := true } ambient
  Extraction.visit p site body

namespace AnalysisM

variable (env : Setup)

/-- Evaluates actions in order and applies what they assign. -/
def replayActions (s : ScopeId) : List Action → List ScopeId → AnalysisM (List ScopeId)
  | [], dirty => return dirty
  | action :: rest, dirty => do
    let assigned ← evaluate env s action
    let dirty ← modifyGet fun a =>
      let (dirty, graph) := a.graph.apply assigned dirty
      (dirty, { a with graph })
    replayActions s rest dirty

/-- **Replays a scope**: evaluates its actions on the present state. Whether that widens the
analysis is marked in the state, where the mark is taken back first. -/
def replay (s : ScopeId) : AnalysisM (Replay ScopeId) := do
  modify fun a => { a with widened := false }
  let before ← get
  let actions := before.graph.actionsOf s
  let dirty ← replayActions env s actions []
  let after ← get
  return {
    dirty
    actions := .ofNat actions.length
    widened := after.widened }

/-- Gets the global scope ready, once. -/
def prepare (ambient body : List Stmt) : AnalysisM Unit := do
  let a ← get
  if a.processed then throw .alreadyProcessed
  else
    set { a with processed := true }
    onGraph (extract env.program ambient body)

end AnalysisM

namespace Setup

variable (env : Setup)

/-- An analysis as a constraint system whose units are scopes. -/
def system : ConstraintSystem Analysis ScopeId where
  roots _ := [.global]
  replay := AnalysisM.replay env
  takeDiscovered a := (a.discovered, { a with discovered := [] })

/-- Processes ambient declarations and a body, and keeps the state after each pass. -/
def trace (ambient body : List Stmt) (a : Analysis) : Run Analysis :=
  match AnalysisM.prepare env ambient body a with
  | .error e b => ⟨.error e, b, []⟩
  | .ok _ b =>
    let run := env.system.solve env.config.order env.config.maxPasses b
    match run.result with
    | .ok c => ⟨.ok c, { run.final with converged := some c }, run.passes⟩
    | .error e => ⟨.error e, run.final, run.passes⟩

/-- **Processes ambient declarations and a body to a fixed point.** An analysis does so once. -/
def process (ambient body : List Stmt) : AnalysisM Converged := fun a =>
  let t := env.trace ambient body a
  match t.result with
  | .ok c => .ok c t.final
  | .error e => .error e t.final

/-- The analysis of the whole program from a fresh state. -/
def analyze : Except Fault Analysis :=
  match env.process env.program.ambient env.program.body .fresh with
  | .ok _ a => .ok a
  | .error e _ => .error e

end Setup

end TypeFlow
