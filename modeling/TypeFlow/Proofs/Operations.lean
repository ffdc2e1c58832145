import TypeFlow.Proofs.Replay

/-!
# Operations

An analysis is used through a handful of operations, in any order, and each may fail.
The states that arise this way are the **reachable** ones. All of them are valid.

* `Operation.after_valid`: what one operation does to a valid state.
* `reachable_grows`: an operation takes nothing back, whether it succeeds or fails.
-/

namespace TypeFlow

/-- What can be done with an analysis. -/
inductive Operation where
  /-- Processes ambient declarations and a body. -/
  | process (ambient body : List Stmt)
  | replay (s : ScopeId)
  | infer (s : ScopeId) (e : Expr)
  | widen (d : DeclaredType)
  /-- Reads a property of a value. -/
  | property (receiver : ConcreteType) (name : String)
  | createFunction (f : FunctionId) (parent : ScopeId)
  | createObject (s : ShapeId)
  | narrow (t : ConcreteType) (d : DeclaredType)
  | takeDiscovered

namespace Operation

/-- The state after an operation, whether it succeeded or failed. -/
def after (env : Setup) (a : Analysis) : Operation → Analysis
  | process ambient body => finalState (env.process ambient body) a
  | replay s => finalState (AnalysisM.replay env s) a
  | infer s e => finalState (AnalysisM.infer env s e) a
  | widen d => finalState (AnalysisM.widen env.program d) a
  | property t name => finalState (AnalysisM.propertyType env.program t name) a
  | createFunction f parent => finalState (AnalysisM.createFunction env.program f parent) a
  | createObject s => finalState (AnalysisM.createObject env.program s) a
  | narrow t d => finalState (AnalysisM.narrow env t d) a
  | takeDiscovered => (env.system.takeDiscovered a).2

/-- The scopes and entities that an operation is given exist. -/
def Admissible (a : Analysis) : Operation → Prop
  | infer s _ => s.index < a.graph.scopes.length
  | createFunction _ parent => parent.index < a.graph.scopes.length
  | property t _ => a.Knows t
  | narrow t _ => a.Knows t
  | process .. | replay _ | widen _ | createObject _ | takeDiscovered => True

end Operation

/-- **A state is reachable** if admissible operations lead there from a fresh analysis. -/
inductive Reachable (env : Setup) : Analysis → Prop
  | fresh : Reachable env .fresh
  | after {a : Analysis} (op : Operation) : Reachable env a → op.Admissible a →
      Reachable env (op.after env a)

variable {env : Setup} {a : Analysis}

theorem Proceeds.final {p : Program} {α : Type} {x y : AnalysisM α} {post : Analysis → α → Prop}
    (h : Proceeds p true x y post a) (hv : a.Valid p) :
    a.Grows (finalState x a) ∧ (finalState x a).Valid p :=
  h.advances.final hv

theorem process_final (env : Setup) (ambient body : List Stmt) (a : Analysis) :
    finalState (env.process ambient body) a = (env.trace ambient body a).final := by
  unfold finalState Setup.process
  dsimp only
  cases (env.trace ambient body a).result <;> rfl

/-- What one operation does to a valid state. -/
theorem Operation.after_valid (hv : a.Valid env.program) (op : Operation) (h : op.Admissible a) :
    a.Grows (op.after env a) ∧ (op.after env a).Valid env.program := by
  cases op with
  | process ambient body =>
    have ht := trace_final env ambient body hv
    rwa [← process_final] at ht
  | replay s => exact (AnalysisM.replay_advances hv s).final hv
  | infer s e => exact (AnalysisM.infer_evaluates e s a hv h).proceeds.final hv
  | widen d => exact (AnalysisM.widen_evaluates d a hv).proceeds.final hv
  | property t name => exact (AnalysisM.propertyType_evaluates hv h name).proceeds.final hv
  | createFunction f parent => exact (AnalysisM.createFunction_evaluates hv f h).proceeds.final hv
  | createObject s => exact (AnalysisM.createObject_evaluates hv s).proceeds.final hv
  | narrow t d => exact (AnalysisM.narrow_evaluates hv h d).proceeds.final hv
  | takeDiscovered =>
    exact ⟨⟨refl_of _ a.graph, List.prefix_rfl, List.prefix_rfl, List.prefix_rfl⟩,
      hv.congr rfl rfl rfl rfl rfl⟩

/-- Reachable states are valid. -/
theorem Reachable.valid (h : Reachable env a) : a.Valid env.program := by
  induction h with
  | fresh => exact Analysis.fresh_valid env.program
  | after op _ hop ih => exact (op.after_valid ih hop).2

/-- **The state of an analysis only grows.** Whatever an operation does and however it ends,
scopes keep their kinds, parents, slots, parameters and actions, slots keep their names and
owners and their types only gain members, and table entries and allocated objects stay where
they are. -/
theorem reachable_grows (h : Reachable env a) (op : Operation) (hop : op.Admissible a) :
    a.Grows (op.after env a) :=
  (op.after_valid h.valid hop).1

/-- A constructor `F` whose object is made once, and a function `G` that is not mentioned. -/
def oneObject : Setup where
  program := {
    shapes := [{ name := "S", kind := .constructed, properties := ["x"] }]
    functions := [{ name := "F", body := some [], objectShape := some ⟨0⟩ }, { name := "G", body := some [] }]
    body := [.function ⟨0⟩, .expr ⟨.construct ⟨.name "F", none⟩ [], none⟩] }

/-- The state in which processing it ends. -/
def oneObject.processed : Analysis :=
  (Operation.process oneObject.program.ambient oneObject.program.body).after oneObject .fresh

theorem oneObject.processed_reachable : Reachable oneObject oneObject.processed :=
  .after (.process _ _) .fresh trivial

/-- Either of `G` and a function that is not declared. -/
def oneObject.half : Expr := ⟨.or ⟨.function ⟨1⟩, none⟩ ⟨.function ⟨2⟩, none⟩, none⟩

/-- Inferring that fails half way: `G` is created, with its scopes, and all that was there stays. -/
theorem oneObject_grows :
    let b := (Operation.infer .global oneObject.half).after oneObject oneObject.processed
    AnalysisM.infer oneObject .global oneObject.half oneObject.processed = .error (.unknownFunction ⟨2⟩) b ∧
      oneObject.processed.functions.length = 1 ∧ b.functions.length = 2 ∧
      oneObject.processed.graph.scopes.length < b.graph.scopes.length ∧
      oneObject.processed.Grows b ∧ [⟨0⟩] <+: b.allocated := by
  intro b
  have hfault : fault? (AnalysisM.infer oneObject .global oneObject.half) oneObject.processed =
      some (.unknownFunction ⟨2⟩) := by decide +kernel
  have hglobal : ScopeId.global.index < oneObject.processed.graph.scopes.length := by decide +kernel
  have hallocated : oneObject.processed.allocated = [⟨0⟩] := by decide +kernel
  have hgrow := reachable_grows oneObject.processed_reachable (.infer .global oneObject.half) hglobal
  exact ⟨eq_error_of_fault? hfault, by decide +kernel, by decide +kernel, by decide +kernel, hgrow,
    hallocated ▸ hgrow.allocated⟩

end TypeFlow
