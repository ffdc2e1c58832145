import TypeFlow.Proofs.BodyLayout

/-!
# Two walks over the declarations of a body

The names that a body declares are gathered twice. Extraction declares them in the scope of the body,
and the walk for implicit globals keeps a list of bound names, before that scope exists. If the two
differed, an assignment in a nested function would be resolved to the wrong variable.

The walks are compared step by step: the list holds just the names that the scope declares, and each
statement either keeps it so or makes both walks fail on the same function.

* `ScopeGraph.Listed`: what the two walks have in common while they go on.
* `Agrees`: both walks fail alike, or end well with the same names.
* `hoistStmt_agrees`, `hoist_agrees`: they agree on every statement and every text.
* `hoist_agrees_boundNames`: the same, said of a list and a graph.
-/

namespace TypeFlow

open ImplicitGlobals (boundNames boundByStmt)
open Extraction (hoist hoistStmt)

variable {function : FunctionRegistry} {s : ScopeId} {g h : ScopeGraph} {names : List String}

/-- A scope that is there declares **just the names on a list**. -/
structure ScopeGraph.Listed (g : ScopeGraph) (s : ScopeId) (names : List String) : Prop where
  there : s.index < g.scopes.length
  names : ∀ x, x ∈ names ↔ x ∈ g.namesOf s

/-- A name that is put on the list and declared in the scope, unless it is there already. -/
theorem ScopeGraph.Listed.bindOnce (hg : g.Listed s names) (x : String) :
    (g.bindOnce s x).Listed s (names.insert x) := by
  refine ⟨?_, fun y => ?_⟩
  · rw [ScopeGraph.length_bindOnce]
    exact hg.there
  rw [List.mem_insert_iff, hg.names y]
  by_cases hx : x ∈ g.namesOf s
  · -- nothing is new
    rw [ScopeGraph.bindOnce_of_mem hg.there hx]
    refine or_iff_right_of_imp ?_
    rintro rfl
    exact hx
  · rw [ScopeGraph.bindOnce_of_not_mem hg.there hx, ScopeGraph.namesOf_bindSlot hg.there, List.mem_append,
      List.mem_singleton]
    exact or_comm

namespace Hoisting

/-- **How the two walks end**: both fail on a function that has no declaration, or both end
well, the scope declaring just the names on the list. -/
inductive Outcome (function : FunctionRegistry) (s : ScopeId) : Except Fault (List String) →
    EStateM.Result Fault ScopeGraph Unit → Prop
  | failed {f : FunctionId} {h : ScopeGraph} (missing : function f = none) :
      Outcome function s (.error (.unknownFunction f)) (.error (.unknownFunction f) h)
  | done {all : List String} {h : ScopeGraph} (listed : h.Listed s all) : Outcome function s (.ok all) (.ok ⟨⟩ h)

/-- **Gathering names agrees with declaring them**: started on a list and a scope with the same names, both end
alike. -/
def Agrees (function : FunctionRegistry) (s : ScopeId) (gather : List String → Except Fault (List String))
    (declare : GraphM Unit) : Prop :=
  ∀ names g, ScopeGraph.Listed g s names → Outcome function s (gather names) (declare g)

theorem agrees_pure : Agrees function s pure (pure ⟨⟩) := fun _ _ hg => .done hg

theorem agrees_declareOnce (x : String) :
    Agrees function s (fun names => pure (names.insert x)) (GraphM.declareOnce s x) := by
  intro names g hg
  rw [Extraction.declareOnce_apply]
  exact .done (hg.bindOnce x)

theorem Agrees.bind {b c : List String → Except Fault (List String)} {x y : GraphM Unit} (hx : Agrees function s b x)
    (hy : Agrees function s c y) : Agrees function s (fun names => b names >>= c) (x >>= fun _ => y) := by
  intro names g hg
  have hfirst : Outcome function s (b names) (x g) := hx names g hg
  rw [bind_apply]
  dsimp only
  generalize b names = gathered at hfirst
  generalize x g = declared at hfirst
  cases hfirst with
  | failed missing => exact .failed missing
  | done listed => exact hy _ _ listed

/-- A function declaration fails if the function is missing; otherwise its name counts, if it has one. -/
theorem agrees_function (f : FunctionId) :
    Agrees function s (fun names => boundByStmt function names (.function f)) (hoistStmt function s (.function f)) := by
  intro names g hg
  dsimp only
  rw [boundByStmt, hoistStmt, FunctionRegistry.demand, FunctionRegistry.demand]
  cases hf : function f with
  | none => exact .failed hf
  | some d =>
    cases hname : d.name with
    | none =>
      rw [pure_bind, pure_bind, hname]
      exact agrees_pure names g hg
    | some x =>
      rw [pure_bind, pure_bind, hname]
      exact agrees_declareOnce x names g hg

mutual

theorem hoistStmt_agrees : ∀ st, Agrees function s (fun names => boundByStmt function names st) (hoistStmt function s st)
  | .var x _ _ => agrees_declareOnce x
  | .function f => agrees_function f
  | .expr _ => agrees_pure
  | .ret _ => agrees_pure
  | .branch _ yes no => (hoist_agrees yes).bind (hoist_agrees no)
  | .loop _ body => hoist_agrees body
  | .block body => hoist_agrees body
termination_by structural st => st

/-- **The walks agree on a text**, statement by statement. -/
theorem hoist_agrees : ∀ sts, Agrees function s (fun names => boundNames function names sts) (hoist function s sts)
  | [] => agrees_pure
  | st :: rest => (hoistStmt_agrees st).bind (hoist_agrees rest)
termination_by structural sts => sts

end

end Hoisting

/-- **The two walks over a body agree**, whatever functions are known. Gathering starts from some names, and hoisting
from a scope that declares just these. Then either both fail on the same function, which has no declaration, or
both end well, and the scope declares just the names that were gathered. -/
theorem hoist_agrees_boundNames (function : FunctionRegistry) (body : List Stmt) (hs : s.index < g.scopes.length)
    (hnames : ∀ x, x ∈ names ↔ x ∈ g.namesOf s) :
    (∃ f h, function f = none ∧ boundNames function names body = .error (.unknownFunction f) ∧
      hoist function s body g = .error (.unknownFunction f) h) ∨
    ∃ all h, boundNames function names body = .ok all ∧ hoist function s body g = .ok ⟨⟩ h ∧
      ∀ x, x ∈ all ↔ x ∈ h.namesOf s := by
  have hends : Hoisting.Outcome function s (boundNames function names body) (hoist function s body g) :=
    Hoisting.hoist_agrees body names g ⟨hs, hnames⟩
  generalize boundNames function names body = gathered at hends ⊢
  generalize hoist function s body g = declared at hends ⊢
  cases hends with
  | @failed f h missing => exact .inl ⟨f, h, missing, rfl, rfl⟩
  | @done all h listed => exact .inr ⟨all, h, rfl, rfl, listed.names⟩

/-- A function `f` and one without a name, under ids that leave a gap before them. -/
def scattered : FunctionRegistry
  | ⟨1⟩ => some { name := "f", body := some [] }
  | ⟨2⟩ => some { body := some [] }
  | _ => none

/-- A text that declares `x` twice, `f`, `y` and the function without a name, at several depths. -/
def scattered.text : List Stmt :=
  [.var "x" none none, .branch ⟨.literal, none⟩ [.function ⟨1⟩, .var "x" none none]
    [.loop ⟨.literal, none⟩ [.var "y" none none]], .block [.function ⟨2⟩]]

/-- A graph with one scope, which declares `y`. -/
def scattered.graph : ScopeGraph where
  scopes := [{ kind := .global, parent := none, slots := [("y", ⟨0⟩)] }]
  slots := [⟨"y", ⟨0⟩, ∅⟩]

/-- From `y` both walks come to `f`, `x` and `y`. If the text goes on with the function in the gap, both fail
on it. -/
theorem scattered_agrees :
    (∃ h, hoist scattered ⟨0⟩ scattered.text scattered.graph = .ok ⟨⟩ h ∧
      ∀ x, x ∈ h.namesOf ⟨0⟩ ↔ x ∈ ["f", "x", "y"]) ∧
    ∃ h, hoist scattered ⟨0⟩ (scattered.text ++ [.function ⟨0⟩]) scattered.graph =
      .error (.unknownFunction ⟨0⟩) h := by
  have hs : (⟨0⟩ : ScopeId).index < scattered.graph.scopes.length := by decide
  have hnames : ∀ x, x ∈ ["y"] ↔ x ∈ scattered.graph.namesOf ⟨0⟩ := fun x => Iff.rfl
  have hgathered : boundNames scattered ["y"] scattered.text = .ok ["f", "x", "y"] := rfl
  have hmissing : boundNames scattered ["y"] (scattered.text ++ [.function ⟨0⟩]) =
      .error (.unknownFunction ⟨0⟩) := rfl
  constructor
  · rcases hoist_agrees_boundNames scattered scattered.text hs hnames with
      ⟨f, h, -, hfails, -⟩ | ⟨all, h, hall, hhoist, hsame⟩
    · rw [hgathered] at hfails
      cases hfails
    · rw [hgathered] at hall
      cases hall
      exact ⟨h, hhoist, fun x => (hsame x).symm⟩
  · rcases hoist_agrees_boundNames scattered (scattered.text ++ [.function ⟨0⟩]) hs hnames with
      ⟨f, h, -, hfails, hhoist⟩ | ⟨all, h, hall, -⟩
    · rw [hmissing] at hfails
      cases hfails
      exact ⟨h, hhoist⟩
    · rw [hmissing] at hall
      cases hall

end TypeFlow
