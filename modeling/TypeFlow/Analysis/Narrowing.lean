import TypeFlow.Analysis.Creation
import TypeFlow.Program.Hierarchy

/-!
# Narrowing and widening

A declared type narrows a concrete type to the entities that it admits, and it widens
into a concrete type where nothing else is known about a value.

* `Analysis.narrowed`: the members of a type that a declared type admits.
* `AnalysisM.narrow`: the same, remembered.
* `AnalysisM.widen`: what a value may be of which only the declared type is known.
-/

namespace TypeFlow

/-- Which entities a declared type admits. -/
structure Admission where
  everything : Bool := false
  anyFunction : Bool := false
  shapes : List ShapeId := []
  functions : List FunctionId := []

namespace Admission

/-- What either of two admits. -/
def join (x y : Admission) : Admission where
  everything := x.everything || y.everything
  anyFunction := x.anyFunction || y.anyFunction
  shapes := x.shapes ++ y.shapes
  functions := x.functions ++ y.functions

mutual

/-- What a declared type admits. -/
def ofDeclared (p : Program) : DeclaredType → Admission
  | .unknown => { everything := true }
  | .anyObject => { everything := true }
  | .primitive => {}
  | .object s => { shapes := p.subtypeClosure s }
  | .function (some f) _ => { functions := [f] }
  | .function none _ => { anyFunction := true }
  | .union ds => ofDeclaredAny p ds
termination_by structural d => d

/-- What some declared type on a list admits. -/
def ofDeclaredAny (p : Program) : List DeclaredType → Admission
  | [] => {}
  | d :: ds => (ofDeclared p d).join (ofDeclaredAny p ds)
termination_by structural ds => ds

end

end Admission

namespace Analysis

variable (p : Program) (a : Analysis)

/-- Whether an entity is admitted. An object counts through its shape and, if it is a
prototype, through the shapes it inherits from. -/
def admits (x : Admission) : Entity → Bool
  | .function f => x.anyFunction || (a.function? f).any fun e => decide (e.decl ∈ x.functions)
  | .object o =>
    (a.object? o).any fun e => (p.admissionPath e.shape).any fun s => decide (s ∈ x.shapes)

/-- The entities now present that are admitted. -/
def expand (x : Admission) : ConcreteType :=
  .ofList (a.present.filter (a.admits p x))

/-- The members of a type that a declared type admits, where `all` stands for the entities
now present. A declared type that admits everything leaves the type as it is. -/
def narrowed (t : ConcreteType) (d : DeclaredType) : ConcreteType :=
  let x := Admission.ofDeclared p d
  if x.everything then t
  else
    match t with
    | .all => a.expand p x
    | .only _ => t.filter (a.admits p x)

/-- What is remembered of narrowing `t` by `d`. -/
def remembered (t : ConcreteType) (d : DeclaredType) : Option ConcreteType :=
  (a.narrowings.find? fun n => n.type = t ∧ n.declared = d).map (·.result)

end Analysis

namespace AnalysisM

variable (env : Setup)

/-- **Narrows a type by a declared type.** With memoisation on, what was narrowed since the
last change is not computed again. -/
def narrow (t : ConcreteType) (d : DeclaredType) : AnalysisM ConcreteType := do
  if d = .unknown ∨ t = ∅ then return t
  else if env.config.memoize then
    let a ← get
    match a.remembered t d with
    | some r => return r
    | none =>
      let r := a.narrowed env.program t d
      set { a with narrowings := ⟨t, d, r⟩ :: a.narrowings }
      return r
  else
    let a ← get
    return a.narrowed env.program t d

mutual

/-- **The concrete type of a value of which only the declared type is known.** An object type
allocates its object, unless it is an interface, and covers the admitted objects allocated so
far. A function with a body contributes only once its declaration has been evaluated. -/
def widen (p : Program) : DeclaredType → AnalysisM ConcreteType
  | .unknown => return .all
  | .anyObject => return .all
  | .primitive => return ∅
  | .object s => do
    let d : ShapeDecl ← p.demandShape s
    if d.kind = .interface then
      let a ← get
      return a.expand p (Admission.ofDeclared p (.object s))
    else
      let o ← createObject p s
      recordAllocation o
      let a ← get
      return .object o ∪ a.expand p (Admission.ofDeclared p (.object s))
  | .function (some f) _ => do
    let a ← get
    match a.findFunction f with
    | some r => return .function r
    | none =>
      let d : FunctionDecl ← p.demandFunction f
      if d.isAmbient then
        let r ← createFunction p f .global
        return .function r
      else return ∅
  | .function none _ => return .all
  | .union ds => widenAny p ds
termination_by structural d => d

/-- What a value may be of which one of several declared types holds. -/
def widenAny (p : Program) : List DeclaredType → AnalysisM ConcreteType
  | [] => return ∅
  | d :: ds => do
    let t ← widen p d
    let u ← widenAny p ds
    return t ∪ u
termination_by structural ds => ds

end

end AnalysisM

end TypeFlow
