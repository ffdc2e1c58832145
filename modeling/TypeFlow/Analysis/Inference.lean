import TypeFlow.Analysis.Narrowing

/-!
# Inference

The concrete type of an expression, read off the present slot types. Inferring a
function expression or a literal creates its entity, so inference changes the state.

* `AnalysisM.propertyType`: what reading a property may give.
* `AnalysisM.infer`: the type of an expression, narrowed by its declared type.
-/

namespace TypeFlow

namespace PropertyName

/-- Reads the prototype object of a function. -/
def prototype : String := "prototype"

/-- Calls a function with an explicit receiver. -/
def call : String := "call"

/-- Reads the prototype object of the superclass. -/
def superclass : String := "superClass_"

end PropertyName

namespace Analysis

variable (a : Analysis)

/-- The objects that `new` makes with the functions of a type. -/
def constructedBy (t : ConcreteType) : ConcreteType :=
  .ofList (t.functions.filterMap fun f => (a.function? f).bind (·.object.map .object))

/-- What the functions of a type return. -/
def returnedBy : ConcreteType → ConcreteType
  | .all => .all
  | .only s => .unions ((ConcreteType.only s).functions.map fun f =>
      a.typeOr ∅ ((a.function? f).bind fun e => a.graph.own e.body SlotName.ret))

/-- What reading a property of an object gives, its prototype chain included. -/
def objectProperty (o : ObjRef) (name : String) : ConcreteType :=
  a.typeOr ∅ ((a.object? o).bind fun e => a.graph.lookup e.scope name)

end Analysis

namespace AnalysisM

/-- What reading a property of a function gives. -/
def functionProperty (p : Program) (f : FnRef) (name : String) : AnalysisM ConcreteType := do
  let a ← get
  match a.function? f with
  | none => return ∅
  | some e =>
    let static := a.typeOr ∅ (a.graph.own e.statics name)
    if name = PropertyName.prototype then
      return (e.prototype.map .object).getD static
    else if name = PropertyName.call then
      return .function f
    else if name = PropertyName.superclass then
      let d : FunctionDecl ← p.demandFunction e.decl
      match d.superclass with
      | none => return static
      | some c =>
        let d : FunctionDecl ← p.demandFunction c
        match d.prototypeShape with
        | none => return static
        | some s =>
          let o ← createObject p s
          return .object o
    else return static

/-- What reading a property of one entity gives. -/
def entityProperty (p : Program) (name : String) : Entity → AnalysisM ConcreteType
  | .object o => do
    let a ← get
    return a.objectProperty o name
  | .function f => functionProperty p f name

/-- What reading a property of each of several entities gives in all. -/
def entityProperties (p : Program) (name : String) : List Entity → AnalysisM ConcreteType
  | [] => return ∅
  | e :: es => do
    let t ← entityProperty p name e
    let u ← entityProperties p name es
    return t ∪ u

/-- **What reading a property of a value gives.** -/
def propertyType (p : Program) (receiver : ConcreteType) (name : String) : AnalysisM ConcreteType :=
  match receiver with
  | .all => return .all
  | .only s => entityProperties p name s.members

/-- Narrows by a declared type where there is one. -/
def narrow? (env : Setup) (t : ConcreteType) : Option DeclaredType → AnalysisM ConcreteType
  | some d => narrow env t d
  | none => return t

variable (env : Setup)

mutual

/-- **The concrete type of an expression** in a scope. -/
def infer (s : ScopeId) : Expr → AnalysisM ConcreteType
  | ⟨form, declared⟩ => do
    let t ← inferForm s declared form
    narrow? env t declared
termination_by structural e => e

/-- The type of an expression before it is narrowed. -/
def inferForm (s : ScopeId) (declared : Option DeclaredType) : Form → AnalysisM ConcreteType
  | .name x => do
    let a ← get
    return a.typeOr .all (a.graph.lookup s x)
  | .this => do
    let a ← get
    return a.typeOr .all (a.graph.own s SlotName.this)
  | .literal => return ∅
  | .function f => do
    let r ← createFunction env.program f s
    return .function r
  | .objectLit _ => do
    match declared with
    | some (.object shape) =>
      let o ← createObject env.program shape
      return .object o
    | _ => return .all
  | .arrayLit _ => do
    match env.program.arrayShape with
    | some shape =>
      let o ← createObject env.program shape
      return .object o
    | none => return .all
  | .prop receiver property => do
    let t ← infer s receiver
    propertyType env.program t property
  | .elem _ _ => return .all
  | .call callee _ => do
    let t ← infer s callee
    let a ← get
    return a.returnedBy t
  | .construct callee _ => do
    let t ← infer s callee
    match t with
    | .all => throw .unboundedConstructor
    | .only _ =>
      let a ← get
      return a.constructedBy t
  | .assign _ value => infer s value
  | .comma operands => inferLast s operands
  | .and left right => do
    let t ← infer s left
    let u ← infer s right
    return t ∪ u
  | .or left right => do
    let t ← infer s left
    let u ← infer s right
    return t ∪ u
  | .cond _ yes no => do
    let t ← infer s yes
    let u ← infer s no
    return t ∪ u
  | .unknown _ => return .all
termination_by structural form => form

/-- The type of the last of several expressions. -/
def inferLast (s : ScopeId) : List Expr → AnalysisM ConcreteType
  | [] => return ∅
  | [e] => infer s e
  | _ :: e :: es => inferLast s (e :: es)
termination_by structural es => es

end

end AnalysisM

end TypeFlow
