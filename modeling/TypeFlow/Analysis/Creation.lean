import TypeFlow.Analysis.State
import TypeFlow.Extraction

/-!
# Creating functions and objects

Every function declaration and every shape has at most one canonical entity. Creating it
also creates its scopes: a body scope with its actions and a scope of static properties
for a function, and for an object a scope of properties whose parent is the scope of the
prototype.

* `AnalysisM.createObject`: the canonical object of a shape, with its prototype chain.
* `AnalysisM.createFunction`: the canonical function of a declaration.
-/

namespace TypeFlow

namespace GraphM

/-- Declares names one after the other. -/
def declareEach (s : ScopeId) : List String → GraphM Unit
  | [] => return ()
  | x :: xs => do
    let _ ← declare s x
    declareEach s xs

/-- Declares parameters one after the other. -/
def declareParams (s : ScopeId) : List String → GraphM Unit
  | [] => return ()
  | x :: xs => do
    let _ ← declareParam s x
    declareParams s xs

/-- A scope for the properties of an object. -/
def addObjectScope (s : ShapeId) (parent : Option ScopeId) (properties : List String) :
    GraphM ScopeId := do
  let scope ← addScope (.object s) parent
  declareEach scope properties
  return scope

/-- Fills in the scope of a body: the slots that every body has, the parameters, and then
what the text of the body declares. An ambient function returns what its signature says. -/
def fillBodyScope (p : Program) (d : FunctionDecl) (scope : ScopeId) : GraphM Unit := do
  let _ ← declare scope SlotName.callee
  let _ ← declare scope SlotName.this
  let ret ← declare scope SlotName.ret
  declareParams scope d.params
  match d.body with
  | some body => Extraction.collect p { global := .global, scope } body
  | none => emit scope (.declaredFlow ret d.signature.ret)

/-- A scope for the body of a function. -/
def addBodyScope (p : Program) (f : FunctionId) (d : FunctionDecl) (parent : ScopeId) :
    GraphM ScopeId := do
  let scope ← addScope (.body f) (some parent)
  fillBodyScope p d scope
  return scope

end GraphM

namespace AnalysisM

open GraphM

variable (p : Program)

/-- The scope of an object of shape `s`, where `create` provides the object of its
prototype. -/
def objectScope (create : ShapeId → AnalysisM ObjRef) (s : ShapeId) : AnalysisM ScopeId := do
  let d : ShapeDecl ← p.demandShape s
  match d.proto with
  | none => onGraph (addObjectScope s none d.properties)
  | some t =>
    let o ← create t
    let a ← get
    onGraph (addObjectScope s ((a.object? o).map (·.scope)) d.properties)

/-- Enters a new object in the table. -/
def addObject (s : ShapeId) (scope : ScopeId) : AnalysisM ObjRef :=
  modifyGet fun a => (⟨a.objects.length⟩, { a with objects := a.objects ++ [⟨s, scope⟩] })

/-- The canonical object of a shape, at most `n` prototypes deep. The objects of the shapes
on `path` wait for this one. -/
def createObjectWithin : Nat → List ShapeId → ShapeId → AnalysisM ObjRef
  | 0, _, s => throw (.cyclicPrototype s)
  | n + 1, path, s => do
    let a ← get
    match a.findObject s with
    | some o => return o
    | none =>
      if s ∈ path then throw (.cyclicPrototype s)
      else
        let scope ← objectScope p (createObjectWithin n (s :: path)) s
        addObject s scope

/-- **The canonical object of a shape**, created with its prototype chain when it is first
asked for. The shapes that wait for each other are all different and declared, which bounds
the depth. -/
def createObject (s : ShapeId) : AnalysisM ObjRef :=
  createObjectWithin p (p.shapes.length + 1) [] s

/-- The canonical object of an optional shape. -/
def createObject? : Option ShapeId → AnalysisM (Option ObjRef)
  | some s => do
    let o ← createObject p s
    return some o
  | none => return none

/-- A body scope for a function, which is then waiting to be replayed. -/
def createBodyScope (f : FunctionId) (parent : ScopeId) : AnalysisM ScopeId := do
  let d : FunctionDecl ← p.demandFunction f
  let scope ← onGraph (addBodyScope p f d parent)
  modify fun a => { a with discovered := a.discovered ++ [scope] }
  return scope

/-- Joins a type into the slot that a scope itself declares under a name. -/
def unionIntoOwn (s : ScopeId) (name : String) (t : ConcreteType) : AnalysisM Unit :=
  modify fun a =>
    match a.graph.own s name with
    | some x => { a with graph := (a.graph.unionInto x t).2 }
    | none => a

/-- Enters a new function in the table. What was narrowed before may no longer hold. -/
def addFunction (e : FunctionEntry) : AnalysisM Unit :=
  modify fun a => { a with functions := a.functions ++ [e], narrowings := [] }

/-- Makes the scopes of a new function, whose objects are given, and enters it. -/
def introduceFunction (f : FunctionId) (parent : ScopeId) (prototype object : Option ObjRef) :
    AnalysisM FnRef := do
  let a ← get
  let r : FnRef := ⟨a.functions.length⟩
  let statics ← onGraph (addScope (.statics f) none)
  let body ← createBodyScope p f parent
  unionIntoOwn body SlotName.callee (.function r)
  addFunction { decl := f, parent, body, statics, object, prototype }
  return r

/-- **The canonical function of a declaration**, created inside `parent` when it is first
asked for. -/
def createFunction (f : FunctionId) (parent : ScopeId) : AnalysisM FnRef := do
  let a ← get
  match a.findFunction f with
  | some r => return r
  | none =>
    let d : FunctionDecl ← p.demandFunction f
    let prototype ← createObject? p d.prototypeShape
    let object ← createObject? p d.objectShape
    introduceFunction p f parent prototype object

end AnalysisM

end TypeFlow
