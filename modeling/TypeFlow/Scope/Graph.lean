import TypeFlow.Action
import TypeFlow.ConcreteType.Basic
import TypeFlow.Fault

/-!
# The scope graph

Scopes hold slots and the actions to evaluate. There is one global scope, a body scope
and a scope of static properties for each function, and a property scope for each
object. Scopes and slots are only ever added, and the type of a slot only grows.

* `ScopeGraph.chain`: a scope, its parent, and so on.
* `ScopeGraph.lookup`: the slot that a name stands for in a scope.
* `ScopeGraph.declare`: a scope declares a name at most once.
-/

namespace TypeFlow

/-- What a scope belongs to. -/
inductive ScopeKind where
  | global
  | body (f : FunctionId)
  /-- The properties of a function value. -/
  | statics (f : FunctionId)
  /-- The properties of an object. -/
  | object (s : ShapeId)
deriving DecidableEq

/-- A scope. -/
structure Scope where
  kind : ScopeKind
  /-- The enclosing scope, or for objects the scope of the prototype. -/
  parent : Option ScopeId
  /-- The slots by name, in the order of declaration. -/
  slots : List (String × SlotId) := []
  /-- The slots that are parameters, in order. -/
  params : List SlotId := []
  actions : List Action := []

/-- A named cell. -/
structure Slot where
  name : String
  owner : ScopeId
  type : ConcreteType

/-- All scopes and slots of an analysis. -/
structure ScopeGraph where
  scopes : List Scope := []
  slots : List Slot := []

/-- A computation on the scope graph that may stop on a fault. What it did before the fault
is kept. -/
abbrev GraphM := EStateM Fault ScopeGraph

namespace ScopeGraph

variable (g : ScopeGraph)

def scope? (s : ScopeId) : Option Scope := g.scopes[s.index]?

def slot? (x : SlotId) : Option Slot := g.slots[x.index]?

/-- The slot that the scope itself declares under a name. -/
def own (s : ScopeId) (name : String) : Option SlotId :=
  (g.scope? s).bind (·.slots.lookup name)

def parent? (s : ScopeId) : Option ScopeId := (g.scope? s).bind (·.parent)

/-- The first `n` scopes on the way from `s` upwards. -/
def chainWithin : Nat → ScopeId → List ScopeId
  | 0, _ => []
  | n + 1, s =>
    s :: match g.parent? s with
      | some t => chainWithin n t
      | none => []

/-- A scope, its parent, the parent of that, and so on. Parents are older than their
children, so the position of the scope bounds the way. -/
def chain (s : ScopeId) : List ScopeId := g.chainWithin (s.index + 1) s

/-- The slot that a name stands for in a scope: the own slot of the nearest scope upwards
that declares the name. -/
def lookup (s : ScopeId) (name : String) : Option SlotId :=
  (g.chain s).findSome? (g.own · name)

/-- The type of a slot. -/
def typeOf (x : SlotId) : ConcreteType := ((g.slot? x).map (·.type)).getD ∅

def paramsOf (s : ScopeId) : List SlotId := ((g.scope? s).map (·.params)).getD []

def actionsOf (s : ScopeId) : List Action := ((g.scope? s).map (·.actions)).getD []

/-- The graph with a scope changed. -/
def modifyScope (s : ScopeId) (f : Scope → Scope) : ScopeGraph :=
  { g with scopes := g.scopes.modify s.index f }

/-- The graph with a new slot in a scope. -/
def bindSlot (s : ScopeId) (name : String) : ScopeGraph :=
  { g.modifyScope s fun c => { c with slots := c.slots ++ [(name, ⟨g.slots.length⟩)] } with
    slots := g.slots ++ [⟨name, s, ∅⟩] }

/-- The graph with the type of a slot changed. -/
def setType (x : SlotId) (t : ConcreteType) : ScopeGraph :=
  { g with slots := g.slots.modify x.index fun c => { c with type := t } }

/-- The graph with `t` joined into the type of a slot, and whether that type grew. -/
def unionInto (x : SlotId) (t : ConcreteType) : Bool × ScopeGraph :=
  let joined := g.typeOf x ∪ t
  if joined = g.typeOf x then (false, g) else (true, g.setType x joined)

/-- The graph with one more action in a scope. -/
def pushAction (s : ScopeId) (a : Action) : ScopeGraph :=
  g.modifyScope s fun c => { c with actions := c.actions ++ [a] }

end ScopeGraph

namespace GraphM

/-- Adds an empty scope. -/
def addScope (kind : ScopeKind) (parent : Option ScopeId) : GraphM ScopeId :=
  modifyGet fun g => (⟨g.scopes.length⟩, { g with scopes := g.scopes ++ [{ kind, parent }] })

/-- Declares a name in a scope that does not declare it yet. -/
def declare (s : ScopeId) (name : String) : GraphM SlotId := do
  let g ← get
  match g.own s name with
  | some _ => throw (.duplicateSlot name s)
  | none =>
    set (g.bindSlot s name)
    return ⟨g.slots.length⟩

/-- Declares the next parameter of a function. -/
def declareParam (s : ScopeId) (name : String) : GraphM SlotId := do
  let x ← declare s name
  modify fun g => g.modifyScope s fun c => { c with params := c.params ++ [x] }
  return x

/-- Declares a name unless the scope declares it already. -/
def declareOnce (s : ScopeId) (name : String) : GraphM Unit := do
  let g ← get
  match g.own s name with
  | some _ => return ()
  | none => discard (declare s name)

/-- Records an action for a scope. -/
def emit (s : ScopeId) (a : Action) : GraphM Unit :=
  modify fun g => g.pushAction s a

end GraphM

end TypeFlow
