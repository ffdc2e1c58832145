import TypeFlow.Analysis.State

/-!
# Queries

What an analysis has found out about a name, a function or a shape.
-/

namespace TypeFlow.Analysis

variable (a : Analysis)

def isAllocated (o : ObjRef) : Bool := decide (o ∈ a.allocated)

/-- The type of a name as a scope sees it. -/
def slotType (s : ScopeId) (name : String) : Option ConcreteType :=
  (a.graph.lookup s name).map a.graph.typeOf

/-- The type of a global name. -/
def globalType (name : String) : Option ConcreteType := a.slotType .global name

/-- The canonical function of a declaration, as a type. -/
def functionType (f : FunctionId) : Option ConcreteType := (a.findFunction f).map .function

/-- The canonical object of a shape, as a type. -/
def objectType (s : ShapeId) : Option ConcreteType := (a.findObject s).map .object

/-- The body scope of a declaration. -/
def bodyScope (f : FunctionId) : Option ScopeId :=
  ((a.findFunction f).bind a.function?).map (·.body)

/-- The type of an own slot of the body scope of a function. -/
def functionSlotType (f : FunctionId) (name : String) : Option ConcreteType := do
  let body ← a.bodyScope f
  let x ← a.graph.own body name
  return a.graph.typeOf x

/-- What a function may return. -/
def functionReturnType (f : FunctionId) : Option ConcreteType :=
  a.functionSlotType f SlotName.ret

/-- What a function may be called on. -/
def thisType (f : FunctionId) : Option ConcreteType := a.functionSlotType f SlotName.this

/-- The type of a parameter by position. -/
def parameterType (f : FunctionId) (i : Nat) : Option ConcreteType := do
  let body ← a.bodyScope f
  let x ← (a.graph.paramsOf body)[i]?
  return a.graph.typeOf x

/-- The type of a property as objects of a shape have it. -/
def objectPropertyType (s : ShapeId) (name : String) : Option ConcreteType := do
  let o ← a.findObject s
  let e ← a.object? o
  a.slotType e.scope name

end TypeFlow.Analysis
