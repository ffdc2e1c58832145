import TypeFlow.Fixpoint
import TypeFlow.Scope.Graph

/-!
# The state of an analysis

The scope graph, the tables of canonical functions and objects, the objects known to be
allocated, and what has been narrowed so far. A position in a table names the entity
that stands there, and entries are never removed.
-/

namespace TypeFlow

/-- A function declaration as a value. -/
structure FunctionEntry where
  decl : FunctionId
  /-- The scope around the declaration. -/
  parent : ScopeId
  body : ScopeId
  statics : ScopeId
  /-- The object that `new` makes with it. -/
  object : Option ObjRef
  /-- Its prototype object. -/
  prototype : Option ObjRef

/-- A shape as a value. -/
structure ObjectEntry where
  shape : ShapeId
  /-- The scope of its properties. -/
  scope : ScopeId

/-- A type that was narrowed by a declared type. -/
structure Narrowing where
  type : ConcreteType
  declared : DeclaredType
  result : ConcreteType

/-- Everything that an analysis has found out so far. -/
structure Analysis where
  graph : ScopeGraph
  functions : List FunctionEntry := []
  objects : List ObjectEntry := []
  /-- The objects made by `new`, by literals or by ambient code, in the order of discovery. -/
  allocated : List ObjRef := []
  /-- Narrowed types, valid until an object is allocated or a function is created. -/
  narrowings : List Narrowing := []
  /-- The body scopes created since they were last taken. -/
  discovered : List ScopeId := []
  /-- Whether an object was allocated since the present replay began. -/
  widened : Bool := false
  processed : Bool := false
  converged : Option Converged := none

/-- A computation on the state of an analysis that may stop on a fault. What it did before
the fault is kept. -/
abbrev AnalysisM := EStateM Fault Analysis

/-- The program under analysis and how it is analysed. -/
structure Setup where
  program : Program
  config : Config := {}

/-- The global scope, which every analysis creates first. -/
def ScopeId.global : ScopeId := ⟨0⟩

namespace Analysis

/-- Nothing but an empty global scope. -/
def fresh : Analysis where
  graph := { scopes := [{ kind := .global, parent := none }] }

variable (a : Analysis)

def function? (f : FnRef) : Option FunctionEntry := a.functions[f.index]?

def object? (o : ObjRef) : Option ObjectEntry := a.objects[o.index]?

/-- The canonical function of a declaration, if it was created. -/
def findFunction (d : FunctionId) : Option FnRef :=
  (a.functions.findIdx? (·.decl = d)).map FnRef.mk

/-- The canonical object of a shape, if it was created. -/
def findObject (s : ShapeId) : Option ObjRef :=
  (a.objects.findIdx? (·.shape = s)).map ObjRef.mk

/-- The type of an optional slot, where a slot that does not exist has type `missing`. -/
def typeOr (missing : ConcreteType) (x : Option SlotId) : ConcreteType :=
  (x.map a.graph.typeOf).getD missing

/-- All canonical entities that `all` stands for when it has to be listed: the allocated
objects and the functions. -/
def present : List Entity :=
  a.allocated.map .object ++ (List.range a.functions.length).map fun i => .function ⟨i⟩

end Analysis

namespace AnalysisM

/-- Works on the scope graph of the analysis. -/
def onGraph {α : Type} (x : GraphM α) : AnalysisM α := fun a =>
  match x a.graph with
  | .ok v g => .ok v { a with graph := g }
  | .error e g => .error e { a with graph := g }

/-- Adds an object to the allocated ones. If it is new, the analysis is widened, and what was
narrowed before may no longer hold. -/
def recordAllocation (o : ObjRef) : AnalysisM Unit :=
  modify fun a =>
    if o ∈ a.allocated then a
    else { a with allocated := a.allocated ++ [o], widened := true, narrowings := [] }

/-- Records all allocations on a list. -/
def recordAllocations : List ObjRef → AnalysisM Unit
  | [] => return ()
  | o :: os => do
    recordAllocation o
    recordAllocations os

/-- Runs a computation on each element of a list and joins what they produce. -/
def gather {α β : Type} (f : α → AnalysisM (List β)) : List α → AnalysisM (List β)
  | [] => return []
  | x :: xs => do
    let here ← f x
    let rest ← gather f xs
    return here ++ rest

end AnalysisM

end TypeFlow
