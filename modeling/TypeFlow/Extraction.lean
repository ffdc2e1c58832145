import TypeFlow.Scope.Graph

/-!
# Extraction

Turns the text of a body into slots and actions. First the names that the body declares
are **hoisted** into its scope, at whatever depth of blocks and branches they stand but
not inside nested functions. Then every construct through which values flow becomes one
action of that scope.

* `Extraction.hoist`: declares the names of a body.
* `Extraction.visit`: records the actions of a body.
* `Extraction.collect`: both, one after the other.
-/

namespace TypeFlow

/-- What is known of the functions of a program: a declaration for each id that has one. -/
abbrev FunctionRegistry := FunctionId → Option FunctionDecl

/-- The declaration of a function, which must exist. -/
def FunctionRegistry.demand {m : Type → Type} [Monad m] [MonadExceptOf Fault m]
    (function : FunctionRegistry) (f : FunctionId) : m FunctionDecl :=
  match function f with
  | some d => pure d
  | none => throw (.unknownFunction f)

/-- A program knows the functions on its list. -/
instance : Coe Program FunctionRegistry := ⟨Program.function?⟩

/-- The declaration of a function of the program, which must exist. -/
abbrev Program.demandFunction {m : Type → Type} [Monad m] [MonadExceptOf Fault m] (p : Program)
    (f : FunctionId) : m FunctionDecl :=
  FunctionRegistry.demand p f

/-- The declaration of a shape, which must exist. -/
def Program.demandShape {m : Type → Type} [Monad m] [MonadExceptOf Fault m] (p : Program)
    (s : ShapeId) : m ShapeDecl :=
  match p.shape? s with
  | some d => pure d
  | none => throw (.unknownShape s)

namespace Extraction

open GraphM

/-- Where the actions of a body go. -/
structure Site where
  /-- The scope that takes the names which nothing declares. -/
  global : ScopeId
  /-- The scope of the body. -/
  scope : ScopeId
  /-- In ambient declarations a variable holds what its declared type says. -/
  ambient : Bool := false

variable (function : FunctionRegistry)

mutual

/-- Declares the names of a statement. -/
def hoistStmt (s : ScopeId) : Stmt → GraphM Unit
  | .var x _ _ => declareOnce s x
  | .function f => do
    let d : FunctionDecl ← function.demand f
    match d.name with
    | some x => declareOnce s x
    | none => return ()
  | .expr _ => return ()
  | .ret _ => return ()
  | .branch _ yes no => do
    hoist s yes
    hoist s no
  | .loop _ body => hoist s body
  | .block body => hoist s body
termination_by structural st => st

/-- Declares the names of a list of statements in a scope. -/
def hoist (s : ScopeId) : List Stmt → GraphM Unit
  | [] => return ()
  | st :: rest => do
    hoistStmt s st
    hoist s rest
termination_by structural sts => sts

end

/-- The slot that an assignment to a name writes to: the one that the name stands for, or
else a new slot of the global scope. -/
def targetSlot (site : Site) (x : String) : GraphM SlotId := do
  let g ← get
  match g.lookup site.scope x with
  | some slot => return slot
  | none => declare site.global x

mutual

/-- Records the actions of an expression, those of its operands first. -/
def visitExpr (site : Site) : Expr → GraphM Unit
  | ⟨.name _, _⟩ => return ()
  | ⟨.this, _⟩ => return ()
  | ⟨.literal, _⟩ => return ()
  | ⟨.function _, _⟩ => return ()
  | ⟨.assign target value, _⟩ => do
    visitExpr site value
    match target with
    | ⟨.name x, _⟩ =>
      let slot ← targetSlot site x
      emit site.scope (.assign slot value)
    | ⟨.prop receiver property, _⟩ =>
      visitExpr site receiver
      emit site.scope (.assignProperty receiver property value)
    | target => visitExpr site target
  | ⟨.call callee args, _⟩ => do
    visitExpr site callee
    visitExprs site args
    emit site.scope (.call callee args)
  | ⟨.construct callee args, _⟩ => do
    visitExpr site callee
    visitExprs site args
    emit site.scope (.construct callee args)
  | ⟨.objectLit entries, declared⟩ => do
    emit site.scope (.allocate ⟨.objectLit entries, declared⟩)
    visitEntries site ⟨.objectLit entries, declared⟩ entries
  | ⟨.arrayLit elements, declared⟩ => do
    emit site.scope (.allocate ⟨.arrayLit elements, declared⟩)
    visitExprs site elements
  | ⟨.prop receiver _, _⟩ => visitExpr site receiver
  | ⟨.elem receiver index, _⟩ => do
    visitExpr site receiver
    visitExpr site index
  | ⟨.comma operands, _⟩ => visitExprs site operands
  | ⟨.unknown operands, _⟩ => visitExprs site operands
  | ⟨.and left right, _⟩ => do
    visitExpr site left
    visitExpr site right
  | ⟨.or left right, _⟩ => do
    visitExpr site left
    visitExpr site right
  | ⟨.cond test yes no, _⟩ => do
    visitExpr site test
    visitExpr site yes
    visitExpr site no
termination_by structural e => e

/-- Records the actions of expressions in order. -/
def visitExprs (site : Site) : List Expr → GraphM Unit
  | [] => return ()
  | e :: es => do
    visitExpr site e
    visitExprs site es
termination_by structural es => es

/-- Records, entry by entry, what an object literal assigns to its own properties. -/
def visitEntries (site : Site) (literal : Expr) : List Entry → GraphM Unit
  | [] => return ()
  | ⟨key, value⟩ :: rest => do
    visitExpr site value
    emit site.scope (.assignProperty literal key value)
    visitEntries site literal rest
termination_by structural es => es

end

mutual

/-- Records the actions of a statement. -/
def visitStmt (site : Site) : Stmt → GraphM Unit
  | .var x value declared => do
    let g ← get
    match g.own site.scope x with
    | none => return ()
    | some slot =>
      match value, declared with
      | some e, _ =>
        visitExpr site e
        emit site.scope (.assign slot e)
      | none, some d => if site.ambient then emit site.scope (.declaredFlow slot d)
      | none, none => return ()
  | .function f => do
    let d : FunctionDecl ← function.demand f
    let g ← get
    match d.name.bind (g.own site.scope) with
    | some slot => emit site.scope (.declareFunction slot f)
    | none => return ()
  | .expr e => visitExpr site e
  | .ret value => do
    let g ← get
    match g.own site.scope SlotName.ret with
    | none => throw .returnOutsideFunction
    | some slot =>
      match value with
      | some e =>
        visitExpr site e
        emit site.scope (.ret slot e)
      | none => return ()
  | .branch test yes no => do
    visitExpr site test
    visit site yes
    visit site no
  | .loop test body => do
    visitExpr site test
    visit site body
  | .block body => visit site body
termination_by structural st => st

/-- Records the actions of a list of statements whose names are hoisted. -/
def visit (site : Site) : List Stmt → GraphM Unit
  | [] => return ()
  | st :: rest => do
    visitStmt site st
    visit site rest
termination_by structural sts => sts

end

/-- Hoists the names of a body and records its actions. -/
def collect (site : Site) (body : List Stmt) : GraphM Unit := do
  hoist function site.scope body
  visit function site body

end Extraction

end TypeFlow
