import TypeFlow.Extraction

/-!
# Implicit globals

A name that is assigned somewhere, and that no enclosing function body binds, is a
global variable even though nothing declares it. One lexical walk over a body and all
functions nested in it declares these names before anything is evaluated, so that a
name means the same whichever body is read first.

* `ImplicitGlobals.boundNames`: the names that a function body binds.
* `ImplicitGlobals.declare`: the walk.
-/

namespace TypeFlow.ImplicitGlobals

/-- The walk enters every function once. -/
structure Walk where
  graph : ScopeGraph
  entered : List FunctionId := []

/-- A step of the walk. -/
abbrev WalkM := EStateM Fault Walk

section Names

variable (function : FunctionRegistry)

mutual

/-- The names with those that a statement declares. -/
def boundByStmt (names : List String) : Stmt → Except Fault (List String)
  | .var x _ _ => return names.insert x
  | .function f => do
    let d : FunctionDecl ← function.demand f
    match d.name with
    | some x => return names.insert x
    | none => return names
  | .expr _ => return names
  | .ret _ => return names
  | .branch _ yes no => do
    let names ← boundNames names yes
    boundNames names no
  | .loop _ body => boundNames names body
  | .block body => boundNames names body
termination_by structural st => st

/-- The names with those that a body declares, at any depth but not inside nested
functions. -/
def boundNames (names : List String) : List Stmt → Except Fault (List String)
  | [] => return names
  | st :: rest => do
    let names ← boundByStmt names st
    boundNames names rest
termination_by structural sts => sts

end

end Names

/-- An assignment to a name declares it globally unless an enclosing body binds it or it is
a global already. -/
def assigned (global : ScopeId) (bound : List String) (x : String) : WalkM Unit := fun w =>
  if x ∈ bound then .ok () w
  else
    match GraphM.declareOnce global x w.graph with
    | .ok _ g => .ok () { w with graph := g }
    | .error e g => .error e { w with graph := g }

section Walk

/- How the walk goes on in a nested function. -/
variable (enter : FunctionId → WalkM Unit) (global : ScopeId) (bound : List String)

mutual

/-- Walks through an expression. -/
def walkExpr : Expr → WalkM Unit
  | ⟨.name _, _⟩ => return ()
  | ⟨.this, _⟩ => return ()
  | ⟨.literal, _⟩ => return ()
  | ⟨.function f, _⟩ => enter f
  | ⟨.assign target value, _⟩ => do
    walkExpr value
    match target with
    | ⟨.name x, _⟩ => assigned global bound x
    | target => walkExpr target
  | ⟨.call callee args, _⟩ => do
    walkExpr callee
    walkExprs args
  | ⟨.construct callee args, _⟩ => do
    walkExpr callee
    walkExprs args
  | ⟨.objectLit entries, _⟩ => walkEntries entries
  | ⟨.arrayLit elements, _⟩ => walkExprs elements
  | ⟨.prop receiver _, _⟩ => walkExpr receiver
  | ⟨.elem receiver index, _⟩ => do
    walkExpr receiver
    walkExpr index
  | ⟨.comma operands, _⟩ => walkExprs operands
  | ⟨.unknown operands, _⟩ => walkExprs operands
  | ⟨.and left right, _⟩ => do
    walkExpr left
    walkExpr right
  | ⟨.or left right, _⟩ => do
    walkExpr left
    walkExpr right
  | ⟨.cond test yes no, _⟩ => do
    walkExpr test
    walkExpr yes
    walkExpr no
termination_by structural e => e

/-- Walks through expressions in order. -/
def walkExprs : List Expr → WalkM Unit
  | [] => return ()
  | e :: es => do
    walkExpr e
    walkExprs es
termination_by structural es => es

/-- Walks through the values of an object literal. -/
def walkEntries : List Entry → WalkM Unit
  | [] => return ()
  | ⟨_, value⟩ :: rest => do
    walkExpr value
    walkEntries rest
termination_by structural es => es

end

mutual

/-- Walks through a statement. -/
def walkStmt : Stmt → WalkM Unit
  | .var _ (some e) _ => walkExpr enter global bound e
  | .var _ none _ => return ()
  | .function f => enter f
  | .expr e => walkExpr enter global bound e
  | .ret (some e) => walkExpr enter global bound e
  | .ret none => return ()
  | .branch test yes no => do
    walkExpr enter global bound test
    walkStmts yes
    walkStmts no
  | .loop test body => do
    walkExpr enter global bound test
    walkStmts body
  | .block body => walkStmts body
termination_by structural st => st

/-- Walks through statements in order. -/
def walkStmts : List Stmt → WalkM Unit
  | [] => return ()
  | st :: rest => do
    walkStmt st
    walkStmts rest
termination_by structural sts => sts

end

end Walk

variable (p : Program)

/-- Enters a function, at most `n` functions deep, inside bodies that bind `bound`. -/
def enterFunction (global : ScopeId) : Nat → List String → FunctionId → WalkM Unit
  | 0, _, _ => return ()
  | n + 1, bound, f => do
    let w ← get
    if f ∈ w.entered then return ()
    set { w with entered := f :: w.entered }
    let d : FunctionDecl ← p.demandFunction f
    match d.body with
    | none => return ()
    | some body =>
      match boundNames p d.params body with
      | .error e => throw e
      | .ok names =>
        let bound := names ++ bound
        walkStmts (enterFunction global n bound) global bound body

/-- Declares in the global scope every name assigned in the body, or in a function nested in
it, that nothing binds. Nested functions are all different and declared, which bounds the
depth of the walk. -/
def declare (global : ScopeId) (body : List Stmt) : GraphM Unit := fun g =>
  match walkStmts (enterFunction p global (p.functions.length + 1) []) global [] body ⟨g, []⟩ with
  | .ok _ w => .ok () w.graph
  | .error e w => .error e w.graph

end TypeFlow.ImplicitGlobals
