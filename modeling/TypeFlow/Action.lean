import TypeFlow.Program.Basic
import TypeFlow.Scope.Name

/-!
# Actions

An action is one construct of the program text through which values flow. Actions are
collected once for each scope and evaluated over and over until nothing changes.
-/

namespace TypeFlow

/-- A flow of values, deferred until it is evaluated. -/
inductive Action where
  /-- Assignment to a variable: `name = value`. -/
  | assign (slot : SlotId) (value : Expr)
  /-- Assignment to a property, `receiver.property = value`, and each entry of an object literal. -/
  | assignProperty (receiver : Expr) (property : String) (value : Expr)
  /-- Binds receiver and arguments in every function that the callee may be. -/
  | call (callee : Expr) (args : List Expr)
  /-- An allocation `new callee(args)`, which also binds like a call. -/
  | construct (callee : Expr) (args : List Expr)
  /-- An object or array literal allocates its object. -/
  | allocate (literal : Expr)
  | ret (slot : SlotId) (value : Expr)
  | declareFunction (slot : SlotId) (decl : FunctionId)
  /-- A value known by its declared type only. -/
  | declaredFlow (slot : SlotId) (declared : DeclaredType)

end TypeFlow
