import TypeFlow.Program.Declared
import TypeFlow.Scope.Name

/-!
# Faults

Everything that can stop an analysis, and how it is worded.
-/

namespace TypeFlow

/-- A reason to stop an analysis. -/
inductive Fault where
  /-- A scope already declares the name. -/
  | duplicateSlot (name : String) (scope : ScopeId)
  /-- The callee of `new` may be anything. -/
  | unboundedConstructor
  | unknownFunction (f : FunctionId)
  | unknownShape (s : ShapeId)
  /-- The prototype chain leads back to this shape. -/
  | cyclicPrototype (s : ShapeId)
  | returnOutsideFunction
  /-- An analysis processes one program only. -/
  | alreadyProcessed
  /-- The last pass that was allowed still changed something. -/
  | noFixedPoint (passes limit : Nat)
deriving DecidableEq

namespace Fault

/-- The wording of a fault. -/
def message : Fault → String
  | duplicateSlot name scope =>
    "slot `" ++ name ++ "` is already declared in scope ScopeId(" ++ toString scope.index ++ ")"
  | unboundedConstructor => "`new` applied to a callee whose concrete type is ALL"
  | unknownFunction f => "no declaration for function FunctionId(" ++ toString f.index ++ ")"
  | unknownShape s => "no declaration for shape ShapeId(" ++ toString s.index ++ ")"
  | cyclicPrototype s => "prototype chain of shape ShapeId(" ++ toString s.index ++ ") is cyclic"
  | returnOutsideFunction => "`return` outside of a function body"
  | alreadyProcessed => "analysis context has already processed a program"
  | noFixedPoint passes limit =>
    "no fixed point after " ++ toString passes ++ " passes (limit " ++ toString limit ++
      "): probable infinite propagation loop"

/-- Whether the analysis ran out of passes. -/
def isIterationLimit : Fault → Bool
  | noFixedPoint .. => true
  | _ => false

end Fault

end TypeFlow
