import TypeFlow.Program.Basic

/-!
# The shape hierarchy

Which shapes stand below a shape, and through which shapes an object counts as a
member of a declared type. The relations are read from the declarations as they are:
they may be cyclic or name shapes that are not declared.

* `Program.subtypeClosure`: a shape and all shapes below it.
* `Program.admissionPath`: a shape and, for prototypes, the shapes it inherits from.
-/

namespace TypeFlow.Program

/-- The shapes declared to extend a shape; none for an undeclared one. -/
def subtypes (p : Program) (s : ShapeId) : List ShapeId :=
  match p.shape? s with
  | some d => d.subtypes
  | none => []

/-- The constructors declared to implement a shape; none for an undeclared one. -/
def implementors (p : Program) (s : ShapeId) : List FunctionId :=
  match p.shape? s with
  | some d => d.implementors
  | none => []

/-- The shapes directly below a shape: those that extend it, then those of the objects
made by its implementors. -/
def below (p : Program) (s : ShapeId) : List ShapeId :=
  p.subtypes s ++ (p.implementors s).filterMap fun c => (p.function? c).bind (·.objectShape)

/-- How often the declarations place one shape directly below another. -/
def belowCount (p : Program) : Nat :=
  ((List.range p.shapes.length).flatMap fun i => p.below ⟨i⟩).length

/-- Depth-first search: `stack` is still to be visited and `seen` is what was found, in the
order of discovery. -/
def searchBelow (p : Program) : Nat → List ShapeId → List ShapeId → List ShapeId
  | 0, _, seen => seen
  | _, [], seen => seen
  | n + 1, s :: stack, seen =>
    if s ∈ seen then p.searchBelow n stack seen
    else p.searchBelow n ((p.below s).reverse ++ stack) (seen ++ [s])

/-- A shape and every shape reachable from it downwards, in the order of discovery. Each
declared shape puts what is below it on the stack once, which bounds the search. -/
def subtypeClosure (p : Program) (root : ShapeId) : List ShapeId :=
  p.searchBelow (p.belowCount + 1) [root] []

/-- The shape that objects of shape `s` count through next: prototypes count through the
shape they inherit from, and all other shapes through none. -/
def admittedThrough? (p : Program) (s : ShapeId) : Option ShapeId :=
  match p.shape? s with
  | some d => if d.kind = .prototype then d.proto else none
  | none => none

/-- At most `n` shapes of the walk that starts at `s`. -/
def admissionWalk (p : Program) : Nat → ShapeId → List ShapeId
  | 0, _ => []
  | n + 1, s =>
    s :: match p.admittedThrough? s with
      | some t => p.admissionWalk n t
      | none => []

/-- The shapes as which an object of shape `s` may pass. -/
def admissionPath (p : Program) (s : ShapeId) : List ShapeId :=
  p.admissionWalk (p.shapes.length + 1) s

end TypeFlow.Program
