import TypeFlow.Program.Basic

/-!
# Building programs

Short forms of expressions and statements, and the declaration of whole classes: a
constructor with the shapes of its objects and of its prototype.
-/

namespace TypeFlow

namespace Expr

/-- An expression of which no type is declared. -/
def plain (form : Form) : Expr := ⟨form, none⟩

/-- The expression with its declared type replaced. -/
def typed (e : Expr) (d : DeclaredType) : Expr := { e with declared := some d }

/-- A primitive literal, declared as such. -/
def literal : Expr := (plain .literal).typed .primitive

/-- An object literal of a declared shape. -/
def objectLit (shape : ShapeId) (entries : List Entry) : Expr :=
  (plain (.objectLit entries)).typed (.object shape)

end Expr

namespace FunctionDecl

/-- A function with a body, of which no type is declared. -/
def withBody (name : Option String) (params : List String) (body : List Stmt) : FunctionDecl :=
  { name, params, body := some body }

/-- An ambient function, known by its signature. -/
def ofSignature (name : String) (params : List String) (signature : Signature) : FunctionDecl :=
  { name := some name, params, signature }

end FunctionDecl

/-- The declarations that make up a class. -/
structure ClassIds where
  constructor : FunctionId
  object : ShapeId
  prototype : ShapeId
deriving DecidableEq

namespace Program

/-- The program with one more shape, and the position of that shape. -/
def addShape (p : Program) (d : ShapeDecl) : ShapeId × Program :=
  (⟨p.shapes.length⟩, { p with shapes := p.shapes ++ [d] })

/-- The program with one more function, and the position of that function. -/
def addFunction (p : Program) (d : FunctionDecl) : FunctionId × Program :=
  (⟨p.functions.length⟩, { p with functions := p.functions ++ [d] })

/-- The program with a shape changed, if it is declared. -/
def modifyShape (p : Program) (s : ShapeId) (f : ShapeDecl → ShapeDecl) : Program :=
  { p with shapes := p.shapes.modify s.index f }

/-- The program with a function changed, if it is declared. -/
def modifyFunction (p : Program) (g : FunctionId) (f : FunctionDecl → FunctionDecl) : Program :=
  { p with functions := p.functions.modify g.index f }

/-- **Declares a class**: its prototype inherits from the prototype of the superclass, and
the shape of its objects is a direct subtype of the shape of the superclass's objects. -/
def addClass (p : Program) (name : String) (superclass : Option FunctionId)
    (params : List String) (body : List Stmt) (properties : List String) : ClassIds × Program :=
  let parent := superclass.bind p.function?
  let (prototype, p) := p.addShape
    { name := name ++ ".prototype", kind := .prototype, proto := parent.bind (·.prototypeShape) }
  let (object, p) := p.addShape
    { name, kind := .constructed, properties, proto := some prototype }
  let p := match parent.bind (·.objectShape) with
    | some s => p.modifyShape s fun d => { d with subtypes := d.subtypes ++ [object] }
    | none => p
  let (constructor, p) := p.addFunction
    { FunctionDecl.withBody (some name) params body with
      objectShape := some object
      prototypeShape := some prototype
      superclass
      signature := { (default : Signature) with ret := .object object } }
  (⟨constructor, object, prototype⟩, p)

end Program

end TypeFlow
