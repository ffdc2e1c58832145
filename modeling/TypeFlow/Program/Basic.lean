import TypeFlow.Program.Declared

/-!
# Programs

The program model that the analysis reads: function and shape declarations, named by
their positions, and statements and expressions annotated with declared types.
Declarations without a body are **ambient**: they stand for code that is not analysed
and known only by its signature.
-/

namespace TypeFlow

mutual

/-- An expression with its declared type, where the checker gave one. -/
structure Expr where
  form : Form
  declared : Option DeclaredType

/-- One `key: value` of an object literal. -/
structure Entry where
  key : String
  value : Expr

/-- The expression forms that matter to the flow of values. -/
inductive Form where
  | name (x : String)
  | this
  /-- Any primitive literal. -/
  | literal
  /-- A function expression. -/
  | function (decl : FunctionId)
  | objectLit (entries : List Entry)
  | arrayLit (elements : List Expr)
  /-- A property by name: `receiver.property`. -/
  | prop (receiver : Expr) (property : String)
  /-- An element `receiver[index]`; which property it reads is not known. -/
  | elem (receiver index : Expr)
  | call (callee : Expr) (args : List Expr)
  /-- An allocation: `new callee(args)`. -/
  | construct (callee : Expr) (args : List Expr)
  | assign (target value : Expr)
  /-- A sequence `a, b, …`, which has the value of its last operand. -/
  | comma (operands : List Expr)
  | and (left right : Expr)
  | or (left right : Expr)
  /-- A choice: `test ? yes : no`. -/
  | cond (test yes no : Expr)
  /-- A construct that is not modelled; its operands are evaluated all the same. -/
  | unknown (operands : List Expr)

end

/-- Statements. -/
inductive Stmt where
  /-- A variable: `var name = value`. The declared type counts in ambient declarations only. -/
  | var (name : String) (value : Option Expr) (declared : Option DeclaredType)
  /-- A function declaration, which binds the function's name. -/
  | function (decl : FunctionId)
  | expr (e : Expr)
  | ret (value : Option Expr)
  | branch (test : Expr) (yes no : List Stmt)
  | loop (test : Expr) (body : List Stmt)
  | block (body : List Stmt)

/-- What kind of object a shape describes. -/
inductive ShapeKind where
  /-- Objects made by a constructor. -/
  | constructed
  /-- The prototype object of a constructor. -/
  | prototype
  /-- An interface, of which no object is made directly. -/
  | interface
  /-- Objects written as literals. -/
  | record
deriving DecidableEq

/-- A declared object shape. -/
structure ShapeDecl where
  name : String
  kind : ShapeKind
  /-- Its own property names. -/
  properties : List String := []
  /-- The shape whose properties it inherits. -/
  proto : Option ShapeId := none
  /-- The shapes that extend it directly. -/
  subtypes : List ShapeId := []
  /-- The constructors whose objects implement it. -/
  implementors : List FunctionId := []

/-- A function declaration. -/
structure FunctionDecl where
  /-- Function expressions may have no name. -/
  name : Option String := none
  params : List String := []
  /-- Ambient functions have no body. -/
  body : Option (List Stmt) := none
  signature : Signature := default
  /-- The shape of the objects that `new` makes with it. -/
  objectShape : Option ShapeId := none
  /-- The shape of its prototype object. -/
  prototypeShape : Option ShapeId := none
  superclass : Option FunctionId := none

/-- Whether the function is declared without a body. -/
def FunctionDecl.isAmbient (d : FunctionDecl) : Bool := d.body.isNone

/-- The name under which a function is shown. -/
def FunctionDecl.displayName (d : FunctionDecl) : String := d.name.getD "<anonymous>"

/-- A whole program. -/
structure Program where
  shapes : List ShapeDecl := []
  functions : List FunctionDecl := []
  /-- Ambient declarations, which are read before the body. -/
  ambient : List Stmt := []
  body : List Stmt := []
  /-- The shape of array objects, if arrays are objects at all. -/
  arrayShape : Option ShapeId := none

namespace Program

/-- The declaration of a shape. -/
def shape? (p : Program) (s : ShapeId) : Option ShapeDecl := p.shapes[s.index]?

/-- The declaration of a function. -/
def function? (p : Program) (f : FunctionId) : Option FunctionDecl := p.functions[f.index]?

end Program

end TypeFlow
