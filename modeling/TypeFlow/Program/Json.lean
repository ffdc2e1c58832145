import TypeFlow.Json.Decode
import TypeFlow.Json.Writer
import TypeFlow.Program.Basic

/-!
# Programs as JSON

How a program model is written as JSON and read back. Writing gives every field; reading
fills in what is left out.

* `Program.toJson`, `Program.ofJson?`: between programs and JSON values.
* `Program.parse`: a program from text.
-/

namespace TypeFlow

open Json

/-! ### Identifiers -/

def FunctionId.toJson (f : FunctionId) : Json := .nat f.index

def FunctionId.ofJson? (j : Json) : Option FunctionId := j.id?.map FunctionId.mk

def ShapeId.toJson (s : ShapeId) : Json := .nat s.index

def ShapeId.ofJson? (j : Json) : Option ShapeId := j.id?.map ShapeId.mk

/-! ### Declared types -/

mutual

def DeclaredType.toJson : DeclaredType → Json
  | .unknown => .text "Unknown"
  | .primitive => .text "Primitive"
  | .anyObject => .text "AnyObject"
  | .object s => .ofFields [("Object", s.toJson)]
  | .function decl signature =>
    .ofFields [("Function", .ofFields
      [("decl", .ofOption FunctionId.toJson decl),
        ("signature", Signature.optionToJson signature)])]
  | .union members => .ofFields [("Union", .array (DeclaredType.listToJson members))]
termination_by structural d => d

def DeclaredType.listToJson : List DeclaredType → List Json
  | [] => []
  | d :: ds => d.toJson :: DeclaredType.listToJson ds
termination_by structural ds => ds

def DeclaredType.optionToJson : Option DeclaredType → Json
  | some d => d.toJson
  | none => .null
termination_by structural d => d

def Signature.toJson : Signature → Json
  | ⟨params, thisType, ret⟩ =>
    .ofFields
      [("params", .array (DeclaredType.listToJson params)),
        ("this_type", DeclaredType.optionToJson thisType), ("ret", ret.toJson)]
termination_by structural s => s

def Signature.optionToJson : Option Signature → Json
  | some s => s.toJson
  | none => .null
termination_by structural s => s

end

/-- A declared type that has no parts. -/
def DeclaredType.ofTag? : String → Option DeclaredType
  | "Unknown" => some .unknown
  | "Primitive" => some .primitive
  | "AnyObject" => some .anyObject
  | _ => none

mutual

def DeclaredType.ofJson? : Nat → Json → Option DeclaredType
  | n + 1, .object [⟨some tag, v⟩] => DeclaredType.ofPayload? n tag v
  | _, .string (some tag) => DeclaredType.ofTag? tag
  | _, _ => none
termination_by structural n => n

/-- A declared type from its tag and what the tag is attached to. -/
def DeclaredType.ofPayload? : Nat → String → Json → Option DeclaredType
  | n + 1, "Function", v =>
    match v.record? ["decl", "signature"] with
    | some [decl, signature] => do
      let decl ← optional none (nullable FunctionId.ofJson?) decl
      let signature ← optional none (nullable (Signature.ofJson? n)) signature
      return .function decl signature
    | _ => none
  | n + 1, "Union", .array items => do
    let members ← items.mapM (DeclaredType.ofJson? n)
    return .union members
  | _, "Object", v => (ShapeId.ofJson? v).map .object
  | _, tag, .null => DeclaredType.ofTag? tag
  | _, _, _ => none
termination_by structural n => n

def Signature.ofJson? : Nat → Json → Option Signature
  | n + 1, j =>
    match j.record? ["params", "this_type", "ret"] with
    | some [params, thisType, ret] => do
      let params ← optional [] (DeclaredType.listOfJson? n) params
      let thisType ← optional none (nullable (DeclaredType.ofJson? n)) thisType
      let ret ← optional .unknown (DeclaredType.ofJson? n) ret
      return ⟨params, thisType, ret⟩
    | _ => none
  | 0, _ => none
termination_by structural n => n

def DeclaredType.listOfJson? : Nat → Json → Option (List DeclaredType)
  | n + 1, .array items => items.mapM (DeclaredType.ofJson? n)
  | _, _ => none
termination_by structural n => n

end

/-! ### Expressions -/

mutual

def Expr.toJson : Expr → Json
  | ⟨form, declared⟩ =>
    .ofFields [("kind", form.toJson), ("declared", .ofOption DeclaredType.toJson declared)]
termination_by structural e => e

def Form.toJson : Form → Json
  | .name x => .ofFields [("Name", .text x)]
  | .this => .text "This"
  | .literal => .text "Literal"
  | .function f => .ofFields [("Function", f.toJson)]
  | .objectLit entries => .ofFields [("ObjectLit", .array (Entry.listToJson entries))]
  | .arrayLit elements => .ofFields [("ArrayLit", .array (Expr.listToJson elements))]
  | .prop receiver property =>
    .ofFields [("GetProp", .ofFields
      [("receiver", receiver.toJson), ("property", .text property)])]
  | .elem receiver index =>
    .ofFields [("GetElem", .ofFields [("receiver", receiver.toJson), ("index", index.toJson)])]
  | .call callee args =>
    .ofFields [("Call", .ofFields
      [("callee", callee.toJson), ("args", .array (Expr.listToJson args))])]
  | .construct callee args =>
    .ofFields [("New", .ofFields
      [("callee", callee.toJson), ("args", .array (Expr.listToJson args))])]
  | .assign target value =>
    .ofFields [("Assign", .ofFields [("target", target.toJson), ("value", value.toJson)])]
  | .comma operands => .ofFields [("Comma", .array (Expr.listToJson operands))]
  | .and left right => .ofFields [("And", .array [left.toJson, right.toJson])]
  | .or left right => .ofFields [("Or", .array [left.toJson, right.toJson])]
  | .cond test yes no =>
    .ofFields [("Hook", .ofFields
      [("cond", test.toJson), ("then_expr", yes.toJson), ("else_expr", no.toJson)])]
  | .unknown operands => .ofFields [("Unknown", .array (Expr.listToJson operands))]
termination_by structural form => form

def Entry.toJson : Entry → Json
  | ⟨key, value⟩ => .ofFields [("key", .text key), ("value", value.toJson)]
termination_by structural e => e

def Expr.listToJson : List Expr → List Json
  | [] => []
  | e :: es => e.toJson :: Expr.listToJson es
termination_by structural es => es

def Entry.listToJson : List Entry → List Json
  | [] => []
  | e :: es => e.toJson :: Entry.listToJson es
termination_by structural es => es

end

/-- An expression form that has no parts. -/
def Form.ofTag? : String → Option Form
  | "This" => some .this
  | "Literal" => some .literal
  | _ => none

mutual

def Expr.ofJson? : Nat → Json → Option Expr
  | n + 1, j =>
    match j.record? ["kind", "declared"] with
    | some [form, declared] => do
      let form ← required (Form.ofJson? n) form
      let declared ← optional none (nullable (DeclaredType.ofJson? n)) declared
      return ⟨form, declared⟩
    | _ => none
  | 0, _ => none
termination_by structural n => n

def Form.ofJson? : Nat → Json → Option Form
  | n + 1, .object [⟨some tag, v⟩] => Form.ofPayload? n tag v
  | _, .string (some tag) => Form.ofTag? tag
  | _, _ => none
termination_by structural n => n

/-- An expression form from its tag and what the tag is attached to. -/
def Form.ofPayload? : Nat → String → Json → Option Form
  | n + 1, "ObjectLit", .array items => do
    let entries ← items.mapM (Entry.ofJson? n)
    return .objectLit entries
  | n + 1, "ArrayLit", .array items => do
    let elements ← items.mapM (Expr.ofJson? n)
    return .arrayLit elements
  | n + 1, "GetProp", v =>
    match v.record? ["receiver", "property"] with
    | some [receiver, property] => do
      let receiver ← required (Expr.ofJson? n) receiver
      let property ← required text? property
      return .prop receiver property
    | _ => none
  | n + 1, "GetElem", v =>
    match v.record? ["receiver", "index"] with
    | some [receiver, index] => do
      let receiver ← required (Expr.ofJson? n) receiver
      let index ← required (Expr.ofJson? n) index
      return .elem receiver index
    | _ => none
  | n + 1, "Call", v =>
    match v.record? ["callee", "args"] with
    | some [callee, args] => do
      let callee ← required (Expr.ofJson? n) callee
      let args ← required (Expr.listOfJson? n) args
      return .call callee args
    | _ => none
  | n + 1, "New", v =>
    match v.record? ["callee", "args"] with
    | some [callee, args] => do
      let callee ← required (Expr.ofJson? n) callee
      let args ← required (Expr.listOfJson? n) args
      return .construct callee args
    | _ => none
  | n + 1, "Assign", v =>
    match v.record? ["target", "value"] with
    | some [target, value] => do
      let target ← required (Expr.ofJson? n) target
      let value ← required (Expr.ofJson? n) value
      return .assign target value
    | _ => none
  | n + 1, "Comma", .array items => do
    let operands ← items.mapM (Expr.ofJson? n)
    return .comma operands
  | n + 1, "And", .array [left, right] => do
    let left ← Expr.ofJson? n left
    let right ← Expr.ofJson? n right
    return .and left right
  | n + 1, "Or", .array [left, right] => do
    let left ← Expr.ofJson? n left
    let right ← Expr.ofJson? n right
    return .or left right
  | n + 1, "Hook", v =>
    match v.record? ["cond", "then_expr", "else_expr"] with
    | some [test, yes, no] => do
      let test ← required (Expr.ofJson? n) test
      let yes ← required (Expr.ofJson? n) yes
      let no ← required (Expr.ofJson? n) no
      return .cond test yes no
    | _ => none
  | n + 1, "Unknown", .array items => do
    let operands ← items.mapM (Expr.ofJson? n)
    return .unknown operands
  | _, "Name", v => v.text?.map .name
  | _, "Function", v => (FunctionId.ofJson? v).map .function
  | _, tag, .null => Form.ofTag? tag
  | _, _, _ => none
termination_by structural n => n

def Entry.ofJson? : Nat → Json → Option Entry
  | n + 1, j =>
    match j.record? ["key", "value"] with
    | some [key, value] => do
      let key ← required text? key
      let value ← required (Expr.ofJson? n) value
      return ⟨key, value⟩
    | _ => none
  | 0, _ => none
termination_by structural n => n

def Expr.listOfJson? : Nat → Json → Option (List Expr)
  | n + 1, .array items => items.mapM (Expr.ofJson? n)
  | _, _ => none
termination_by structural n => n

end

/-! ### Statements -/

mutual

def Stmt.toJson : Stmt → Json
  | .var name value declared =>
    .ofFields [("Var", .ofFields
      [("name", .text name), ("init", .ofOption Expr.toJson value),
        ("declared", .ofOption DeclaredType.toJson declared)])]
  | .function f => .ofFields [("Function", f.toJson)]
  | .expr e => .ofFields [("Expr", e.toJson)]
  | .ret value => .ofFields [("Return", .ofOption Expr.toJson value)]
  | .branch test yes no =>
    .ofFields [("If", .ofFields
      [("cond", test.toJson), ("then_branch", .array (Stmt.listToJson yes)),
        ("else_branch", .array (Stmt.listToJson no))])]
  | .loop test body =>
    .ofFields [("While", .ofFields
      [("cond", test.toJson), ("body", .array (Stmt.listToJson body))])]
  | .block body => .ofFields [("Block", .array (Stmt.listToJson body))]
termination_by structural st => st

def Stmt.listToJson : List Stmt → List Json
  | [] => []
  | st :: sts => st.toJson :: Stmt.listToJson sts
termination_by structural sts => sts

end

mutual

def Stmt.ofJson? : Nat → Json → Option Stmt
  | n + 1, .object [⟨some tag, v⟩] => Stmt.ofPayload? n tag v
  | _, _ => none
termination_by structural n => n

/-- A statement from its tag and what the tag is attached to. -/
def Stmt.ofPayload? : Nat → String → Json → Option Stmt
  | n + 1, "Var", v =>
    match v.record? ["name", "init", "declared"] with
    | some [name, value, declared] => do
      let name ← required text? name
      let value ← optional none (nullable (Expr.ofJson? n)) value
      let declared ← optional none (nullable (DeclaredType.ofJson? n)) declared
      return .var name value declared
    | _ => none
  | n + 1, "If", v =>
    match v.record? ["cond", "then_branch", "else_branch"] with
    | some [test, yes, no] => do
      let test ← required (Expr.ofJson? n) test
      let yes ← required (Stmt.listOfJson? n) yes
      let no ← optional [] (Stmt.listOfJson? n) no
      return .branch test yes no
    | _ => none
  | n + 1, "While", v =>
    match v.record? ["cond", "body"] with
    | some [test, body] => do
      let test ← required (Expr.ofJson? n) test
      let body ← required (Stmt.listOfJson? n) body
      return .loop test body
    | _ => none
  | n + 1, "Block", .array items => do
    let body ← items.mapM (Stmt.ofJson? n)
    return .block body
  | _, "Function", v => (FunctionId.ofJson? v).map .function
  | n, "Expr", v => (Expr.ofJson? n v).map .expr
  | n, "Return", v => (nullable (Expr.ofJson? n) v).map .ret
  | _, _, _ => none
termination_by structural n => n

def Stmt.listOfJson? : Nat → Json → Option (List Stmt)
  | n + 1, .array items => items.mapM (Stmt.ofJson? n)
  | _, _ => none
termination_by structural n => n

end

/-! ### Declarations -/

def ShapeKind.tag : ShapeKind → String
  | constructed => "Instance"
  | prototype => "Prototype"
  | interface => "Interface"
  | record => "Record"

def ShapeKind.ofTag? : String → Option ShapeKind
  | "Instance" => some constructed
  | "Prototype" => some prototype
  | "Interface" => some interface
  | "Record" => some record
  | _ => none

def ShapeDecl.toJson (d : ShapeDecl) : Json :=
  .ofFields
    [("name", .text d.name), ("kind", .text d.kind.tag), ("properties", .ofTexts d.properties),
      ("implicit_prototype", .ofOption ShapeId.toJson d.proto),
      ("subtypes", .array (d.subtypes.map ShapeId.toJson)),
      ("implementors", .array (d.implementors.map FunctionId.toJson))]

def ShapeDecl.ofJson? : Nat → Json → Option ShapeDecl
  | n + 1, j =>
    match j.record? ["name", "kind", "properties", "implicit_prototype", "subtypes",
        "implementors"] with
    | some [name, kind, properties, proto, subtypes, implementors] => do
      let name ← required text? name
      let kind ← required (bare? ShapeKind.ofTag? n) kind
      let properties ← optional [] (leaves? text? n) properties
      let proto ← optional none (nullable ShapeId.ofJson?) proto
      let subtypes ← optional [] (leaves? ShapeId.ofJson? n) subtypes
      let implementors ← optional [] (leaves? FunctionId.ofJson? n) implementors
      return { name, kind, properties, proto, subtypes, implementors }
    | _ => none
  | 0, _ => none

def FunctionDecl.toJson (d : FunctionDecl) : Json :=
  .ofFields
    [("name", .ofOption .text d.name), ("params", .ofTexts d.params),
      ("body", .ofOption (fun body => .array (Stmt.listToJson body)) d.body),
      ("signature", d.signature.toJson),
      ("instance_shape", .ofOption ShapeId.toJson d.objectShape),
      ("prototype_shape", .ofOption ShapeId.toJson d.prototypeShape),
      ("superclass", .ofOption FunctionId.toJson d.superclass)]

def FunctionDecl.ofJson? : Nat → Json → Option FunctionDecl
  | n + 1, j =>
    match j.record? ["name", "params", "body", "signature", "instance_shape",
        "prototype_shape", "superclass"] with
    | some [name, params, body, signature, objectShape, prototypeShape, superclass] => do
      let name ← optional none (nullable text?) name
      let params ← optional [] (leaves? text? n) params
      let body ← optional none (nullable (Stmt.listOfJson? n)) body
      let signature ← optional default (Signature.ofJson? n) signature
      let objectShape ← optional none (nullable ShapeId.ofJson?) objectShape
      let prototypeShape ← optional none (nullable ShapeId.ofJson?) prototypeShape
      let superclass ← optional none (nullable FunctionId.ofJson?) superclass
      return { name, params, body, signature, objectShape, prototypeShape, superclass }
    | _ => none
  | 0, _ => none

namespace Program

def toJson (p : Program) : Json :=
  .ofFields
    [("shapes", .array (p.shapes.map ShapeDecl.toJson)),
      ("functions", .array (p.functions.map FunctionDecl.toJson)),
      ("externs", .array (Stmt.listToJson p.ambient)),
      ("body", .array (Stmt.listToJson p.body)),
      ("array_shape", .ofOption ShapeId.toJson p.arrayShape)]

/-- A program from JSON in which at most `n` arrays and objects are nested. -/
def ofJson? : Nat → Json → Option Program
  | n + 1, j =>
    match j.record? ["shapes", "functions", "externs", "body", "array_shape"] with
    | some [shapes, functions, ambient, body, arrayShape] => do
      let shapes ← optional [] (list? ShapeDecl.ofJson? n) shapes
      let functions ← optional [] (list? FunctionDecl.ofJson? n) functions
      let ambient ← optional [] (Stmt.listOfJson? n) ambient
      let body ← optional [] (Stmt.listOfJson? n) body
      let arrayShape ← optional none (nullable ShapeId.ofJson?) arrayShape
      return { shapes, functions, ambient, body, arrayShape }
    | _ => none
  | 0, _ => none

/-- How deeply arrays and objects may nest in a program text. -/
def maxDepth : Nat := 127

/-- **Reads a program.** -/
def parse (text : String) : Option Program := (Json.parse text).bind (ofJson? maxDepth)

/-- The program as text. -/
def render (p : Program) : String := p.toJson.render

end Program

end TypeFlow
