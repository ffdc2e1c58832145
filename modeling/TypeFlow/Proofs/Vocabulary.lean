import Mathlib.Logic.Relation
import TypeFlow.Action
import TypeFlow.Fault

/-!
# The vocabulary of a program

The names, functions and shapes that occur anywhere in a program are its **words**. Whatever
an analysis declares or looks up is a word of the program, so what is wrong with a run can
be traced back to the text.

* `Program.words`: everything that the text mentions.
* `Program.Says`: a piece of text uses words of the program only.
* `Fault.Caused`: what in a program a fault goes back to.
-/

namespace TypeFlow

open Relation

/-- Something that the text of a program mentions. -/
inductive Word where
  /-- A variable, a parameter, the name of a function or a property. -/
  | name (x : String)
  | function (f : FunctionId)
  | shape (s : ShapeId)
deriving DecidableEq

def Word.name? : Word → Option String
  | name x => some x
  | function _ => none
  | shape _ => none

/-! ## Words -/

mutual

def DeclaredType.words : DeclaredType → List Word
  | .unknown => []
  | .primitive => []
  | .anyObject => []
  | .object s => [.shape s]
  | .function decl signature => decl.toList.map .function ++ Signature.words? signature
  | .union members => DeclaredType.wordsAll members
termination_by structural d => d

def DeclaredType.wordsAll : List DeclaredType → List Word
  | [] => []
  | d :: ds => d.words ++ DeclaredType.wordsAll ds
termination_by structural ds => ds

def DeclaredType.words? : Option DeclaredType → List Word
  | none => []
  | some d => d.words
termination_by structural d => d

def Signature.words : Signature → List Word
  | ⟨params, thisType, ret⟩ =>
    DeclaredType.wordsAll params ++ DeclaredType.words? thisType ++ ret.words
termination_by structural s => s

def Signature.words? : Option Signature → List Word
  | none => []
  | some s => s.words
termination_by structural s => s

end

mutual

def Expr.words : Expr → List Word
  | ⟨form, declared⟩ => form.words ++ DeclaredType.words? declared
termination_by structural e => e

def Form.words : Form → List Word
  | .name x => [.name x]
  | .this => []
  | .literal => []
  | .function f => [.function f]
  | .objectLit entries => Entry.wordsAll entries
  | .arrayLit elements => Expr.wordsAll elements
  | .prop receiver property => receiver.words ++ [.name property]
  | .elem receiver index => receiver.words ++ index.words
  | .call callee args => callee.words ++ Expr.wordsAll args
  | .construct callee args => callee.words ++ Expr.wordsAll args
  | .assign target value => target.words ++ value.words
  | .comma operands => Expr.wordsAll operands
  | .and left right => left.words ++ right.words
  | .or left right => left.words ++ right.words
  | .cond test yes no => test.words ++ yes.words ++ no.words
  | .unknown operands => Expr.wordsAll operands
termination_by structural form => form

def Expr.wordsAll : List Expr → List Word
  | [] => []
  | e :: es => e.words ++ Expr.wordsAll es
termination_by structural es => es

def Entry.wordsAll : List Entry → List Word
  | [] => []
  | ⟨key, value⟩ :: rest => .name key :: (value.words ++ Entry.wordsAll rest)
termination_by structural es => es

end

def Expr.words? : Option Expr → List Word
  | none => []
  | some e => e.words

mutual

def Stmt.words : Stmt → List Word
  | .var x value declared => .name x :: (Expr.words? value ++ DeclaredType.words? declared)
  | .function f => [.function f]
  | .expr e => e.words
  | .ret value => Expr.words? value
  | .branch test yes no => test.words ++ Stmt.wordsAll yes ++ Stmt.wordsAll no
  | .loop test body => test.words ++ Stmt.wordsAll body
  | .block body => Stmt.wordsAll body
termination_by structural st => st

def Stmt.wordsAll : List Stmt → List Word
  | [] => []
  | st :: rest => st.words ++ Stmt.wordsAll rest
termination_by structural sts => sts

end

def ShapeDecl.words (d : ShapeDecl) : List Word :=
  d.properties.map .name ++ d.proto.toList.map .shape ++ d.subtypes.map .shape ++
    d.implementors.map .function

def FunctionDecl.words (d : FunctionDecl) : List Word :=
  d.name.toList.map .name ++ d.params.map .name ++ (d.body.map Stmt.wordsAll).getD [] ++
    d.signature.words ++ d.objectShape.toList.map .shape ++ d.prototypeShape.toList.map .shape ++
    d.superclass.toList.map .function

def Action.words : Action → List Word
  | .assign _ value => value.words
  | .assignProperty receiver property value => receiver.words ++ .name property :: value.words
  | .call callee args => callee.words ++ Expr.wordsAll args
  | .construct callee args => callee.words ++ Expr.wordsAll args
  | .allocate literal => literal.words
  | .ret _ value => value.words
  | .declareFunction _ decl => [.function decl]
  | .declaredFlow _ declared => declared.words

namespace Program

/-- **Everything that the text of a program mentions**, in its declarations, its ambient
statements and its body. -/
def words (p : Program) : List Word :=
  p.shapes.flatMap ShapeDecl.words ++ p.functions.flatMap FunctionDecl.words ++
    Stmt.wordsAll p.ambient ++ Stmt.wordsAll p.body ++ p.arrayShape.toList.map .shape

/-- A piece of text uses words of the program only. -/
def Says (p : Program) (text : List Word) : Prop := ∀ w ∈ text, w ∈ p.words

variable {p : Program}

@[simp] theorem says_nil : p.Says [] := fun _ h => absurd h List.not_mem_nil

@[simp] theorem says_cons {w : Word} {text : List Word} : p.Says (w :: text) ↔ w ∈ p.words ∧ p.Says text :=
  List.forall_mem_cons

@[simp] theorem says_append {l m : List Word} : p.Says (l ++ m) ↔ p.Says l ∧ p.Says m :=
  List.forall_mem_append

@[simp] theorem says_map {α : Type} {f : α → Word} {l : List α} :
    p.Says (l.map f) ↔ ∀ x ∈ l, f x ∈ p.words :=
  List.forall_mem_map

theorem says_signature {s : Signature} : p.Says s.words ↔ p.Says (DeclaredType.wordsAll s.params) ∧
    p.Says (DeclaredType.words? s.thisType) ∧ p.Says s.ret.words := by
  cases s
  rw [Signature.words, says_append, says_append, and_assoc]

/-- What the declaration of a shape mentions are words of the program. -/
structure SaysShape (p : Program) (d : ShapeDecl) : Prop where
  properties : ∀ x ∈ d.properties, .name x ∈ p.words
  proto : ∀ s ∈ d.proto, .shape s ∈ p.words

/-- What the declaration of a function mentions are words of the program. -/
structure SaysFunction (p : Program) (d : FunctionDecl) : Prop where
  name : ∀ x ∈ d.name, .name x ∈ p.words
  params : ∀ x ∈ d.params, .name x ∈ p.words
  body : ∀ body ∈ d.body, p.Says (Stmt.wordsAll body)
  signature : p.Says d.signature.words
  objectShape : ∀ s ∈ d.objectShape, .shape s ∈ p.words
  prototypeShape : ∀ s ∈ d.prototypeShape, .shape s ∈ p.words
  superclass : ∀ f ∈ d.superclass, .function f ∈ p.words

/-- A program uses its own words in what it declares. -/
theorem says_of_shape {s : ShapeId} {d : ShapeDecl} (h : p.shape? s = some d) : p.SaysShape d := by
  have htext : p.Says d.words := by
    intro w hw
    have hmem : w ∈ p.shapes.flatMap ShapeDecl.words :=
      List.mem_flatMap.2 ⟨d, List.mem_of_getElem? h, hw⟩
    simp only [words, List.mem_append, hmem, true_or]
  simp only [ShapeDecl.words, says_append, says_map, Option.mem_toList] at htext
  obtain ⟨⟨⟨hproperties, hproto⟩, -⟩, -⟩ := htext
  exact ⟨hproperties, hproto⟩

theorem says_of_function {f : FunctionId} {d : FunctionDecl} (h : p.function? f = some d) :
    p.SaysFunction d := by
  have htext : p.Says d.words := by
    intro w hw
    have hmem : w ∈ p.functions.flatMap FunctionDecl.words :=
      List.mem_flatMap.2 ⟨d, List.mem_of_getElem? h, hw⟩
    simp only [words, List.mem_append, hmem, true_or, or_true]
  simp only [FunctionDecl.words, says_append, says_map, Option.mem_toList] at htext
  obtain ⟨⟨⟨⟨⟨⟨hname, hparams⟩, hbody⟩, hsignature⟩, hobject⟩, hprototype⟩, hsuper⟩ := htext
  refine ⟨hname, hparams, fun body hmem => ?_, hsignature, hobject, hprototype, hsuper⟩
  rw [Option.mem_def.1 hmem] at hbody
  exact hbody

theorem says_ambient : p.Says (Stmt.wordsAll p.ambient) := by
  intro w hw
  simp only [words, List.mem_append, hw, true_or, or_true]

theorem says_body : p.Says (Stmt.wordsAll p.body) := by
  intro w hw
  simp only [words, List.mem_append, hw, true_or, or_true]

theorem says_arrayShape {s : ShapeId} (h : p.arrayShape = some s) : .shape s ∈ p.words := by
  simp [words, h]

/-- What several expressions say, each of them says. -/
theorem Says.of_mem {es : List Expr} (h : p.Says (Expr.wordsAll es)) : ∀ e ∈ es, p.Says e.words := by
  induction es with
  | nil => exact fun e he => absurd he List.not_mem_nil
  | cons e es ih =>
    rw [Expr.wordsAll, says_append] at h
    exact List.forall_mem_cons.2 ⟨h.1, ih h.2⟩

theorem Says.of_mem_types {ds : List DeclaredType} (h : p.Says (DeclaredType.wordsAll ds)) :
    ∀ d ∈ ds, p.Says d.words := by
  induction ds with
  | nil => exact fun d hd => absurd hd List.not_mem_nil
  | cons d ds ih =>
    rw [DeclaredType.wordsAll, says_append] at h
    exact List.forall_mem_cons.2 ⟨h.1, ih h.2⟩

end Program

/-! ## Causes -/

mutual

/-- Whether a statement returns, at whatever depth of blocks and branches. -/
def Stmt.returns : Stmt → Bool
  | .var .. => false
  | .function _ => false
  | .expr _ => false
  | .ret _ => true
  | .branch _ yes no => Stmt.someReturns yes || Stmt.someReturns no
  | .loop _ body => Stmt.someReturns body
  | .block body => Stmt.someReturns body
termination_by structural st => st

def Stmt.someReturns : List Stmt → Bool
  | [] => false
  | st :: rest => st.returns || Stmt.someReturns rest
termination_by structural sts => sts

end

/-- The names that every function body has. -/
def SlotName.reserved : List String := [SlotName.callee, SlotName.this, SlotName.ret]

namespace Program

variable (p : Program)

/-- The shape `s` is declared to inherit from the shape `t`. -/
def Inherits (s t : ShapeId) : Prop := ∃ d, p.shape? s = some d ∧ d.proto = some t

/-- Some shape repeats a property, or some function repeats a parameter or gives it a reserved
name. -/
def Repeats : Prop :=
  (∃ d ∈ p.shapes, ¬ d.properties.Nodup) ∨ ∃ d ∈ p.functions, ¬ (SlotName.reserved ++ d.params).Nodup

/-- Something outside the functions returns. -/
def ReturnsOutside : Prop := Stmt.someReturns p.ambient = true ∨ Stmt.someReturns p.body = true

end Program

/-- **What in a program a fault goes back to.** Only a callee of `new` that may be anything is a
matter of the run, and running out of passes is a matter of the configuration. -/
def Fault.Caused (p : Program) : Fault → Prop
  | .duplicateSlot _ _ => p.Repeats
  | .unboundedConstructor => True
  | .unknownFunction f => .function f ∈ p.words ∧ p.function? f = none
  | .unknownShape s => .shape s ∈ p.words ∧ p.shape? s = none
  | .cyclicPrototype s => TransGen p.Inherits s s
  | .returnOutsideFunction => p.ReturnsOutside
  | .alreadyProcessed => False
  | .noFixedPoint _ _ => False

end TypeFlow
