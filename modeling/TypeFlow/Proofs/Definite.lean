import TypeFlow.Proofs.FixedPoint
import TypeFlow.Proofs.LexicalWalk

/-!
# Definite results

An analysis takes what it knows nothing about for anything. A call of something unknown binds no
parameters, and assigning to a property of something unknown adds no property, so a type that
becomes unknown in the course of a run makes a difference to what happens before. A result is
**definite** if this plays no role: what calls, allocations and property assignments depend on is
known, or it is unknown from the beginning.

* `Expr.foreign`: an expression that every run finds unknown.
* `Action.definite`: what an action depends on is known or foreign.
* `Analysis.Definite`: all actions are definite, and so are the properties of objects.
-/

namespace TypeFlow

/-! ## Foreign expressions -/

mutual

/-- **A foreign expression**: a name that nothing declares, a construct that is not modelled, or what is
read from or returned by a foreign value. -/
def Expr.foreign (p : Program) (g : ScopeGraph) (s : ScopeId) : Expr → Bool
  | ⟨form, declared⟩ =>
    Form.foreign p g s declared form && declared.all fun d => (Admission.ofDeclared p d).everything
termination_by structural e => e

def Form.foreign (p : Program) (g : ScopeGraph) (s : ScopeId) (declared : Option DeclaredType) : Form → Bool
  | .name x => (g.lookup s x).isNone
  | .this => (g.own s SlotName.this).isNone
  | .literal => false
  | .function _ => false
  | .objectLit _ =>
    match declared with
    | some (.object _) => false
    | _ => true
  | .arrayLit _ => p.arrayShape.isNone
  | .prop receiver _ => Expr.foreign p g s receiver
  | .elem _ _ => true
  | .call callee _ => Expr.foreign p g s callee
  | .construct _ _ => false
  | .assign _ value => Expr.foreign p g s value
  | .comma operands => Expr.foreignLast p g s operands
  | .and left right => Expr.foreign p g s left || Expr.foreign p g s right
  | .or left right => Expr.foreign p g s left || Expr.foreign p g s right
  | .cond _ yes no => Expr.foreign p g s yes || Expr.foreign p g s no
  | .unknown _ => true
termination_by structural form => form

def Expr.foreignLast (p : Program) (g : ScopeGraph) (s : ScopeId) : List Expr → Bool
  | [] => false
  | [e] => Expr.foreign p g s e
  | _ :: e :: es => Expr.foreignLast p g s (e :: es)
termination_by structural es => es

end

mutual

/-- The expressions that are inferred along with an expression, itself included. -/
def Expr.inferred : Expr → List Expr
  | ⟨form, declared⟩ => ⟨form, declared⟩ :: Form.inferred form
termination_by structural e => e

def Form.inferred : Form → List Expr
  | .prop receiver _ => Expr.inferred receiver
  | .call callee _ => Expr.inferred callee
  | .construct callee _ => Expr.inferred callee
  | .assign _ value => Expr.inferred value
  | .comma operands => Expr.inferredLast operands
  | .and left right => Expr.inferred left ++ Expr.inferred right
  | .or left right => Expr.inferred left ++ Expr.inferred right
  | .cond _ yes no => Expr.inferred yes ++ Expr.inferred no
  | .name _ | .this | .literal | .function _ | .objectLit _ | .arrayLit _ | .elem _ _ | .unknown _ => []
termination_by structural form => form

def Expr.inferredLast : List Expr → List Expr
  | [] => []
  | [e] => Expr.inferred e
  | _ :: e :: es => Expr.inferredLast (e :: es)
termination_by structural es => es

end

/-! ## Definite actions -/

/-- All objects that a declared type admits are allocated. -/
def Analysis.allocatedAll (p : Program) (b : Analysis) (d : DeclaredType) : Bool :=
  (List.range b.objects.length).all fun i =>
    !b.admits p (.ofDeclared p d) (.object ⟨i⟩) || decide (⟨i⟩ ∈ b.allocated)

namespace Setup

variable (env : Setup) (b : Analysis) (s : ScopeId)

/-- The type that is found for an expression. -/
def typeOf? (e : Expr) : Option ConcreteType :=
  match AnalysisM.infer env s e b with
  | .ok t _ => some t
  | .error _ _ => none

/-- The type that is found for an expression before it is narrowed. -/
def formTypeOf? (declared : Option DeclaredType) (form : Form) : Option ConcreteType :=
  match AnalysisM.inferForm env s declared form b with
  | .ok t _ => some t
  | .error _ _ => none

/-- **An expression is clear** if it is known, or unknown from the beginning. -/
def clear (e : Expr) : Bool := env.typeOf? b s e ≠ some .all || e.foreign env.program b.graph s

/-- Narrowing an expression, or reading the prototype of a superclass from it, does not depend on when it becomes
unknown. -/
def sure : Expr → Bool
  | ⟨form, declared⟩ =>
    (declared.all fun d => (Admission.ofDeclared env.program d).everything ||
      env.formTypeOf? b s declared form ≠ some .all || form.foreign env.program b.graph s declared ||
      b.allocatedAll env.program d) &&
    match form with
    | .prop receiver property => property ≠ PropertyName.superclass || env.clear b s receiver
    | _ => true

/-- All functions that an expression may be have a body. -/
def domestic (e : Expr) : Bool :=
  match env.typeOf? b s e with
  | some (.only m) => (ConcreteType.only m).functions.all fun f =>
      (b.function? f).all fun q => (env.program.function? q.decl).all fun d => !d.isAmbient
  | _ => false

/-- A call through the property `call` has no functions among its receivers, or nothing else, and then inferring them
creates none. -/
def plainCall (receiver : Expr) : Bool :=
  match env.typeOf? b s receiver with
  | some (.only m) => (ConcreteType.only m).functions = [] || ((ConcreteType.only m).objects = [] &&
      ((receiver.mentions.filterMap Mention.function?) = [] || match receiver with
        | ⟨.function _, _⟩ => true
        | _ => false))
  | _ => true

/-- A property that is assigned is one of the object itself, or one that a shape declares. -/
def settled (receiver : Expr) (property : String) : Bool :=
  match env.typeOf? b s receiver with
  | some (.only m) => (ConcreteType.only m).objects.all fun o => (b.object? o).all fun e =>
      b.graph.own e.scope property = b.graph.lookup e.scope property ||
        b.objects.any fun e' => b.graph.own e'.scope property = b.graph.lookup e.scope property &&
          (env.program.shape? e'.shape).any fun d => d.properties.contains property
  | _ => true

end Setup

namespace Action

/-- The expressions that an action infers. -/
def operands : Action → List Expr
  | assign _ value => [value]
  | assignProperty receiver _ value => [receiver, value]
  | call callee args => callee :: args
  | construct callee args => callee :: args
  | allocate literal => [literal]
  | ret _ value => [value]
  | declareFunction _ _ => []
  | declaredFlow _ _ => []

/-- The expressions that decide what an action does. -/
def targets : Action → List Expr
  | assignProperty receiver _ _ => [receiver]
  | call ⟨.prop receiver property, declared⟩ _ => [receiver, ⟨.prop receiver property, declared⟩]
  | call callee _ => [callee]
  | construct callee _ => [callee]
  | allocate literal => [literal]
  | _ => []

/-- What an action hands on to functions. -/
def arguments : Action → List Expr
  | call _ args => args
  | construct _ args => args
  | _ => []

/-- **What an action does is definite.** -/
def definite (env : Setup) (b : Analysis) (s : ScopeId) (A : Action) : Bool :=
  (A.operands.all fun e => e.inferred.all (env.sure b s)) && A.targets.all (env.clear b s) &&
    (A.arguments.all (env.clear b s) || A.targets.all (env.domestic b s)) &&
    match A with
    | call ⟨.prop receiver property, _⟩ _ => property ≠ PropertyName.call || env.plainCall b s receiver
    | assignProperty receiver property _ => env.settled b s receiver property
    | _ => true

variable {env : Setup} {b : Analysis} {s : ScopeId} {A : Action}

theorem of_definite (h : A.definite env b s = true) :
    (∀ e ∈ A.operands, ∀ q ∈ e.inferred, env.sure b s q = true) ∧ (∀ e ∈ A.targets, env.clear b s e = true) ∧
      ((∀ e ∈ A.arguments, env.clear b s e = true) ∨ ∀ e ∈ A.targets, env.domestic b s e = true) := by
  unfold definite at h
  simp only [Bool.and_eq_true, Bool.or_eq_true, List.all_eq_true] at h
  exact ⟨h.1.1.1, h.1.1.2, h.1.2⟩

theorem plainCall_of_definite {receiver : Expr} {declared : Option DeclaredType} {args : List Expr}
    (h : (call ⟨.prop receiver PropertyName.call, declared⟩ args).definite env b s = true) :
    env.plainCall b s receiver = true := by
  have hlast := (Bool.and_eq_true_iff.1 h).2
  simpa using hlast

theorem settled_of_definite {receiver value : Expr} {property : String}
    (h : (assignProperty receiver property value).definite env b s = true) : env.settled b s receiver property = true :=
  (Bool.and_eq_true_iff.1 h).2

end Action

namespace Analysis

/-- Properties that a shape does not declare hide nothing: no prototype has a property of the name. -/
def unshadowed (p : Program) (b : Analysis) : Bool :=
  b.objects.all fun e => ((b.graph.scope? e.scope).map fun c => c.slots.map Prod.fst).getD [] |>.all fun n =>
    ((p.shape? e.shape).any fun d => d.properties.contains n) ||
      ((b.graph.parent? e.scope).bind fun t => b.graph.lookup t n).isNone

/-- **A result is definite** if all actions are, every assignment to a property of something unknown has landed, and no
property hides another. -/
structure Definite (env : Setup) (b : Analysis) : Prop where
  landed : b.Landed env
  unshadowed : b.unshadowed env.program = true
  actions : ∀ s, ∀ A ∈ b.graph.actionsOf s, A.definite env b s = true

/-- Whether a result is definite, to be found out from the result. -/
def isDefinite (env : Setup) (b : Analysis) : Bool :=
  b.unshadowed env.program && (List.range b.graph.scopes.length).all fun i =>
    (b.graph.actionsOf ⟨i⟩).all fun A => A.landed env b ⟨i⟩ && A.definite env b ⟨i⟩

theorem isDefinite_iff {env : Setup} {b : Analysis} : b.isDefinite env = true ↔ b.Definite env := by
  unfold isDefinite
  simp only [Bool.and_eq_true, List.all_eq_true, List.mem_range]
  constructor
  · rintro ⟨hun, h⟩
    have hactions (s : ScopeId) (A : Action) (hA : A ∈ b.graph.actionsOf s) := h s.index (scope_lt_of_mem_actionsOf hA) A hA
    exact ⟨landed_iff.2 fun s A hA => (hactions s A hA).1, hun, fun s A hA => (hactions s A hA).2⟩
  · intro h
    exact ⟨h.unshadowed, fun i _ A hA => ⟨landed_iff.1 h.landed _ A hA, h.actions _ A hA⟩⟩

instance (env : Setup) (b : Analysis) : Decidable (b.Definite env) := decidable_of_iff _ isDefinite_iff

variable {p : Program} {b : Analysis} {d : DeclaredType}

theorem mem_allocated (h : b.allocatedAll p d = true) {o : ObjRef} (ho : b.Has (.object o))
    (hadmits : b.admits p (.ofDeclared p d) (.object o) = true) : o ∈ b.allocated := by
  have hi := List.all_eq_true.1 h o.index (List.mem_range.2 ho)
  rw [Bool.or_eq_true, decide_eq_true_eq] at hi
  refine hi.resolve_left ?_
  rw [hadmits]
  exact Bool.false_ne_true

theorem lookup_eq_none (h : b.unshadowed p = true) {e : ObjectEntry} (he : e ∈ b.objects) {d : ShapeDecl}
    (hd : p.shape? e.shape = some d) {n : String} (hn : n ∉ d.properties) (hown : b.graph.own e.scope n ≠ none)
    {t : ScopeId} (ht : b.graph.parent? e.scope = some t) : b.graph.lookup t n = none := by
  obtain ⟨x, hx⟩ := Option.ne_none_iff_exists'.1 hown
  obtain ⟨c, hc, hmem⟩ := ScopeGraph.mem_slots_of_own hx
  have hall := List.all_eq_true.1 h e he
  rw [hc, Option.map_some, Option.getD_some] at hall
  have hname := List.all_eq_true.1 hall n (List.mem_map_of_mem hmem)
  rw [hd, Option.any_some, ht, Option.bind_some, Bool.or_eq_true, List.contains_iff_mem, Option.isNone_iff_eq_none] at hname
  exact hname.resolve_left hn

end Analysis

end TypeFlow
