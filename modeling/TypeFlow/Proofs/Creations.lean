import TypeFlow.Proofs.BodyText
import TypeFlow.Proofs.Effects

/-!
# What an evaluation creates

Evaluating an action creates objects, functions and properties, one after the other. A
function is created in the scope of the action if the action mentions it. The only other
functions are ambient ones, of which a declared type speaks, and they are created in the
global scope.

* `Act`: one creation, completed or given up on a fault.
* `AnalysisM.evaluate_does`: evaluating an action does nothing else.
-/

namespace TypeFlow

open Relation

variable {p : Program} {env : Setup} {s : ScopeId} {ms : List Mention} {a b : Analysis}

/-- A function is created where it belongs: where it is mentioned, or globally if it is ambient. -/
inductive Belongs (p : Program) (s : ScopeId) (ms : List Mention) : FunctionId → ScopeId → Prop
  | mentioned {f : FunctionId} (h : .function f ∈ ms) : Belongs p s ms f s
  | ambient {f : FunctionId} {d : FunctionDecl} (decl : p.function? f = some d) (h : d.body = none) :
      Belongs p s ms f .global

/-- **One act of an evaluation** in the scope `s`, of a text that mentions `ms`. An act that ends in
a fault leaves what it has done so far. -/
inductive Act (p : Program) (s : ScopeId) (ms : List Mention) (a : Analysis) : Analysis → Prop
  /-- An object gets a scope, whose parent is that of another object, and is entered. -/
  | object (shape : ShapeId) (parent : Option ScopeId) (names : List String)
      (older : ∀ t ∈ parent, ∃ e ∈ a.objects, e.scope = t) :
      Act p s ms a (finalState
        (AnalysisM.onGraph (GraphM.addObjectScope shape parent names) >>= AnalysisM.addObject shape) a)
  /-- A function gets its scopes and is entered. -/
  | function {f : FunctionId} {d : FunctionDecl} {parent : ScopeId} (prototype object : Option ObjRef)
      (decl : p.function? f = some d) (belongs : Belongs p s ms f parent) :
      Act p s ms a (finalState (AnalysisM.introduceFunction p f parent prototype object) a)
  /-- A property is declared. -/
  | property {t : ScopeId} (name : String)
      (owner : (∃ e ∈ a.objects, e.scope = t) ∨ ∃ e ∈ a.functions, e.statics = t) :
      Act p s ms a (finalState (AnalysisM.onGraph (GraphM.declare t name)) a)
  /-- Something is allocated or remembered. -/
  | note {b : Analysis} (graph : b.graph = a.graph) (functions : b.functions = a.functions)
      (objects : b.objects = a.objects) (more : a.allocated.length < b.allocated.length ∨
        b.allocated = a.allocated ∧ a.narrowings.length < b.narrowings.length) : Act p s ms a b

/-- Any number of acts. -/
abbrev Does (p : Program) (s : ScopeId) (ms : List Mention) : Analysis → Analysis → Prop :=
  ReflTransGen (Act p s ms)

instance : IsPreorder Analysis (Does p s ms) where
  refl _ := .refl
  trans _ _ _ := .trans

namespace AnalysisM

variable {α β : Type}

theorem demandFunction_bind_does {f : FunctionId} {k : FunctionDecl → AnalysisM α}
    (hk : ∀ d, p.function? f = some d → Does p s ms a (finalState (k d) a)) :
    Does p s ms a (finalState (p.demandFunction f >>= k) a) := by
  unfold Program.demandFunction FunctionRegistry.demand
  cases hd : p.function? f with
  | none => exact .refl
  | some d => exact hk d hd

theorem demandShape_moves (shape : ShapeId) :
    Moves (Does p s ms) (p.demandShape shape : AnalysisM ShapeDecl) := by
  unfold Program.demandShape
  split
  · exact moves_pure _
  · exact moves_throw _

theorem gather_does {f : α → AnalysisM (List β)} : ∀ {xs : List α},
    (∀ x ∈ xs, Moves (Does p s ms) (f x)) → Moves (Does p s ms) (gather f xs)
  | [], _ => moves_pure _
  | x :: xs, h => by
    obtain ⟨hx, hxs⟩ := List.forall_mem_cons.1 h
    exact hx.bind fun _ => (gather_does hxs).bind fun _ => moves_pure _

theorem recordAllocation_does (o : ObjRef) : Moves (Does p s ms) (recordAllocation o) := by
  intro a
  change Does p s ms a (if o ∈ a.allocated then a else _)
  split
  · exact .refl
  · exact .single (.note rfl rfl rfl (.inl (by simp)))

theorem recordAllocations_does : ∀ os, Moves (Does p s ms) (recordAllocations os)
  | [] => moves_pure _
  | o :: os => (recordAllocation_does o).bind fun _ => recordAllocations_does os

/-! ## Creation -/

theorem createObjectWithin_does : ∀ (n : Nat) (path : List ShapeId) (shape : ShapeId),
    Moves (Does p s ms) (createObjectWithin p n path shape)
  | 0, _, _ => moves_throw _
  | n + 1, path, shape => by
    refine moves_get_bind fun a => ?_
    cases a.findObject shape with
    | some o => exact .refl
    | none =>
      dsimp only
      split
      · exact .refl
      rw [objectScope, bind_assoc]
      refine Moves.bind (demandShape_moves shape) (fun d => ?_) a
      cases d.proto with
      | none => exact fun c => .single (.object shape none d.properties (by simp))
      | some t =>
        dsimp only
        rw [bind_assoc]
        -- the object of the prototype comes first, and the parent is its scope
        refine (createObjectWithin_does n (shape :: path) t).bind fun o c => ?_
        refine .single (.object shape ((c.object? o).map (·.scope)) d.properties fun u hu => ?_)
        obtain ⟨e, he, rfl⟩ := Option.map_eq_some_iff.1 hu
        exact ⟨e, List.mem_of_getElem? he, rfl⟩

theorem createObject_does (shape : ShapeId) : Moves (Does p s ms) (createObject p shape) :=
  createObjectWithin_does _ _ _

theorem createObject?_does (shape : Option ShapeId) : Moves (Does p s ms) (createObject? p shape) := by
  cases shape with
  | none => exact moves_pure _
  | some shape => exact (createObject_does shape).bind fun _ => moves_pure _

theorem createFunction_does {f : FunctionId} {parent : ScopeId} (hf : Belongs p s ms f parent) :
    Moves (Does p s ms) (createFunction p f parent) := by
  refine moves_get_bind fun a => ?_
  cases a.findFunction f with
  | some r => exact .refl
  | none =>
    refine demandFunction_bind_does fun d hd => ?_
    refine ((createObject?_does d.prototypeShape).bind fun prototype => ?_ : Moves _ _) a
    exact (createObject?_does d.objectShape).bind fun object c => .single (.function prototype object hd hf)

/-! ## Narrowing and widening -/

theorem narrow_does (t : ConcreteType) (d : DeclaredType) : Moves (Does p s ms) (narrow env t d) := by
  unfold narrow
  split
  · exact moves_pure _
  · split
    · refine moves_get_bind fun a => ?_
      split
      · exact .refl
      · exact .single (.note rfl rfl rfl (.inr ⟨rfl, Nat.lt_succ_self a.narrowings.length⟩))
    · exact moves_get.bind fun _ => moves_pure _

theorem narrow?_does (t : ConcreteType) (d : Option DeclaredType) : Moves (Does p s ms) (narrow? env t d) := by
  cases d with
  | none => exact moves_pure _
  | some d => exact narrow_does t d

mutual

theorem widen_does : ∀ d, Moves (Does p s ms) (widen p d)
  | .unknown => moves_pure _
  | .anyObject => moves_pure _
  | .primitive => moves_pure _
  | .object shape => by
    rw [widen]
    refine (demandShape_moves shape).bind fun d => ?_
    split
    · exact moves_get.bind fun _ => moves_pure _
    · exact (createObject_does shape).bind fun o => (recordAllocation_does o).bind fun _ =>
        moves_get.bind fun _ => moves_pure _
  | .function (some f) _ => by
    rw [widen]
    refine moves_get_bind fun a => ?_
    cases a.findFunction f with
    | some r => exact .refl
    | none =>
      refine demandFunction_bind_does fun d hd => ?_
      split
      · rename_i hambient
        have hbelongs : Belongs p s ms f .global := .ambient hd (Option.isNone_iff_eq_none.1 hambient)
        exact ((createFunction_does hbelongs).bind fun _ => moves_pure _ : Moves _ _) a
      · exact .refl
  | .function none _ => moves_pure _
  | .union ds => widenAny_does ds
termination_by structural d => d

theorem widenAny_does : ∀ ds, Moves (Does p s ms) (widenAny p ds)
  | [] => moves_pure _
  | d :: ds => (widen_does d).bind fun _ => (widenAny_does ds).bind fun _ => moves_pure _
termination_by structural ds => ds

end

/-! ## Inference -/

section Properties

variable {R : Analysis → Analysis → Prop} [IsPreorder Analysis R] (hobject : ∀ shape, Moves R (createObject p shape))
include hobject

/-- Reading properties may create objects. -/
theorem functionProperty_moves (f : FnRef) (name : String) : Moves R (functionProperty p f name) := by
  refine moves_get.bind fun a => ?_
  split
  · exact moves_pure _
  dsimp only
  split
  · exact moves_pure _
  split
  · exact moves_pure _
  split
  · refine (demandFunction_moves p _).bind fun d => ?_
    split
    · exact moves_pure _
    · refine (demandFunction_moves p _).bind fun d' => ?_
      split
      · exact moves_pure _
      · exact (hobject _).bind fun _ => moves_pure _
  · exact moves_pure _

theorem entityProperty_moves (name : String) (e : Entity) : Moves R (entityProperty p name e) := by
  cases e with
  | object o => exact moves_get.bind fun _ => moves_pure _
  | function f => exact functionProperty_moves hobject f name

theorem entityProperties_moves (name : String) : ∀ es, Moves R (entityProperties p name es)
  | [] => moves_pure _
  | e :: es => (entityProperty_moves hobject name e).bind fun _ => (entityProperties_moves name es).bind fun _ =>
    moves_pure _

theorem propertyType_moves (receiver : ConcreteType) (name : String) : Moves R (propertyType p receiver name) := by
  cases receiver with
  | all => exact moves_pure _
  | only m => exact entityProperties_moves hobject name m.members

end Properties

theorem entityProperty_does (name : String) (e : Entity) : Moves (Does p s ms) (entityProperty p name e) :=
  entityProperty_moves createObject_does name e

theorem entityProperties_does (name : String) (es : List Entity) : Moves (Does p s ms) (entityProperties p name es) :=
  entityProperties_moves createObject_does name es

theorem propertyType_does (receiver : ConcreteType) (name : String) :
    Moves (Does p s ms) (propertyType p receiver name) :=
  propertyType_moves createObject_does receiver name

/-- **What inference may do**: create objects and the functions that are mentioned, and narrow. -/
structure Infers (env : Setup) (s : ScopeId) (ms : List Mention) (R : Analysis → Analysis → Prop) : Prop where
  object : ∀ shape, Moves R (createObject env.program shape)
  function : ∀ f, .function f ∈ ms → Moves R (createFunction env.program f s)
  narrow : ∀ t d, Moves R (narrow env t d)

variable {R : Analysis → Analysis → Prop} [IsPreorder Analysis R]

mutual

theorem infer_moves (h : Infers env s ms R) : ∀ e : Expr, e.mentions ⊆ ms → Moves R (infer env s e)
  | ⟨form, declared⟩, he => by
    refine (inferForm_moves h declared form he).bind fun t => ?_
    cases declared with
    | none => exact moves_pure _
    | some d => exact h.narrow t d
termination_by structural e => e

theorem inferForm_moves (h : Infers env s ms R) (declared : Option DeclaredType) :
    ∀ form, Expr.mentions ⟨form, declared⟩ ⊆ ms → Moves R (inferForm env s declared form)
  | .name _, _ => moves_get.bind fun _ => moves_pure _
  | .this, _ => moves_get.bind fun _ => moves_pure _
  | .literal, _ => moves_pure _
  | .function f, he => (h.function f (he (List.mem_singleton_self _))).bind fun _ =>
    moves_pure _
  | .objectLit _, _ => by
    unfold inferForm
    split
    · exact (h.object _).bind fun _ => moves_pure _
    · exact moves_pure _
  | .arrayLit _, _ => by
    unfold inferForm
    split
    · exact (h.object _).bind fun _ => moves_pure _
    · exact moves_pure _
  | .prop receiver property, he => (infer_moves h receiver he).bind fun t => propertyType_moves h.object t property
  | .elem _ _, _ => moves_pure _
  | .call callee _, he => (infer_moves h callee (List.append_subset.1 he).1).bind fun _ =>
    moves_get.bind fun _ => moves_pure _
  | .construct callee _, he => by
    rw [inferForm]
    refine (infer_moves h callee (List.append_subset.1 he).1).bind fun t => ?_
    cases t with
    | all => exact moves_throw _
    | only m => exact moves_get.bind fun _ => moves_pure _
  | .assign _ value, he => by
    unfold Expr.mentions at he
    exact infer_moves h value (List.append_subset.1 he).1
  | .comma operands, he => inferLast_moves h operands he
  | .and left right, he =>
    have ⟨hleft, hright⟩ := List.append_subset.1 he
    (infer_moves h left hleft).bind fun _ => (infer_moves h right hright).bind fun _ => moves_pure _
  | .or left right, he =>
    have ⟨hleft, hright⟩ := List.append_subset.1 he
    (infer_moves h left hleft).bind fun _ => (infer_moves h right hright).bind fun _ => moves_pure _
  | .cond _ yes no, he =>
    have ⟨hyes, hno⟩ := List.append_subset.1 (List.append_subset.1 he).2
    (infer_moves h yes hyes).bind fun _ => (infer_moves h no hno).bind fun _ => moves_pure _
  | .unknown _, _ => moves_pure _
termination_by structural form => form

theorem inferLast_moves (h : Infers env s ms R) : ∀ es, Expr.mentionsAll es ⊆ ms → Moves R (inferLast env s es)
  | [], _ => moves_pure _
  | [e], he => infer_moves h e (List.append_subset.1 he).1
  | _ :: e :: es, he => inferLast_moves h (e :: es) (List.append_subset.1 he).2
termination_by structural es => es

end

theorem infers_does : Infers env s ms (Does env.program s ms) :=
  ⟨createObject_does, fun _ hf => createFunction_does (.mentioned hf), narrow_does⟩

/-- **Inferring an expression** creates the functions that it mentions. -/
theorem infer_does (e : Expr) (he : e.mentions ⊆ ms) : Moves (Does env.program s ms) (infer env s e) :=
  infer_moves infers_does e he

theorem inferForm_does (declared : Option DeclaredType) (form : Form) (h : Expr.mentions ⟨form, declared⟩ ⊆ ms) :
    Moves (Does env.program s ms) (inferForm env s declared form) :=
  inferForm_moves infers_does declared form h

/-! ## Binding -/

theorem widen?_does (d : Option DeclaredType) : Moves (Does p s ms) (widen? p d) := by
  cases d with
  | none => exact moves_pure _
  | some d => exact widen_does d

theorem callBack_does (signature : Option Signature) (f : FnRef) :
    Moves (Does p s ms) (callBack p signature f) := by
  refine moves_get.bind fun a => ?_
  split
  · exact moves_pure _
  refine (gather_does fun x _ => (widen?_does _).bind fun _ => moves_pure _).bind fun bound => ?_
  split
  · exact moves_pure _
  · exact (widen?_does _).bind fun _ => moves_pure _

theorem bindCallback_does (declared : Option DeclaredType) (arg : ConcreteType) :
    Moves (Does p s ms) (bindCallback p declared arg) :=
  gather_does fun f _ => callBack_does _ f

theorem callBackArgument_does (d : FunctionDecl) (i : Nat) (arg : ConcreteType) :
    Moves (Does p s ms) (callBackArgument p d i arg) := by
  unfold callBackArgument
  split
  · exact bindCallback_does _ arg
  · exact moves_pure _

theorem mentions_subset_of_mem {es : List Expr} (h : Expr.mentionsAll es ⊆ ms) : ∀ e ∈ es, e.mentions ⊆ ms := by
  induction es with
  | nil => exact fun e he => absurd he List.not_mem_nil
  | cons e es ih =>
    obtain ⟨he, hes⟩ := List.append_subset.1 h
    exact List.forall_mem_cons.2 ⟨he, ih hes⟩

section Calls

variable {args : List Expr} (hargs : Expr.mentionsAll args ⊆ ms)
include hargs

theorem escapeArguments_does : Moves (Does env.program s ms) (escapeArguments env s args) :=
  gather_does fun arg harg => (infer_does arg (mentions_subset_of_mem hargs arg harg)).bind fun t =>
    bindCallback_does none t

theorem bindFunction_does (this : ConcreteType) (f : FnRef) :
    Moves (Does env.program s ms) (bindFunction env s this args f) := by
  refine moves_get.bind fun a => ?_
  split
  · exact moves_pure _
  refine (demandFunction_moves _ _).bind fun d => Moves.bind (gather_does fun x hx => ?_) fun _ => moves_pure _
  have harg := mentions_subset_of_mem hargs x.1 (List.fst_mem_of_mem_zipIdx hx)
  refine (infer_does x.1 harg).bind fun t => (callBackArgument_does d x.2 t).bind fun calledBack => ?_
  split
  · exact moves_pure _
  · exact moves_pure _

theorem bindCallees_does (callees this : ConcreteType) :
    Moves (Does env.program s ms) (bindCallees env s callees this args) := by
  cases callees with
  | all => exact escapeArguments_does hargs
  | only m => exact gather_does fun f _ => bindFunction_does hargs this f

theorem explicitReceiver_does : Moves (Does env.program s ms) (explicitReceiver env s args) := by
  cases args with
  | nil => exact moves_pure _
  | cons first rest => exact infer_does first (List.append_subset.1 hargs).1

theorem bindExplicitCall_does (receiver callees : ConcreteType) :
    Moves (Does env.program s ms) (bindExplicitCall env s receiver callees args) := by
  have htail : Expr.mentionsAll args.tail ⊆ ms := by
    cases args with
    | nil => exact hargs
    | cons first rest => exact (List.append_subset.1 hargs).2
  refine (explicitReceiver_does hargs).bind fun this => ?_
  refine Moves.bind (gather_does fun f _ => bindFunction_does htail this f) fun bound => ?_
  exact (bindCallees_does hargs _ _).bind fun _ => moves_pure _

theorem bindCall_does {callee : Expr} (hcallee : callee.mentions ⊆ ms) :
    Moves (Does env.program s ms) (bindCall env s callee args) := by
  unfold bindCall
  split
  · -- the receiver of a method mentions what the callee does
    rename_i receiver property declared
    have hreceiver : receiver.mentions ⊆ ms := hcallee
    refine (infer_does receiver hreceiver).bind fun this => ?_
    cases this with
    | all => exact escapeArguments_does hargs
    | only m =>
      refine (infer_does _ hcallee).bind fun callees => ?_
      split
      · exact bindExplicitCall_does hargs _ callees
      · exact bindCallees_does hargs callees _
  · exact (infer_does _ hcallee).bind fun callees => bindCallees_does hargs callees ∅

theorem bindConstructor_does (f : FnRef) : Moves (Does env.program s ms) (bindConstructor env s args f) := by
  refine moves_get.bind fun a => ?_
  split
  · exact (recordAllocation_does _).bind fun _ => bindFunction_does hargs _ f
  · exact bindFunction_does hargs ∅ f

theorem bindConstruct_does {callee : Expr} (hcallee : callee.mentions ⊆ ms) :
    Moves (Does env.program s ms) (bindConstruct env s callee args) := by
  refine (infer_does callee hcallee).bind fun callees => ?_
  cases callees with
  | all => exact moves_throw _
  | only m => exact gather_does fun f _ => bindConstructor_does hargs f

end Calls

/-- A property is declared for an object or a function. -/
theorem declareProperty_does {t : ScopeId} (name : String)
    (ht : (∃ e ∈ a.objects, e.scope = t) ∨ ∃ e ∈ a.functions, e.statics = t) :
    Does p s ms a (finalState
      (do let x ← onGraph (GraphM.declare t name); return [x] : AnalysisM (List SlotId)) a) := by
  rw [finalState_bind_pure]
  exact .single (.property name ht)

theorem entitySlot_does (name : String) (e : Entity) : Moves (Does p s ms) (entitySlot name e) := by
  cases e with
  | object o =>
    refine moves_get_bind fun a => ?_
    cases ho : a.object? o with
    | none => exact .refl
    | some e =>
      dsimp only
      split
      · exact .refl
      · exact declareProperty_does name (.inl ⟨e, List.mem_of_getElem? ho, rfl⟩)
  | function f =>
    by_cases hprototype : name = PropertyName.prototype
    · rw [entitySlot, if_pos hprototype]
      exact moves_pure _
    · rw [entitySlot, if_neg hprototype]
      refine moves_get_bind fun a => ?_
      cases hf : a.function? f with
      | none => exact .refl
      | some e =>
        dsimp only
        split
        · exact .refl
        · exact declareProperty_does name (.inr ⟨e, List.mem_of_getElem? hf, rfl⟩)

theorem propertySlots_does (receiver : ConcreteType) (name : String) :
    Moves (Does p s ms) (propertySlots receiver name) := by
  cases receiver with
  | all => exact moves_get.bind fun _ => moves_pure _
  | only m => exact (gather_does fun e _ => entitySlot_does name e).bind fun _ => moves_pure _

/-- **Evaluating an action** does nothing but create what it mentions, and ambient functions. -/
theorem evaluate_does (env : Setup) (s : ScopeId) (action : Action) :
    Moves (Does env.program s action.mentions) (evaluate env s action) := by
  cases action with
  | assign x value => exact (infer_does value (List.Subset.refl _)).bind fun _ => moves_pure _
  | ret x value => exact (infer_does value (List.Subset.refl _)).bind fun _ => moves_pure _
  | assignProperty receiver property value =>
    refine (infer_does receiver (List.subset_append_left ..)).bind fun r => ?_
    refine (infer_does value (List.subset_append_right ..)).bind fun t => ?_
    split
    · exact moves_pure _
    · exact (propertySlots_does r property).bind fun _ => moves_pure _
  | call callee args => exact bindCall_does (List.subset_append_right ..) (List.subset_append_left ..)
  | construct callee args => exact bindConstruct_does (List.subset_append_right ..) (List.subset_append_left ..)
  | allocate literal =>
    exact (infer_does literal (List.Subset.refl _)).bind fun t => (recordAllocations_does t.objects).bind fun _ =>
      moves_pure _
  | declareFunction x f =>
    exact (createFunction_does (.mentioned (List.mem_singleton_self _))).bind fun _ => moves_pure _
  | declaredFlow x declared => exact (widen_does declared).bind fun _ => moves_pure _

end AnalysisM

end TypeFlow
