import Mathlib.Tactic.Common
import TypeFlow.Analysis.Process

/-!
# What an analysis reads

Evaluation never looks into the text of a function body: it reads declarations, and it has the
body scope filled in when a function is created. So two programs with the same outline whose
bodies fill in the same scopes are evaluated alike, and neither the order nor the number of
passes matters to a replay.

* `Program.SameOutline`: the same declarations, apart from what the bodies say.
* `Program.Alike`: what is more, the bodies fill in the same scopes.
* `Setup.Alike.system_eq`: what is alike is the same constraint system.
-/

namespace TypeFlow

/-- **The same declaration**, apart from what the body says. -/
structure FunctionDecl.Like (d e : FunctionDecl) : Prop where
  name : e.name = d.name
  params : e.params = d.params
  isAmbient : e.isAmbient = d.isAmbient
  signature : e.signature = d.signature
  objectShape : e.objectShape = d.objectShape
  prototypeShape : e.prototypeShape = d.prototypeShape
  superclass : e.superclass = d.superclass

/-- **The same declarations**, apart from what the bodies say. -/
structure Program.SameOutline (p q : Program) : Prop where
  shapes : q.shapes = p.shapes
  arrayShape : q.arrayShape = p.arrayShape
  length_functions : q.functions.length = p.functions.length
  function : ∀ f d, p.function? f = some d → ∃ e, q.function? f = some e ∧ d.Like e

/-- **Programs that are evaluated alike**: their declarations are the same, and their bodies fill in
the same scopes. -/
structure Program.Alike (p q : Program) : Prop extends p.SameOutline q where
  body : ∀ f d e, p.function? f = some d → q.function? f = some e →
    GraphM.fillBodyScope q e = GraphM.fillBodyScope p d

/-- **Setups that are evaluated alike.** The order and the number of passes may differ. -/
structure Setup.Alike (env env' : Setup) : Prop where
  program : env.program.Alike env'.program
  memoize : env'.config.memoize = env.config.memoize

theorem Program.Alike.refl (p : Program) : p.Alike p where
  shapes := rfl
  arrayShape := rfl
  length_functions := rfl
  function _ d hd := ⟨d, hd, rfl, rfl, rfl, rfl, rfl, rfl, rfl⟩
  body _ d e hd he := by rw [Option.some.inj (hd.symm.trans he)]

variable {p q : Program}

/-! ## Declarations -/

namespace Program.SameOutline

theorem shape? (h : p.SameOutline q) : q.shape? = p.shape? := by
  funext s
  rw [Program.shape?, Program.shape?, h.shapes]

/-- Both programs declare a function alike, or neither does. -/
theorem function?_cases (h : p.SameOutline q) (f : FunctionId) :
    (p.function? f = none ∧ q.function? f = none) ∨
      ∃ d e, p.function? f = some d ∧ q.function? f = some e ∧ d.Like e := by
  cases hp : p.function? f with
  | none =>
    refine .inl ⟨rfl, List.getElem?_eq_none ?_⟩
    rw [h.length_functions]
    exact List.getElem?_eq_none_iff.1 hp
  | some d =>
    obtain ⟨e, he, hlike⟩ := h.function f d hp
    exact .inr ⟨d, e, rfl, he, hlike⟩

theorem demandShape (h : p.SameOutline q) {m : Type → Type} [Monad m] [MonadExceptOf Fault m] :
    (q.demandShape : ShapeId → m ShapeDecl) = p.demandShape := by
  funext s
  rw [Program.demandShape, Program.demandShape, h.shape?]

/-- Going on with a declaration is the same if it is the same for declarations that are alike. -/
theorem demandFunction_bind (h : p.SameOutline q) {σ α : Type} (f : FunctionId)
    {k l : FunctionDecl → EStateM Fault σ α}
    (hkl : ∀ d e, p.function? f = some d → q.function? f = some e → d.Like e → l e = k d) :
    (q.demandFunction f >>= l) = (p.demandFunction f >>= k) := by
  unfold Program.demandFunction FunctionRegistry.demand
  rcases h.function?_cases f with ⟨hp, hq⟩ | ⟨d, e, hp, hq, hlike⟩
  · rw [hp, hq]
    rfl
  · rw [hp, hq, pure_bind, pure_bind]
    exact hkl d e hp hq hlike

/-! ## The hierarchy -/

theorem below (h : p.SameOutline q) : q.below = p.below := by
  funext s
  simp only [Program.below, Program.subtypes, Program.implementors, h.shape?]
  refine congrArg _ (congrArg₂ _ (funext fun c => ?_) rfl)
  rcases h.function?_cases c with ⟨hp, hq⟩ | ⟨d, e, hp, hq, hlike⟩
  · rw [hp, hq]
  · rw [hp, hq, Option.bind_some, Option.bind_some, hlike.objectShape]

theorem searchBelow (h : p.SameOutline q) (n : Nat) (stack seen : List ShapeId) :
    q.searchBelow n stack seen = p.searchBelow n stack seen := by
  induction n generalizing stack seen with
  | zero => rfl
  | succ n ih =>
    cases stack with
    | nil => rfl
    | cons s stack => simp only [Program.searchBelow, ih, h.below]

theorem subtypeClosure (h : p.SameOutline q) : q.subtypeClosure = p.subtypeClosure := by
  funext s
  simp only [Program.subtypeClosure, Program.belowCount, h.below, h.shapes, h.searchBelow]

theorem admissionWalk (h : p.SameOutline q) (n : Nat) (s : ShapeId) :
    q.admissionWalk n s = p.admissionWalk n s := by
  induction n generalizing s with
  | zero => rfl
  | succ n ih => simp only [Program.admissionWalk, Program.admittedThrough?, h.shape?, ih]

theorem admissionPath (h : p.SameOutline q) : q.admissionPath = p.admissionPath := by
  funext s
  rw [Program.admissionPath, Program.admissionPath, h.shapes, h.admissionWalk]

mutual

theorem ofDeclared (h : p.SameOutline q) : ∀ d, Admission.ofDeclared q d = Admission.ofDeclared p d
  | .unknown => rfl
  | .anyObject => rfl
  | .primitive => rfl
  | .object s => by rw [Admission.ofDeclared, Admission.ofDeclared, h.subtypeClosure]
  | .function (some _) _ => rfl
  | .function none _ => rfl
  | .union ds => ofDeclaredAny h ds
termination_by structural d => d

theorem ofDeclaredAny (h : p.SameOutline q) :
    ∀ ds, Admission.ofDeclaredAny q ds = Admission.ofDeclaredAny p ds
  | [] => rfl
  | d :: ds => by
    rw [Admission.ofDeclaredAny, Admission.ofDeclaredAny, ofDeclared h d, ofDeclaredAny h ds]
termination_by structural ds => ds

end

theorem admits (h : p.SameOutline q) (a : Analysis) : a.admits q = a.admits p := by
  funext x e
  cases e with
  | function f => rfl
  | object o => rw [Analysis.admits, Analysis.admits, h.admissionPath]

theorem expand (h : p.SameOutline q) (a : Analysis) : a.expand q = a.expand p := by
  funext x
  rw [Analysis.expand, Analysis.expand, h.admits]

theorem narrowed (h : p.SameOutline q) (a : Analysis) : a.narrowed q = a.narrowed p := by
  funext t d
  simp only [Analysis.narrowed, h.ofDeclared, h.expand, h.admits]

/-! ## Objects -/

theorem createObjectWithin (h : p.SameOutline q) (n : Nat) :
    AnalysisM.createObjectWithin q n = AnalysisM.createObjectWithin p n := by
  induction n with
  | zero => rfl
  | succ n ih =>
    funext path s
    simp only [AnalysisM.createObjectWithin, AnalysisM.objectScope, ih, h.demandShape]

theorem createObject (h : p.SameOutline q) : AnalysisM.createObject q = AnalysisM.createObject p := by
  funext s
  rw [AnalysisM.createObject, AnalysisM.createObject, h.shapes, h.createObjectWithin]

theorem createObject? (h : p.SameOutline q) : AnalysisM.createObject? q = AnalysisM.createObject? p := by
  funext s
  cases s with
  | none => rfl
  | some s => rw [AnalysisM.createObject?, AnalysisM.createObject?, h.createObject]

theorem functionProperty (h : p.SameOutline q) :
    AnalysisM.functionProperty q = AnalysisM.functionProperty p := by
  funext f name
  unfold AnalysisM.functionProperty
  refine congrArg _ (funext fun a => ?_)
  cases a.function? f with
  | none => rfl
  | some e =>
    dsimp only
    refine ite_congr rfl (fun _ => rfl) fun _ => ite_congr rfl (fun _ => rfl) fun _ =>
      ite_congr rfl (fun _ => ?_) fun _ => rfl
    refine h.demandFunction_bind e.decl fun d d' _ _ hlike => ?_
    rw [hlike.superclass]
    cases d.superclass with
    | none => rfl
    | some c =>
      refine h.demandFunction_bind c fun d d' _ _ hlike => ?_
      rw [hlike.prototypeShape, h.createObject]

theorem entityProperties (h : p.SameOutline q) (name : String) (es : List Entity) :
    AnalysisM.entityProperties q name es = AnalysisM.entityProperties p name es := by
  induction es with
  | nil => rfl
  | cons e es ih =>
    have he : AnalysisM.entityProperty q name e = AnalysisM.entityProperty p name e := by
      cases e with
      | function f => exact congrFun₂ h.functionProperty f name
      | object o => rfl
    rw [AnalysisM.entityProperties, AnalysisM.entityProperties, he, ih]

theorem propertyType (h : p.SameOutline q) : AnalysisM.propertyType q = AnalysisM.propertyType p := by
  funext t name
  cases t with
  | all => rfl
  | only s => exact h.entityProperties name s.members

/-! ## Extraction -/

mutual

theorem hoistStmt (h : p.SameOutline q) (s : ScopeId) :
    ∀ st, Extraction.hoistStmt q s st = Extraction.hoistStmt p s st
  | .var .. => rfl
  | .function f => by
    rw [Extraction.hoistStmt, Extraction.hoistStmt]
    exact h.demandFunction_bind f fun d e _ _ hlike => by rw [hlike.name]
  | .expr _ => rfl
  | .ret _ => rfl
  | .branch _ yes no => by
    rw [Extraction.hoistStmt, Extraction.hoistStmt, hoist h s yes, hoist h s no]
  | .loop _ body => hoist h s body
  | .block body => hoist h s body
termination_by structural st => st

theorem hoist (h : p.SameOutline q) (s : ScopeId) :
    ∀ sts, Extraction.hoist q s sts = Extraction.hoist p s sts
  | [] => rfl
  | st :: rest => by rw [Extraction.hoist, Extraction.hoist, hoistStmt h s st, hoist h s rest]
termination_by structural sts => sts

end

mutual

theorem visitStmt (h : p.SameOutline q) (site : Extraction.Site) :
    ∀ st, Extraction.visitStmt q site st = Extraction.visitStmt p site st
  | .var .. => rfl
  | .function f => by
    rw [Extraction.visitStmt, Extraction.visitStmt]
    exact h.demandFunction_bind f fun d e _ _ hlike => by rw [hlike.name]
  | .expr _ => rfl
  | .ret _ => rfl
  | .branch _ yes no => by
    rw [Extraction.visitStmt, Extraction.visitStmt, visit h site yes, visit h site no]
  | .loop _ body => by rw [Extraction.visitStmt, Extraction.visitStmt, visit h site body]
  | .block body => visit h site body
termination_by structural st => st

theorem visit (h : p.SameOutline q) (site : Extraction.Site) :
    ∀ sts, Extraction.visit q site sts = Extraction.visit p site sts
  | [] => rfl
  | st :: rest => by
    rw [Extraction.visit, Extraction.visit, visitStmt h site st, visit h site rest]
termination_by structural sts => sts

end

mutual

theorem boundByStmt (h : p.SameOutline q) (names : List String) :
    ∀ st, ImplicitGlobals.boundByStmt q names st = ImplicitGlobals.boundByStmt p names st
  | .var .. => rfl
  | .function f => by
    unfold ImplicitGlobals.boundByStmt FunctionRegistry.demand
    rcases h.function?_cases f with ⟨hp, hq⟩ | ⟨d, e, hp, hq, hlike⟩
    · rw [hp, hq]
    · rw [hp, hq, pure_bind, pure_bind, hlike.name]
  | .expr _ => rfl
  | .ret _ => rfl
  | .branch _ yes no => by
    simp only [ImplicitGlobals.boundByStmt, boundNames h _ yes, boundNames h _ no]
  | .loop _ body => boundNames h names body
  | .block body => boundNames h names body
termination_by structural st => st

theorem boundNames (h : p.SameOutline q) (names : List String) :
    ∀ sts, ImplicitGlobals.boundNames q names sts = ImplicitGlobals.boundNames p names sts
  | [] => rfl
  | st :: rest => by
    simp only [ImplicitGlobals.boundNames, boundByStmt h _ st, boundNames h _ rest]
termination_by structural sts => sts

end

end Program.SameOutline

/-! ## Functions -/

namespace Program.Alike

theorem addBodyScope (h : p.Alike q) {f : FunctionId} {d e : FunctionDecl} (hd : p.function? f = some d)
    (he : q.function? f = some e) : GraphM.addBodyScope q f e = GraphM.addBodyScope p f d := by
  funext parent
  unfold GraphM.addBodyScope
  rw [h.body f d e hd he]

theorem createBodyScope (h : p.Alike q) : AnalysisM.createBodyScope q = AnalysisM.createBodyScope p := by
  funext f parent
  unfold AnalysisM.createBodyScope
  refine h.demandFunction_bind f fun d e hd he _ => ?_
  rw [h.addBodyScope hd he]

theorem createFunction (h : p.Alike q) : AnalysisM.createFunction q = AnalysisM.createFunction p := by
  funext f parent
  unfold AnalysisM.createFunction
  refine congrArg _ (funext fun a => ?_)
  cases a.findFunction f with
  | some r => rfl
  | none =>
    refine h.demandFunction_bind f fun d e _ _ hlike => ?_
    rw [hlike.prototypeShape, hlike.objectShape, h.createObject?]
    simp only [AnalysisM.introduceFunction, h.createBodyScope]

mutual

theorem widen (h : p.Alike q) : ∀ d, AnalysisM.widen q d = AnalysisM.widen p d
  | .unknown => rfl
  | .anyObject => rfl
  | .primitive => rfl
  | .object s => by
    simp only [AnalysisM.widen, h.demandShape, h.expand, h.ofDeclared, h.createObject]
  | .function (some f) _ => by
    rw [AnalysisM.widen, AnalysisM.widen]
    refine congrArg _ (funext fun a => ?_)
    cases a.findFunction f with
    | some r => rfl
    | none =>
      refine h.demandFunction_bind f fun d e _ _ hlike => ?_
      rw [hlike.isAmbient, h.createFunction]
  | .function none _ => rfl
  | .union ds => widenAny h ds
termination_by structural d => d

theorem widenAny (h : p.Alike q) : ∀ ds, AnalysisM.widenAny q ds = AnalysisM.widenAny p ds
  | [] => rfl
  | d :: ds => by rw [AnalysisM.widenAny, AnalysisM.widenAny, widen h d, widenAny h ds]
termination_by structural ds => ds

end

theorem widen? (h : p.Alike q) : AnalysisM.widen? q = AnalysisM.widen? p := by
  funext d
  cases d with
  | none => rfl
  | some d => exact h.widen d

theorem callBack (h : p.Alike q) : AnalysisM.callBack q = AnalysisM.callBack p := by
  funext signature f
  simp only [AnalysisM.callBack, h.widen?]

theorem bindCallback (h : p.Alike q) : AnalysisM.bindCallback q = AnalysisM.bindCallback p := by
  funext declared arg
  rw [AnalysisM.bindCallback, AnalysisM.bindCallback, h.callBack]

theorem callBackArgument (h : p.Alike q) {d e : FunctionDecl} (hlike : d.Like e) :
    AnalysisM.callBackArgument q e = AnalysisM.callBackArgument p d := by
  funext i arg
  rw [AnalysisM.callBackArgument, AnalysisM.callBackArgument, hlike.isAmbient, hlike.signature,
    h.bindCallback]

end Program.Alike

/-! ## Expressions and actions -/

namespace Setup.Alike

variable {env env' : Setup}

theorem narrow? (h : env.Alike env') : AnalysisM.narrow? env' = AnalysisM.narrow? env := by
  funext t d
  cases d with
  | none => rfl
  | some d => simp only [AnalysisM.narrow?, AnalysisM.narrow, h.memoize, h.program.narrowed]

mutual

theorem infer (h : env.Alike env') (s : ScopeId) : ∀ e, AnalysisM.infer env' s e = AnalysisM.infer env s e
  | ⟨form, declared⟩ => by
    rw [AnalysisM.infer, AnalysisM.infer, inferForm h s declared form, h.narrow?]
termination_by structural e => e

theorem inferForm (h : env.Alike env') (s : ScopeId) (declared : Option DeclaredType) :
    ∀ form, AnalysisM.inferForm env' s declared form = AnalysisM.inferForm env s declared form
  | .name _ => rfl
  | .this => rfl
  | .literal => rfl
  | .function f => by rw [AnalysisM.inferForm, AnalysisM.inferForm, h.program.createFunction]
  | .objectLit _ => by simp only [AnalysisM.inferForm, h.program.createObject]
  | .arrayLit _ => by
    simp only [AnalysisM.inferForm, h.program.arrayShape, h.program.createObject]
  | .prop receiver _ => by
    rw [AnalysisM.inferForm, AnalysisM.inferForm, infer h s receiver, h.program.propertyType]
  | .elem _ _ => rfl
  | .call callee _ => by rw [AnalysisM.inferForm, AnalysisM.inferForm, infer h s callee]
  | .construct callee _ => by rw [AnalysisM.inferForm, AnalysisM.inferForm, infer h s callee]
  | .assign _ value => infer h s value
  | .comma operands => inferLast h s operands
  | .and left right => by
    rw [AnalysisM.inferForm, AnalysisM.inferForm, infer h s left, infer h s right]
  | .or left right => by
    rw [AnalysisM.inferForm, AnalysisM.inferForm, infer h s left, infer h s right]
  | .cond _ yes no => by rw [AnalysisM.inferForm, AnalysisM.inferForm, infer h s yes, infer h s no]
  | .unknown _ => rfl
termination_by structural form => form

theorem inferLast (h : env.Alike env') (s : ScopeId) :
    ∀ es, AnalysisM.inferLast env' s es = AnalysisM.inferLast env s es
  | [] => rfl
  | [e] => infer h s e
  | _ :: e :: es => inferLast h s (e :: es)
termination_by structural es => es

end

theorem bindFunction (h : env.Alike env') (s : ScopeId) :
    AnalysisM.bindFunction env' s = AnalysisM.bindFunction env s := by
  funext this args f
  unfold AnalysisM.bindFunction
  refine congrArg _ (funext fun a => ?_)
  cases a.function? f with
  | none => rfl
  | some e =>
    refine h.program.demandFunction_bind e.decl fun d d' _ _ hlike => ?_
    simp only [AnalysisM.bindArgument, h.infer, h.program.callBackArgument hlike]

theorem bindCallees (h : env.Alike env') (s : ScopeId) :
    AnalysisM.bindCallees env' s = AnalysisM.bindCallees env s := by
  funext callees this args
  cases callees with
  | all =>
    simp only [AnalysisM.bindCallees, AnalysisM.escapeArguments, h.infer, h.program.bindCallback]
  | only m => rw [AnalysisM.bindCallees, AnalysisM.bindCallees, h.bindFunction]

theorem explicitReceiver (h : env.Alike env') (s : ScopeId) :
    AnalysisM.explicitReceiver env' s = AnalysisM.explicitReceiver env s := by
  funext args
  cases args with
  | nil => rfl
  | cons first rest => exact h.infer s first

theorem bindConstructor (h : env.Alike env') (s : ScopeId) :
    AnalysisM.bindConstructor env' s = AnalysisM.bindConstructor env s := by
  funext args f
  simp only [AnalysisM.bindConstructor, h.bindFunction]

theorem evaluate (h : env.Alike env') (s : ScopeId) :
    AnalysisM.evaluate env' s = AnalysisM.evaluate env s := by
  funext action
  cases action with
  | assign x value => simp only [AnalysisM.evaluate, h.infer]
  | assignProperty receiver property value => simp only [AnalysisM.evaluate, h.infer]
  | call callee args =>
    simp only [AnalysisM.evaluate, AnalysisM.bindCall, AnalysisM.bindExplicitCall,
      AnalysisM.escapeArguments, h.infer, h.program.bindCallback, h.explicitReceiver, h.bindFunction,
      h.bindCallees]
  | construct callee args =>
    simp only [AnalysisM.evaluate, AnalysisM.bindConstruct, h.infer, h.bindConstructor]
  | allocate literal => simp only [AnalysisM.evaluate, h.infer]
  | ret x value => simp only [AnalysisM.evaluate, h.infer]
  | declareFunction x f => simp only [AnalysisM.evaluate, h.program.createFunction]
  | declaredFlow x declared => simp only [AnalysisM.evaluate, h.program.widen]

theorem replay (h : env.Alike env') (s : ScopeId) : AnalysisM.replay env' s = AnalysisM.replay env s := by
  have hactions (actions : List Action) (dirty : List ScopeId) :
      AnalysisM.replayActions env' s actions dirty = AnalysisM.replayActions env s actions dirty := by
    induction actions generalizing dirty with
    | nil => rfl
    | cons action rest ih => simp only [AnalysisM.replayActions, h.evaluate, ih]
  simp only [AnalysisM.replay, hactions]

/-- **What is alike is the same constraint system.** -/
theorem system_eq (h : env.Alike env') : env'.system = env.system := by
  simp only [Setup.system, funext h.replay]

end Setup.Alike

end TypeFlow
