import Mathlib.Data.List.Nodup
import Mathlib.Data.List.Perm.Subperm
import TypeFlow.Proofs.Passes
import TypeFlow.Proofs.Replay
import TypeFlow.Proofs.Textual

/-!
# Every fault has a cause

Whatever an analysis evaluates, it names only what the program mentions, and it faults only where
the program gives a cause (`Fault.Caused`). So a well-formed program, in which none of the causes
is present, can only stop on a callee of `new` that may be anything, or run out of passes.

* `Analysis.Textual`: the state of an analysis follows the text of the program.
* `replay_ends`, `prepare_ends`: replaying and preparing keep to the text.
* `process_of_wellFormed`: how processing a well-formed program can end.
-/

namespace TypeFlow

open Relation

variable {p : Program} {env : Setup} {α β : Type} {k : Nat} {b a : Analysis}

namespace Analysis

/-- **The state of an analysis follows the text of a program.** There is a global scope, two
scopes for each function, one for each object, and `k` more that belong to what is being created. -/
structure Textual (p : Program) (k : Nat) (a : Analysis) : Prop where
  graph : a.graph.Textual p (1 + 2 * a.functions.length + a.objects.length + k)
  declared : ∀ e ∈ a.functions, .function e.decl ∈ p.words

/-- The state `a` continues `b` and follows the text of a program. -/
structure Told (p : Program) (k : Nat) (b a : Analysis) : Prop where
  grows : b.Grows a
  text : a.Textual p k

theorem Textual.told (ha : a.Textual p k) : Told p k a a := ⟨refl_of _ a, ha⟩

theorem Told.trans {c : Analysis} {j : Nat} (ha : Told p k b a) (hc : Told p j a c) : Told p j b c :=
  ⟨trans_of Grows ha.grows hc.grows, hc.text⟩

/-- What is allocated and remembered does not matter. -/
theorem Told.congr {c : Analysis} (ha : Told p k b a) (hgraph : c.graph = a.graph)
    (hfunctions : c.functions = a.functions) (hobjects : c.objects = a.objects)
    (hallocated : a.allocated <+: c.allocated) : Told p k b c := by
  refine ⟨⟨hgraph ▸ ha.grows.graph, hfunctions ▸ ha.grows.functions, hobjects ▸ ha.grows.objects,
    ha.grows.allocated.trans hallocated⟩, ⟨?_, hfunctions ▸ ha.text.declared⟩⟩
  rw [hgraph, hfunctions, hobjects]
  exact ha.text.graph

theorem Told.lexical {s : ScopeId} (ha : Told p k b a) (hs : b.graph.Lexical s) : a.graph.Lexical s :=
  hs.grows ha.grows.graph

end Analysis

open Analysis

namespace AnalysisM

/-- **The computation tells what the program says**: from any state that continues `b`, it keeps
to the text, and a fault has a cause in the program. -/
abbrev Tells (p : Program) (b : Analysis) (x : AnalysisM α) : Prop :=
  Keeps (Told p 0 b) (Fault.Caused p) x

/-- What is done to the graph alone. -/
theorem onGraph_ends {x : GraphM α} {j : Nat} (ha : Told p k b a)
    (hx : Ends (ScopeGraph.Told p (1 + 2 * a.functions.length + a.objects.length + j) a.graph)
      (Fault.Caused p) x a.graph) : Ends (Told p j b) (Fault.Caused p) (onGraph x) a := by
  unfold Ends
  cases hg : x a.graph with
  | error e g =>
    rw [onGraph_error hg]
    exact hx.of_error hg
  | ok v g =>
    rw [onGraph_ok hg]
    obtain ⟨hgrows, htext⟩ := hx.of_ok hg
    refine ⟨⟨?_, ha.grows.functions, ha.grows.objects, ha.grows.allocated⟩, htext, ha.text.declared⟩
    exact trans_of ScopeGraph.Grows ha.grows.graph hgrows

theorem gather_tells {f : α → AnalysisM (List β)} : ∀ {xs : List α}, (∀ x ∈ xs, Tells p b (f x)) →
    Tells p b (gather f xs)
  | [], _ => keeps_pure _
  | x :: xs, h => by
    obtain ⟨hx, hxs⟩ := List.forall_mem_cons.1 h
    exact hx.bind fun _ => (gather_tells hxs).bind fun _ => keeps_pure _

theorem recordAllocation_tells (o : ObjRef) : Tells p b (recordAllocation o) := by
  intro a ha
  change Told p 0 b (if o ∈ a.allocated then a else _)
  split
  · exact ha
  · exact ha.congr rfl rfl rfl (List.prefix_append ..)

theorem recordAllocations_tells : ∀ os, Tells p b (recordAllocations os)
  | [] => keeps_pure _
  | o :: os => (recordAllocation_tells o).bind fun _ => recordAllocations_tells os

/-! ## Creation -/

/-- Different positions in a table are not more than the table has. -/
theorem length_le_of_nodup {α : Type} {l : List α} {f : α → Nat} {n : Nat} (hf : Function.Injective f)
    (hl : l.Nodup) (hlt : ∀ x ∈ l, f x < n) : l.length ≤ n := by
  have hsub : l.map f ⊆ List.range n := by
    intro i hi
    obtain ⟨x, hx, rfl⟩ := List.mem_map.1 hi
    exact List.mem_range.2 (hlt x hx)
  simpa using (List.subperm_of_subset (hl.map hf) hsub).length_le

theorem shapeIndex_injective : Function.Injective ShapeId.index := fun ⟨_⟩ ⟨_⟩ h => congrArg ShapeId.mk h

/-- **Shapes wait for the object of a shape** that all of them inherit from. -/
structure Awaits (p : Program) (path : List ShapeId) (s : ShapeId) : Prop where
  distinct : path.Nodup
  declared : ∀ t ∈ path, t.index < p.shapes.length
  inherit : ∀ t ∈ path, TransGen p.Inherits t s

theorem Awaits.length_le {path : List ShapeId} {s : ShapeId} (h : Awaits p path s) :
    path.length ≤ p.shapes.length :=
  length_le_of_nodup shapeIndex_injective h.distinct h.declared

/-- A shape that does not wait yet waits for its prototype. -/
theorem Awaits.cons {path : List ShapeId} {s t : ShapeId} {d : ShapeDecl} (h : Awaits p path s)
    (hs : s ∉ path) (hd : p.shape? s = some d) (ht : d.proto = some t) : Awaits p (s :: path) t := by
  have hst : p.Inherits s t := ⟨d, hd, ht⟩
  refine ⟨List.nodup_cons.2 ⟨hs, h.distinct⟩, List.forall_mem_cons.2 ⟨?_, h.declared⟩,
    List.forall_mem_cons.2 ⟨.single hst, fun q hq => (h.inherit q hq).tail hst⟩⟩
  exact (List.getElem?_eq_some_iff.1 hd).1

/-- The scope of an object is added and then the object. -/
theorem addObjectOf_ends {s : ShapeId} {d : ShapeDecl} (hd : p.shape? s = some d)
    (parent : Option ScopeId) (ha : Told p 0 b a) : Ends (Told p 0 b) (Fault.Caused p)
      (onGraph (GraphM.addObjectScope s parent d.properties) >>= addObject s) a := by
  refine (onGraph_ends ha (GraphM.addObjectScope_ends ha.text.graph hd parent)).bind fun scope c hc => ?_
  refine ⟨⟨hc.grows.graph, hc.grows.functions, hc.grows.objects.trans (List.prefix_append ..),
    hc.grows.allocated⟩, ?_, hc.text.declared⟩
  have hgraph := hc.text.graph
  simpa [Nat.add_assoc] using hgraph

/-- The object of a shape is created with its prototype chain. -/
theorem createObjectWithin_tells : ∀ (n : Nat) (path : List ShapeId) (s : ShapeId), Awaits p path s →
    n + path.length = p.shapes.length + 1 → .shape s ∈ p.words → Tells p b (createObjectWithin p n path s)
  | 0, path, s, hpath, hlength, _ => by
    -- more shapes would wait than there are
    have hle := hpath.length_le
    omega
  | n + 1, path, s, hpath, hlength, hs => by
    refine keeps_get_bind fun a ha => ?_
    cases a.findObject s with
    | some o => exact ha
    | none =>
      dsimp only
      by_cases hmem : s ∈ path
      · rw [if_pos hmem]
        exact hpath.inherit s hmem
      rw [if_neg hmem, objectScope, bind_assoc]
      refine ends_demandShape_bind hs fun d hd => ?_
      cases hproto : d.proto with
      | none => exact addObjectOf_ends hd none ha
      | some t =>
        have hcreate : Tells p b (createObjectWithin p n (s :: path) t) := by
          refine createObjectWithin_tells n (s :: path) t (hpath.cons hmem hd hproto) ?_
            ((Program.says_of_shape hd).proto t hproto)
          rw [List.length_cons]
          omega
        dsimp only
        rw [bind_assoc]
        exact (hcreate a ha).bind fun o c hc => addObjectOf_ends hd _ hc

theorem createObject_tells {s : ShapeId} (hs : .shape s ∈ p.words) : Tells p b (createObject p s) :=
  createObjectWithin_tells _ [] s ⟨.nil, by simp, by simp⟩ (by simp) hs

theorem createObject?_tells {shape : Option ShapeId} (hs : ∀ s ∈ shape, .shape s ∈ p.words) :
    Tells p b (createObject? p shape) := by
  cases shape with
  | none => exact keeps_pure _
  | some s => exact (createObject_tells (hs s rfl)).bind fun _ => keeps_pure _

theorem introduceFunction_tells {f : FunctionId} {d : FunctionDecl} {parent : ScopeId}
    (hf : .function f ∈ p.words) (hd : p.function? f = some d) (hparent : b.graph.Lexical parent)
    (prototype object : Option ObjRef) : Tells p b (introduceFunction p f parent prototype object) := by
  intro a ha
  obtain ⟨statics, g, hstatics⟩ :
      ∃ statics g, GraphM.addScope (.statics f) none a.graph = .ok statics g := ⟨_, _, rfl⟩
  obtain ⟨hg, -, -⟩ := GraphM.addScope_told ha.text.graph hstatics
  have hbody := GraphM.addBodyScope_ends hg.text hd ((ha.lexical hparent).grows hg.grows)
  unfold Ends
  rw [introduceFunction_apply hd parent prototype object hstatics]
  cases hscope : GraphM.addBodyScope p f d parent g with
  | error e h => exact hbody.of_error hscope
  | ok body h =>
    obtain ⟨hgh, hh⟩ := hbody.of_ok hscope
    have hgrows := trans_of ScopeGraph.Grows ha.grows.graph (trans_of ScopeGraph.Grows hg.grows hgh)
    refine ⟨⟨trans_of ScopeGraph.Grows hgrows (ScopeGraph.joinOwn_grows ..),
      ha.grows.functions.trans (List.prefix_append ..), ha.grows.objects, ha.grows.allocated⟩, ?_, ?_⟩
    · have hcount : 1 + 2 * a.functions.length + a.objects.length + 0 + 1 + 1 =
          1 + 2 * (a.functions.length + 1) + a.objects.length + 0 := by omega
      rw [hcount] at hh
      simpa using hh.joinOwn body SlotName.callee (.function ⟨a.functions.length⟩)
    · intro e he
      rcases List.mem_append.1 he with he | he
      · exact ha.text.declared e he
      · rw [List.mem_singleton.1 he]
        exact hf

theorem createFunction_tells {f : FunctionId} {parent : ScopeId} (hf : .function f ∈ p.words)
    (hparent : b.graph.Lexical parent) : Tells p b (createFunction p f parent) := by
  refine keeps_get_bind fun a ha => ?_
  cases a.findFunction f with
  | some r => exact ha
  | none =>
    refine ends_demandFunction_bind hf fun d hd => ?_
    have htext := Program.says_of_function hd
    exact ((createObject?_tells htext.prototypeShape).bind fun prototype =>
      (createObject?_tells htext.objectShape).bind fun object =>
        introduceFunction_tells hf hd hparent prototype object) a ha

/-! ## Narrowing and widening -/

theorem narrow_tells (t : ConcreteType) (d : DeclaredType) : Tells p b (narrow env t d) := by
  unfold narrow
  split
  · exact keeps_pure _
  · split
    · refine keeps_get_bind fun a ha => ?_
      split
      · exact ha
      · exact ha.congr rfl rfl rfl List.prefix_rfl
    · exact keeps_get_bind fun a ha => ha

theorem narrow?_tells (t : ConcreteType) (d : Option DeclaredType) : Tells p b (narrow? env t d) := by
  cases d with
  | none => exact keeps_pure _
  | some d => exact narrow_tells t d

mutual

theorem widen_tells (hglobal : b.graph.Lexical .global) :
    ∀ d, p.Says (DeclaredType.words d) → Tells p b (widen p d)
  | .unknown, _ => keeps_pure _
  | .anyObject, _ => keeps_pure _
  | .primitive, _ => keeps_pure _
  | .object s, hd => by
    have hs : .shape s ∈ p.words := hd _ (by simp [DeclaredType.words])
    rw [widen]
    intro a ha
    refine ends_demandShape_bind hs fun decl hdecl => ?_
    split
    · exact ha
    · refine Keeps.bind (createObject_tells hs) (fun o => ?_) a ha
      exact (recordAllocation_tells o).bind fun _ => keeps_get_bind fun c hc => hc
  | .function (some f) signature, hd => by
    have hf : .function f ∈ p.words := hd _ (by simp [DeclaredType.words])
    rw [widen]
    refine keeps_get_bind fun a ha => ?_
    cases a.findFunction f with
    | some r => exact ha
    | none =>
      refine ends_demandFunction_bind hf fun decl hdecl => ?_
      split
      · exact ((createFunction_tells hf hglobal).bind fun _ => keeps_pure _) a ha
      · exact ha
  | .function none _, _ => keeps_pure _
  | .union ds, hd => widenAny_tells hglobal ds hd
termination_by structural d => d

theorem widenAny_tells (hglobal : b.graph.Lexical .global) :
    ∀ ds, p.Says (DeclaredType.wordsAll ds) → Tells p b (widenAny p ds)
  | [], _ => keeps_pure _
  | d :: ds, hds => by
    simp only [DeclaredType.wordsAll, Program.says_append] at hds
    exact (widen_tells hglobal d hds.1).bind fun _ => (widenAny_tells hglobal ds hds.2).bind fun _ =>
      keeps_pure _
termination_by structural ds => ds

end

/-! ## Inference -/

theorem functionProperty_tells (f : FnRef) (name : String) : Tells p b (functionProperty p f name) := by
  refine keeps_get_bind fun a ha => ?_
  cases he : a.function? f with
  | none => exact ha
  | some e =>
    dsimp only
    split
    · exact ha
    · split
      · exact ha
      · split
        · have hdecl : .function e.decl ∈ p.words := ha.text.declared e (List.mem_of_getElem? he)
          refine ends_demandFunction_bind hdecl fun d hd => ?_
          cases hc : d.superclass with
          | none => exact ha
          | some c =>
            refine ends_demandFunction_bind ((Program.says_of_function hd).superclass c hc) fun d' hd' => ?_
            cases hs : d'.prototypeShape with
            | none => exact ha
            | some s =>
              have hshape := (Program.says_of_function hd').prototypeShape s hs
              exact ((createObject_tells hshape).bind fun _ => keeps_pure _) a ha
        · exact ha

theorem entityProperty_tells (name : String) (e : Entity) : Tells p b (entityProperty p name e) := by
  cases e with
  | object o => exact keeps_get_bind fun a ha => ha
  | function f => exact functionProperty_tells f name

theorem entityProperties_tells (name : String) : ∀ es, Tells p b (entityProperties p name es)
  | [] => keeps_pure _
  | e :: es => (entityProperty_tells name e).bind fun _ =>
    (entityProperties_tells name es).bind fun _ => keeps_pure _

theorem propertyType_tells (receiver : ConcreteType) (name : String) :
    Tells p b (propertyType p receiver name) := by
  cases receiver with
  | all => exact keeps_pure _
  | only s => exact entityProperties_tells name s.members

mutual

theorem infer_tells {s : ScopeId} (hs : b.graph.Lexical s) :
    ∀ e, env.program.Says (Expr.words e) → Tells env.program b (infer env s e)
  | ⟨form, declared⟩, he => by
    simp only [Expr.words, Program.says_append] at he
    exact (inferForm_tells hs declared he.2 form he.1).bind fun t => narrow?_tells t declared
termination_by structural e => e

theorem inferForm_tells {s : ScopeId} (hs : b.graph.Lexical s) (declared : Option DeclaredType)
    (hdeclared : env.program.Says (DeclaredType.words? declared)) :
    ∀ form, env.program.Says (Form.words form) → Tells env.program b (inferForm env s declared form)
  | .name x, _ => keeps_get_bind fun a ha => ha
  | .this, _ => keeps_get_bind fun a ha => ha
  | .literal, _ => keeps_pure _
  | .function f, hform =>
    (createFunction_tells (hform _ (by simp [Form.words])) hs).bind fun _ => keeps_pure _
  | .objectLit _, _ => by
    unfold inferForm
    split
    · rename_i shape
      exact (createObject_tells (hdeclared _ (by simp [DeclaredType.words?, DeclaredType.words]))).bind
        fun _ => keeps_pure _
    · exact keeps_pure _
  | .arrayLit _, _ => by
    unfold inferForm
    split
    · rename_i shape hshape
      exact (createObject_tells (Program.says_arrayShape hshape)).bind fun _ => keeps_pure _
    · exact keeps_pure _
  | .prop receiver property, hform => by
    simp only [Form.words, Program.says_append] at hform
    exact (infer_tells hs receiver hform.1).bind fun t => propertyType_tells t property
  | .elem _ _, _ => keeps_pure _
  | .call callee _, hform => by
    simp only [Form.words, Program.says_append] at hform
    exact (infer_tells hs callee hform.1).bind fun _ => keeps_get_bind fun a ha => ha
  | .construct callee _, hform => by
    simp only [Form.words, Program.says_append] at hform
    rw [inferForm]
    refine (infer_tells hs callee hform.1).bind fun t => ?_
    cases t with
    | all => exact keeps_throw trivial
    | only m => exact keeps_get_bind fun a ha => ha
  | .assign _ value, hform => by
    simp only [Form.words, Program.says_append] at hform
    exact infer_tells hs value hform.2
  | .comma operands, hform => inferLast_tells hs operands hform
  | .and left right, hform => by
    simp only [Form.words, Program.says_append] at hform
    exact (infer_tells hs left hform.1).bind fun _ => (infer_tells hs right hform.2).bind fun _ =>
      keeps_pure _
  | .or left right, hform => by
    simp only [Form.words, Program.says_append] at hform
    exact (infer_tells hs left hform.1).bind fun _ => (infer_tells hs right hform.2).bind fun _ =>
      keeps_pure _
  | .cond _ yes no, hform => by
    simp only [Form.words, Program.says_append] at hform
    exact (infer_tells hs yes hform.1.2).bind fun _ => (infer_tells hs no hform.2).bind fun _ =>
      keeps_pure _
  | .unknown _, _ => keeps_pure _
termination_by structural form => form

theorem inferLast_tells {s : ScopeId} (hs : b.graph.Lexical s) :
    ∀ es, env.program.Says (Expr.wordsAll es) → Tells env.program b (inferLast env s es)
  | [], _ => keeps_pure _
  | [e], hes => by
    simp only [Expr.wordsAll, Program.says_append] at hes
    exact infer_tells hs e hes.1
  | _ :: e :: es, hes => by
    rw [Expr.wordsAll, Program.says_append] at hes
    exact inferLast_tells hs (e :: es) hes.2
termination_by structural es => es

end

/-! ## Binding -/

theorem widen?_tells (hglobal : b.graph.Lexical .global) {d : Option DeclaredType}
    (hd : p.Says (DeclaredType.words? d)) : Tells p b (widen? p d) := by
  cases d with
  | none => exact keeps_pure _
  | some d => exact widen_tells hglobal d hd

theorem says_param {s : Signature} (hs : p.Says s.words) (i : Nat) :
    p.Says (DeclaredType.words? s.params[i]?) := by
  cases hi : s.params[i]? with
  | none => exact Program.says_nil
  | some d => exact (Program.says_signature.1 hs).1.of_mem_types d (List.mem_of_getElem? hi)

theorem says_param? {signature : Option Signature} (hsignature : p.Says (Signature.words? signature))
    (i : Nat) : p.Says (DeclaredType.words? (signature.bind (·.params[i]?))) := by
  cases signature with
  | none => exact Program.says_nil
  | some s => exact says_param hsignature i

theorem says_thisType {signature : Option Signature} (hsignature : p.Says (Signature.words? signature)) :
    p.Says (DeclaredType.words? (signature.bind (·.thisType))) := by
  cases signature with
  | none => exact Program.says_nil
  | some s => exact (Program.says_signature.1 hsignature).2.1

theorem callBack_tells (hglobal : b.graph.Lexical .global) {signature : Option Signature}
    (hsignature : p.Says (Signature.words? signature)) (f : FnRef) :
    Tells p b (callBack p signature f) := by
  refine keeps_get_bind fun a ha => ?_
  cases a.function? f with
  | none => exact ha
  | some e =>
    refine Ends.bind (gather_tells (fun x _ => ?_) a ha) fun bound c hc => ?_
    · exact (widen?_tells hglobal (says_param? hsignature x.2)).bind fun _ => keeps_pure _
    · cases a.graph.own e.body SlotName.this with
      | none => exact hc
      | some x =>
        exact ((widen?_tells hglobal (says_thisType hsignature)).bind fun _ => keeps_pure _) c hc

theorem bindCallback_tells (hglobal : b.graph.Lexical .global) {declared : Option DeclaredType}
    (hdeclared : p.Says (DeclaredType.words? declared)) (arg : ConcreteType) :
    Tells p b (bindCallback p declared arg) := by
  refine gather_tells fun f _ => callBack_tells hglobal ?_ f
  match declared, hdeclared with
  | some (.function _ signature), h =>
    simp only [DeclaredType.words?, DeclaredType.words, Program.says_append] at h
    exact h.2
  | some .unknown, _ | some .primitive, _ | some .anyObject, _ | some (.object _), _ | some (.union _), _
  | none, _ => exact Program.says_nil

theorem callBackArgument_tells (hglobal : b.graph.Lexical .global) {d : FunctionDecl}
    (hd : p.SaysFunction d) (i : Nat) (arg : ConcreteType) : Tells p b (callBackArgument p d i arg) := by
  unfold callBackArgument
  split
  · exact bindCallback_tells hglobal (says_param hd.signature i) arg
  · exact keeps_pure _

section Calls

variable {s : ScopeId} (hs : b.graph.Lexical s)
include hs

theorem escapeArguments_tells {args : List Expr} (hargs : env.program.Says (Expr.wordsAll args)) :
    Tells env.program b (escapeArguments env s args) :=
  gather_tells fun arg harg => (infer_tells hs arg (hargs.of_mem arg harg)).bind fun t =>
    bindCallback_tells hs.to_global Program.says_nil t

theorem bindArgument_tells {d : FunctionDecl} (hd : env.program.SaysFunction d) (params : List SlotId)
    {arg : Expr} (harg : env.program.Says arg.words) (i : Nat) :
    Tells env.program b (bindArgument env s d params arg i) := by
  refine (infer_tells hs arg harg).bind fun t => ?_
  refine (callBackArgument_tells hs.to_global hd i t).bind fun calledBack => ?_
  split
  · exact keeps_pure _
  · exact keeps_pure _

theorem bindFunction_tells (this : ConcreteType) {args : List Expr}
    (hargs : env.program.Says (Expr.wordsAll args)) (f : FnRef) :
    Tells env.program b (bindFunction env s this args f) := by
  refine keeps_get_bind fun a ha => ?_
  cases he : a.function? f with
  | none => exact ha
  | some e =>
    have hdecl : .function e.decl ∈ env.program.words := ha.text.declared e (List.mem_of_getElem? he)
    refine ends_demandFunction_bind hdecl fun d hd => ?_
    refine Ends.bind (gather_tells (fun x hx => ?_) a ha) fun bound c hc => hc
    have hmem : x.1 ∈ args := List.fst_mem_of_mem_zipIdx hx
    exact bindArgument_tells hs (Program.says_of_function hd) _ (hargs.of_mem x.1 hmem) x.2

theorem bindCallees_tells (callees this : ConcreteType) {args : List Expr}
    (hargs : env.program.Says (Expr.wordsAll args)) :
    Tells env.program b (bindCallees env s callees this args) := by
  cases callees with
  | all => exact escapeArguments_tells hs hargs
  | only m => exact gather_tells fun f _ => bindFunction_tells hs this hargs f

theorem explicitReceiver_tells {args : List Expr} (hargs : env.program.Says (Expr.wordsAll args)) :
    Tells env.program b (explicitReceiver env s args) := by
  cases args with
  | nil => exact keeps_pure _
  | cons first rest => exact infer_tells hs first (hargs.of_mem first (List.mem_cons_self ..))

theorem bindExplicitCall_tells (receiver callees : ConcreteType) {args : List Expr}
    (hargs : env.program.Says (Expr.wordsAll args)) :
    Tells env.program b (bindExplicitCall env s receiver callees args) := by
  have htail : env.program.Says (Expr.wordsAll args.tail) := by
    cases args with
    | nil => exact hargs
    | cons first rest => exact (Program.says_append.1 hargs).2
  refine (explicitReceiver_tells hs hargs).bind fun this => ?_
  refine Keeps.bind (gather_tells fun f _ => bindFunction_tells hs this htail f) fun bound => ?_
  exact (bindCallees_tells hs _ _ hargs).bind fun _ => keeps_pure _

theorem bindCall_tells {callee : Expr} {args : List Expr} (hcallee : env.program.Says callee.words)
    (hargs : env.program.Says (Expr.wordsAll args)) :
    Tells env.program b (bindCall env s callee args) := by
  unfold bindCall
  split
  · rename_i receiver property declared
    have hreceiver : env.program.Says receiver.words := by
      simp only [Expr.words, Form.words, Program.says_append] at hcallee
      exact hcallee.1.1
    refine (infer_tells hs receiver hreceiver).bind fun this => ?_
    cases this with
    | all => exact escapeArguments_tells hs hargs
    | only m =>
      refine (infer_tells hs _ hcallee).bind fun callees => ?_
      split
      · exact bindExplicitCall_tells hs _ callees hargs
      · exact bindCallees_tells hs callees _ hargs
  · exact (infer_tells hs _ hcallee).bind fun callees => bindCallees_tells hs callees ∅ hargs

theorem bindConstructor_tells {args : List Expr} (hargs : env.program.Says (Expr.wordsAll args))
    (f : FnRef) : Tells env.program b (bindConstructor env s args f) := by
  refine keeps_get_bind fun a ha => ?_
  cases (a.function? f).bind (·.object) with
  | none => exact bindFunction_tells hs ∅ hargs f a ha
  | some o =>
    exact ((recordAllocation_tells o).bind fun _ => bindFunction_tells hs (.object o) hargs f) a ha

theorem bindConstruct_tells {callee : Expr} {args : List Expr} (hcallee : env.program.Says callee.words)
    (hargs : env.program.Says (Expr.wordsAll args)) :
    Tells env.program b (bindConstruct env s callee args) := by
  refine (infer_tells hs callee hcallee).bind fun callees => ?_
  cases callees with
  | all => exact keeps_throw trivial
  | only m => exact gather_tells fun f _ => bindConstructor_tells hs hargs f

end Calls

/-- A property is added where it is not there yet. -/
theorem entitySlot_tells {name : String} (hname : .name name ∈ p.words) (e : Entity) :
    Tells p b (entitySlot name e) := by
  have hdeclare {a : Analysis} (ha : Told p 0 b a) {s : ScopeId} (hown : a.graph.own s name = none) :
      Ends (Told p 0 b) (Fault.Caused p)
        (do let x ← onGraph (GraphM.declare s name); return [x] : AnalysisM (List SlotId)) a :=
    (onGraph_ends ha (GraphM.declare_ends ha.text.graph.told (.inl hname) fun _ => hown)).bind
      fun _ c hc => hc
  cases e with
  | object o =>
    refine keeps_get_bind fun a ha => ?_
    cases a.object? o with
    | none => exact ha
    | some e =>
      dsimp only
      cases hx : a.graph.lookup e.scope name with
      | some x => exact ha
      | none => exact hdeclare ha (ScopeGraph.own_of_lookup_eq_none hx)
  | function f =>
    by_cases hprototype : name = PropertyName.prototype
    · rw [entitySlot, if_pos hprototype]
      exact keeps_pure _
    · rw [entitySlot, if_neg hprototype]
      refine keeps_get_bind fun a ha => ?_
      cases a.function? f with
      | none => exact ha
      | some e =>
        dsimp only
        cases hx : a.graph.own e.statics name with
        | some x => exact ha
        | none => exact hdeclare ha hx

theorem propertySlots_tells (receiver : ConcreteType) {name : String} (hname : .name name ∈ p.words) :
    Tells p b (propertySlots receiver name) := by
  cases receiver with
  | all => exact keeps_get_bind fun a ha => ha
  | only m => exact (gather_tells fun e _ => entitySlot_tells hname e).bind fun _ => keeps_pure _

/-- **Evaluating an action** of a lexical scope keeps to the text. -/
theorem evaluate_tells {s : ScopeId} (hs : b.graph.Lexical s) {action : Action}
    (haction : env.program.Says action.words) : Tells env.program b (evaluate env s action) := by
  cases action with
  | assign x value => exact (infer_tells hs value haction).bind fun _ => keeps_pure _
  | ret x value => exact (infer_tells hs value haction).bind fun _ => keeps_pure _
  | assignProperty receiver property value =>
    simp only [Action.words, Program.says_append, Program.says_cons] at haction
    refine (infer_tells hs receiver haction.1).bind fun r => ?_
    refine (infer_tells hs value haction.2.2).bind fun t => ?_
    split
    · exact keeps_pure _
    · exact (propertySlots_tells r haction.2.1).bind fun _ => keeps_pure _
  | call callee args =>
    simp only [Action.words, Program.says_append] at haction
    exact bindCall_tells hs haction.1 haction.2
  | construct callee args =>
    simp only [Action.words, Program.says_append] at haction
    exact bindConstruct_tells hs haction.1 haction.2
  | allocate literal =>
    exact (infer_tells hs literal haction).bind fun t => (recordAllocations_tells t.objects).bind fun _ =>
      keeps_pure _
  | declareFunction x f =>
    exact (createFunction_tells (haction _ (List.mem_singleton_self _)) hs).bind fun _ => keeps_pure _
  | declaredFlow x declared =>
    exact (widen_tells hs.to_global declared haction).bind fun _ => keeps_pure _

end AnalysisM

/-! ## Replays -/

theorem ScopeGraph.apply_told {n : Nat} : ∀ (zs : List Assignment) (dirty : List ScopeId)
    {g : ScopeGraph}, g.Textual p n → ScopeGraph.Told p n g (ScopeGraph.apply zs dirty g).2
  | [], _, _, hg => hg.told
  | ⟨x, t⟩ :: rest, dirty, g, hg => by
    rw [ScopeGraph.apply_cons]
    have hjoin : ScopeGraph.Told p n g (g.unionInto x t).2 :=
      ⟨ScopeGraph.unionInto_grows g x t, hg.unionInto x t⟩
    exact hjoin.trans (apply_told rest _ hjoin.text)

theorem Analysis.Told.assign (ha : Told p k b a) (zs : List Assignment) (dirty : List ScopeId) :
    Told p k b (a.assign zs dirty) := by
  obtain ⟨hgrows, htext⟩ := ScopeGraph.apply_told zs dirty ha.text.graph
  exact ⟨⟨trans_of ScopeGraph.Grows ha.grows.graph hgrows, ha.grows.functions, ha.grows.objects,
    ha.grows.allocated⟩, htext, ha.text.declared⟩

namespace AnalysisM

theorem replayActions_tells {s : ScopeId} : ∀ (actions : List Action) (dirty : List ScopeId),
    (∀ action ∈ actions, env.program.Says action.words ∧ b.graph.Lexical s) →
    Tells env.program b (replayActions env s actions dirty)
  | [], _, _ => keeps_pure _
  | action :: rest, dirty, h => by
    obtain ⟨⟨haction, hs⟩, hrest⟩ := List.forall_mem_cons.1 h
    refine (evaluate_tells hs haction).bind fun zs => ?_
    refine Keeps.bind (fun a ha => ha.assign zs dirty) fun dirty => ?_
    exact replayActions_tells rest dirty hrest

/-- **Replaying a scope** keeps to the text. -/
theorem replay_ends (ha : a.Textual env.program 0) (s : ScopeId) :
    Ends (fun c => c.Textual env.program 0) (Fault.Caused env.program) (replay env s) a := by
  have hactions : Tells env.program a (replayActions env s (a.graph.actionsOf s) []) :=
    replayActions_tells _ [] (ha.graph.actions s)
  have hbegun : Analysis.Told env.program 0 a a.begun := ha.told.congr rfl rfl rfl List.prefix_rfl
  unfold Ends
  rw [replay_apply]
  cases hr : replayActions env s (a.graph.actionsOf s) [] a.begun with
  | ok dirty c => exact ((hactions _ hbegun).of_ok hr).text
  | error e c => exact (hactions _ hbegun).of_error hr

end AnalysisM

/-- The ambient declarations and the body are extracted as the text says. -/
theorem extract_tells {n : Nat} {g : ScopeGraph} (hglobal : g.Lexical .global) :
    GraphM.Tells p n g (extract p p.ambient p.body) := by
  have hambient : p.Says (Stmt.wordsAll p.ambient) := Program.says_ambient
  have hbody : p.Says (Stmt.wordsAll p.body) := Program.says_body
  refine (Extraction.hoist_tells p p.ambient hambient).bind fun _ => ?_
  refine (Extraction.hoist_tells p p.body hbody).bind fun _ => ?_
  refine (ImplicitGlobals.declare_tells hbody).bind fun _ => ?_
  refine (Extraction.visit_tells rfl hglobal p.ambient hambient fun h => .inr (.inl h)).bind fun _ => ?_
  exact Extraction.visit_tells rfl hglobal p.body hbody fun h => .inr (.inr h)

theorem Analysis.fresh_textual (p : Program) : fresh.Textual p 0 := by
  refine ⟨⟨by simp [fresh], fun s a ha => ?_, rfl⟩, by simp [fresh]⟩
  unfold ScopeGraph.actionsOf ScopeGraph.scope? at ha
  cases hi : s.index <;> simp [fresh, hi] at ha

theorem prepare_ends (env : Setup) : Ends (fun a => a.Textual env.program 0) (Fault.Caused env.program)
    (AnalysisM.prepare env env.program.ambient env.program.body) .fresh := by
  have hfresh := Analysis.fresh_textual env.program
  have hglobal : fresh.graph.Lexical .global := .global (by decide)
  have hextract := extract_tells hglobal fresh.graph hfresh.graph.told
  unfold Ends
  rw [AnalysisM.prepare_apply, if_neg (by decide)]
  cases hx : extract env.program env.program.ambient env.program.body fresh.graph with
  | ok u g => exact ⟨(hextract.of_ok hx).text, hfresh.declared⟩
  | error e g => exact hextract.of_error hx

/-! ## Runs -/

/-- A run that faults is cut off, or it fails for a cause in the program. -/
theorem solve_caused {order : ReplayOrder} {limit : Nat} {e : Fault} (ha : a.Textual env.program 0)
    (h : (env.system.solve order limit a).result = .error e) :
    (e = .noFixedPoint limit limit ∧ ∃ ps q t, env.system.Exhausts order limit (env.system.firstQueue a)
      (env.system.takeDiscovered a).2 ps q t) ∨ e.Caused env.program := by
  have hreplay : ∀ u (s : Analysis) r t, s.Textual env.program 0 → env.system.replay u s = .ok r t →
      t.Textual env.program 0 := fun u s r t hs hr => (AnalysisM.replay_ends hs u).of_ok hr
  have htake : ∀ s : Analysis, s.Textual env.program 0 → (env.system.takeDiscovered s).2.Textual env.program 0 :=
    fun s hs => ⟨hs.graph, hs.declared⟩
  rw [ConstraintSystem.solve_eq] at h
  obtain hexhausts | ⟨ps, made, u, t, hfails⟩ := ConstraintSystem.iterate_error_iff.1 h
  · exact .inl hexhausts
  · obtain ⟨q, v, rs, w, hpasses, -, hmade, hu⟩ := hfails.failure
    have hv := hpasses.preserves hreplay htake (htake a ha)
    exact .inr ((AnalysisM.replay_ends (hmade.preserves hreplay hv) u).of_error hu)

theorem process_of_ok {ambient body : List Stmt} {c : Converged}
    (h : (env.trace ambient body a).result = .ok c) :
    env.process ambient body a = .ok c (env.trace ambient body a).final := by
  unfold Setup.process
  dsimp only
  rw [h]

theorem process_of_error {ambient body : List Stmt} {e : Fault}
    (h : (env.trace ambient body a).result = .error e) :
    env.process ambient body a = .error e (env.trace ambient body a).final := by
  unfold Setup.process
  dsimp only
  rw [h]

/-- **Every fault has a cause**: processing a program faults for a cause in the program, or else
it ends as the solver does, from a state that follows the text: it converges or is cut off. -/
theorem trace_result (env : Setup) :
    (∃ e, e.Caused env.program ∧
      (env.trace env.program.ambient env.program.body .fresh).result = .error e) ∨
    ∃ b, AnalysisM.prepare env env.program.ambient env.program.body .fresh = .ok ⟨⟩ b ∧
      b.Textual env.program 0 ∧
      ((∃ c, (env.system.solve env.config.order env.config.maxPasses b).result = .ok c ∧
          (env.trace env.program.ambient env.program.body .fresh).result = .ok c) ∨
        (∃ ps q t, env.system.Exhausts env.config.order env.config.maxPasses (env.system.firstQueue b)
            (env.system.takeDiscovered b).2 ps q t) ∧
          (env.trace env.program.ambient env.program.body .fresh).result =
            .error (.noFixedPoint env.config.maxPasses env.config.maxPasses)) := by
  unfold Setup.trace
  cases hprepare : AnalysisM.prepare env env.program.ambient env.program.body .fresh with
  | error e b => exact .inl ⟨e, (prepare_ends env).of_error hprepare, rfl⟩
  | ok u b =>
    have hb := (prepare_ends env).of_ok hprepare
    dsimp only
    cases hrun : (env.system.solve env.config.order env.config.maxPasses b).result with
    | ok c => exact .inr ⟨b, rfl, hb, .inl ⟨c, hrun, rfl⟩⟩
    | error e =>
      obtain ⟨rfl, hexhausts⟩ | hcaused := solve_caused hb hrun
      · exact .inr ⟨b, rfl, hb, .inr ⟨hexhausts, rfl⟩⟩
      · exact .inl ⟨e, hcaused, rfl⟩

/-! ## Well-formed programs -/

/-- A function or a shape that is mentioned is declared. -/
def Word.Declared (p : Program) : Word → Prop
  | .name _ => True
  | .function f => f.index < p.functions.length
  | .shape s => s.index < p.shapes.length

instance (p : Program) : DecidablePred (Word.Declared p)
  | .name _ => .isTrue trivial
  | .function f => inferInstanceAs (Decidable (f.index < p.functions.length))
  | .shape s => inferInstanceAs (Decidable (s.index < p.shapes.length))

/-- **A well-formed program**: the functions and shapes that it mentions are declared, no shape
inherits from itself, properties and parameters are not repeated and parameters have no reserved
name, and nothing outside the functions returns. -/
structure Program.WellFormed (p : Program) : Prop where
  declared : ∀ w ∈ p.words, w.Declared p
  acyclic : ∀ s, ¬ TransGen p.Inherits s s
  properties : ∀ d ∈ p.shapes, d.properties.Nodup
  params : ∀ d ∈ p.functions, d.params.Nodup
  reserved : ∀ d ∈ p.functions, ∀ x ∈ d.params,
    x ≠ SlotName.callee ∧ x ≠ SlotName.this ∧ x ≠ SlotName.ret
  ambient : Stmt.someReturns p.ambient = false
  body : Stmt.someReturns p.body = false

theorem Program.WellFormed.not_repeats (h : p.WellFormed) : ¬ p.Repeats := by
  rintro (⟨d, hd, hrepeats⟩ | ⟨d, hd, hrepeats⟩)
  · exact hrepeats (h.properties d hd)
  · refine hrepeats (List.nodup_append.2 ⟨by decide, h.params d hd, fun x hx y hy hxy => ?_⟩)
    obtain ⟨hcallee, hthis, hret⟩ := h.reserved d hd y hy
    simp only [SlotName.reserved, List.mem_cons, List.not_mem_nil, or_false] at hx
    rcases hx with rfl | rfl | rfl
    · exact hcallee hxy.symm
    · exact hthis hxy.symm
    · exact hret hxy.symm

/-- A well-formed program causes no fault but the one that is a matter of the run. -/
theorem Program.WellFormed.eq_of_caused (h : p.WellFormed) {e : Fault} (he : e.Caused p) :
    e = .unboundedConstructor := by
  cases e with
  | unboundedConstructor => rfl
  | duplicateSlot name scope => exact absurd he h.not_repeats
  | unknownFunction f =>
    have hlt : f.index < p.functions.length := h.declared _ he.1
    exact absurd (List.getElem?_eq_none_iff.1 he.2) (Nat.not_le.2 hlt)
  | unknownShape s =>
    have hlt : s.index < p.shapes.length := h.declared _ he.1
    exact absurd (List.getElem?_eq_none_iff.1 he.2) (Nat.not_le.2 hlt)
  | cyclicPrototype s => exact absurd he (h.acyclic s)
  | returnOutsideFunction =>
    rcases he with he | he
    · rw [h.ambient] at he
      cases he
    · rw [h.body] at he
      cases he
  | alreadyProcessed => exact he.elim
  | noFixedPoint n l => exact he.elim

/-- **Processing a well-formed program**, however it is configured, gives a result, stops on a callee
of `new` that may be anything, or runs out of passes. -/
theorem process_of_wellFormed (env : Setup) (h : env.program.WellFormed) :
    (∃ c a, env.process env.program.ambient env.program.body .fresh = .ok c a) ∨
      (∃ a, env.process env.program.ambient env.program.body .fresh = .error .unboundedConstructor a) ∨
      ∃ n l a, env.process env.program.ambient env.program.body .fresh = .error (.noFixedPoint n l) a := by
  rcases trace_result env with ⟨e, he, hresult⟩ | ⟨b, -, -, ⟨c, -, hresult⟩ | ⟨-, hresult⟩⟩
  · rw [h.eq_of_caused he] at hresult
    exact .inr (.inl ⟨_, process_of_error hresult⟩)
  · exact .inl ⟨c, _, process_of_ok hresult⟩
  · exact .inr (.inr ⟨_, _, _, process_of_error hresult⟩)

/-- Where shapes inherit from earlier ones only, no shape inherits from itself. -/
theorem not_transGen_inherits (h : ∀ s t, p.Inherits s t → t.index < s.index) (s : ShapeId) :
    ¬ TransGen p.Inherits s s := by
  have hlt : ∀ t, TransGen p.Inherits s t → t.index < s.index := by
    intro t ht
    induction ht with
    | single hst => exact h _ _ hst
    | tail _ hst ih => exact Nat.lt_trans (h _ _ hst) ih
  exact fun hs => Nat.lt_irrefl _ (hlt s hs)

/-- A class `D` that inherits from a class `B`, and one object of `D` in an undeclared variable. -/
def derived : Setup where
  program := {
    shapes := [{ name := "B.prototype", kind := .prototype, properties := ["m"] },
      { name := "D.prototype", kind := .prototype, proto := some ⟨0⟩ },
      { name := "D", kind := .constructed, properties := ["x"], proto := some ⟨1⟩ }]
    functions := [{ name := "B", body := some [], prototypeShape := some ⟨0⟩ },
      { name := "D", params := ["v"], objectShape := some ⟨2⟩, prototypeShape := some ⟨1⟩,
        superclass := some ⟨0⟩,
        body := some [.expr ⟨.assign ⟨.prop ⟨.this, none⟩ "x", none⟩ ⟨.name "v", none⟩, none⟩, .ret none] }]
    body := [.function ⟨0⟩, .function ⟨1⟩,
      .expr ⟨.assign ⟨.name "d", none⟩ ⟨.construct ⟨.name "D", none⟩ [⟨.name "B", none⟩], none⟩, none⟩] }

theorem derived_wellFormed : derived.program.WellFormed where
  declared := by decide
  acyclic := by
    refine not_transGen_inherits ?_
    rintro ⟨i⟩ t ⟨d, hd, ht⟩
    have hall : ∀ i < 3, ∀ d ∈ derived.program.shapes[i]?, ∀ t ∈ d.proto, t.index < i := by decide
    exact hall i (List.getElem?_eq_some_iff.1 hd).1 d hd t ht
  properties := by decide
  params := by decide
  reserved := by decide
  ambient := rfl
  body := rfl

/-- The derived class is processed, and it could only have ended in one of the three ways. -/
theorem derived_processed : derived.program.WellFormed ∧
    (derived.trace derived.program.ambient derived.program.body .fresh).result = .ok ⟨3, 14, 4⟩ ∧
    ((∃ c a, derived.process derived.program.ambient derived.program.body .fresh = .ok c a) ∨
      (∃ a, derived.process derived.program.ambient derived.program.body .fresh =
        .error .unboundedConstructor a) ∨
      ∃ n l a, derived.process derived.program.ambient derived.program.body .fresh =
        .error (.noFixedPoint n l) a) :=
  ⟨derived_wellFormed, by decide +kernel, process_of_wellFormed derived derived_wellFormed⟩

end TypeFlow
