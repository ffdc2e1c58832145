import TypeFlow.Proofs.FixedPoint
import TypeFlow.Proofs.FunctionCreation
import TypeFlow.Proofs.LexicalNames
import TypeFlow.Proofs.OrderIndependence

/-!
# What the scopes of an analysis belong to

Scopes are numbered as they come into being, so the same scope has different numbers in
different runs. What a scope belongs to does not depend on the run, and neither does what stands
in it: every scope belongs to the global code, to a function or to an object
(`Analysis.Owns`), a function with a body lies in the scope of the text that it stands in,
and its body scope holds what its text calls for (`FunctionEntry.Scripted`).

* `Analysis.Tidy.owns`: every scope has an owner.
* `Act.scripted`: creating something keeps all bodies as they are written.
* `Analysis.Chart`: the invariant of a run that compares it with others.
-/

namespace TypeFlow

variable {p : Program} {ambient body : List Stmt} {a b : Analysis} {s t parent : ScopeId} {K L : ScopeKind}

/-! ## Owners of scopes -/

namespace Analysis

/-- **The scope that belongs to an owner**: the global code, a function with its two scopes, or an
object. -/
inductive Owns (a : Analysis) : ScopeKind → ScopeId → Prop
  | global : Owns a .global .global
  | body {e : FunctionEntry} (entry : e ∈ a.functions) : Owns a (.body e.decl) e.body
  | statics {e : FunctionEntry} (entry : e ∈ a.functions) : Owns a (.statics e.decl) e.statics
  | object {e : ObjectEntry} (entry : e ∈ a.objects) : Owns a (.object e.shape) e.scope

theorem Owns.grows (h : a.Owns K s) (hab : a.Grows b) : b.Owns K s := by
  cases h with
  | global => exact .global
  | body entry => exact .body (hab.functions.subset entry)
  | statics entry => exact .statics (hab.functions.subset entry)
  | object entry => exact .object (hab.objects.subset entry)

theorem Owns.hasScope (h : a.Owns K s) (hv : a.Valid p) : ∃ parent, a.graph.HasScope s K parent := by
  cases h with
  | global => exact ⟨none, hv.root⟩
  | body entry =>
    obtain ⟨d, hd⟩ := hv.functions _ entry
    exact ⟨_, hd.body⟩
  | statics entry =>
    obtain ⟨d, hd⟩ := hv.functions _ entry
    exact ⟨_, hd.statics⟩
  | object entry =>
    obtain ⟨d, hd⟩ := hv.objects _ entry
    exact ⟨_, hd.scope⟩

theorem Owns.exists_body {f : FunctionId} (h : a.Owns (.body f) s) : ∃ e ∈ a.functions, e.decl = f ∧ e.body = s := by
  generalize hK : ScopeKind.body f = K at h
  cases h with
  | body entry => exact ⟨_, entry, (ScopeKind.body.inj hK).symm, rfl⟩
  | global | statics | object => cases hK

theorem Owns.exists_object {q : ShapeId} (h : a.Owns (.object q) s) : ∃ e ∈ a.objects, e.shape = q ∧ e.scope = s := by
  generalize hK : ScopeKind.object q = K at h
  cases h with
  | object entry => exact ⟨_, entry, (ScopeKind.object.inj hK).symm, rfl⟩
  | global | body | statics => cases hK

/-- A scope has one owner. -/
theorem Owns.kind_eq (h : a.Owns K s) (h' : a.Owns L s) (hv : a.Valid p) : K = L := by
  obtain ⟨-, c, hc, rfl, -⟩ := h.hasScope hv
  obtain ⟨-, d, hd, rfl, -⟩ := h'.hasScope hv
  rw [Option.some.inj (hc.symm.trans hd)]

theorem Tabled.function_eq (ha : a.Tabled) {e e' : FunctionEntry} (he : e ∈ a.functions) (he' : e' ∈ a.functions)
    (hdecl : e.decl = e'.decl) : e = e' :=
  List.inj_on_of_nodup_map ha.functions he he' hdecl

theorem Tabled.object_eq (ha : a.Tabled) {e e' : ObjectEntry} (he : e ∈ a.objects) (he' : e' ∈ a.objects)
    (hshape : e.shape = e'.shape) : e = e' :=
  List.inj_on_of_nodup_map ha.objects he he' hshape

/-- An owner has one scope of each kind. -/
theorem Owns.scope_eq (h : a.Owns K s) (h' : a.Owns K t) (ha : a.Tabled) : s = t := by
  generalize hK : K = L at h'
  cases h with
  | global => cases h' <;> cases hK; rfl
  | body entry =>
    cases h' with
    | body entry' => rw [ha.function_eq entry entry' (ScopeKind.body.inj hK)]
    | global | statics | object => cases hK
  | statics entry =>
    cases h' with
    | statics entry' => rw [ha.function_eq entry entry' (ScopeKind.statics.inj hK)]
    | global | body | object => cases hK
  | object entry =>
    cases h' with
    | object entry' => rw [ha.object_eq entry entry' (ScopeKind.object.inj hK)]
    | global | body | statics => cases hK

/-- All owners with their scopes. -/
def owners (a : Analysis) : List (ScopeKind × ScopeId) :=
  (.global, .global) :: (a.functions.map (fun e => (.body e.decl, e.body)) ++
    (a.functions.map (fun e => (.statics e.decl, e.statics)) ++ a.objects.map fun e => (.object e.shape, e.scope)))

theorem mem_owners {q : ScopeKind × ScopeId} (hq : q ∈ a.owners) : a.Owns q.1 q.2 := by
  unfold owners at hq
  rw [List.mem_cons, List.mem_append, List.mem_append, List.mem_map, List.mem_map, List.mem_map] at hq
  rcases hq with rfl | ⟨e, he, rfl⟩ | ⟨e, he, rfl⟩ | ⟨e, he, rfl⟩
  · exact .global
  · exact .body he
  · exact .statics he
  · exact .object he

/-- No owner is listed twice. -/
theorem Tabled.nodup_owners (ha : a.Tabled) : a.owners.Nodup := by
  have hkinds : a.owners.map Prod.fst = .global :: ((a.functions.map (·.decl)).map .body ++
      ((a.functions.map (·.decl)).map .statics ++ (a.objects.map (·.shape)).map .object)) := by
    simp [owners, Function.comp_def]
  refine .of_map Prod.fst ?_
  rw [hkinds]
  refine List.nodup_cons.2 ⟨by simp, List.nodup_append.2 ⟨?_, List.nodup_append.2 ⟨?_, ?_, ?_⟩, ?_⟩⟩
  · exact ha.functions.map fun _ _ => ScopeKind.body.inj
  · exact ha.functions.map fun _ _ => ScopeKind.statics.inj
  · exact ha.objects.map fun _ _ => ScopeKind.object.inj
  · rintro _ hK _ hL rfl
    obtain ⟨_, -, rfl⟩ := List.mem_map.1 hK
    simp at hL
  · rintro _ hK _ hL rfl
    obtain ⟨_, -, rfl⟩ := List.mem_map.1 hK
    simp at hL

/-- **Every scope has an owner**: the owners have different scopes, and there are as many of them. -/
theorem Tidy.owns (ha : a.Tidy p) {c : Scope} (hc : a.graph.scope? s = some c) : a.Owns c.kind s := by
  let positions := a.owners.map fun q => q.2.index
  have hnodup : positions.Nodup := by
    refine ha.tabled.nodup_owners.map_on fun q hq r hr hqr => ?_
    have hscope : q.2 = r.2 := congrArg ScopeId.mk hqr
    have hkind := (mem_owners hq).kind_eq (hscope ▸ mem_owners hr) ha.valid
    exact Prod.ext hkind hscope
  have hsub : positions ⊆ List.range a.graph.scopes.length := by
    intro i hi
    obtain ⟨q, hq, rfl⟩ := List.mem_map.1 hi
    obtain ⟨_, hscope⟩ := (mem_owners hq).hasScope ha.valid
    exact List.mem_range.2 hscope.lt
  have hlength : positions.length = (List.range a.graph.scopes.length).length := by
    rw [List.length_range, ha.text.graph.count]
    simp [positions, owners]
    omega
  have hperm := (List.subperm_of_subset hnodup hsub).perm_of_length_le hlength.ge
  obtain ⟨q, hq, hs⟩ := List.mem_map.1 (hperm.mem_iff.2 (List.mem_range.2 (ScopeGraph.scope_lt hc)))
  obtain rfl : q.2 = s := congrArg ScopeId.mk hs
  have howns := mem_owners hq
  obtain ⟨-, d, hd, hkind, -⟩ := howns.hasScope ha.valid
  rw [Option.some.inj (hc.symm.trans hd), hkind]
  exact howns

/-- The scope of an owner is the one that is found by its kind. -/
theorem Tidy.scopeOf_eq_some_iff (ha : a.Tidy p) : a.scopeOf K = some s ↔ a.Owns K s := by
  have hfound {i : Nat} (hi : a.graph.scopes.findIdx? (·.kind = K) = some i) : a.Owns K ⟨i⟩ := by
    obtain ⟨hlt, hkind, -⟩ := List.findIdx?_eq_some_iff_getElem.1 hi
    have hc : a.graph.scope? ⟨i⟩ = some _ := List.getElem?_eq_getElem hlt
    exact of_decide_eq_true hkind ▸ ha.owns hc
  unfold scopeOf
  constructor
  · intro h
    obtain ⟨i, hi, rfl⟩ := Option.map_eq_some_iff.1 h
    exact hfound hi
  · intro h
    obtain ⟨-, c, hc, hkind, -⟩ := h.hasScope ha.valid
    cases hi : a.graph.scopes.findIdx? (·.kind = K) with
    | none => exact absurd hkind (by simpa using List.findIdx?_eq_none_iff.1 hi c (List.mem_of_getElem? hc))
    | some i =>
      exact congrArg some ((hfound hi).scope_eq h ha.tabled)

end Analysis

/-! ## Where functions stand -/

/-- The text in the scope of an owner. -/
def Program.textOf (p : Program) (body : List Stmt) : ScopeKind → List Stmt
  | .global => body
  | .body f => ((p.function? f).bind (·.body)).getD []
  | .statics _ => []
  | .object _ => []

/-- A function with a body stands in the text of an owner. -/
def Housed (p : Program) (body : List Stmt) (K : ScopeKind) (f : FunctionId) : Prop :=
  ∀ d, p.function? f = some d → d.body ≠ none → .function f ∈ Stmt.mentionsAll (p.textOf body K)

theorem Program.mem_textOf_body {f g : FunctionId} (h : .function f ∈ Stmt.mentionsAll (p.textOf body (.body g))) :
    ∃ d text, p.function? g = some d ∧ d.body = some text ∧ .function f ∈ Stmt.mentionsAll text := by
  rw [Program.textOf] at h
  cases hd : p.function? g with
  | none =>
    rw [hd] at h
    cases h
  | some d =>
    rw [hd, Option.bind_some] at h
    cases ht : d.body with
    | none =>
      rw [ht] at h
      cases h
    | some text =>
      rw [ht] at h
      exact ⟨d, text, rfl, ht, h⟩

/-- A function stands in one text only. -/
theorem Program.StandsOnce.owner_eq (h : p.StandsOnce ambient body) {f : FunctionId}
    (hK : .function f ∈ Stmt.mentionsAll (p.textOf body K)) (hL : .function f ∈ Stmt.mentionsAll (p.textOf body L)) :
    K = L := by
  cases K with
  | global =>
    cases L with
    | global => rfl
    | body g =>
      obtain ⟨d, text, hd, ht, hmem⟩ := Program.mem_textOf_body hL
      exact absurd hmem (h.not_inner hK hd ht)
    | statics | object => cases hL
  | body g =>
    obtain ⟨d, text, hd, ht, hmem⟩ := Program.mem_textOf_body hK
    cases L with
    | global => exact absurd hmem (h.not_inner hL hd ht)
    | body g' =>
      obtain ⟨d', text', hd', ht', hmem'⟩ := Program.mem_textOf_body hL
      rw [h.outer_eq hd ht hmem hd' ht' hmem']
    | statics | object => cases hL
  | statics | object => cases hK

/-! ## Logs seen from another graph -/

section Logs

variable {g h g' h' : ScopeGraph} {A : Action}

theorem aims_iff {x : String} {slot : SlotId} : Aims s g h x slot ↔
    g.lookup s x = some slot ∨ g.lookup s x = none ∧ h.own .global x = some slot := by
  rw [ScopeGraph.lookup_eq_some_iff, ScopeGraph.lookup_eq_none_iff]
  rfl

/-- What a part calls for depends on what names stand for in the scope. -/
theorem Part.Gives.congr {r : Part} (hr : r.Gives p s g h A) (hown : ∀ x, g'.own s x = g.own s x)
    (hlookup : ∀ x, g'.lookup s x = g.lookup s x) (hroot : ∀ x, h'.own .global x = h.own .global x) :
    r.Gives p s g' h' A := by
  cases hr with
  | call => exact .call
  | construct => exact .construct
  | object => exact .object
  | array => exact .array
  | entry => exact .entry
  | name aims =>
    refine .name (aims_iff.2 ?_)
    rw [hlookup, hroot]
    exact aims_iff.1 aims
  | property => exact .property
  | var own => exact .var ((hown _).trans own)
  | ret own => exact .ret ((hown _).trans own)
  | function decl name own => exact .function decl name ((hown _).trans own)

theorem Part.LogsWithin.recast {q : Part} {D : List Nat → Prop} {log : Log} (hq : q.LogsWithin p s g h D log)
    (hown : ∀ x, g'.own s x = g.own s x) (hlookup : ∀ x, g'.lookup s x = g.lookup s x)
    (hroot : ∀ x, h'.own .global x = h.own .global x) : q.LogsWithin p s g' h' D log := by
  refine ⟨hq.once, hq.places, fun x hx => ?_, hq.ordered⟩
  obtain ⟨r, hr, hgives⟩ := hq.right x hx
  exact ⟨r, hr, hgives.congr hown hlookup hroot⟩

/-- If no name becomes a global one, names mean the same after the walk. -/
theorem ScopeGraph.Attends.lookup_eq {early : ScopeGraph} (hg : early.Attends s g)
    (hroot : ∀ x, g.own .global x = early.own .global x) (x : String) : g.lookup s x = early.lookup s x := by
  refine lookup_congr (P := fun _ => True) (fun t _ => hg.parents t) (fun _ _ _ _ => trivial) (fun t _ => ?_) trivial
  by_cases ht : t = .global
  · rw [ht]
    exact hroot x
  · exact hg.own ht

/-- **Extracting a text in which no name becomes a global one** writes a log of it, in terms of the
graph at the end. -/
theorem Extraction.collect_logs {text : List Stmt} (hs : s.index < g.scopes.length) (hne : s ≠ .global)
    (hx : collect p { global := .global, scope := s } text g = .ok ⟨⟩ h)
    (hroot : h.scope? .global = g.scope? .global) :
    ∃ log : Log, h.actionsOf s = g.actionsOf s ++ log.map Prod.snd ∧
      (Part.stmt (.block text)).Logs p s h h log := by
  obtain ⟨_, k, hhoist, hvisit⟩ := bind_ok hx
  obtain ⟨hthere, hplaced⟩ := hoist_placed hs hhoist
  have hfurnish := (hoist_furnishes text).ok hhoist
  have hwrites : WritesAt s k True (fun late => (Part.stmt (.block text)).Logs p s k late)
      (visit p ⟨.global, s, false⟩ text) k :=
    visitStmt_writes hne (fun _ => trivial) (fun _ => trivial) (.block text) hplaced k (.refl hthere)
  obtain ⟨hattends, -, log, hlog, hlogs⟩ := hwrites.of_ok hvisit
  have hsame (x : String) : h.own .global x = k.own .global x := by
    unfold ScopeGraph.own
    rw [hroot, hfurnish.others .global hne.symm]
  refine ⟨log, ?_, ?_⟩
  · rw [hlog, hfurnish.actions]
  · exact (hlogs h (refl_of _ h)).recast (fun x => hattends.own hne) (hattends.lookup_eq hsame) fun _ => rfl

end Logs

/-! ## Bodies as they are written -/

/-- **The body of a function is as it is written.** Its scope has the names that it declares and the
actions that its text calls for, and the functions that these mention stand in the text. -/
structure FunctionEntry.Scripted (p : Program) (body : List Stmt) (g : ScopeGraph) (e : FunctionEntry)
    (d : FunctionDecl) : Prop where
  decl : p.function? e.decl = some d
  scope : g.HasScope e.body (.body e.decl) (some e.parent)
  layout : g.LaidOut p d e.body
  written : ∀ text, d.body = some text → ∃ log : Log, g.actionsOf e.body = log.map Prod.snd ∧
    (Part.stmt (.block text)).Logs p e.body g g log
  ambient : d.body = none → ∃ ret, g.own e.body SlotName.ret = some ret ∧
    g.actionsOf e.body = [.declaredFlow ret d.signature.ret]
  texts : ∀ A ∈ g.actionsOf e.body, ∀ f, .function f ∈ A.mentions → Housed p body (.body e.decl) f

/-- **All bodies are as they are written**, and lie in the scope of the text that the function stands
in. -/
def Analysis.Scripted (p : Program) (body : List Stmt) (a : Analysis) : Prop :=
  ∀ e ∈ a.functions, (∃ d, e.Scripted p body a.graph d) ∧
    ∃ K, a.Owns K e.parent ∧ K.isCode = true ∧ Housed p body K e.decl

namespace ScopeGraph

variable {g h : ScopeGraph}

theorem Fixes.hasScope (hgh : g.Fixes h) {outer : Option ScopeId} (hs : g.HasScope s K outer) (hK : K.isCode = true) :
    h.HasScope s K outer := by
  obtain ⟨c, hc, rfl, rfl⟩ := hs
  exact ⟨c, hgh s c hc hK, rfl, rfl⟩

theorem LaidOut.congr {d : FunctionDecl} (hg : g.LaidOut p d s) (hs : h.scope? s = g.scope? s) : h.LaidOut p d s := by
  have hlayout : h.layoutOf s = g.layoutOf s := by
    unfold layoutOf
    rw [hs]
  refine ⟨(namesOf_of_layoutOf hlayout).trans hg.names, ?_⟩
  rw [paramsOf_of_layoutOf hlayout, hg.params]
  exact List.map_congr_left fun x _ => (own_of_layoutOf hlayout).symm

/-- Code lies in the global scope. -/
theorem Lexed.lexical (hg : g.Lexed p body) : g.HasCode s → g.Lexical s := by
  induction s using hg.sound.ordered.parent_induction with
  | hP s ih =>
    intro hs
    have ⟨c, hc, hcode⟩ := hs
    rcases hg.enclosed s c hc hcode with rfl | ⟨t, ht, htcode⟩
    · exact .global hg.root.lt
    · have hparent : g.parent? s = some t := Option.bind_eq_some_iff.2 ⟨c, hc, ht⟩
      exact .inner hparent (hg.sound.ordered s t hparent) (ih t hparent htcode)

/-- **Bodies stay as they are written** while code stays as it is. -/
theorem Fixes.scripted (hgh : g.Fixes h) (hg : g.Lexed p body) {e : FunctionEntry} {d : FunctionDecl}
    (he : e.Scripted p body g d) : e.Scripted p body h d := by
  have hcode : g.HasCode e.body := by
    obtain ⟨c, hc, hkind, -⟩ := he.scope
    exact ⟨c, hc, by rw [hkind]; rfl⟩
  have hsame (t : ScopeId) (ht : g.HasCode t) : h.scope? t = g.scope? t := by
    obtain ⟨c, hc, hcode⟩ := ht
    rw [hc, hgh t c hc hcode]
  have hown (x : String) : h.own e.body x = g.own e.body x := by
    unfold own
    rw [hsame _ hcode]
  have hroot (x : String) : h.own .global x = g.own .global x := by
    unfold own
    rw [hsame _ hg.root_code]
  have hactions : h.actionsOf e.body = g.actionsOf e.body := by
    unfold actionsOf
    rw [hsame _ hcode]
  refine ⟨he.decl, hgh.hasScope he.scope rfl, he.layout.congr (hsame _ hcode), fun text ht => ?_, fun hnone => ?_, ?_⟩
  · obtain ⟨log, hlog, hlogs⟩ := he.written text ht
    exact ⟨log, hactions.trans hlog, hlogs.recast hown (hg.lookup_eq hgh hcode) hroot⟩
  · obtain ⟨ret, hret, hflow⟩ := he.ambient hnone
    exact ⟨ret, (hown _).trans hret, hactions.trans hflow⟩
  · rw [hactions]
    exact he.texts

/-- **A new body is as it is written.** -/
theorem Lexed.scripted (hg : g.Lexed p body) {f : FunctionId} {d : FunctionDecl}
    {scope statics : ScopeId} {prototype object : Option ObjRef} (hcode : g.HasCode parent)
    (hd : p.function? f = some d) (hf : g.Places p body parent f)
    (hx : GraphM.addBodyScope p f d parent g = .ok scope h) :
    FunctionEntry.Scripted p body h ⟨f, parent, scope, statics, object, prototype⟩ d := by
  have hlexical := hg.lexical hcode
  have hextracts := GraphM.addBodyScope_extracts (f := f) hg.sound hcode.lt fun text names ht hn x hx =>
    hg.found hcode hf hd ht hn hx
  obtain ⟨-, hfixes⟩ := hg.addBodyScope hcode hd hf
  rw [finalState_ok hx] at hextracts hfixes
  have hroot : h.scope? .global = g.scope? .global := by
    obtain ⟨c, hc, hc'⟩ := hg.root_code
    rw [hc, hfixes _ c hc hc']
  obtain ⟨rfl, hscope⟩ := GraphM.addBodyScope_ok hx
  let g' : ScopeGraph := { g with scopes := g.scopes ++ [{ kind := .body f, parent := some parent }] }
  have hlt : g.scopes.length < g'.scopes.length := by simp [g']
  have hne : (⟨g.scopes.length⟩ : ScopeId) ≠ .global :=
    fun heq => Nat.ne_of_gt hg.root.lt (congrArg ScopeId.index heq)
  have hempty : g'.actionsOf ⟨g.scopes.length⟩ = [] := by
    unfold actionsOf
    rw [show g'.scope? ⟨g.scopes.length⟩ = some _ from List.getElem?_concat_length]
    rfl
  -- the names that every body has, and the parameters
  have hfill (t : ScopeId) : Moves Grows (GraphM.fillBodyScope p d t) := fun g =>
    (GraphM.fillBodyScope_builds (D := fun _ => True) (E := fun _ => True) trivial trivial trivial p d g).grows
  obtain ⟨-, hok, -⟩ := GraphM.addScope_fill_ok hfill hx
  obtain ⟨_, k₁, h₁, hrest⟩ := bind_ok hok
  obtain ⟨_, k₂, h₂, hrest⟩ := bind_ok hrest
  obtain ⟨ret, k₃, h₃, hrest⟩ := bind_ok hrest
  obtain ⟨_, k, h₄, hrest⟩ := bind_ok hrest
  have hto₂ : Furnishes ⟨g.scopes.length⟩ g' k₂ := trans_of (Furnishes _)
    ((GraphM.declare_furnishes _).ok h₁) ((GraphM.declare_furnishes _).ok h₂)
  have hto₄ : Furnishes ⟨g.scopes.length⟩ k₃ k := (GraphM.declareParams_furnishes _).ok h₄
  have hto : Furnishes ⟨g.scopes.length⟩ g' k := trans_of (Furnishes _) hto₂
    (trans_of (Furnishes _) ((GraphM.declare_furnishes _).ok h₃) hto₄)
  have hret : k.own ⟨g.scopes.length⟩ SlotName.ret = some ret :=
    hto₄.builds.grows.own (GraphM.declare_own (Nat.lt_of_lt_of_le hlt hto₂.builds.grows.scopes.length_le) h₃)
  have hltk := Nat.lt_of_lt_of_le hlt hto.builds.grows.scopes.length_le
  refine ⟨hd, hscope, (GraphM.addBodyScope_layout hlexical).2 _ _ hx, fun text ht => ?_, fun hnone => ?_,
    fun A hA f' hf' d' hd' hbody => ?_⟩
  · rw [ht] at hrest
    have hglobal : h.scope? .global = k.scope? .global := by
      rw [hto.others _ hne.symm, hroot]
      exact (scope?_addScope_of_ne _ hne.symm).symm
    obtain ⟨log, hlog, hlogs⟩ := Extraction.collect_logs hltk hne hrest hglobal
    refine ⟨log, ?_, hlogs⟩
    rw [hlog, hto.actions, hempty, List.nil_append]
  · rw [hnone] at hrest
    cases hrest
    refine ⟨ret, (pushAction_grows ..).own hret, ?_⟩
    rw [actionsOf_pushAction hltk, hto.actions, hempty, List.nil_append]
  · rcases hextracts.actions A hA with hold | hstands
    · rw [hempty] at hold
      cases hold
    · obtain ⟨text, -, ht, -, hmem, -⟩ := hstands f' hf'
      rw [Program.textOf, hd, Option.bind_some, ht]
      exact hmem

end ScopeGraph

/-! ## Acts -/

section Acts

variable {ms : List Mention} {outer : Option ScopeId}

theorem ScopeGraph.HasScope.hasCode {g : ScopeGraph} (hs : g.HasScope s K outer) (hK : K.isCode = true) :
    g.HasCode s := by
  obtain ⟨c, hc, rfl, -⟩ := hs
  exact ⟨c, hc, hK⟩

theorem AnalysisM.functions_addObject (x : GraphM ScopeId) (shape : ShapeId) (a : Analysis) :
    (finalState (onGraph x >>= addObject shape) a).functions = a.functions := by
  unfold finalState
  rw [bind_apply]
  cases hx : x a.graph with
  | error e g =>
    rw [onGraph_error hx]
  | ok scope g =>
    rw [onGraph_ok hx]
    rfl

/-- A function that is introduced where it stands has its body as it is written. -/
theorem Analysis.Lexed.introduced (ha : a.Lexed p body) {f : FunctionId} {d : FunctionDecl}
    (prototype object : Option ObjRef) (hd : p.function? f = some d) (hcode : a.graph.HasCode parent)
    (hf : a.graph.Places p body parent f) :
    let b := finalState (AnalysisM.introduceFunction p f parent prototype object) a
    a.functions ⊆ b.functions ∧ ∀ e ∈ b.functions, e ∈ a.functions ∨
      e.decl = f ∧ e.parent = parent ∧ ∃ d, e.Scripted p body b.graph d := by
  let g : ScopeGraph := { a.graph with scopes := a.graph.scopes ++ [{ kind := .statics f, parent := none }] }
  have hadd : GraphM.addScope (.statics f) none a.graph = .ok ⟨a.graph.scopes.length⟩ g := rfl
  obtain ⟨hg, hfixes⟩ : g.Lexed p body ∧ a.graph.Fixes g := ha.graph.addScope rfl (by simp)
  have hplaced : g.Places p body parent f := ha.graph.places hfixes hcode hf
  obtain ⟨hh, -⟩ := hg.addBodyScope (hfixes.hasCode hcode) hd hplaced
  unfold finalState
  rw [AnalysisM.introduceFunction_apply hd parent prototype object hadd]
  cases hx : GraphM.addBodyScope p f d parent g with
  | error e h => exact ⟨List.Subset.refl _, fun e he => .inl he⟩
  | ok scope h =>
    refine ⟨List.subset_append_left .., fun e he => ?_⟩
    rcases List.mem_append.1 he with he | he
    · exact .inl he
    · obtain rfl := List.mem_singleton.1 he
      rw [finalState_ok hx] at hh
      have hscripted : FunctionEntry.Scripted p body h ⟨f, parent, scope, ⟨a.graph.scopes.length⟩, object, prototype⟩ d :=
        hg.scripted (hfixes.hasCode hcode) hd hplaced hx
      obtain ⟨-, hsame⟩ := hh.of_scopes (ScopeGraph.scopes_joinOwn h scope SlotName.callee _)
        (hh.sound.joinOwn scope SlotName.callee (.function ⟨a.functions.length⟩))
      exact .inr ⟨rfl, rfl, d, hsame.scripted hh hscripted⟩

/-- The functions that an act adds stand where they belong, and have their bodies as they are written. -/
theorem Act.introduced (h : Act p s ms a b) (ha : a.Lexed p body) (hs : a.graph.HasCode s)
    (hplaced : ∀ f, .function f ∈ ms → a.graph.Places p body s f) :
    a.functions ⊆ b.functions ∧ ∀ e ∈ b.functions, e ∈ a.functions ∨
      Belongs p s ms e.decl e.parent ∧ ∃ d, e.Scripted p body b.graph d := by
  cases h with
  | object shape parent names older =>
    rw [AnalysisM.functions_addObject]
    exact ⟨List.Subset.refl _, fun e he => .inl he⟩
  | property name owner =>
    rw [AnalysisM.finalState_onGraph]
    exact ⟨List.Subset.refl _, fun e he => .inl he⟩
  | note graph functions objects _ =>
    rw [functions]
    exact ⟨List.Subset.refl _, fun e he => .inl he⟩
  | @function f d parent prototype object decl belongs =>
    have hplace : a.graph.HasCode parent ∧ a.graph.Places p body parent f := by
      cases belongs with
      | mentioned hf => exact ⟨hs, hplaced _ hf⟩
      | ambient decl' hbody =>
        -- without a body it may stand anywhere
        refine ⟨ha.graph.root_code, fun d hd hne => ?_⟩
        obtain rfl := Option.some.inj (decl'.symm.trans hd)
        exact absurd hbody hne
    obtain ⟨hsub, hnew⟩ := ha.introduced prototype object decl hplace.1 hplace.2
    refine ⟨hsub, fun e he => (hnew e he).imp_right ?_⟩
    rintro ⟨hdecl, hparent, hscripted⟩
    rw [hdecl, hparent]
    exact ⟨belongs, hscripted⟩

theorem Analysis.Owns.of_subset (h : a.Owns K s) (hK : K.isCode = true) (hsub : a.functions ⊆ b.functions) :
    b.Owns K s := by
  cases h with
  | global => exact .global
  | body entry => exact .body (hsub entry)
  | statics | object => cases hK

/-- **One act keeps all bodies as they are written**, if what it may create stands in its scope. -/
theorem Act.scripted (h : Act p s ms a b) (ha : a.Lexed p body) (hs : a.graph.HasCode s) (howns : a.Owns K s)
    (hK : K.isCode = true) (hplaced : ∀ f, .function f ∈ ms → a.graph.Places p body s f)
    (hhoused : ∀ f, .function f ∈ ms → Housed p body K f) (hscripted : a.Scripted p body) :
    b.Scripted p body ∧ a.functions ⊆ b.functions := by
  obtain ⟨-, hfixes⟩ := h.lexed ha hs hplaced
  obtain ⟨hsub, hnew⟩ := h.introduced ha hs hplaced
  refine ⟨fun e he => ?_, hsub⟩
  rcases hnew e he with he | ⟨hbelongs, hd⟩
  · obtain ⟨⟨d, hd⟩, L, hL, hcode, hhoused⟩ := hscripted e he
    exact ⟨⟨d, hfixes.scripted ha.graph hd⟩, L, hL.of_subset hcode hsub, hcode, hhoused⟩
  · refine ⟨hd, ?_⟩
    obtain ⟨f, parent, _, _, _, _⟩ := e
    dsimp only at hbelongs ⊢
    cases hbelongs with
    | mentioned hf => exact ⟨K, howns.of_subset hK hsub, hK, hhoused _ hf⟩
    | ambient decl hbody =>
      refine ⟨.global, .global, rfl, fun d hd hne => ?_⟩
      obtain rfl := Option.some.inj (decl.symm.trans hd)
      exact absurd hbody hne

theorem Does.scripted (h : Does p s ms a b) (ha : a.Lexed p body) (hs : a.graph.HasCode s) (howns : a.Owns K s)
    (hK : K.isCode = true) (hplaced : ∀ f, .function f ∈ ms → a.graph.Places p body s f)
    (hhoused : ∀ f, .function f ∈ ms → Housed p body K f) (hscripted : a.Scripted p body) :
    b.Scripted p body ∧ a.functions ⊆ b.functions := by
  induction h with
  | refl => exact ⟨hscripted, List.Subset.refl _⟩
  | @tail b c hab hbc ih =>
    obtain ⟨hb, hfixes⟩ := Does.lexed hab ha hs hplaced
    obtain ⟨hscripted, hsub⟩ := ih
    obtain ⟨hc, hsub'⟩ := hbc.scripted hb (hfixes.hasCode hs) (howns.of_subset hK hsub) hK
      (fun f hf => ha.graph.places hfixes hs (hplaced f hf)) hhoused hscripted
    exact ⟨hc, List.Subset.trans hsub hsub'⟩

end Acts

/-! ## Charts -/

/-- **The ground of a run**: the graph after preparation, with nothing but the global scope. -/
structure ScopeGraph.Ground (p : Program) (body : List Stmt) (g : ScopeGraph) : Prop where
  lexed : g.Lexed p body
  only : ∀ s c, g.scope? s = some c → s = .global
  texts : ∀ A ∈ g.actionsOf .global, ∀ f, .function f ∈ A.mentions → Housed p body .global f

/-- **A state that can be charted**: it is valid, entities are found by their declarations, and code is
as it is written, on the ground of a run. -/
structure Analysis.Chart (p : Program) (body : List Stmt) (base : ScopeGraph) (a : Analysis) : Prop where
  valid : a.Valid p
  tabled : a.Tabled
  called : a.Called
  lexed : a.Lexed p body
  ground : base.Ground p body
  fixed : base.Fixes a.graph
  scripted : a.Scripted p body

/-- **A stage of an evaluation** in the scope `s`, which belongs to `K`, of a text that mentions `ms`. -/
structure Analysis.Stage (p : Program) (body : List Stmt) (base : ScopeGraph) (K : ScopeKind) (s : ScopeId)
    (ms : List Mention) (a : Analysis) : Prop extends a.Chart p body base where
  owns : a.Owns K s
  code : K.isCode = true
  placed : ∀ f, .function f ∈ ms → a.graph.Places p body s f
  housed : ∀ f, .function f ∈ ms → Housed p body K f

namespace Analysis

variable {base : ScopeGraph} {ms : List Mention} {w : Bool}

/-- What is remembered and kept in the books does not matter. -/
theorem Chart.book (ha : a.Chart p body base) {narrowings : List Narrowing} {discovered : List ScopeId}
    {widened : Bool} {converged : Option Converged}
    (hv : Valid p { a with narrowings, discovered, widened, converged }) :
    Chart p body base { a with narrowings, discovered, widened, converged } := by
  refine ⟨hv, ⟨ha.tabled.functions, ha.tabled.objects, ha.tabled.allocated⟩, ha.called,
    ⟨ha.lexed.graph, ha.lexed.objects, ha.lexed.functions⟩, ha.ground, ha.fixed, fun e he => ?_⟩
  obtain ⟨hd, K, hK, hcode, hhoused⟩ := ha.scripted e he
  exact ⟨hd, K, hK.of_subset hcode (List.Subset.refl _), hcode, hhoused⟩

theorem Chart.forget (ha : a.Chart p body base) : a.forget.Chart p body base := ha.book ha.valid.forget

theorem Stage.lt (ha : a.Stage p body base K s ms) : s.index < a.graph.scopes.length := by
  obtain ⟨_, hs⟩ := ha.owns.hasScope ha.valid
  exact hs.lt

/-- **What an evaluation does leads from stage to stage.** -/
theorem Stage.move (ha : a.Stage p body base K s ms) (hdoes : Does p s ms a b) (hsteps : Steps p w a b) :
    b.Stage p body base K s ms := by
  obtain ⟨outer, hs⟩ := ha.owns.hasScope ha.valid
  have hcode := hs.hasCode ha.code
  obtain ⟨hb, hfixes⟩ := hdoes.lexed ha.lexed hcode ha.placed
  refine ⟨⟨hsteps.valid ha.valid, hsteps.tabled ha.tabled, ?_, hb, ha.ground, trans_of ScopeGraph.Fixes ha.fixed hfixes,
    (hdoes.scripted ha.lexed hcode ha.owns ha.code ha.placed ha.housed ha.scripted).1⟩, ha.owns.grows hsteps.grows, ha.code,
    fun f hf => ha.lexed.graph.places hfixes hcode (ha.placed f hf), ha.housed⟩
  exact (Changes.evolves hsteps.changes).called ha.valid ha.called

/-- Joining types into slots changes no chart. -/
theorem Chart.join (ha : a.Chart p body base) (hab : a.Joins b) : b.Chart p body base := by
  have hchanges : Changes p a b := .single (.inr (.inl hab))
  have hevolves := Changes.evolves hchanges
  have hvalid := Changes.valid hchanges ha.valid
  have hcalled := hevolves.called ha.valid ha.called
  have htabled := Changes.tabled hchanges ha.tabled
  obtain ⟨x, t, -, rfl⟩ := hab
  obtain ⟨hg, hfixes⟩ := ha.lexed.graph.of_scopes (ScopeGraph.scopes_unionInto a.graph x t) hvalid.sound
  refine ⟨hvalid, htabled, hcalled, ha.lexed.build (ScopeGraph.unionInto_grows ..) hg, ha.ground,
    trans_of ScopeGraph.Fixes ha.fixed hfixes, fun e he => ?_⟩
  obtain ⟨⟨d, hd⟩, K, hK, hcode, hhoused⟩ := ha.scripted e he
  exact ⟨⟨d, hfixes.scripted ha.lexed.graph hd⟩, K, hK.of_subset hcode (List.Subset.refl _), hcode, hhoused⟩

end Analysis

/-! ## Runs -/

/-- **Preparation lays the ground.** -/
theorem extract_ground (hp : p.StandsOnce ambient body) {g : ScopeGraph} {u : Unit}
    (hx : extract p ambient body Analysis.fresh.graph = .ok u g) : g.Ground p body := by
  have hlexed := extract_lexed hp hx
  obtain ⟨_, g₁, h₁, hx⟩ := bind_ok hx
  obtain ⟨_, g₂, h₂, hx⟩ := bind_ok hx
  obtain ⟨_, g₃, h₃, hx⟩ := bind_ok hx
  have hhoist : Analysis.fresh.graph.Furnishes .global g₂ := trans_of (ScopeGraph.Furnishes _)
    ((Extraction.hoist_furnishes ambient).ok h₁) ((Extraction.hoist_furnishes body).ok h₂)
  have hlt : 0 < g₂.scopes.length := Nat.lt_of_lt_of_le Nat.one_pos hhoist.builds.grows.scopes.length_le
  obtain ⟨hwalk, -⟩ := ImplicitGlobals.declare_accounts hp hlt h₃
  have hnames := trans_of (ScopeGraph.Furnishes _) hhoist hwalk
  let ms := Stmt.mentionsAll ambient ++ Stmt.mentionsAll body
  let site : Extraction.Site := { global := .global, scope := .global }
  have hambient : Moves (ScopeGraph.Visits ms .global) (Extraction.visit p { site with ambient := true } ambient) :=
    Extraction.visit_visits ambient (List.subset_append_left ..)
  have hbody : Moves (ScopeGraph.Visits ms .global) (Extraction.visit p site body) :=
    Extraction.visit_visits body (List.subset_append_right ..)
  have hvisits : g₃.Visits ms .global g := (hambient.bind fun _ => hbody).ok hx
  refine ⟨hlexed, fun s c hc => ?_, fun A hA f hf d hd hbody => ?_⟩
  · by_contra hs
    rw [hvisits.elsewhere s hs hs, hnames.others s hs] at hc
    exact hs (congrArg ScopeId.mk (Nat.lt_one_iff.1 (ScopeGraph.scope_lt hc)))
  · rcases hvisits.actions .global A hA with hold | ⟨-, hmentions⟩
    · rw [hnames.actions] at hold
      cases hold
    · refine (List.mem_append.1 (hmentions f hf)).resolve_left fun hmem => ?_
      exact hbody (hp.ambient f (Stmt.mem_functionsIn.2 hmem) d hd)

variable {env : Setup} {base : ScopeGraph}

theorem prepare_chart (hp : env.program.StandsOnce ambient body) {u : Unit}
    (h : AnalysisM.prepare env ambient body .fresh = .ok u a) : a.Chart env.program body a.graph := by
  have hvalid := (AnalysisM.prepare_final (Analysis.fresh_valid env.program) ambient body).2
  rw [finalState_ok h] at hvalid
  have hlexed := prepare_lexed hp h
  obtain ⟨g, hx, rfl⟩ := prepare_fresh_ok h
  exact ⟨hvalid, ⟨.nil, .nil, .nil⟩, fun _ e he => absurd (List.mem_of_getElem? he) List.not_mem_nil, hlexed,
    extract_ground hp hx, refl_of ScopeGraph.Fixes g, fun e he => absurd he List.not_mem_nil⟩

namespace Analysis

/-- **An action is evaluated on a stage.** -/
theorem Chart.stage (ha : a.Chart p body base) (hs : a.Owns K s) {A : Action} (hA : A ∈ a.graph.actionsOf s) :
    a.Stage p body base K s A.mentions := by
  have hcode := ha.lexed.graph.code_of_action hA
  have hK : K.isCode = true := by
    obtain ⟨_, c, hc, hkind, -⟩ := hs.hasScope ha.valid
    obtain ⟨d, hd, hcode⟩ := hcode
    rw [← hkind, Option.some.inj (hc.symm.trans hd), hcode]
  refine ⟨ha, hs, hK, ha.lexed.graph.texts s A hA, fun f hf => ?_⟩
  cases hs with
  | global =>
    -- the actions of the global scope are those of the ground
    obtain ⟨c, hc, hc'⟩ := ha.ground.lexed.root_code
    have hsame : a.graph.actionsOf .global = base.actionsOf .global := by
      unfold ScopeGraph.actionsOf
      rw [hc, ha.fixed _ c hc hc']
    rw [hsame] at hA
    exact ha.ground.texts A hA f hf
  | body entry =>
    obtain ⟨⟨d, hd⟩, -⟩ := ha.scripted _ entry
    exact hd.texts A hA f hf
  | statics | object => cases hK

/-- Applying what was assigned changes no chart. -/
theorem Chart.assign {zs : List Assignment} (dirty : List ScopeId) (ha : a.Chart p body base)
    (hzs : ∀ z ∈ zs, a.Knows z.type) : (a.assign zs dirty).Chart p body base := by
  induction zs generalizing a dirty with
  | nil => exact ha
  | cons z rest ih =>
    obtain ⟨x, t⟩ := z
    have hjoin : a.Joins { a with graph := (a.graph.unionInto x t).2 } := ⟨x, t, hzs _ (List.mem_cons_self ..), rfl⟩
    unfold Analysis.assign
    rw [ScopeGraph.apply_cons]
    exact ih _ (ha.join hjoin) fun z hz => (hzs z (List.mem_cons_of_mem _ hz)).grows hjoin.grows

end Analysis

/-- **What the evaluation of every action preserves holds at the end of a run.** -/
theorem process_preserves {J : Analysis → Prop} {c : Converged} {u : Unit}
    (hevaluate : ∀ a s A zs b dirty, J a → A ∈ a.graph.actionsOf s → AnalysisM.evaluate env s A a = .ok zs b →
      J (b.assign zs dirty) ∧ a.graph.actionsOf s ⊆ (b.assign zs dirty).graph.actionsOf s)
    (hbook : ∀ a found widened done, J a → J { a with discovered := found, widened, converged := done })
    (hp : AnalysisM.prepare env ambient body .fresh = .ok u b) (hb : J b)
    (h : env.process ambient body .fresh = .ok c a) : J a := by
  have hactions : ∀ (s : ScopeId) (actions : List Action) (dirty dirty' : List ScopeId) (a b : Analysis), J a →
      actions ⊆ a.graph.actionsOf s → AnalysisM.replayActions env s actions dirty a = .ok dirty' b → J b := by
    intro s actions
    induction actions with
    | nil =>
      intro dirty dirty' a b ha _ h
      cases h
      exact ha
    | cons A rest ih =>
      intro dirty dirty' a b ha hsub h
      obtain ⟨zs, c, he, h⟩ := AnalysisM.replayActions_ok h
      obtain ⟨hA, hrest⟩ := List.cons_subset.1 hsub
      obtain ⟨hc, hkept⟩ := hevaluate a s A zs c dirty ha hA he
      exact ih _ _ _ b hc (List.Subset.trans hrest hkept) h
  have hreplay : ∀ s (a : Analysis) r b, J a → env.system.replay s a = .ok r b → J b := fun s a r b ha hr =>
    hactions s _ _ _ _ b (hbook a _ false _ ha) (List.Subset.refl _) (AnalysisM.replay_ok hr).1
  have htake : ∀ a, J a → J (env.system.takeDiscovered a).2 := fun a ha => hbook a [] a.widened a.converged ha
  unfold Setup.process Setup.trace at h
  rw [hp] at h
  dsimp only at h
  cases hr : (env.system.solve env.config.order env.config.maxPasses b).result with
  | error e => rw [hr] at h; cases h
  | ok c' =>
    rw [hr] at h
    cases h
    refine hbook _ _ _ _ ?_
    rw [ConstraintSystem.solve_eq] at hr ⊢
    obtain ⟨ps, last, q, t, hrun, -⟩ := ConstraintSystem.iterate_ok_iff.1 hr
    rw [hrun.iterate.2.1]
    exact hrun.history.preserves hreplay htake (htake b hb)

end TypeFlow
