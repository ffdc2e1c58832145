import TypeFlow.Proofs.Creations
import TypeFlow.Proofs.LastPass

/-!
# Names are resolved before anything is evaluated

Bodies are extracted one by one while a program is analysed, and an assignment in a body
to a name that stands for nothing would declare a new global name. In a program in which
every function stands in one place the lexical walk has met each of these names before, so
this never happens: code that is there resolves its names once and for all.

* `ScopeGraph.Lexed`: the functions in the text of a scope are those nested there.
* `Act.lexed`: one act of an evaluation keeps this, and changes no scope that holds code.
* `names_fixed`: from the end of preparation on, names mean what they mean.
-/

namespace TypeFlow

open ImplicitGlobals (Accounted)

variable {p : Program} {ambient body : List Stmt} {env : Setup}

/-- Whether scopes of this kind hold code. -/
def ScopeKind.isCode : ScopeKind → Bool
  | .global => true
  | .body _ => true
  | .statics _ => false
  | .object _ => false

namespace ScopeGraph

variable {g h : ScopeGraph} {s t : ScopeId}

/-- The graph has this scope, and it holds code. -/
def HasCode (g : ScopeGraph) (s : ScopeId) : Prop := ∃ c, g.scope? s = some c ∧ c.kind.isCode = true

/-- **Scopes that hold code stay as they are.** -/
def Fixes (g h : ScopeGraph) : Prop := ∀ s c, g.scope? s = some c → c.kind.isCode = true → h.scope? s = some c

instance : IsPreorder ScopeGraph Fixes where
  refl _ := fun _ _ hc _ => hc
  trans _ _ _ hgh hhk := fun s c hc hcode => hhk s c (hgh s c hc hcode) hcode

/-- A function with a body stands in the text of the scope `s`, and what is bound around it can be
found from there. -/
def Places (p : Program) (body : List Stmt) (g : ScopeGraph) (s : ScopeId) (f : FunctionId) : Prop :=
  ∀ d, p.function? f = some d → d.body ≠ none →
    ∃ bound, Nested p body f bound ∧ ∀ x ∈ bound, g.lookup s x ≠ none

/-- **A graph follows the nesting of functions.** Code stands in code, actions mention functions
nested there, and assigned names are accounted for. -/
structure Lexed (p : Program) (body : List Stmt) (g : ScopeGraph) : Prop where
  sound : g.Sound
  root : g.HasScope .global .global none
  enclosed : ∀ s c, g.scope? s = some c → c.kind.isCode = true → s = .global ∨ ∃ t ∈ c.parent, g.HasCode t
  quiet : ∀ s c, g.scope? s = some c → c.kind.isCode = false → c.actions = []
  texts : ∀ s, ∀ action ∈ g.actionsOf s, ∀ f, .function f ∈ action.mentions → g.Places p body s f
  accounted : Accounted p body g

/-- **What a scope `s` with the contents `c` may be**, where the graph `g` has grown into `h`: one that
was there, a new one without code, or new code inside code. -/
inductive Arises (p : Program) (body : List Stmt) (g h : ScopeGraph) (s : ScopeId) (c : Scope) : Prop
  | old (there : g.scope? s = some c)
  | data (kind : c.kind.isCode = false) (actions : c.actions = [])
  | code (kind : c.kind.isCode = true) (inside : ∃ t ∈ c.parent, g.HasCode t)
      (texts : ∀ action ∈ c.actions, ∀ f, .function f ∈ action.mentions → h.Places p body s f)

theorem Fixes.hasCode (hgh : g.Fixes h) (hs : g.HasCode s) : h.HasCode s := by
  obtain ⟨c, hc, hcode⟩ := hs
  exact ⟨c, hgh s c hc hcode, hcode⟩

theorem HasCode.lt (hs : g.HasCode s) : s.index < g.scopes.length := by
  obtain ⟨c, hc, -⟩ := hs
  exact scope_lt hc

namespace Lexed

variable (hg : g.Lexed p body)
include hg

theorem root_code : g.HasCode .global := by
  obtain ⟨c, hc, hkind, -⟩ := hg.root
  exact ⟨c, hc, by rw [hkind]; rfl⟩

/-- From code, the way upwards leads over code. -/
theorem parent_code (hs : g.HasCode s) (ht : g.parent? s = some t) : g.HasCode t := by
  obtain ⟨c, hc, hcode⟩ := hs
  obtain ⟨d, hd, hp⟩ := Option.bind_eq_some_iff.1 ht
  obtain rfl := Option.some.inj (hc.symm.trans hd)
  rcases hg.enclosed s c hc hcode with rfl | ⟨u, hu, hucode⟩
  · rw [hg.root.parent?_eq] at ht
    cases ht
  · rw [Option.mem_def, hp] at hu
    cases hu
    exact hucode

/-- **If scopes that hold code stay as they are, names in them mean the same.** -/
theorem lookup_eq (hgh : g.Fixes h) (hs : g.HasCode s) (x : String) : h.lookup s x = g.lookup s x := by
  refine lookup_of_scopes (P := g.HasCode) (fun _ _ => hg.parent_code) ?_ hs x
  rintro t ⟨c, hc, hcode⟩
  rw [hc, hgh t c hc hcode]

/-- A global name can be found from everywhere in the code. -/
theorem lookup_global {x : String} (hx : g.own .global x ≠ none) : g.HasCode s → g.lookup s x ≠ none := by
  induction s using hg.sound.ordered.parent_induction with
  | hP s ih =>
    intro hs
    have ⟨c, hc, hcode⟩ := hs
    rcases hg.enclosed s c hc hcode with rfl | ⟨t, ht, htcode⟩
    · exact lookup_ne_none_of_own hx
    · have hparent : g.parent? s = some t := Option.bind_eq_some_iff.2 ⟨c, hc, ht⟩
      exact hg.sound.lookup_ne_none_of_parent hparent (ih t hparent htcode)

/-- Functions stay where they are placed. -/
theorem places {f : FunctionId} (hgh : g.Fixes h) (hs : g.HasCode s) (hf : g.Places p body s f) :
    h.Places p body s f := by
  intro d hd hbody
  obtain ⟨bound, hnested, hbound⟩ := hf d hd hbody
  refine ⟨bound, hnested, fun x hx => ?_⟩
  rw [hg.lookup_eq hgh hs]
  exact hbound x hx

/-- A scope with actions holds code. -/
theorem code_of_action {action : Action} (ha : action ∈ g.actionsOf s) : g.HasCode s := by
  obtain ⟨c, hc, hmem⟩ := mem_actionsOf.1 ha
  refine ⟨c, hc, ?_⟩
  by_contra hcode
  rw [hg.quiet s c hc (Bool.eq_false_iff.2 hcode)] at hmem
  cases hmem

/-- **A graph goes on to follow the nesting** if nothing else arises in it. -/
theorem extend (hgh : g.Fixes h) (hh : h.Sound)
    (hnew : ∀ s c, h.scope? s = some c → Arises p body g h s c) : h.Lexed p body := by
  obtain ⟨c₀, hc₀, hkind₀, hparent₀⟩ := hg.root
  have hroot : h.scope? .global = some c₀ := hgh .global c₀ hc₀ (by rw [hkind₀]; rfl)
  refine ⟨hh, ⟨c₀, hroot, hkind₀, hparent₀⟩, fun s c hc hcode => ?_, fun s c hc hcode => ?_,
    fun s action haction f hf => ?_, fun f bound d text names hf hd ht hn x hx => ?_⟩
  · cases hnew s c hc with
    | old there => exact (hg.enclosed s c there hcode).imp id fun ⟨t, ht, htcode⟩ => ⟨t, ht, hgh.hasCode htcode⟩
    | data kind _ =>
      rw [hcode] at kind
      cases kind
    | code _ inside _ =>
      obtain ⟨t, ht, htcode⟩ := inside
      exact .inr ⟨t, ht, hgh.hasCode htcode⟩
  · cases hnew s c hc with
    | old there => exact hg.quiet s c there hcode
    | data _ actions => exact actions
    | code kind _ _ =>
      rw [hcode] at kind
      cases kind
  · obtain ⟨c, hc, hmem⟩ := mem_actionsOf.1 haction
    cases hnew s c hc with
    | old there =>
      -- a scope with actions holds code, from where names mean what they did
      have hold : action ∈ g.actionsOf s := mem_actionsOf.2 ⟨c, there, hmem⟩
      exact hg.places hgh (hg.code_of_action hold) (hg.texts s action hold f hf)
    | data _ actions =>
      rw [actions] at hmem
      cases hmem
    | code _ _ texts => exact texts action hmem f hf
  · -- the global scope is as it was, so the walk still accounts for all names
    have hsame : h.own .global x = g.own .global x := by
      unfold own
      rw [hroot, hc₀]
    rw [hsame]
    exact hg.accounted f bound d text names hf hd ht hn x hx

/-- Types may change. -/
theorem of_scopes (hscopes : h.scopes = g.scopes) (hh : h.Sound) : h.Lexed p body ∧ g.Fixes h := by
  have hsame (s : ScopeId) : h.scope? s = g.scope? s := by
    unfold scope?
    rw [hscopes]
  have hfixes : g.Fixes h := fun s c hc _ => (hsame s).trans hc
  exact ⟨hg.extend hfixes hh fun s c hc => .old ((hsame s).symm.trans hc), hfixes⟩

/-- A scope may be added that holds no code. -/
theorem addScope {kind : ScopeKind} {parent : Option ScopeId} (hkind : kind.isCode = false)
    (hp : ∀ t ∈ parent, t.index < g.scopes.length) :
    Lexed p body { g with scopes := g.scopes ++ [{ kind, parent }] } ∧
      g.Fixes { g with scopes := g.scopes ++ [{ kind, parent }] } := by
  have hfixes : g.Fixes { g with scopes := g.scopes ++ [{ kind, parent }] } :=
    fun s c hc _ => (List.getElem?_append_left (scope_lt hc)).trans hc
  refine ⟨hg.extend hfixes (hg.sound.addScope hp) fun s c hc => ?_, hfixes⟩
  rcases scope?_addScope hc with hold | ⟨-, rfl⟩
  · exact .old hold
  · exact .data hkind rfl

/-- A scope that holds no code may get more slots. -/
theorem furnish {kind : ScopeKind} {parent : Option ScopeId} (hs : g.HasScope s kind parent)
    (hkind : kind.isCode = false) (hgh : g.Furnishes s h) : h.Lexed p body ∧ g.Fixes h := by
  obtain ⟨c, hc, rfl, -⟩ := hs
  have hfixes : g.Fixes h := by
    intro t e he hcode
    have hts : t ≠ s := by
      rintro rfl
      obtain rfl := Option.some.inj (hc.symm.trans he)
      rw [hkind] at hcode
      cases hcode
    exact (hgh.others t hts).trans he
  have hsound : h.Sound := hgh.builds.sound (fun t ht => ht ▸ scope_lt hc) hg.sound
  refine ⟨hg.extend hfixes hsound fun t e he => ?_, hfixes⟩
  by_cases hts : t = s
  · subst hts
    obtain ⟨d, hd, hcd⟩ := hgh.self c hc
    obtain rfl := Option.some.inj (hd.symm.trans he)
    have hactions : d.actions = c.actions := by simpa [actionsOf, hc, hd] using hgh.actions t
    exact .data (hcd.kind ▸ hkind) (hactions.trans (hg.quiet t c hc hkind))
  · exact .old ((hgh.others t hts).symm.trans he)

/-- The scope of an object may be added. -/
theorem addObjectScope (shape : ShapeId) {parent : Option ScopeId} (names : List String)
    (hp : ∀ t ∈ parent, t.index < g.scopes.length) :
    (finalState (GraphM.addObjectScope shape parent names) g).Lexed p body ∧
      g.Fixes (finalState (GraphM.addObjectScope shape parent names) g) := by
  let s : ScopeId := ⟨g.scopes.length⟩
  let g' : ScopeGraph := { g with scopes := g.scopes ++ [{ kind := .object shape, parent }] }
  have hend : finalState (GraphM.addObjectScope shape parent names) g =
      finalState (GraphM.declareEach s names) g' :=
    finalState_bind_pure (GraphM.declareEach s names) (fun _ => s) g'
  obtain ⟨hg', hfixes⟩ : g'.Lexed p body ∧ g.Fixes g' := hg.addScope rfl hp
  have hs : g'.HasScope s (.object shape) parent := ⟨_, List.getElem?_concat_length, rfl, rfl⟩
  obtain ⟨hh, hfixes'⟩ := hg'.furnish hs rfl (GraphM.declareEach_furnishes names g')
  rw [hend]
  exact ⟨hh, trans_of Fixes hfixes hfixes'⟩

/-- The assigned names of a function that is placed are bound by it, or can be found from where it
is. -/
theorem found {f : FunctionId} {d : FunctionDecl} {text : List Stmt} {names : List String}
    (hs : g.HasCode s) (hf : g.Places p body s f) (hd : p.function? f = some d) (ht : d.body = some text)
    (hn : ImplicitGlobals.boundNames p d.params text = .ok names) {x : String}
    (hx : .assigned x ∈ Stmt.mentionsAll text) : x ∈ names ∨ g.lookup s x ≠ none := by
  obtain ⟨bound, hnested, hbound⟩ := hf d hd (by rw [ht]; exact Option.some_ne_none text)
  rcases hg.accounted f bound d text names hnested hd ht hn x hx with hmem | hglobal
  · exact (List.mem_append.1 hmem).imp id (hbound x)
  · exact .inr (hg.lookup_global hglobal hs)

/-- A function in the text of a body is placed in the scope of that body: it is nested one deeper,
and the scope binds what the body binds. -/
theorem places_inner {f f' : FunctionId} {d : FunctionDecl} {parent : ScopeId} (hgh : g.Fixes h) (hh : h.Sound)
    (hparent : g.HasCode parent) (hup : h.parent? s = some parent) (hd : p.function? f = some d)
    (hf : g.Places p body parent f) (hf' : GraphM.StandsIn p d h s f') : h.Places p body s f' := by
  intro _ _ _
  obtain ⟨text, names, ht, hn, hmem, hown⟩ := hf'
  obtain ⟨bound, hnested, hbound⟩ := hf d hd (by rw [ht]; exact Option.some_ne_none text)
  refine ⟨names ++ bound, .inner hnested hd ht hn hmem, fun x hx => ?_⟩
  rcases List.mem_append.1 hx with hx | hx
  · exact lookup_ne_none_of_own (hown x hx)
  · refine hh.lookup_ne_none_of_parent hup ?_
    rw [hg.lookup_eq hgh hparent]
    exact hbound x hx

/-- **The scope of a body may be added** where the function is placed. The walk has accounted for
the names that it assigns, so none becomes global now. -/
theorem addBodyScope {f : FunctionId} {d : FunctionDecl} {parent : ScopeId} (hparent : g.HasCode parent)
    (hd : p.function? f = some d) (hf : g.Places p body parent f) :
    (finalState (GraphM.addBodyScope p f d parent) g).Lexed p body ∧
      g.Fixes (finalState (GraphM.addBodyScope p f d parent) g) := by
  let s : ScopeId := ⟨g.scopes.length⟩
  let g' : ScopeGraph := { g with scopes := g.scopes ++ [{ kind := .body f, parent := some parent }] }
  generalize hh : finalState (GraphM.addBodyScope p f d parent) g = h
  have hlt := hparent.lt
  have hextracts : GraphM.Extracts p d s g' h := by
    rw [← hh]
    exact GraphM.addBodyScope_extracts hg.sound hlt fun text names ht hn x hx => hg.found hparent hf hd ht hn hx
  have hsound : h.Sound := by
    rw [← hh]
    refine (GraphM.addBodyScope_builds (D := (· = .global)) (E := fun _ => True) rfl trivial p f d hlt).sound ?_
      hg.sound
    rintro t rfl
    exact hg.root.lt
  have hold (t : ScopeId) (hts : t ≠ s) : h.scope? t = g.scope? t :=
    (hextracts.fills.others t hts).trans (scope?_addScope_of_ne _ hts)
  have hfixes : g.Fixes h := by
    intro t c hc _
    have hts : t ≠ s := fun hts => Nat.ne_of_lt (scope_lt hc) (congrArg ScopeId.index hts)
    exact (hold t hts).trans hc
  obtain ⟨c, hc, hgrows⟩ := hextracts.fills.self _ List.getElem?_concat_length
  have hup : h.parent? s = some parent := Option.bind_eq_some_iff.2 ⟨c, hc, hgrows.parent⟩
  refine ⟨hg.extend hfixes hsound fun t e he => ?_, hfixes⟩
  by_cases hts : t = s
  · subst hts
    obtain rfl := Option.some.inj (hc.symm.trans he)
    refine .code (by rw [hgrows.kind]; rfl) ⟨parent, hgrows.parent, hparent⟩ fun action haction f' hf' => ?_
    rcases hextracts.actions action (mem_actionsOf.2 ⟨c, hc, haction⟩) with hnone | hstands
    · -- the scope was empty before
      rw [actionsOf_addScope] at hnone
      obtain ⟨e, he, -⟩ := mem_actionsOf.1 hnone
      exact absurd (scope_lt he) (Nat.lt_irrefl _)
    · exact hg.places_inner hfixes hsound hparent hup hd hf (hstands f' hf')
  · exact .old ((hold t hts).symm.trans he)

end Lexed

end ScopeGraph

/-! ## Acts -/

/-- **The state of an analysis follows the nesting of functions**, and the properties of functions
and objects are kept apart from code. -/
structure Analysis.Lexed (p : Program) (body : List Stmt) (a : Analysis) : Prop where
  graph : a.graph.Lexed p body
  objects : ∀ e ∈ a.objects, ∃ parent, a.graph.HasScope e.scope (.object e.shape) parent
  functions : ∀ e ∈ a.functions, a.graph.HasScope e.statics (.statics e.decl) none

variable {a b : Analysis} {s : ScopeId} {ms : List Mention}

theorem Analysis.Lexed.build (ha : a.Lexed p body) {g : ScopeGraph} (hgrows : a.graph.Grows g)
    (hg : g.Lexed p body) : Analysis.Lexed p body { a with graph := g } := by
  refine ⟨hg, fun e he => ?_, fun e he => (ha.functions e he).grows hgrows⟩
  obtain ⟨parent, hs⟩ := ha.objects e he
  exact ⟨parent, hs.grows hgrows⟩

theorem AnalysisM.finalState_onGraph {α : Type} (x : GraphM α) (a : Analysis) :
    finalState (onGraph x) a = { a with graph := finalState x a.graph } := by
  unfold finalState onGraph
  cases x a.graph <;> rfl

/-- An object is added with its scope. -/
theorem Analysis.Lexed.object (ha : a.Lexed p body) (shape : ShapeId) {parent : Option ScopeId}
    (names : List String) (hp : ∀ t ∈ parent, ∃ e ∈ a.objects, e.scope = t) :
    let b := finalState
      (AnalysisM.onGraph (GraphM.addObjectScope shape parent names) >>= AnalysisM.addObject shape) a
    b.Lexed p body ∧ a.graph.Fixes b.graph := by
  have hlt : ∀ t ∈ parent, t.index < a.graph.scopes.length := by
    intro t ht
    obtain ⟨e, he, rfl⟩ := hp t ht
    obtain ⟨_, hs⟩ := ha.objects e he
    exact hs.lt
  obtain ⟨hg, hfixes⟩ := ha.graph.addObjectScope shape names hlt
  have hgrows := (GraphM.addObjectScope_builds (D := fun _ => True) (E := fun _ => True) shape hlt names).grows
  unfold finalState
  rw [bind_apply]
  cases hx : GraphM.addObjectScope shape parent names a.graph with
  | error e g =>
    rw [AnalysisM.onGraph_error hx]
    rw [finalState_error hx] at hg hfixes hgrows
    exact ⟨ha.build hgrows hg, hfixes⟩
  | ok scope g =>
    rw [AnalysisM.onGraph_ok hx]
    rw [finalState_ok hx] at hg hfixes hgrows
    obtain ⟨-, -, -, hscope⟩ := GraphM.addObjectScope_ok hx
    have hbuilt := ha.build hgrows hg
    refine ⟨⟨hg, fun e he => ?_, hbuilt.functions⟩, hfixes⟩
    rcases List.mem_append.1 he with he | he
    · exact hbuilt.objects e he
    · cases List.mem_singleton.1 he
      exact ⟨parent, hscope⟩

/-- A function is added where it is placed. -/
theorem Analysis.Lexed.function (ha : a.Lexed p body) {f : FunctionId} {d : FunctionDecl} {parent : ScopeId}
    (prototype object : Option ObjRef) (hd : p.function? f = some d) (hparent : a.graph.HasCode parent)
    (hf : a.graph.Places p body parent f) :
    let b := finalState (AnalysisM.introduceFunction p f parent prototype object) a
    b.Lexed p body ∧ a.graph.Fixes b.graph := by
  -- first the scope of the static properties, then that of the body
  let statics : ScopeId := ⟨a.graph.scopes.length⟩
  let g : ScopeGraph := { a.graph with scopes := a.graph.scopes ++ [{ kind := .statics f, parent := none }] }
  have hadd : GraphM.addScope (.statics f) none a.graph = .ok statics g := rfl
  obtain ⟨hg, hfixes⟩ : g.Lexed p body ∧ a.graph.Fixes g := ha.graph.addScope rfl (by simp)
  have hstatics : g.HasScope statics (.statics f) none := ⟨_, List.getElem?_concat_length, rfl, rfl⟩
  have hparent' := hfixes.hasCode hparent
  obtain ⟨hh, hfixes'⟩ := hg.addBodyScope hparent' hd (ha.graph.places hfixes hparent hf)
  have hgrows := (GraphM.addScope_builds (D := fun _ => True) (E := fun _ => True) (by simp) hadd).grows
  have hgrows' := (GraphM.addBodyScope_builds (D := fun _ => True) (E := fun _ => True) trivial trivial p f d
    hparent'.lt).grows
  unfold finalState
  rw [AnalysisM.introduceFunction_apply hd parent prototype object hadd]
  cases hx : GraphM.addBodyScope p f d parent g with
  | error e h =>
    rw [finalState_error hx] at hh hfixes' hgrows'
    exact ⟨ha.build (trans_of ScopeGraph.Grows hgrows hgrows') hh, trans_of ScopeGraph.Fixes hfixes hfixes'⟩
  | ok scope h =>
    rw [finalState_ok hx] at hh hfixes' hgrows'
    -- joining the function into its callee slot changes a type only
    let k : ScopeGraph := h.joinOwn scope SlotName.callee (.function ⟨a.functions.length⟩)
    obtain ⟨hk, hfixes''⟩ : k.Lexed p body ∧ h.Fixes k :=
      hh.of_scopes (ScopeGraph.scopes_joinOwn ..) (hh.sound.joinOwn ..)
    have hgk : g.Grows k := trans_of ScopeGraph.Grows hgrows' (ScopeGraph.joinOwn_grows ..)
    have hbuilt := ha.build (trans_of ScopeGraph.Grows hgrows hgk) hk
    refine ⟨⟨hk, hbuilt.objects, fun e he => ?_⟩,
      trans_of ScopeGraph.Fixes hfixes (trans_of ScopeGraph.Fixes hfixes' hfixes'')⟩
    rcases List.mem_append.1 he with he | he
    · exact hbuilt.functions e he
    · cases List.mem_singleton.1 he
      exact hstatics.grows hgk

/-- **One act keeps to the nesting of functions**, and changes no scope that holds code. -/
theorem Act.lexed (h : Act p s ms a b) (ha : a.Lexed p body) (hs : a.graph.HasCode s)
    (hms : ∀ f, .function f ∈ ms → a.graph.Places p body s f) : b.Lexed p body ∧ a.graph.Fixes b.graph := by
  cases h with
  | object shape parent names older => exact ha.object shape names older
  | function prototype object decl belongs =>
    cases belongs with
    | mentioned hf => exact ha.function prototype object decl hs (hms _ hf)
    | ambient decl' hbody =>
      -- without a body there is nothing to place
      refine ha.function prototype object decl ha.graph.root_code fun d hd hne => ?_
      obtain rfl := Option.some.inj (decl'.symm.trans hd)
      exact absurd hbody hne
  | @property t name owner =>
    obtain ⟨kind, parent, ht, hkind⟩ :
        ∃ kind parent, a.graph.HasScope t kind parent ∧ kind.isCode = false := by
      rcases owner with ⟨e, he, rfl⟩ | ⟨e, he, rfl⟩
      · obtain ⟨parent, hs⟩ := ha.objects e he
        exact ⟨_, parent, hs, rfl⟩
      · exact ⟨_, none, ha.functions e he, rfl⟩
    have hdeclare := GraphM.declare_furnishes (s := t) name a.graph
    obtain ⟨hg, hfixes⟩ := ha.graph.furnish ht hkind hdeclare
    rw [AnalysisM.finalState_onGraph]
    exact ⟨ha.build hdeclare.builds.grows hg, hfixes⟩
  | note graph functions objects _ =>
    rw [graph]
    refine ⟨⟨graph ▸ ha.graph, ?_, ?_⟩, refl_of ScopeGraph.Fixes a.graph⟩
    · rw [objects, graph]
      exact ha.objects
    · rw [functions, graph]
      exact ha.functions

/-- Any number of acts do so. -/
theorem Does.lexed (h : Does p s ms a b) (ha : a.Lexed p body) (hs : a.graph.HasCode s)
    (hms : ∀ f, .function f ∈ ms → a.graph.Places p body s f) : b.Lexed p body ∧ a.graph.Fixes b.graph := by
  induction h with
  | refl => exact ⟨ha, refl_of ScopeGraph.Fixes a.graph⟩
  | tail _ hbc ih =>
    obtain ⟨hb, hab⟩ := ih
    obtain ⟨hc, hbc⟩ := hbc.lexed hb (hab.hasCode hs) fun f hf => ha.graph.places hab hs (hms f hf)
    exact ⟨hc, trans_of ScopeGraph.Fixes hab hbc⟩

/-! ## Preparation -/

/-- **Preparation sets up the nesting**: the global scope holds the text, the walk has accounted for
all assigned names, and what ambient declarations mention has no body. -/
theorem extract_lexed (hp : p.StandsOnce ambient body) {g : ScopeGraph} {u : Unit}
    (hx : extract p ambient body Analysis.fresh.graph = .ok u g) : g.Lexed p body := by
  have hbuilds := (AnalysisM.extract_builds (D := (· = .global)) (E := (· = .global)) rfl rfl p ambient body).ok hx
  obtain ⟨_, g₁, h₁, hx⟩ := bind_ok hx
  obtain ⟨_, g₂, h₂, hx⟩ := bind_ok hx
  obtain ⟨_, g₃, h₃, hx⟩ := bind_ok hx
  have hhoist : Analysis.fresh.graph.Furnishes .global g₂ := trans_of (ScopeGraph.Furnishes _)
    ((Extraction.hoist_furnishes ambient).ok h₁) ((Extraction.hoist_furnishes body).ok h₂)
  have hlt : 0 < g₂.scopes.length := Nat.lt_of_lt_of_le Nat.one_pos hhoist.builds.grows.scopes.length_le
  obtain ⟨hwalk, haccounted⟩ := ImplicitGlobals.declare_accounts hp hlt h₃
  have hnames := trans_of (ScopeGraph.Furnishes _) hhoist hwalk
  let ms := Stmt.mentionsAll ambient ++ Stmt.mentionsAll body
  let site : Extraction.Site := { global := .global, scope := .global }
  have hambient : Moves (ScopeGraph.Visits ms .global) (Extraction.visit p { site with ambient := true } ambient) :=
    Extraction.visit_visits ambient (List.subset_append_left ..)
  have hbody : Moves (ScopeGraph.Visits ms .global) (Extraction.visit p site body) :=
    Extraction.visit_visits body (List.subset_append_right ..)
  have hvisits : g₃.Visits ms .global g := (hambient.bind fun _ => hbody).ok hx
  have hgrows : g₃.Grows g := (((Extraction.visit_builds (D := fun _ => True) (E := fun _ => True) p trivial
    trivial ambient).bind fun _ => Extraction.visit_builds p trivial trivial body).ok hx).grows
  have hroot : g.HasScope .global .global none :=
    ScopeGraph.HasScope.grows ⟨_, rfl, rfl, rfl⟩ hbuilds.grows
  have hsound : g.Sound := hbuilds.sound (fun t ht => ht ▸ Nat.one_pos) (Analysis.fresh_valid p).sound
  -- there is no other scope yet
  have honly (s : ScopeId) (c : Scope) (hc : g.scope? s = some c) : s = .global ∧ c.kind = .global := by
    obtain ⟨c₀, hc₀, hkind, -⟩ := hroot
    by_cases hs : s = .global
    · subst hs
      obtain rfl := Option.some.inj (hc₀.symm.trans hc)
      exact ⟨rfl, hkind⟩
    · rw [hvisits.elsewhere s hs hs, hnames.others s hs] at hc
      exact absurd (congrArg ScopeId.mk (Nat.lt_one_iff.1 (ScopeGraph.scope_lt hc))) hs
  refine ⟨hsound, hroot, fun s c hc _ => .inl (honly s c hc).1, fun s c hc hcode => ?_,
    fun s action haction f hf d hd hbody => ?_, fun f bound d text names hf hd ht hn x hx => ?_⟩
  · rw [(honly s c hc).2] at hcode
    cases hcode
  · rcases hvisits.actions s action haction with hold | ⟨-, hmentions⟩
    · have hempty : Analysis.fresh.graph.actionsOf s = [] := by
        obtain ⟨i⟩ := s
        cases i <;> rfl
      rw [hnames.actions, hempty] at hold
      cases hold
    · rcases List.mem_append.1 (hmentions f hf) with hmem | hmem
      · exact absurd (hp.ambient f (Stmt.mem_functionsIn.2 hmem) d hd) hbody
      · exact ⟨[], .top hmem, fun x hx => absurd hx List.not_mem_nil⟩
  · exact (haccounted f bound d text names hf hd ht hn x hx).imp id hgrows.own_ne_none

theorem prepare_lexed (hp : env.program.StandsOnce ambient body) {u : Unit}
    (h : AnalysisM.prepare env ambient body .fresh = .ok u a) : a.Lexed env.program body := by
  obtain ⟨g, hx, rfl⟩ := prepare_fresh_ok h
  exact ⟨extract_lexed hp hx, fun e he => absurd he List.not_mem_nil, fun e he => absurd he List.not_mem_nil⟩

/-! ## Runs -/

/-- One state leads to another in which code is as it was. -/
def Analysis.Fixes (a b : Analysis) : Prop := a.graph.Fixes b.graph

instance : IsPreorder Analysis Analysis.Fixes where
  refl a := refl_of ScopeGraph.Fixes a.graph
  trans _ _ _ := trans_of ScopeGraph.Fixes

/-- Evaluating an action keeps to the nesting of functions. -/
theorem Analysis.Lexed.evaluate {action : Action} (ha : a.Lexed env.program body)
    (haction : action ∈ a.graph.actionsOf s) (h : Does env.program s action.mentions a b) :
    b.Lexed env.program body ∧ a.Fixes b :=
  h.lexed ha (ha.graph.code_of_action haction) (ha.graph.texts s action haction)

theorem Analysis.Lexed.action {action : Action} (ha : a.Lexed p body) (hab : a.Fixes b)
    (haction : action ∈ a.graph.actionsOf s) : action ∈ b.graph.actionsOf s := by
  obtain ⟨c, hc, hmem⟩ := ScopeGraph.mem_actionsOf.1 haction
  obtain ⟨d, hd, hcode⟩ := ha.graph.code_of_action haction
  obtain rfl := Option.some.inj (hc.symm.trans hd)
  exact ScopeGraph.mem_actionsOf.2 ⟨c, hab s c hc hcode, hmem⟩

/-- **A run keeps to the nesting of functions**, and leaves code as it is. -/
theorem lexed_governs (env : Setup) (body : List Stmt) :
    Governs env (·.Lexed env.program body) (fun _ _ => True) Analysis.Fixes where
  evaluated {a b s action zs} ha haction he := by
    obtain ⟨hb, hab⟩ := ha.evaluate haction ((AnalysisM.evaluate_does env s action).ok he)
    exact ⟨hb, hab, fun _ _ => trivial⟩
  failed {a b s action e} ha haction he :=
    ha.evaluate haction ((AnalysisM.evaluate_does env s action).error he)
  assigned {a x t} ha _ := by
    have hscopes : (a.graph.unionInto x t).2.scopes = a.graph.scopes := by
      rw [ScopeGraph.unionInto_snd]
      rfl
    obtain ⟨hg, hfixes⟩ := ha.graph.of_scopes hscopes (ha.graph.sound.unionInto x t)
    exact ⟨ha.build (ScopeGraph.unionInto_grows ..) hg, hfixes, fun _ => id⟩
  actions ha hab haction := ha.action hab haction
  book {a} found widened done ha := ⟨⟨ha.graph, ha.objects, ha.functions⟩, refl_of Analysis.Fixes a⟩

/-- **Names in the code mean the same** in the graph `h` as they did in `g`: the global scope has no
new slots, and whatever is looked up from a scope of code, found or not, is the same. -/
structure ScopeGraph.SameNames (g h : ScopeGraph) : Prop where
  global : (h.scope? .global).map (·.slots) = (g.scope? .global).map (·.slots)
  lookup : ∀ s, g.HasCode s → ∀ n, h.lookup s n = g.lookup s n

theorem Analysis.Lexed.sameNames (ha : a.Lexed p body) (hab : a.Fixes b) : a.graph.SameNames b.graph := by
  obtain ⟨c, hc, hcode⟩ := ha.graph.root_code
  refine ⟨?_, fun s hs => ha.graph.lookup_eq hab hs⟩
  rw [hc, hab .global c hc hcode]

/-- **Names are resolved before anything is evaluated.** Suppose that every function stands in one
place, and those in ambient declarations have no body. Between any two states of a run, in whatever
order it replays, the global scope gets no slot, and a name looked up from code that is there gives
the same answer. The evaluation of a single action is a sequence of acts, and between any two stages
of it the same holds. -/
theorem names_fixed (env : Setup) (ambient body : List Stmt) (h : env.program.StandsOnce ambient body) :
    (env.states ambient body .fresh).Pairwise (fun a b => a.graph.SameNames b.graph) ∧
    ∀ m ∈ env.moments ambient body .fresh, ∀ s, ∀ action ∈ m.state.graph.actionsOf s,
      Does env.program s action.mentions m.state (finalState (AnalysisM.evaluate env s action) m.state) ∧
      ∀ b c, Does env.program s action.mentions m.state b → Does env.program s action.mentions b c →
        b.graph.SameNames c.graph := by
  cases hp : AnalysisM.prepare env ambient body .fresh with
  | error e b =>
    obtain ⟨hmoments, hstates⟩ := Setup.course_of_error hp
    rw [hstates, hmoments]
    exact ⟨List.pairwise_singleton .., fun m hm => absurd hm List.not_mem_nil⟩
  | ok u b =>
    obtain ⟨hpairs, hlexed⟩ := (lexed_governs env body).states hp (prepare_lexed h hp)
    refine ⟨hpairs.imp_of_mem fun ha _ hab => (hlexed _ ha).sameNames hab, fun m hm s action haction =>
      ⟨AnalysisM.evaluate_does env s action m.state, fun b c hb hc => ?_⟩⟩
    have hm : m.state ∈ env.states ambient body .fresh := List.mem_append_left _ (List.mem_map_of_mem hm)
    obtain ⟨hb, hfixes⟩ := (hlexed _ hm).evaluate haction hb
    obtain ⟨-, hfixes'⟩ := hb.evaluate ((hlexed _ hm).action hfixes haction) hc
    exact hb.sameNames hfixes'

/-- The function `inner`, in the body of `outer`, assigns to a name of `outer` and to one that nothing
declares. -/
def layered : Setup where
  program := {
    functions := [
      { name := "outer", params := ["a"], body := some [.var "b" none none, .function ⟨1⟩,
          .expr ⟨.call ⟨.name "inner", none⟩ [], none⟩] },
      { name := "inner", body := some [
          .expr ⟨.assign ⟨.name "g", none⟩ ⟨.name "outer", none⟩, none⟩,
          .expr ⟨.assign ⟨.name "b", none⟩ ⟨.name "a", none⟩, none⟩] }]
    body := [.function ⟨0⟩, .expr ⟨.call ⟨.name "outer", none⟩ [⟨.name "outer", none⟩], none⟩] }

/-- When the body of `outer` has been extracted and that of `inner` has not, `g` is a global name and
`z` stands for nothing, and that is how it stays. -/
theorem layered_fixed : layered.program.StandsOnce [] layered.program.body ∧
    ∃ m ∈ layered.moments [] layered.program.body .fresh, m.state.functions.length = 1 ∧
      m.state.graph.lookup ⟨2⟩ "g" = some ⟨1⟩ ∧ m.state.graph.lookup ⟨2⟩ "z" = none ∧
      (layered.trace [] layered.program.body .fresh).final.functions.length = 2 ∧
      (layered.trace [] layered.program.body .fresh).final.graph.lookup ⟨2⟩ "g" = some ⟨1⟩ ∧
      (layered.trace [] layered.program.body .fresh).final.graph.lookup ⟨2⟩ "z" = none := by
  have hstands : layered.program.StandsOnce [] layered.program.body :=
    ⟨by decide, fun f hf => absurd hf List.not_mem_nil⟩
  have hfound : ∃ m ∈ layered.moments [] layered.program.body .fresh, m.state.functions.length = 1 ∧
      (m.state.graph.scope? ⟨2⟩).map (·.kind) = some (.body ⟨0⟩) ∧
      m.state.graph.lookup ⟨2⟩ "g" = some ⟨1⟩ ∧ m.state.graph.lookup ⟨2⟩ "z" = none := by decide +kernel
  obtain ⟨m, hm, hlength, hkind, hg, hz⟩ := hfound
  obtain ⟨c, hc, hkind⟩ := Option.map_eq_some_iff.1 hkind
  have hcode : m.state.graph.HasCode ⟨2⟩ := ⟨c, hc, by rw [hkind]; rfl⟩
  have hrun := (names_fixed layered [] layered.program.body hstands).1
  have hlast := (List.pairwise_append.1 hrun).2.2 m.state (List.mem_map_of_mem hm) _
    (List.mem_singleton_self _)
  exact ⟨hstands, m, hm, hlength, hg, hz, by decide +kernel, (hlast.lookup _ hcode _).trans hg,
    (hlast.lookup _ hcode _).trans hz⟩

end TypeFlow
