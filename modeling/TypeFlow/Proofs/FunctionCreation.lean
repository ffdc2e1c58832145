import TypeFlow.Proofs.LastPass
import TypeFlow.Proofs.Lineage
import TypeFlow.Proofs.Recording
import TypeFlow.Proofs.Widening

/-!
# Creating a function

Creating a function creates the objects of its shapes and then its body scope. What can go wrong
is written in the program: a shape whose object cannot be created, a parameter that is repeated or has one of the
names that every body declares, a function in the text that the program does not have. Nothing else
goes wrong if the scope around the function lies in the global one.

* `FunctionDecl.Regular`: the body scope of a function can be filled in.
* `GraphM.addBodyScope_layout`: then it can, and `FunctionDecl.bodyNames` are its names.
* `createFunction_iff`: when a function can be created, what its body scope looks like, and what is
  left alone otherwise.
-/

namespace TypeFlow

variable {p : Program} {env : Setup} {a b : Analysis} {s parent : ScopeId} {f : FunctionId} {d : FunctionDecl}

/-! ## Filling in a body scope -/

namespace FunctionDecl

/-- The names that a body scope starts with: those of every body, and the parameters. -/
def fixedNames (d : FunctionDecl) : List String := SlotName.reserved ++ d.params

/-- **The names of a body scope**, in order: what the text declares comes last, without what is there
already, in the order of the first occurrences. -/
def bodyNames (p : Program) (d : FunctionDecl) : List String :=
  d.fixedNames ++ ((Stmt.hoisted p (d.body.getD [])).filter (· ∉ d.fixedNames)).eraseDups

/-- **The body scope of a function can be filled in.** -/
structure Regular (p : Program) (d : FunctionDecl) : Prop where
  distinct : d.fixedNames.Nodup
  known : ∀ text, d.body = some text → ∀ c ∈ Stmt.declarationsAll text, c.Known p

theorem regular_iff : d.Regular p ↔ d.params.Nodup ∧ (∀ x ∈ d.params, x ∉ SlotName.reserved) ∧
    ∀ text, d.body = some text → ∀ g, .function g ∈ Stmt.declarationsAll text → ∃ e, p.function? g = some e := by
  constructor
  · rintro ⟨hdistinct, hknown⟩
    obtain ⟨-, hparams, hdisjoint⟩ := List.nodup_append.1 hdistinct
    exact ⟨hparams, fun x hx hres => hdisjoint x hres x hx rfl, fun text ht g hg => hknown text ht _ hg⟩
  · rintro ⟨hparams, hfree, hknown⟩
    refine ⟨List.nodup_append.2 ⟨by decide, hparams, ?_⟩, fun text ht c hc => ?_⟩
    · rintro x hres _ hx rfl
      exact hfree x hx hres
    · cases c with
      | var x => trivial
      | function g => exact hknown text ht g hc

end FunctionDecl

/-- **A scope is laid out for the body of a function.** -/
structure ScopeGraph.LaidOut (p : Program) (d : FunctionDecl) (s : ScopeId) (g : ScopeGraph) : Prop where
  names : g.namesOf s = d.bodyNames p
  params : (g.paramsOf s).map some = d.params.map (g.own s)

namespace ScopeGraph

variable {g h : ScopeGraph}

theorem namesOf_of_layoutOf (hlayout : h.layoutOf s = g.layoutOf s) : h.namesOf s = g.namesOf s := by
  have hnames (k : ScopeGraph) : k.namesOf s = ((k.layoutOf s).map fun c => c.1.map Prod.fst).getD [] := by
    unfold namesOf layoutOf
    rw [Option.map_map]
    rfl
  rw [hnames, hnames, hlayout]

theorem paramsOf_of_layoutOf (hlayout : h.layoutOf s = g.layoutOf s) : h.paramsOf s = g.paramsOf s := by
  have hparams (k : ScopeGraph) : k.paramsOf s = ((k.layoutOf s).map Prod.snd).getD [] := by
    unfold paramsOf layoutOf
    rw [Option.map_map]
    rfl
  rw [hparams, hparams, hlayout]

theorem Lexical.mem_chain (hs : g.Lexical s) : .global ∈ g.chain s := hs.mem_chainWithin _ (Nat.lt_succ_self _)

/-- In a sound graph, a scope from which the global one is reached is lexical. -/
theorem Sound.lexical (hg : g.Sound) (hroot : 0 < g.scopes.length) (hs : .global ∈ g.chain s) : g.Lexical s := by
  induction s using hg.ordered.parent_induction with
  | hP s ih =>
    unfold chain chainWithin at hs
    rcases List.mem_cons.1 hs with rfl | hs
    · exact .global hroot
    · cases ht : g.parent? s with
      | none =>
        rw [ht] at hs
        cases hs
      | some t =>
        rw [ht] at hs
        have hlt := (hg.parent_lt ht).1
        dsimp only at hs
        rw [hg.ordered.chainWithin_eq t hlt] at hs
        exact .inner ht hlt (ih t ht hs)

end ScopeGraph

namespace GraphM

open Extraction

variable {g h : ScopeGraph}

/-- What comes after the parameters: the text of the body, or what the signature says. -/
def fillText (p : Program) (d : FunctionDecl) (s : ScopeId) (ret : SlotId) : GraphM Unit :=
  match d.body with
  | some body => collect p { global := .global, scope := s } body
  | none => emit s (.declaredFlow ret d.signature.ret)

/-- **A text whose functions are known can be extracted**, in a scope from which the global one is reached and
that has a slot for what is returned. -/
theorem collect_known {text : List Stmt} (hs : s.index < g.scopes.length) (hroot : s ≠ .global)
    (hlexical : g.Lexical s) (hret : SlotName.ret ∈ g.namesOf s)
    (hknown : ∀ c ∈ Stmt.declarationsAll text, c.Known p) :
    ∃ h, collect p { global := .global, scope := s } text g = .ok ⟨⟩ h ∧
      h.layoutOf s = (ScopeGraph.bindAll s (Stmt.hoisted p text) g).layoutOf s := by
  have hhoist := hoist_apply (s := s) hknown g
  have hgrows := ((hoist_furnishes text).ok hhoist).builds.grows
  obtain ⟨hthere, hplaced⟩ := hoist_placed hs hhoist
  have hown : (ScopeGraph.bindAll s (Stmt.hoisted p text) g).own s SlotName.ret ≠ none :=
    hgrows.own_ne_none ((ScopeGraph.own_ne_none_iff hs).2 hret)
  have hwrites : WritesAt s _ False _ (visit p ⟨.global, s, false⟩ text)
      (ScopeGraph.bindAll s (Stmt.hoisted p text) g) :=
    visitStmt_writes hroot (fun hno => hno (hlexical.grows hgrows).mem_chain) (fun hno => hown hno) (.block text)
      hplaced _ (.refl hthere)
  have hcollect : collect p { global := .global, scope := s } text g =
      visit p ⟨.global, s, false⟩ text (ScopeGraph.bindAll s (Stmt.hoisted p text) g) := by
    rw [collect, bind_apply, hhoist]
  cases hvisit : visit p ⟨.global, s, false⟩ text (ScopeGraph.bindAll s (Stmt.hoisted p text) g) with
  | error e k => exact (hwrites.of_error hvisit).elim
  | ok u k =>
    obtain ⟨hattends, -⟩ := hwrites.of_ok hvisit
    exact ⟨k, hcollect.trans hvisit, hattends.layout s hroot⟩

/-- The text of a body can be extracted if its functions are known, and then its names are added. -/
theorem fillText_known (ret : SlotId) (hs : s.index < g.scopes.length) (hroot : s ≠ .global)
    (hlexical : g.Lexical s) (hret : SlotName.ret ∈ g.namesOf s)
    (hknown : ∀ text, d.body = some text → ∀ c ∈ Stmt.declarationsAll text, c.Known p) :
    ∃ h, fillText p d s ret g = .ok ⟨⟩ h ∧
      h.layoutOf s = (ScopeGraph.bindAll s (Stmt.hoisted p (d.body.getD [])) g).layoutOf s := by
  unfold fillText
  cases hbody : d.body with
  | some text => exact collect_known hs hroot hlexical hret (hknown text hbody)
  | none =>
    have hrecorded := (ScopeGraph.Attends.refl hs).pushAction (.declaredFlow ret d.signature.ret)
    exact ⟨_, rfl, hrecorded.layout s hroot⟩

theorem fillText_ok {ret : SlotId} {u : Unit} (hok : fillText p d s ret g = .ok u h) (text : List Stmt)
    (hbody : d.body = some text) : ∀ c ∈ Stmt.declarationsAll text, c.Known p := by
  unfold fillText at hok
  rw [hbody] at hok
  obtain ⟨_, k, hhoist, -⟩ := bind_ok hok
  exact (hoist_ok hhoist).1

/-- An empty scope gets the names that every body has. -/
theorem fillBodyScope_apply (hs : s.index < g.scopes.length) (hnames : g.namesOf s = []) :
    ∃ ret k, fillBodyScope p d s g = (declareParams s d.params >>= fun _ => fillText p d s ret) k ∧
      g.Furnishes s k ∧ k.namesOf s = SlotName.reserved ∧ k.paramsOf s = g.paramsOf s := by
  let g₁ := g.bindSlot s SlotName.callee
  let g₂ := g₁.bindSlot s SlotName.this
  let g₃ := g₂.bindSlot s SlotName.ret
  have hs₁ : s.index < g₁.scopes.length := by rwa [ScopeGraph.length_bindSlot]
  have hs₂ : s.index < g₂.scopes.length := by rwa [ScopeGraph.length_bindSlot]
  have hnames₁ : g₁.namesOf s = [SlotName.callee] := by rw [ScopeGraph.namesOf_bindSlot hs, hnames]; rfl
  have hnames₂ : g₂.namesOf s = [SlotName.callee, SlotName.this] := by
    rw [ScopeGraph.namesOf_bindSlot hs₁, hnames₁]; rfl
  have hcallee : declare s SlotName.callee g = .ok _ g₁ := declare_new hs (by rw [hnames]; decide)
  have hthis : declare s SlotName.this g₁ = .ok _ g₂ := declare_new hs₁ (by rw [hnames₁]; decide)
  have hret : declare s SlotName.ret g₂ = .ok _ g₃ := declare_new hs₂ (by rw [hnames₂]; decide)
  refine ⟨⟨g₂.slots.length⟩, g₃, ?_, ?_, ?_, ?_⟩
  · rw [fillBodyScope, bind_apply, hcallee]
    dsimp only
    rw [bind_apply, hthis]
    dsimp only
    rw [bind_apply, hret]
    rfl
  · have h₁ := (declare_furnishes SlotName.callee).ok hcallee
    have h₂ := (declare_furnishes SlotName.this).ok hthis
    have h₃ := (declare_furnishes SlotName.ret).ok hret
    exact trans_of _ h₁ (trans_of _ h₂ h₃)
  · rw [ScopeGraph.namesOf_bindSlot hs₂, hnames₂]
    rfl
  · rw [ScopeGraph.paramsOf_bindSlot, ScopeGraph.paramsOf_bindSlot, ScopeGraph.paramsOf_bindSlot]

/-- **An empty scope is laid out for a regular function.** -/
theorem fillBodyScope_regular (hs : s.index < g.scopes.length) (hroot : s ≠ .global) (hlexical : g.Lexical s)
    (hnames : g.namesOf s = []) (hparams : g.paramsOf s = []) (hd : d.Regular p) :
    ∃ h, fillBodyScope p d s g = .ok ⟨⟩ h ∧ h.LaidOut p d s := by
  obtain ⟨ret, k, hfill, hgk, hreserved, hempty⟩ := fillBodyScope_apply (p := p) (d := d) hs hnames
  have hsk := Nat.lt_of_lt_of_le hs hgk.builds.grows.scopes.length_le
  -- the parameters
  have hdistinct : (k.namesOf s ++ d.params).Nodup := by
    rw [hreserved]
    exact hd.distinct
  obtain ⟨m, hdeclared, hfixed, new, hnew, hslots⟩ := declareParams_layout d.params k hsk hdistinct
  have hkm := (declareParams_furnishes d.params).ok hdeclared
  have hsm := Nat.lt_of_lt_of_le hsk hkm.builds.grows.scopes.length_le
  rw [hreserved] at hfixed
  rw [hempty, hparams, List.nil_append] at hnew
  -- the text
  have hret : SlotName.ret ∈ m.namesOf s := by
    rw [hfixed]
    exact List.mem_append_left _ (by decide)
  have hgm : g.Grows m := trans_of ScopeGraph.Grows hgk.builds.grows hkm.builds.grows
  obtain ⟨h, htext, hlayout⟩ := fillText_known ret hsm hroot (hlexical.grows hgm) hret hd.known
  refine ⟨h, ?_, ?_, ?_⟩
  · rw [hfill, bind_apply, hdeclared]
    exact htext
  · rw [ScopeGraph.namesOf_of_layoutOf hlayout, ScopeGraph.namesOf_bindAll _ m hsm, hfixed]
    rfl
  · -- hoisting keeps the slots of the parameters
    rw [ScopeGraph.paramsOf_of_layoutOf hlayout, ScopeGraph.paramsOf_bindAll, hnew, hslots]
    refine List.map_congr_left fun x hx => ?_
    have hmem : x ∈ m.namesOf s := by
      rw [hfixed]
      exact List.mem_append_right _ hx
    obtain ⟨y, hy⟩ := Option.ne_none_iff_exists'.1 ((ScopeGraph.own_ne_none_iff hsm).2 hmem)
    rw [ScopeGraph.own_of_layoutOf hlayout, (bindAll_furnishes _ m).builds.grows.own hy, hy]

theorem fillBodyScope_ok {u : Unit} (hs : s.index < g.scopes.length) (hnames : g.namesOf s = [])
    (hok : fillBodyScope p d s g = .ok u h) : d.Regular p := by
  obtain ⟨ret, k, hfill, hgk, hreserved, -⟩ := fillBodyScope_apply (p := p) (d := d) hs hnames
  have hsk := Nat.lt_of_lt_of_le hs hgk.builds.grows.scopes.length_le
  rw [hfill] at hok
  obtain ⟨_, m, hdeclared, htext⟩ := bind_ok hok
  have hdistinct : (k.namesOf s).Nodup := by
    rw [hreserved]
    decide
  refine ⟨?_, fillText_ok htext⟩
  have hall := declareParams_ok hsk hdistinct hdeclared
  rwa [hreserved] at hall

/-- A scope that is added inside a lexical one is empty, lexical and not the global one. -/
theorem addScope_inner {k : ScopeGraph} {kind : ScopeKind} (hlexical : g.Lexical parent)
    (hadd : addScope kind (some parent) g = .ok s k) :
    s.index < k.scopes.length ∧ s ≠ .global ∧ k.Lexical s ∧ k.namesOf s = [] ∧ k.paramsOf s = [] := by
  have hgrows : g.Grows k := by
    refine (addScope_builds (D := fun _ => True) (E := fun _ => True) (fun t ht => ?_) hadd).grows
    obtain rfl := Option.mem_some.1 ht
    exact hlexical.lt
  obtain ⟨rfl, hscope⟩ : s = ⟨g.scopes.length⟩ ∧ k.scope? s = some { kind, parent := some parent } := by
    cases hadd
    exact ⟨rfl, List.getElem?_concat_length⟩
  have hparent : k.parent? ⟨g.scopes.length⟩ = some parent := by
    rw [ScopeGraph.parent?, hscope]
    rfl
  refine ⟨ScopeGraph.scope_lt hscope, fun heq => ?_, .inner hparent hlexical.lt (hlexical.grows hgrows),
    ScopeGraph.namesOf_eq hscope, ScopeGraph.paramsOf_eq hscope⟩
  -- the global scope was there before
  have hlt := hlexical.to_global.lt
  rw [← heq] at hlt
  exact Nat.lt_irrefl _ hlt

/-- **When a body scope can be added**, and what it looks like. -/
theorem addBodyScope_layout (hlexical : g.Lexical parent) :
    ((∃ s h, addBodyScope p f d parent g = .ok s h) ↔ d.Regular p) ∧
      ∀ s h, addBodyScope p f d parent g = .ok s h → h.LaidOut p d s := by
  obtain ⟨s, k, hadd⟩ : ∃ s k, addScope (.body f) (some parent) g = .ok s k := ⟨_, _, rfl⟩
  obtain ⟨hs, hroot, hinner, hnames, hparams⟩ := addScope_inner hlexical hadd
  have hrun : addBodyScope p f d parent g = (fillBodyScope p d s >>= fun _ => pure s) k := by
    rw [addBodyScope, bind_apply, hadd]
  rw [hrun]
  constructor
  · constructor
    · rintro ⟨t, h, hx⟩
      obtain ⟨_, m, hfill, -⟩ := bind_ok hx
      exact fillBodyScope_ok hs hnames hfill
    · intro hd
      obtain ⟨h, hfill, -⟩ := fillBodyScope_regular hs hroot hinner hnames hparams hd
      refine ⟨s, h, ?_⟩
      rw [bind_apply, hfill]
      rfl
  · intro t h hx
    obtain ⟨_, m, hfill, hend⟩ := bind_ok hx
    cases hend
    have hd := fillBodyScope_ok hs hnames hfill
    obtain ⟨h', hfill', hlaid⟩ := fillBodyScope_regular hs hroot hinner hnames hparams hd
    rw [hfill] at hfill'
    cases hfill'
    exact hlaid

end GraphM

theorem ScopeGraph.LaidOut.of_scopes {g h : ScopeGraph} (hg : g.LaidOut p d s) (hscopes : h.scopes = g.scopes) :
    h.LaidOut p d s := by
  have hlayout : h.layoutOf s = g.layoutOf s := by
    unfold ScopeGraph.layoutOf ScopeGraph.scope?
    rw [hscopes]
  constructor
  · rw [ScopeGraph.namesOf_of_layoutOf hlayout, hg.names]
  · rw [ScopeGraph.paramsOf_of_layoutOf hlayout, hg.params]
    exact List.map_congr_left fun x _ => (ScopeGraph.own_of_layoutOf hlayout).symm

/-- A scope that is laid out exists: it has at least the names of every body. -/
theorem ScopeGraph.LaidOut.exists_scope {g : ScopeGraph} (hg : g.LaidOut p d s) :
    ∃ c, g.scope? s = some c ∧ c.slots.map Prod.fst = d.bodyNames p ∧
      c.params.map some = d.params.map (g.own s) := by
  cases hc : g.scope? s with
  | none =>
    have hnone : g.namesOf s = [] := by
      unfold ScopeGraph.namesOf
      rw [hc]
      rfl
    cases hnone.symm.trans hg.names
  | some c =>
    refine ⟨c, rfl, ?_, ?_⟩
    · rw [← ScopeGraph.namesOf_eq hc, hg.names]
    · rw [← ScopeGraph.paramsOf_eq hc, hg.params]

/-! ## Entering the function -/

/-- **No function was entered** and no body was discovered. -/
structure Analysis.Spares (a b : Analysis) : Prop where
  functions : b.functions = a.functions
  discovered : b.discovered = a.discovered

theorem Analysis.Spares.trans {c : Analysis} (hab : a.Spares b) (hbc : b.Spares c) : a.Spares c :=
  ⟨hbc.functions.trans hab.functions, hbc.discovered.trans hab.discovered⟩

/-- **A function was entered**: it is the last one, and its body is laid out and discovered. -/
structure Analysis.Enters (p : Program) (f : FunctionId) (d : FunctionDecl) (parent : ScopeId) (a : Analysis)
    (r : FnRef) (b : Analysis) : Prop where
  last : r = ⟨a.functions.length⟩
  entry : ∃ e, b.functions = a.functions ++ [e] ∧ e.decl = f ∧ e.parent = parent ∧
    b.discovered = a.discovered ++ [e.body] ∧ b.graph.LaidOut p d e.body

theorem Analysis.Enters.of_spares {c : Analysis} {r : FnRef} (hbc : b.Enters p f d parent r c) (hab : a.Spares b) :
    a.Enters p f d parent r c := by
  obtain ⟨hr, e, hfunctions, hdecl, hplace, hdiscovered, hlaid⟩ := hbc
  rw [hab.functions] at hr hfunctions
  rw [hab.discovered] at hdiscovered
  exact ⟨hr, e, hfunctions, hdecl, hplace, hdiscovered, hlaid⟩

/-- Every function that steps enter has its body discovered, so the tables tell both. -/
theorem Steps.spares {w : Bool} (hab : Steps p w a b) (hlength : b.functions.length ≤ a.functions.length) :
    a.Spares b := by
  obtain ⟨new, hnew, hcount, -⟩ := Steps.discovered hab
  have hnil : new = [] := List.eq_nil_of_length_eq_zero (by omega)
  rw [hnil, List.append_nil] at hnew
  exact ⟨((Steps.grows hab).functions.eq_of_length_le hlength).symm, hnew⟩

namespace AnalysisM

/-- **Creating an object enters no function**, also if it fails. -/
theorem createObject?_spares (hv : a.Valid p) (shape : Option ShapeId) :
    a.Spares (finalState (createObject? p shape) a) := by
  have hlength := (createObject?_samePresent (p := p) shape a).lengths.1
  have hproceeds := (createObject?_evaluates (w := true) hv shape).proceeds
  cases hx : createObject? p shape a with
  | ok r b =>
    rw [finalState_ok hx] at hlength ⊢
    obtain ⟨hsteps, -⟩ := hproceeds.of_ok hx
    exact Steps.spares hsteps hlength
  | error e b =>
    -- what a fault leaves behind is in the graph only
    obtain ⟨⟨c, hsteps, g, -, rfl⟩, -⟩ := hproceeds.of_error hx
    rw [finalState_error hx] at hlength ⊢
    obtain ⟨hfunctions, hdiscovered⟩ := Steps.spares hsteps hlength
    exact ⟨hfunctions, hdiscovered⟩

/-- The function is entered if its declaration is regular, and otherwise nothing is. -/
theorem introduceFunction_cases (hlexical : a.graph.Lexical parent) (hd : p.function? f = some d)
    (prototype object : Option ObjRef) :
    (d.Regular p ∧ ∃ r b, introduceFunction p f parent prototype object a = .ok r b ∧ a.Enters p f d parent r b) ∨
      (¬ d.Regular p ∧ ∃ e b, introduceFunction p f parent prototype object a = .error e b ∧ a.Spares b) := by
  obtain ⟨statics, g, hs⟩ : ∃ statics g, GraphM.addScope (.statics f) none a.graph = .ok statics g := ⟨_, _, rfl⟩
  have hgrows := (GraphM.addScope_builds (D := fun _ => True) (E := fun _ => True) (by simp) hs).grows
  obtain ⟨hregular, hlaid⟩ := GraphM.addBodyScope_layout (p := p) (f := f) (d := d) (hlexical.grows hgrows)
  rw [introduceFunction_apply hd parent prototype object hs]
  cases hb : GraphM.addBodyScope p f d parent g with
  | ok body h =>
    -- joining the function into its own slot changes no layout
    have hlaid' := (hlaid body h hb).of_scopes
      (ScopeGraph.scopes_joinOwn h body SlotName.callee (.function ⟨a.functions.length⟩))
    exact .inl ⟨hregular.1 ⟨body, h, hb⟩, _, _, rfl, rfl, _, rfl, rfl, rfl, rfl, hlaid'⟩
  | error e h =>
    refine .inr ⟨fun hd => ?_, e, _, rfl, rfl, rfl⟩
    obtain ⟨body, k, hk⟩ := hregular.2 hd
    rw [hb] at hk
    cases hk

end AnalysisM

/-! ## Creating it -/

/-- **The object of an optional shape can be created.** -/
def Analysis.Affords (env : Setup) (a : Analysis) (shape : Option ShapeId) : Prop :=
  ∀ s, shape = some s → ∃ o b, AnalysisM.createObject env.program s a = .ok o b

/-- Whether an object can be created is a matter of the program, not of the state. -/
theorem Occurs.affords_iff (ha : Occurs env a) (hb : Occurs env b) (shape : Option ShapeId) :
    a.Affords env shape ↔ b.Affords env shape := by
  unfold Analysis.Affords
  refine forall₂_congr fun s _ => ?_
  rw [ha.createObject_ok_iff, hb.createObject_ok_iff]

theorem Analysis.affords_iff (shape : Option ShapeId) :
    a.Affords env shape ↔ ∃ r b, AnalysisM.createObject? env.program shape a = .ok r b := by
  cases shape with
  | none => exact ⟨fun _ => ⟨none, a, rfl⟩, fun _ _ hs => nomatch hs⟩
  | some s =>
    constructor
    · intro h
      obtain ⟨o, b, hb⟩ := h s rfl
      refine ⟨some o, b, ?_⟩
      rw [AnalysisM.createObject?, bind_apply, hb]
      rfl
    · rintro ⟨r, b, hb⟩ q hq
      cases hq
      obtain ⟨o, c, hc, -⟩ := bind_ok hb
      exact ⟨o, c, hc⟩

theorem Occurs.createObject?_cases (h : Occurs env a) (shape : Option ShapeId) :
    (a.Affords env shape ∧ ∃ r b, AnalysisM.createObject? env.program shape a = .ok r b ∧
      Steps env.program true a b ∧ a.Spares b) ∨
    (¬ a.Affords env shape ∧ ∃ e b, AnalysisM.createObject? env.program shape a = .error e b ∧ a.Spares b) := by
  have hspares := AnalysisM.createObject?_spares h.valid shape
  rw [Analysis.affords_iff]
  cases hx : AnalysisM.createObject? env.program shape a with
  | ok r b =>
    rw [finalState_ok hx] at hspares
    obtain ⟨hsteps, -⟩ := (AnalysisM.createObject?_evaluates (w := true) h.valid shape).proceeds.of_ok hx
    exact .inl ⟨⟨r, b, rfl⟩, r, b, rfl, hsteps, hspares⟩
  | error e b =>
    rw [finalState_error hx] at hspares
    refine .inr ⟨?_, e, b, rfl, hspares⟩
    rintro ⟨r, c, hc⟩
    cases hc

/-- The objects of a function come before the function. -/
theorem Occurs.createFunction_objects (h : Occurs env a) (hnew : a.findFunction f = none)
    (hd : env.program.function? f = some d) (parent : ScopeId) :
    ((a.Affords env d.prototypeShape ∧ a.Affords env d.objectShape) ∧ ∃ prototype object b,
      Steps env.program true a b ∧ a.Spares b ∧ AnalysisM.createFunction env.program f parent a =
        AnalysisM.introduceFunction env.program f parent prototype object b) ∨
    (¬ (a.Affords env d.prototypeShape ∧ a.Affords env d.objectShape) ∧
      ∃ e b, AnalysisM.createFunction env.program f parent a = .error e b ∧ a.Spares b) := by
  have hrun : AnalysisM.createFunction env.program f parent a = (do
      let prototype ← AnalysisM.createObject? env.program d.prototypeShape
      let object ← AnalysisM.createObject? env.program d.objectShape
      AnalysisM.introduceFunction env.program f parent prototype object : AnalysisM FnRef) a := by
    unfold AnalysisM.createFunction Program.demandFunction FunctionRegistry.demand
    rw [get_bind_apply, hnew]
    dsimp only
    rw [hd]
    rfl
  rw [hrun, bind_apply]
  rcases h.createObject?_cases d.prototypeShape with
    ⟨hprototype, prototype, b, hb, hab, hspares⟩ | ⟨hnone, e, b, hb, hspares⟩
  · rw [hb]
    dsimp only
    rw [bind_apply, h.affords_iff (h.steps hab) d.objectShape]
    rcases (h.steps hab).createObject?_cases d.objectShape with
      ⟨hobject, object, c, hc, hbc, hspares'⟩ | ⟨hnone, e, c, hc, hspares'⟩
    · rw [hc]
      exact .inl ⟨⟨hprototype, hobject⟩, prototype, object, c, hab.trans hbc, hspares.trans hspares', rfl⟩
    · rw [hc]
      exact .inr ⟨fun hboth => hnone hboth.2, e, c, rfl, hspares.trans hspares'⟩
  · rw [hb]
    exact .inr ⟨fun hboth => hnone hboth.1, e, b, rfl, hspares⟩

/-- **The two ways in which the creation of a function ends.** -/
theorem Occurs.createFunction_cases (h : Occurs env a) (hnew : a.findFunction f = none)
    (hparent : .global ∈ a.graph.chain parent) :
    (∃ d, env.program.function? f = some d ∧ a.Affords env d.prototypeShape ∧ a.Affords env d.objectShape ∧
      d.Regular env.program ∧ ∃ r b, AnalysisM.createFunction env.program f parent a = .ok r b ∧
      a.Enters env.program f d parent r b) ∨
    ((¬ ∃ d, env.program.function? f = some d ∧ a.Affords env d.prototypeShape ∧ a.Affords env d.objectShape ∧
      d.Regular env.program) ∧
      ∃ e b, AnalysisM.createFunction env.program f parent a = .error e b ∧ a.Spares b) := by
  have hlexical : a.graph.Lexical parent := by
    obtain ⟨c, hc, -⟩ := h.valid.root
    exact h.valid.sound.lexical (ScopeGraph.scope_lt hc) hparent
  cases hd : env.program.function? f with
  | none =>
    refine .inr ⟨?_, .unknownFunction f, a, ?_, rfl, rfl⟩
    · rintro ⟨d, hd', -⟩
      cases hd'
    unfold AnalysisM.createFunction Program.demandFunction FunctionRegistry.demand
    rw [get_bind_apply, hnew, hd]
    rfl
  | some d =>
    rcases h.createFunction_objects hnew hd parent with
      ⟨⟨hprototype, hobject⟩, prototype, object, b, hab, hspares, hrun⟩ | ⟨hnone, e, b, hb, hspares⟩
    · rw [hrun]
      rcases AnalysisM.introduceFunction_cases (hlexical.grows (Steps.grows hab).graph) hd prototype object with
        ⟨hregular, r, c, hc, henters⟩ | ⟨hregular, e, c, hc, hspares'⟩
      · exact .inl ⟨d, rfl, hprototype, hobject, hregular, r, c, hc, henters.of_spares hspares⟩
      · refine .inr ⟨?_, e, c, hc, hspares.trans hspares'⟩
        rintro ⟨d', hd', -, -, hyes⟩
        cases hd'
        exact hregular hyes
    · refine .inr ⟨?_, e, b, hb, hspares⟩
      rintro ⟨d', hd', hprototype, hobject, -⟩
      cases hd'
      exact hnone ⟨hprototype, hobject⟩

/-- **A function can be created exactly if its declaration is in order**: the program has it, the objects of
its shapes can be created, its parameters are distinct and have no reserved name, and the program has every
function that its text declares. Then it is the last function, and its body scope, which waits to be replayed,
has the reserved names, the parameters and what the text declares. Otherwise no function is entered and
no body is discovered. -/
theorem createFunction_iff (h : Occurs env a) (hnew : a.findFunction f = none)
    (hparent : .global ∈ a.graph.chain parent) :
    ((∃ r b, AnalysisM.createFunction env.program f parent a = .ok r b) ↔
      ∃ d, env.program.function? f = some d ∧
        (∀ s, d.prototypeShape = some s ∨ d.objectShape = some s →
          ∃ o b, AnalysisM.createObject env.program s a = .ok o b) ∧
        d.params.Nodup ∧ (∀ x ∈ d.params, x ∉ SlotName.reserved) ∧
        ∀ text, d.body = some text → ∀ g, .function g ∈ Stmt.declarationsAll text →
          ∃ e, env.program.function? g = some e) ∧
    (∀ r b, AnalysisM.createFunction env.program f parent a = .ok r b →
      ∃ d e c, env.program.function? f = some d ∧ b.functions = a.functions ++ [e] ∧
        r = ⟨a.functions.length⟩ ∧ e.decl = f ∧ e.parent = parent ∧ b.graph.scope? e.body = some c ∧
        c.slots.map Prod.fst = d.bodyNames env.program ∧
        c.params.map some = d.params.map (b.graph.own e.body) ∧
        b.discovered = a.discovered ++ [e.body]) ∧
    ∀ e b, AnalysisM.createFunction env.program f parent a = .error e b →
      b.functions = a.functions ∧ b.discovered = a.discovered := by
  rcases h.createFunction_cases hnew hparent with
    ⟨d, hd, hprototype, hobject, hregular, r, b, hb, hr, e, hfunctions, hdecl, hplace, hdiscovered, hlaid⟩ |
    ⟨hnone, e, b, hb, hspares⟩
  · rw [hb]
    refine ⟨⟨fun _ => ?_, fun _ => ⟨r, b, rfl⟩⟩, fun r' b' hr' => ?_, fun e b' hb' => by cases hb'⟩
    · obtain ⟨hnodup, hfree, hknown⟩ := FunctionDecl.regular_iff.1 hregular
      exact ⟨d, hd, fun s hs => hs.elim (hprototype s) (hobject s), hnodup, hfree, hknown⟩
    · cases hr'
      obtain ⟨c, hc, hnames, hparams⟩ := hlaid.exists_scope
      exact ⟨d, e, c, hd, hfunctions, hr, hdecl, hplace, hc, hnames, hparams, hdiscovered⟩
  · rw [hb]
    refine ⟨⟨?_, fun ⟨d, hd, hobjects, hregular⟩ => ?_⟩, fun r b' hr => ?_, fun e' b' he => ?_⟩
    · rintro ⟨r, b', hr⟩
      cases hr
    · refine absurd ⟨d, hd, fun s hs => ?_, fun s hs => ?_, FunctionDecl.regular_iff.2 hregular⟩ hnone
      · exact hobjects s (.inl hs)
      · exact hobjects s (.inr hs)
    · cases hr
    · cases he
      exact ⟨hspares.functions, hspares.discovered⟩

/-- The text of `inner` declares `z` twice, and its parameter `y` once more. The function `odd` repeats
a parameter. -/
def nested : Setup where
  program := {
    shapes := [{ name := "Inner", kind := .prototype }]
    functions := [{ name := "outer", body := some [.function ⟨1⟩] },
      { name := "inner", params := ["x", "y"], prototypeShape := some ⟨0⟩
        body := some [.branch ⟨.name "x", none⟩ [.var "z" none none, .var "y" none none]
          [.function ⟨2⟩, .var "z" none none]] },
      { name := "odd", params := ["x", "x"], body := some [] }] }

/-- The state in which `outer` is there and nothing else. -/
def nested.outer : Analysis := (Operation.createFunction ⟨0⟩ .global).after nested .fresh

/-- Inside `outer`, the function `inner` can be created and `odd` cannot. -/
theorem nested_created :
    (∃ b e c, AnalysisM.createFunction nested.program ⟨1⟩ ⟨2⟩ nested.outer = .ok ⟨1⟩ b ∧
      b.graph.scope? e = some c ∧ b.discovered = nested.outer.discovered ++ [e] ∧
      c.slots.map Prod.fst = [SlotName.callee, SlotName.this, SlotName.ret, "x", "y", "z", "odd"]) ∧
    (∀ r b, AnalysisM.createFunction nested.program ⟨2⟩ ⟨2⟩ nested.outer ≠ .ok r b) ∧
    (finalState (AnalysisM.createFunction nested.program ⟨2⟩ ⟨2⟩) nested.outer).functions =
      nested.outer.functions := by
  have hoccurs : Occurs nested nested.outer :=
    Reachable.occurs (.after (.createFunction _ _) .fresh Nat.one_pos)
  have hparent : .global ∈ nested.outer.graph.chain ⟨2⟩ := by decide +kernel
  have hinner : nested.outer.findFunction ⟨1⟩ = none := by decide +kernel
  have hodd : nested.outer.findFunction ⟨2⟩ = none := by decide +kernel
  obtain ⟨hiff, hok, -⟩ := createFunction_iff hoccurs hinner hparent
  obtain ⟨hiff', -, herror⟩ := createFunction_iff hoccurs hodd hparent
  have hno : ∀ r b, AnalysisM.createFunction nested.program ⟨2⟩ ⟨2⟩ nested.outer ≠ .ok r b := by
    intro r b hx
    obtain ⟨d, hd, -, hnodup, -⟩ := hiff'.1 ⟨r, b, hx⟩
    cases hd
    exact absurd hnodup (by decide)
  refine ⟨?_, hno, ?_⟩
  · obtain ⟨r, b, hb⟩ : ∃ r b, AnalysisM.createFunction nested.program ⟨1⟩ ⟨2⟩ nested.outer = .ok r b := by
      have hobject : checks (AnalysisM.createObject nested.program ⟨0⟩) nested.outer (fun _ _ => true) = true := by
        decide +kernel
      refine hiff.2 ⟨_, rfl, fun s hs => ?_, by decide, by decide, fun text ht g hg => ?_⟩
      · obtain ⟨o, c, hc, -⟩ := exists_ok hobject
        rcases hs with hs | hs
        · cases hs
          exact ⟨o, c, hc⟩
        · cases hs
      · cases ht
        obtain rfl : g = ⟨2⟩ := by simpa [Stmt.declarationsAll, Stmt.declarations] using hg
        exact ⟨_, rfl⟩
    obtain ⟨d, e, c, hd, -, hr, -, -, hc, hnames, -, hdiscovered⟩ := hok r b hb
    cases hd
    subst hr
    exact ⟨b, e.body, c, hb, hc, hdiscovered, hnames.trans (by decide +kernel)⟩
  · cases hx : AnalysisM.createFunction nested.program ⟨2⟩ ⟨2⟩ nested.outer with
    | ok r b => exact absurd hx (hno r b)
    | error e b =>
      rw [finalState_error hx]
      exact (herror e b hx).1

end TypeFlow
