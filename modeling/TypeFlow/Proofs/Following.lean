import TypeFlow.Proofs.Embedding

/-!
# Following another run

A computation in an embedded state is followed by the same computation in the state that it is embedded
in, where nothing changes any more. Whatever the first does, the second has done already, and
what the first gives is within what the second gives.

* `Does.antisymm`: what an evaluation does is never undone.
* `Follows.bind`: one computation after the other.
* `AnalysisM.createObject_follows`, `AnalysisM.createFunction_follows`, `AnalysisM.widen_follows`: creation.
-/

namespace TypeFlow

open Relation

variable {p : Program} {ambient body : List Stmt} {base : ScopeGraph} {a b c : Analysis} {s t s' t' : ScopeId}
  {K L : ScopeKind} {n : String} {x x' y : SlotId} {ms : List Mention}

/-! ## Nothing is undone -/

namespace Analysis

/-- How much a state holds. -/
def size (a : Analysis) : Nat :=
  a.functions.length + a.objects.length + a.graph.scopes.length + a.graph.slots.length + a.allocated.length

/-- A state is the same or holds more. -/
def Fuller (a b : Analysis) : Prop :=
  b = a ∨ a.size < b.size ∨ b.size = a.size ∧ a.narrowings.length < b.narrowings.length

instance : IsPreorder Analysis Fuller where
  refl _ := .inl rfl
  trans := by
    rintro a b c (rfl | h) (rfl | k)
    · exact .inl rfl
    · exact .inr k
    · exact .inr h
    · right
      omega

theorem Fuller.antisymm (h : a.Fuller b) (k : b.Fuller a) : b = a := by
  rcases h with rfl | h
  · rfl
  · rcases k with rfl | k
    · rfl
    · omega

end Analysis

namespace ScopeGraph

/-- Adding a scope and filling it in makes a graph larger, also when it fails. -/
theorem scopes_lt_of_addScope {α : Type} (g : ScopeGraph) (kind : ScopeKind) (parent : Option ScopeId)
    {f : ScopeId → GraphM α} (hf : ∀ t, Moves Grows (f t)) :
    let h := finalState (GraphM.addScope kind parent >>= f) g
    g.scopes.length < h.scopes.length ∧ g.slots.length ≤ h.slots.length := by
  have hgrow := hf ⟨g.scopes.length⟩ { g with scopes := g.scopes ++ [{ kind, parent }] }
  have hscopes := hgrow.scopes.length_le
  have hslots := hgrow.slots.length_le
  rw [List.length_append, List.length_singleton] at hscopes
  exact ⟨hscopes, hslots⟩

end ScopeGraph

theorem Act.fuller (h : Act p s ms a b) : a.Fuller b := by
  cases h with
  | object shape parent names older =>
    have hfill (t : ScopeId) : Moves ScopeGraph.Grows (GraphM.declareEach t names >>= fun _ => pure t) :=
      Moves.bind (fun g => (GraphM.declareEach_builds (D := fun _ => True) (E := fun _ => True) trivial names g).grows)
        fun _ => moves_pure _
    have hmore : let h := finalState (GraphM.addObjectScope shape parent names) a.graph
        a.graph.scopes.length < h.scopes.length ∧ a.graph.slots.length ≤ h.slots.length :=
      a.graph.scopes_lt_of_addScope (.object shape) parent hfill
    right; left
    unfold finalState
    rw [bind_apply]
    cases hx : GraphM.addObjectScope shape parent names a.graph with
    | error e g =>
      rw [finalState_error hx] at hmore
      rw [AnalysisM.onGraph_error hx]
      simp only [Analysis.size]
      omega
    | ok scope g =>
      rw [finalState_ok hx] at hmore
      rw [AnalysisM.onGraph_ok hx]
      change a.size < Analysis.size { a with graph := g, objects := a.objects ++ [⟨shape, scope⟩] }
      simp only [Analysis.size, List.length_append]
      omega
  | @function f d parent prototype object decl belongs =>
    obtain ⟨statics, g, hs⟩ : ∃ statics g, GraphM.addScope (.statics f) none a.graph = .ok statics g := ⟨_, _, rfl⟩
    have hfill (t : ScopeId) : Moves ScopeGraph.Grows (GraphM.fillBodyScope p d t >>= fun _ => pure t) :=
      Moves.bind (fun g => (GraphM.fillBodyScope_builds (D := fun _ => True) (E := fun _ => True) trivial trivial
        trivial p d g).grows) fun _ => moves_pure _
    have hmore : let h := finalState (GraphM.addBodyScope p f d parent) g
        g.scopes.length < h.scopes.length ∧ g.slots.length ≤ h.slots.length :=
      g.scopes_lt_of_addScope (.body f) (some parent) hfill
    have hg : a.graph.scopes.length ≤ g.scopes.length ∧ g.slots = a.graph.slots := by
      cases hs
      simp
    right; left
    unfold finalState
    rw [AnalysisM.introduceFunction_apply decl parent prototype object hs]
    cases hx : GraphM.addBodyScope p f d parent g with
    | error e h =>
      rw [finalState_error hx] at hmore
      simp only [Analysis.size, ← hg.2]
      omega
    | ok scope h =>
      rw [finalState_ok hx] at hmore
      have hjoin := (ScopeGraph.joinOwn_grows h scope SlotName.callee (.function ⟨a.functions.length⟩)).slots.length_le
      simp only [Analysis.size, ← hg.2, ScopeGraph.scopes_joinOwn, List.length_append]
      omega
  | @property t name owner =>
    rw [AnalysisM.finalState_onGraph]
    unfold finalState
    rw [GraphM.declare_apply]
    cases a.graph.own t name with
    | some x => exact .inl rfl
    | none =>
      right; left
      simp only [Analysis.size, ScopeGraph.length_bindSlot]
      simp only [ScopeGraph.bindSlot, List.length_append, List.length_singleton]
      omega
  | note graph functions objects more =>
    right
    unfold Analysis.size
    rw [graph, functions, objects]
    rcases more with hlt | ⟨heq, hlt⟩
    · left
      omega
    · rw [heq]
      exact .inr ⟨rfl, hlt⟩

theorem Does.fuller (h : Does p s ms a b) : a.Fuller b := by
  induction h with
  | refl => exact refl_of _ a
  | tail _ hact ih => exact trans_of Analysis.Fuller ih hact.fuller

/-- **What is done is never undone.** -/
theorem Does.antisymm (h : Does p s ms a b) (k : Does p s' ms b a) : b = a := h.fuller.antisymm k.fuller

/-! ## Guests and hosts -/

/-- **Where one run follows another**: a text with its owner, the scopes that the owner has here and there, and the
state of the other run. -/
structure Setting where
  env : Setup
  ambient : List Stmt
  body : List Stmt
  base : ScopeGraph
  owner : ScopeKind
  here : ScopeId
  there : ScopeId
  mentions : List Mention
  host : Analysis

namespace Setting

/-- What is known of the other run. -/
structure Hosted (σ : Setting) : Prop extends σ.host.Chart σ.env.program σ.body σ.base where
  forgetful : σ.env.config.memoize = false
  stands : σ.env.program.StandsOnce σ.ambient σ.body
  owned : σ.host.Owns σ.owner σ.there
  unshadowed : σ.host.unshadowed σ.env.program = true

/-- A stage of an evaluation here. -/
abbrev Stage (σ : Setting) (a : Analysis) : Prop :=
  a.Stage σ.env.program σ.body σ.base σ.owner σ.here σ.mentions

/-- **A guest**: a stage of an evaluation that is embedded in the other run. -/
structure Guest (σ : Setting) (a : Analysis) : Prop
    extends a.Stage σ.env.program σ.body σ.base σ.owner σ.here σ.mentions where
  embeds : a.Embeds σ.host

/-- What an evaluation does in the other run. -/
abbrev Does (σ : Setting) : Analysis → Analysis → Prop := TypeFlow.Does σ.env.program σ.there σ.mentions

variable {σ : Setting}

/-- What is done leads from guest to guest if the host has the entities. -/
theorem Guest.move (ha : σ.Guest a) (hσ : σ.Hosted) (hdoes : TypeFlow.Does σ.env.program σ.here σ.mentions a c)
    (hsteps : Steps σ.env.program false a c) (hpeoples : σ.host.Peoples a c) : σ.Guest c :=
  ⟨ha.toStage.move hdoes hsteps, hsteps.embeds ha.valid hσ.valid hσ.called ha.embeds (hpeoples ha.embeds.toPeopled)⟩

theorem Guest.createObject (ha : σ.Guest a) (hσ : σ.Hosted) {q : ShapeId} {o o' : ObjRef}
    (hq : σ.host.findObject q = some o') (hx : AnalysisM.createObject σ.env.program q a = .ok o c) :
    σ.Guest c ∧ a.Grows c ∧ c.Matches σ.host (.object o) (.object o') := by
  obtain ⟨hsteps, ⟨hfound, -⟩, -⟩ := (AnalysisM.createObject_evaluates (w := false) ha.valid q).proceeds.of_ok hx
  have hpeoples : σ.host.Peoples a c := (AnalysisM.createObjectWithin_peoples hσ.valid _ [] q (by simp [hq])).ok hx
  exact ⟨ha.move hσ ((AnalysisM.createObject_does q).ok hx) hsteps hpeoples, hsteps.grows, .of_findObject hfound hq⟩

theorem Guest.createFunction (ha : σ.Guest a) (hσ : σ.Hosted) {f : FunctionId} {parent : ScopeId} {r r' : FnRef}
    (hf : σ.host.findFunction f = some r') (hbelongs : Belongs σ.env.program σ.here σ.mentions f parent)
    (hx : AnalysisM.createFunction σ.env.program f parent a = .ok r c) :
    σ.Guest c ∧ a.Grows c ∧ c.Matches σ.host (.function r) (.function r') := by
  have older : parent.index < a.graph.scopes.length := by
    cases hbelongs with
    | mentioned => exact ha.toStage.lt
    | ambient => exact ha.valid.root.lt
  obtain ⟨hsteps, hfound, -⟩ := (AnalysisM.createFunction_evaluates (w := false) ha.valid f older).proceeds.of_ok hx
  have hpeoples : σ.host.Peoples a c := (AnalysisM.createFunction_peoples hσ.valid (by simp [hf]) parent).ok hx
  exact ⟨ha.move hσ ((AnalysisM.createFunction_does hbelongs).ok hx) hsteps hpeoples, hsteps.grows,
    .of_findFunction hfound hf⟩

theorem Guest.recordAllocation (ha : σ.Guest a) (hσ : σ.Hosted) {o o' : ObjRef} {u : Unit}
    (hmatch : a.Matches σ.host (.object o) (.object o')) (ho' : o' ∈ σ.host.allocated)
    (hx : AnalysisM.recordAllocation o a = .ok u c) : σ.Guest c ∧ a.Grows c := by
  have ho : a.Has (.object o) := by
    obtain ⟨_, q, _, _, hq, -⟩ := Analysis.matches_object hmatch
    exact (List.getElem?_eq_some_iff.1 hq).1
  obtain ⟨hsteps, -⟩ := (AnalysisM.recordAllocation_evaluates (w := false) ho).proceeds.of_ok hx
  refine ⟨ha.move hσ ((AnalysisM.recordAllocation_does o).ok hx) hsteps fun hpeopled => ?_, hsteps.grows⟩
  rw [AnalysisM.recordAllocation_apply] at hx
  cases hx
  split
  · exact hpeopled
  · refine ⟨hpeopled.functions, hpeopled.objects, fun q hq => ?_⟩
    rcases List.mem_append.1 hq with hq | hq
    · exact hpeopled.allocated q hq
    · obtain rfl := List.mem_singleton.1 hq
      exact ⟨o', ho', hmatch⟩

end Setting

/-! ## Following -/

variable {σ : Setting}

section Follows

variable {α β : Type}

/-- **`x` is followed by `y`**: whatever `x` gives where it leads, `y` gives the like of it in the host, which stays
as it is. -/
def Follows (σ : Setting) (x y : AnalysisM α) (post : Analysis → α → α → Prop) (a : Analysis) : Prop :=
  ∀ v c w, x a = .ok v c → y σ.host = .ok w σ.host → σ.Guest c ∧ a.Grows c ∧ post c v w

variable {x y : AnalysisM α} {f g : α → AnalysisM β} {mid : Analysis → α → α → Prop} {post : Analysis → β → β → Prop}

/-- Where a sequence changes nothing, neither part does. -/
theorem split_host {u : β} (hy : Moves σ.Does y) (hg : ∀ w, Moves σ.Does (g w)) (h : (y >>= g) σ.host = .ok u σ.host) :
    ∃ w, y σ.host = .ok w σ.host ∧ g w σ.host = .ok u σ.host := by
  obtain ⟨w, c, hw, hu⟩ := bind_ok h
  -- nothing is undone, so the second part cannot take back what the first did
  obtain rfl := (hy.ok hw).antisymm ((hg w).ok hu)
  exact ⟨w, hw, hu⟩

theorem follows_pure (ha : σ.Guest a) {v w : β} (h : post a v w) : Follows σ (pure v) (pure w) post a := by
  intro v' c w' hx hy
  cases hx
  cases hy
  exact ⟨ha, refl_of _ a, h⟩

theorem follows_get {f g : Analysis → AnalysisM β} (h : Follows σ (f a) (g σ.host) post a) :
    Follows σ (get >>= f) (get >>= g) post a := h

/-- One computation after the other, with what the first gives in both. -/
theorem Follows.bind_with (hx : Follows σ x y mid a) (hy : Moves σ.Does y) (hg : ∀ w, Moves σ.Does (g w))
    (hf : ∀ v c w, x a = .ok v c → y σ.host = .ok w σ.host → σ.Guest c → a.Grows c → mid c v w →
      Follows σ (f v) (g w) post c) : Follows σ (x >>= f) (y >>= g) post a := by
  intro u d w hxf hyg
  obtain ⟨v, c, hv, hu⟩ := bind_ok hxf
  obtain ⟨v', hv', hu'⟩ := split_host hy hg hyg
  obtain ⟨hc, hac, hmid⟩ := hx v c v' hv hv'
  obtain ⟨hd, hcd, hpost⟩ := hf v c v' hv hv' hc hac hmid u d w hu hu'
  exact ⟨hd, trans_of Analysis.Grows hac hcd, hpost⟩

theorem Follows.bind (hx : Follows σ x y mid a) (hy : Moves σ.Does y) (hg : ∀ w, Moves σ.Does (g w))
    (hf : ∀ v c w, σ.Guest c → a.Grows c → mid c v w → Follows σ (f v) (g w) post c) :
    Follows σ (x >>= f) (y >>= g) post a :=
  hx.bind_with hy hg fun v c w _ _ => hf v c w

theorem follows_demandFunction {f : FunctionId} {k k' : FunctionDecl → AnalysisM β}
    (h : ∀ d, p.function? f = some d → Follows σ (k d) (k' d) post a) :
    Follows σ (p.demandFunction f >>= k) (p.demandFunction f >>= k') post a := by
  unfold Program.demandFunction FunctionRegistry.demand
  cases hd : p.function? f with
  | none =>
    intro v c w hx
    cases hx
  | some d => exact h d hd

theorem follows_demandShape {q : ShapeId} {k k' : ShapeDecl → AnalysisM β}
    (h : ∀ d, p.shape? q = some d → Follows σ (k d) (k' d) post a) :
    Follows σ (p.demandShape q >>= k) (p.demandShape q >>= k') post a := by
  unfold Program.demandShape
  cases hd : p.shape? q with
  | none =>
    intro v c w hx
    cases hx
  | some d => exact h d hd

end Follows

/-- Types that are within each other. -/
abbrev Setting.Within (σ : Setting) (c : Analysis) (u u' : ConcreteType) : Prop := c.Within σ.host u u'

/-! ## Creation, narrowing and widening -/

namespace AnalysisM

/-- A function type with a known declaration widens to the function if it exists or is ambient, and to
nothing otherwise. -/
theorem widenFunction_cases {f : FunctionId} {signature : Option Signature} {u : ConcreteType}
    (h : widen p (.function (some f) signature) a = .ok u c) :
    (∃ r, u = .function r ∧ a.findFunction f = some r ∧ c = a) ∨
      (∃ d r, u = .function r ∧ p.function? f = some d ∧ d.body = none ∧ createFunction p f .global a = .ok r c) ∨
      u = ∅ ∧ c = a ∧ a.findFunction f = none ∧ ∀ d, p.function? f = some d → d.body ≠ none := by
  rw [widen, get_bind_apply] at h
  cases hfound : a.findFunction f with
  | some r =>
    rw [hfound] at h
    cases h
    exact .inl ⟨r, rfl, rfl, rfl⟩
  | none =>
    right
    rw [hfound] at h
    obtain ⟨d, e, hdemand, hrest⟩ := bind_ok h
    obtain ⟨rfl, hd⟩ := demandFunction_ok hdemand
    by_cases hambient : d.isAmbient = true
    · left
      rw [if_pos hambient] at hrest
      obtain ⟨r, e', hr, hlast⟩ := bind_ok hrest
      cases hlast
      exact ⟨d, r, rfl, hd, Option.isNone_iff_eq_none.1 hambient, hr⟩
    · right
      rw [if_neg hambient] at hrest
      cases hrest
      refine ⟨rfl, rfl, rfl, fun d' hd' hbody => hambient ?_⟩
      obtain rfl := Option.some.inj (hd.symm.trans hd')
      exact Option.isNone_iff_eq_none.2 hbody

/-- What is recorded without a change was allocated before. -/
theorem mem_allocated_of_record {o : ObjRef} {u : Unit} (h : recordAllocation o b = .ok u b) : o ∈ b.allocated := by
  rw [recordAllocation_apply] at h
  by_contra hnot
  rw [if_neg hnot] at h
  have hlength := congrArg (fun c : Analysis => c.allocated.length) (EStateM.Result.ok.inj h).2
  simp at hlength

section Creation

variable (hσ : σ.Hosted) (ha : σ.Guest a)
include hσ ha

theorem createObject_follows (q : ShapeId) :
    Follows σ (createObject σ.env.program q) (createObject σ.env.program q)
      (fun c o o' => c.Matches σ.host (.object o) (.object o')) a := by
  intro o c o' hx hy
  obtain ⟨-, ⟨hfound, -⟩, -⟩ := (createObject_evaluates (w := false) hσ.valid q).proceeds.of_ok hy
  exact ha.createObject hσ hfound hx

theorem createFunction_follows {f : FunctionId} (hf : .function f ∈ σ.mentions) :
    Follows σ (createFunction σ.env.program f σ.here) (createFunction σ.env.program f σ.there)
      (fun c r r' => c.Matches σ.host (.function r) (.function r')) a := by
  intro r c r' hx hy
  obtain ⟨_, hthere⟩ := hσ.owned.hasScope hσ.valid
  obtain ⟨-, hfound, -⟩ := (createFunction_evaluates (w := false) hσ.valid f hthere.lt).proceeds.of_ok hy
  exact ha.createFunction hσ hfound (.mentioned hf) hx

theorem recordAllocation_follows {o o' : ObjRef} (hmatch : a.Matches σ.host (.object o) (.object o')) :
    Follows σ (recordAllocation o) (recordAllocation o') (fun _ _ _ => True) a := by
  intro u c u' hx hy
  obtain ⟨hc, hac⟩ := ha.recordAllocation hσ hmatch (mem_allocated_of_record hy) hx
  exact ⟨hc, hac, trivial⟩

/-- What a function type with a known declaration widens to. -/
theorem widenFunction_follows (f : FunctionId) (signature : Option Signature) :
    Follows σ (widen σ.env.program (.function (some f) signature)) (widen σ.env.program (.function (some f) signature))
      σ.Within a := by
  intro u c u' hx hy
  have hhost : σ.host.findFunction f = none ∧ (∀ d, σ.env.program.function? f = some d → d.body ≠ none) ∨
      ∃ r', σ.host.findFunction f = some r' ∧ u' = .function r' := by
    rcases widenFunction_cases hy with ⟨r', rfl, hr', -⟩ | ⟨d, r', rfl, -, -, hr'⟩ | ⟨-, -, hnone, hbody⟩
    · exact .inr ⟨r', hr', rfl⟩
    · obtain ⟨-, hfound, -⟩ := (createFunction_evaluates (w := false) hσ.valid f hσ.valid.root.lt).proceeds.of_ok hr'
      exact .inr ⟨r', hfound, rfl⟩
    · exact .inl ⟨hnone, hbody⟩
  rcases widenFunction_cases hx with ⟨r, rfl, hr, rfl⟩ | ⟨d, r, rfl, hd, hbody, hr⟩ | ⟨rfl, rfl, -⟩
  · rcases hhost with ⟨hnone, -⟩ | ⟨r', hr', rfl⟩
    · obtain ⟨r', hr'⟩ := ha.embeds.findFunction hσ.tabled hr
      rw [hnone] at hr'
      cases hr'
    · exact ⟨ha, refl_of _ _, Analysis.within_single (.of_findFunction hr hr') (ConcreteType.mem_single.2 rfl)⟩
  · rcases hhost with ⟨-, hnot⟩ | ⟨r', hr', rfl⟩
    · exact absurd hbody (hnot d hd)
    · obtain ⟨hc, hac, hmatch⟩ := ha.createFunction hσ hr' (.ambient hd hbody) hr
      exact ⟨hc, hac, Analysis.within_single hmatch (ConcreteType.mem_single.2 rfl)⟩
  · exact ⟨ha, refl_of _ _, Analysis.within_empty _⟩

end Creation

mutual

/-- **What a declared type widens to.** -/
theorem widen_follows (hσ : σ.Hosted) : ∀ (d : DeclaredType) (a : Analysis), σ.Guest a →
    Follows σ (widen σ.env.program d) (widen σ.env.program d) σ.Within a
  | .unknown, _, ha => follows_pure ha (Analysis.within_all _)
  | .anyObject, _, ha => follows_pure ha (Analysis.within_all _)
  | .primitive, _, ha => follows_pure ha (Analysis.within_empty _)
  | .object q, a, ha => by
    rw [widen]
    refine follows_demandShape fun d _ => ?_
    split
    · exact follows_get (follows_pure ha (ha.embeds.expand _))
    · refine (createObject_follows hσ ha q).bind (createObject_does q) (fun o => ?_) ?_
      · exact (recordAllocation_does o).bind fun _ => moves_get.bind fun _ => moves_pure _
      intro o c o' hc hac hmatch
      refine (recordAllocation_follows hσ hc hmatch).bind (recordAllocation_does o')
        (fun _ => moves_get.bind fun _ => moves_pure _) fun _ d _ hd hcd _ => ?_
      have hobject := Analysis.within_single (hmatch.grows hcd) (ConcreteType.mem_single.2 rfl)
      exact follows_get (follows_pure hd (hobject.union (hd.embeds.expand _)))
  | .function (some f) signature, _, ha => widenFunction_follows hσ ha f signature
  | .function none _, _, ha => follows_pure ha (Analysis.within_all _)
  | .union ds, a, ha => widenAny_follows hσ ds a ha
termination_by structural d => d

theorem widenAny_follows (hσ : σ.Hosted) : ∀ (ds : List DeclaredType) (a : Analysis), σ.Guest a →
    Follows σ (widenAny σ.env.program ds) (widenAny σ.env.program ds) σ.Within a
  | [], _, ha => follows_pure ha (Analysis.within_empty _)
  | d :: ds, a, ha => by
    refine (widen_follows hσ d a ha).bind (widen_does d) (fun _ => (widenAny_does ds).bind fun _ => moves_pure _)
      fun u c u' hc hac hu => ?_
    refine (widenAny_follows hσ ds c hc).bind (widenAny_does ds) (fun _ => moves_pure _) ?_
    exact fun v d v' hd hcd hv => follows_pure hd ((hu.grows hcd).union hv)
termination_by structural ds => ds

end

end AnalysisM

end TypeFlow
