import TypeFlow.Proofs.FollowedActions
import TypeFlow.Proofs.Likeness

/-!
# Confluence

The order in which scopes are replayed makes no difference to a definite result, and neither does memory.

A result is at rest: evaluating its actions once more changes nothing. Another run of the program begins with nothing, so it is
embedded in the result, and every action that it evaluates has its like in the result, where what it creates and assigns
is there already. So the other run stays embedded until it ends. Two definite results are embedded in each
other, and states that are embedded in each other agree.

* `Analysis.Mapped.evaluate_embeds`: one action of the other run.
* `process_embeds`: every run ends embedded in a definite result.
* `definite_results_agree`: definite results agree, whatever the order.
-/

namespace TypeFlow

variable {p : Program} {env : Setup} {base : ScopeGraph} {a b c : Analysis} {s : ScopeId} {K : ScopeKind} {A : Action}

/-! ## Without memory -/

section Plain

variable (hv : b.Valid env.program) (hs : s.index < b.graph.scopes.length)
include hv hs

theorem Setup.typeOf?_plain : env.plain.typeOf? b.forget s = env.typeOf? b s := by
  funext e
  have hinfer := (AnalysisM.infer_evaluates (w := false) e s b hv hs).proceeds
  unfold Setup.typeOf?
  cases hx : AnalysisM.infer env s e b with
  | ok t c => rw [(hinfer.of_ok hx).2.2]
  | error f c => rw [(hinfer.of_error hx).2]

theorem Setup.formTypeOf?_plain : env.plain.formTypeOf? b.forget s = env.formTypeOf? b s := by
  funext declared form
  have hinfer := (AnalysisM.inferForm_evaluates (w := false) form s declared b hv hs).proceeds
  unfold Setup.formTypeOf?
  cases hx : AnalysisM.inferForm env s declared form b with
  | ok t c => rw [(hinfer.of_ok hx).2.2]
  | error f c => rw [(hinfer.of_error hx).2]

/-- What is definite does not depend on memory. -/
theorem Action.definite_plain (A : Action) : A.definite env.plain b.forget s = A.definite env b s := by
  have htype := Setup.typeOf?_plain hv hs
  have hform := Setup.formTypeOf?_plain hv hs
  have hclear : env.plain.clear b.forget s = env.clear b s := by
    funext e
    unfold Setup.clear
    rw [htype]
    rfl
  have hsure : env.plain.sure b.forget s = env.sure b s := by
    funext e
    obtain ⟨form, declared⟩ := e
    unfold Setup.sure
    rw [hform, hclear]
    rfl
  have hdomestic : env.plain.domestic b.forget s = env.domestic b s := by
    funext e
    unfold Setup.domestic
    rw [htype]
    rfl
  have hplain : env.plain.plainCall b.forget s = env.plainCall b s := by
    funext e
    unfold Setup.plainCall
    rw [htype]
  have hsettled : env.plain.settled b.forget s = env.settled b s := by
    funext e n
    unfold Setup.settled
    rw [htype]
    rfl
  unfold Action.definite
  rw [hclear, hsure, hdomestic, hplain, hsettled]

end Plain

/-- **A definite result is at rest**: evaluated once more, an action assigns what is there already. -/
theorem Analysis.Definite.rests {ambient body : List Stmt} {done : Converged} (hdefinite : b.Definite env)
    (h : env.process ambient body .fresh = .ok done b) (hA : A ∈ b.graph.actionsOf s) :
    ∃ ws, AnalysisM.evaluate env.plain s A b.forget = .ok ws b.forget ∧ ∀ w ∈ ws, w.type ⊆ b.graph.typeOf w.slot := by
  obtain ⟨hv, -, hstable⟩ := converged_stable h
  obtain ⟨ws, hws, hsub⟩ := hstable s A hA
  exact ⟨ws, hws, fun w hw => (hsub w hw).elim id (hdefinite.landed.wide hv hA)⟩

/-! ## Along a run -/

/-- A state of a run of the whole program, in good order. -/
structure Analysis.Mapped (p : Program) (base : ScopeGraph) (a : Analysis) : Prop
    extends a.Chart p p.body base where
  tidy : a.Tidy p

/-- Evaluating an action and assigning what it gives keeps a state in good order. -/
theorem Analysis.Mapped.evaluate (ha : a.Mapped env.program base) {zs : List Assignment} (dirty : List ScopeId)
    (hA : A ∈ a.graph.actionsOf s) (h : AnalysisM.evaluate env s A a = .ok zs c) :
    (c.assign zs dirty).Mapped env.program base ∧ a.graph.actionsOf s ⊆ (c.assign zs dirty).graph.actionsOf s := by
  obtain ⟨sc, hsc, -⟩ := ScopeGraph.mem_actionsOf.1 hA
  have howns := ha.tidy.owns hsc
  have hproceeds := (AnalysisM.evaluate_evaluates ha.valid (ScopeGraph.scope_lt hsc) A
    (AnalysisM.action_slot_lt ha.valid.sound hA)).proceeds
  obtain ⟨hsteps, haccepts, -⟩ := hproceeds.of_ok h
  have hstage := (ha.stage howns hA).move ((AnalysisM.evaluate_does env s A).ok h) hsteps
  have hchart := hstage.assign dirty fun z hz => (haccepts z hz).1
  obtain ⟨hwords, hlexical⟩ := ha.tidy.text.graph.actions s A hA
  have htold := ((AnalysisM.evaluate_tells hlexical hwords) a ha.tidy.text.told).of_ok h |>.assign zs dirty
  exact ⟨⟨hchart, hchart.valid, htold.text, hchart.tabled⟩, fun B hB => htold.grows.graph.mem_actionsOf hB⟩

theorem Analysis.Mapped.book (ha : a.Mapped p base) (discovered : List ScopeId) (widened : Bool)
    (converged : Option Converged) : Mapped p base { a with discovered, widened, converged } :=
  ⟨ha.toChart.book (ha.valid.congr rfl rfl rfl rfl rfl), ha.valid.congr rfl rfl rfl rfl rfl,
    ⟨ha.tidy.text.graph, ha.tidy.text.declared⟩, ha.tabled.functions, ha.tabled.objects, ha.tabled.allocated⟩

theorem prepare_mapped (hp : env.program.StandsOnce env.program.ambient env.program.body) {u : Unit}
    (h : AnalysisM.prepare env env.program.ambient env.program.body .fresh = .ok u a) :
    a.Mapped env.program a.graph :=
  ⟨prepare_chart hp h, prepare_tidy h⟩

/-- **One step**: what an action assigns keeps a state embedded in a definite result. -/
theorem Analysis.Mapped.evaluate_embeds (ha : a.Mapped p base) (hb : b.Mapped p base)
    (hp : p.StandsOnce p.ambient p.body) {config config' : Config} {done : Converged}
    (hrun : Setup.process ⟨p, config'⟩ p.ambient p.body .fresh = .ok done b) (hdefinite : b.Definite ⟨p, config'⟩)
    (hab : a.Embeds b.forget) {zs : List Assignment} (dirty : List ScopeId) (hA : A ∈ a.graph.actionsOf s)
    (h : AnalysisM.evaluate ⟨p, config⟩ s A a = .ok zs c) : (c.assign zs dirty).Embeds b.forget := by
  obtain ⟨sc, hsc, -⟩ := ScopeGraph.mem_actionsOf.1 hA
  have howns : a.forget.Owns sc.kind s := Analysis.Owns.congr (ha.tidy.owns hsc) rfl rfl
  have hv : a.Valid (Setup.program ⟨p, config⟩) := ha.valid
  have hproceeds := (AnalysisM.evaluate_evaluates hv (ScopeGraph.scope_lt hsc) A
    (AnalysisM.action_slot_lt hv.sound hA)).proceeds
  obtain ⟨hsteps, haccepts, hplain⟩ := hproceeds.of_ok h
  have hguest : a.forget.Embeds b.forget := hab.congr rfl rfl rfl rfl
  -- the like action of the other run, in the scope of the same owner
  obtain ⟨s', hs'⟩ := hguest.owns howns
  obtain ⟨A', hA', halike⟩ := ha.forget.alike hb.forget hp howns hs' hA
  obtain ⟨ws, hws, hsub⟩ := hdefinite.rests hrun hA'
  let σ : Setting := ⟨Setup.plain ⟨p, config'⟩, p.ambient, p.body, base, sc.kind, s, s', A.mentions, b.forget⟩
  have hσ : σ.Hosted := ⟨hb.forget, rfl, hp, hs', hdefinite.unshadowed⟩
  have hA'definite : A'.definite σ.env σ.host σ.there = true := by
    have hlt : s'.index < b.graph.scopes.length := scope_lt_of_mem_actionsOf hA'
    exact (Action.definite_plain hb.valid hlt A').trans (hdefinite.actions s' A' hA')
  have hsetups : Setup.Alike (Setup.plain ⟨p, config⟩) (Setup.plain ⟨p, config'⟩) := ⟨Program.Alike.refl p, rfl⟩
  -- with memory or without, the action gives the same, so the configurations need not be
  rw [← hsetups.evaluate] at hplain
  obtain ⟨hc, -, hcovers⟩ := AnalysisM.evaluate_follows hσ ⟨ha.forget.stage howns hA, hguest⟩ halike
    (ha.forget.hasText howns hA) (List.Subset.refl _) hA'definite zs c.forget ws hplain hws
  have hgrows : c.forget.Grows c := ⟨refl_of _ c.graph, List.prefix_rfl, List.prefix_rfl, List.prefix_rfl⟩
  refine Analysis.Embeds.assign dirty (hc.embeds.congr rfl rfl rfl rfl) (hsteps.valid ha.valid) hσ.tabled
    (fun z hz => (haccepts z hz).1) fun z hz => ?_
  obtain ⟨w, hw, htwins, hwithin⟩ := hcovers z hz
  exact ⟨w.slot, htwins.grows hgrows, (hwithin.grows hgrows).of_subset (hsub w hw)⟩

/-- When a run begins, nothing is there but the global scope, and no slot holds anything. -/
theorem prepare_embeds {u : Unit} (h : AnalysisM.prepare env env.program.ambient env.program.body .fresh = .ok u a) :
    a.Embeds b := by
  obtain ⟨g, hx, rfl⟩ := prepare_fresh_ok h
  have hbuilds := (AnalysisM.extract_builds (D := (· = .global)) (E := (· = .global)) rfl rfl env.program _ _).ok hx
  refine ⟨⟨fun e he => absurd he List.not_mem_nil, fun e he => absurd he List.not_mem_nil,
    fun o ho => absurd ho List.not_mem_nil⟩, fun K s s' n hK hs => ?_, fun x x' _ => ?_⟩
  · cases hs with
    | global => cases hK
    | body entry | statics entry | object entry => exact absurd entry List.not_mem_nil
  · have hempty : g.typeOf x = ∅ := hbuilds.typeOf x
    rw [hempty]
    exact Analysis.within_empty _

section Runs

variable {config config' : Config} {done done' : Converged} (hp : p.StandsOnce p.ambient p.body)
include hp

/-- The state at the end of a run is in good order, on the ground of the run. -/
theorem process_mapped {u : Unit} (hprepare : AnalysisM.prepare ⟨p, config⟩ p.ambient p.body .fresh = .ok u c)
    (h : Setup.process ⟨p, config⟩ p.ambient p.body .fresh = .ok done a) : a.Mapped p c.graph :=
  process_preserves (fun _ _ _ _ _ dirty ha hA he => ha.evaluate dirty hA he)
    (fun _ found widened done ha => ha.book found widened done) hprepare (prepare_mapped hp hprepare) h

/-- **Every run ends embedded in a definite result.** -/
theorem process_embeds {u : Unit} (hprepare : AnalysisM.prepare ⟨p, config⟩ p.ambient p.body .fresh = .ok u c)
    (ha : Setup.process ⟨p, config⟩ p.ambient p.body .fresh = .ok done a)
    (hb : Setup.process ⟨p, config'⟩ p.ambient p.body .fresh = .ok done' b) (hdefinite : b.Definite ⟨p, config'⟩) :
    a.Embeds b.forget := by
  -- preparation does not depend on the configuration
  have hprepare' : AnalysisM.prepare ⟨p, config'⟩ p.ambient p.body .fresh = .ok u c := hprepare
  have hmapped := process_mapped hp hprepare' hb
  refine (process_preserves (J := fun x => x.Mapped p c.graph ∧ x.Embeds b.forget) ?_ ?_ hprepare
    ⟨prepare_mapped hp hprepare, prepare_embeds hprepare⟩ ha).2
  · intro x s A zs y dirty ⟨hx, hembeds⟩ hA he
    obtain ⟨hy, hsub⟩ := hx.evaluate dirty hA he
    exact ⟨⟨hy, hx.evaluate_embeds hmapped hp hb hdefinite hembeds dirty hA he⟩, hsub⟩
  · exact fun x found widened done ⟨hx, hembeds⟩ => ⟨hx.book found widened done, hembeds.congr rfl rfl rfl rfl⟩

end Runs

/-! ## Agreement -/

namespace Analysis

variable {n : String} {t t' : ConcreteType}

theorem Tidy.typeAt_eq_some_iff (ha : a.Tidy p) :
    a.typeAt K n = some t ↔ ∃ s x, a.Owns K s ∧ a.graph.own s n = some x ∧ a.graph.typeOf x = t := by
  unfold typeAt
  rw [Option.map_eq_some_iff]
  constructor
  · rintro ⟨x, hx, rfl⟩
    obtain ⟨s, hs, hx⟩ := Option.bind_eq_some_iff.1 hx
    exact ⟨s, x, ha.scopeOf_eq_some_iff.1 hs, hx, rfl⟩
  · rintro ⟨s, x, hs, hx, rfl⟩
    exact ⟨x, Option.bind_eq_some_iff.2 ⟨s, ha.scopeOf_eq_some_iff.2 hs, hx⟩, rfl⟩

/-- What is found for a name is within what is found for it in the other state. -/
theorem Mapped.typeAt (ha : a.Mapped p base) (hb : b.Mapped p base) (hab : a.Embeds b.forget)
    (h : a.typeAt K n = some t) : ∃ t', b.typeAt K n = some t' ∧ a.Within b t t' := by
  obtain ⟨s, x, hs, hx, rfl⟩ := ha.tidy.typeAt_eq_some_iff.1 h
  obtain ⟨s', hs'⟩ := hab.owns hs
  obtain ⟨x', hx'⟩ : ∃ x', b.graph.own s' n = some x' := by
    -- code has the same names in both states, while names are added to objects and functions
    cases hK : K.isCode with
    | true =>
      have hrel := ha.own_rel hb.forget hK hs hs' n
      rw [hx] at hrel
      cases hrel' : b.graph.own s' n with
      | some x' => exact ⟨x', rfl⟩
      | none =>
        rw [show b.forget.graph.own s' n = none from hrel'] at hrel
        cases hrel
    | false => exact Option.ne_none_iff_exists'.1 (hab.names K s s' n hK hs hs' (by simp [hx]))
  refine ⟨b.graph.typeOf x', hb.tidy.typeAt_eq_some_iff.2 ⟨s', x', hs'.congr rfl rfl, hx', rfl⟩, ?_⟩
  exact hab.types x x' ⟨K, n, s, s', hs, hs', hx, hx'⟩

/-- Types that are within each other have the same description. -/
theorem Within.described_eq (h : a.Within b t t') (k : b.Within a t' t) : a.described t = b.described t' := by
  have hlabels {a b : Analysis} {m m' : EntitySet} (h : a.Within b (.only m) (.only m')) (l : Label)
      (hl : ∃ e ∈ m, a.label e = some l) : ∃ e ∈ m', b.label e = some l := by
    obtain ⟨e, he, hl⟩ := hl
    obtain ⟨e', he', l', hl₁, hl₂⟩ := h e he
    obtain rfl := Option.some.inj (hl.symm.trans hl₁)
    exact ⟨e', he', hl₂⟩
  cases t with
  | all =>
    obtain rfl := h.eq_all
    rfl
  | only m =>
    cases t' with
    | all => cases k.eq_all
    | only m' => exact congrArg Described.only (Set.ext fun l => ⟨hlabels h l, hlabels k l⟩)

/-- What is allocated in one state is allocated in the other. -/
theorem Embeds.allocatedShapes_subset (hab : a.Embeds b.forget) : a.allocatedShapes ⊆ b.allocatedShapes := by
  rintro q ⟨o, ho, hl⟩
  obtain ⟨o', ho', l, hl₁, hl₂⟩ := hab.allocated o ho
  obtain rfl := Option.some.inj (hl.symm.trans hl₁)
  exact ⟨o', ho', hl₂⟩

/-- **States that are embedded in each other agree.** -/
theorem Mapped.agrees (ha : a.Mapped p base) (hb : b.Mapped p base) (hab : a.Embeds b.forget)
    (hba : b.Embeds a.forget) : a.Agrees b := by
  refine ⟨fun K n => ?_, Set.Subset.antisymm hab.allocatedShapes_subset hba.allocatedShapes_subset⟩
  cases h : a.typeAt K n with
  | some t =>
    obtain ⟨t', ht', hwithin⟩ := ha.typeAt hb hab h
    obtain ⟨u, hu, hwithin'⟩ := hb.typeAt ha hba ht'
    obtain rfl := Option.some.inj (h.symm.trans hu)
    rw [ht', Option.map_some, Option.map_some, hwithin.described_eq hwithin']
  | none =>
    cases h' : b.typeAt K n with
    | none => rfl
    | some t' =>
      obtain ⟨t, ht, -⟩ := hb.typeAt ha hba h'
      rw [h] at ht
      cases ht

end Analysis

theorem exists_prepare {ambient body : List Stmt} {done : Converged} (h : env.process ambient body a = .ok done b) :
    ∃ u c, AnalysisM.prepare env ambient body a = .ok u c := by
  unfold Setup.process Setup.trace at h
  cases hprepare : AnalysisM.prepare env ambient body a with
  | ok u c => exact ⟨u, c, rfl⟩
  | error e c =>
    rw [hprepare] at h
    cases h

/-- **Definite results agree, whatever the order of replays**, and with or without memory. -/
theorem definite_results_agree (p : Program) (config config' : Config) (hp : p.StandsOnce p.ambient p.body)
    {done done' : Converged} (ha : Setup.process ⟨p, config⟩ p.ambient p.body .fresh = .ok done a)
    (hb : Setup.process ⟨p, config'⟩ p.ambient p.body .fresh = .ok done' b) (hda : a.Definite ⟨p, config⟩)
    (hdb : b.Definite ⟨p, config'⟩) : a.Agrees b := by
  obtain ⟨u, c, hprepare⟩ := exists_prepare ha
  have hprepare' : AnalysisM.prepare ⟨p, config'⟩ p.ambient p.body .fresh = .ok u c := hprepare
  exact (process_mapped hp hprepare ha).agrees (process_mapped hp hprepare' hb) (process_embeds hp hprepare ha hb hdb)
    (process_embeds hp hprepare' hb ha hda)

/-- The functions `left` and `right` each make a node that holds a function, and `right` calls what the node of `left`
holds with its own. -/
def linkedNodes : Program where
  shapes := [{ name := "Node.prototype", kind := .prototype },
    { name := "Node", kind := .constructed, properties := ["value"], proto := some ⟨0⟩ }]
  functions := [
    { name := "Node", params := ["value"], objectShape := some ⟨1⟩, prototypeShape := some ⟨0⟩, body := some [
        .expr ⟨.assign ⟨.prop ⟨.this, none⟩ "value", none⟩ ⟨.name "value", none⟩, none⟩] },
    { name := "left", body := some [
        .expr ⟨.assign ⟨.name "head", none⟩ ⟨.construct ⟨.name "Node", none⟩ [⟨.function ⟨3⟩, none⟩], none⟩, none⟩] },
    { name := "right", body := some [
        .expr ⟨.call ⟨.prop ⟨.name "head", none⟩ "value", none⟩
          [⟨.construct ⟨.name "Node", none⟩ [⟨.function ⟨4⟩, none⟩], none⟩], none⟩,
        .expr ⟨.call ⟨.name "log", none⟩ [⟨.name "head", none⟩], none⟩] },
    { params := ["x"], body := some [.ret (some ⟨.name "x", none⟩)] },
    { params := ["y"], body := some [
        .expr ⟨.assign ⟨.prop ⟨.name "y", none⟩ "next", none⟩ ⟨.name "head", none⟩, none⟩] }]
  body := [.function ⟨0⟩, .function ⟨1⟩, .function ⟨2⟩, .var "head" none none]

/-- Where the scopes are replayed in reverse, the two functions are created the other way round, and the results
agree. -/
theorem linkedNodes_agrees : linkedNodes.StandsOnce linkedNodes.ambient linkedNodes.body ∧
    ∃ c a d b, Setup.process ⟨linkedNodes, {}⟩ linkedNodes.ambient linkedNodes.body .fresh = .ok c a ∧
      Setup.process ⟨linkedNodes, { order := .reverse, memoize := false }⟩ linkedNodes.ambient linkedNodes.body .fresh =
        .ok d b ∧
      a.Definite ⟨linkedNodes, {}⟩ ∧ b.Definite ⟨linkedNodes, { order := .reverse, memoize := false }⟩ ∧
      a.functions.map (·.decl.index) = [0, 1, 2, 3, 4] ∧ b.functions.map (·.decl.index) = [0, 1, 2, 4, 3] ∧
      a.Agrees b := by
  have hstands : linkedNodes.StandsOnce linkedNodes.ambient linkedNodes.body :=
    ⟨by decide, fun f hf => absurd hf List.not_mem_nil⟩
  have hforward : checks (Setup.process ⟨linkedNodes, {}⟩ linkedNodes.ambient linkedNodes.body) .fresh (fun _ a =>
      a.Definite ⟨linkedNodes, {}⟩ ∧ a.functions.map (·.decl.index) = [0, 1, 2, 3, 4]) = true := by decide +kernel
  have hreverse : checks (Setup.process ⟨linkedNodes, { order := .reverse, memoize := false }⟩ linkedNodes.ambient
      linkedNodes.body) .fresh (fun _ b => b.Definite ⟨linkedNodes, { order := .reverse, memoize := false }⟩ ∧
      b.functions.map (·.decl.index) = [0, 1, 2, 4, 3]) = true := by decide +kernel
  obtain ⟨c, a, ha, htest⟩ := exists_ok hforward
  obtain ⟨d, b, hb, htest'⟩ := exists_ok hreverse
  obtain ⟨hda, hfunctions⟩ := of_decide_eq_true htest
  obtain ⟨hdb, hfunctions'⟩ := of_decide_eq_true htest'
  exact ⟨hstands, c, a, d, b, ha, hb, hda, hdb, hfunctions, hfunctions',
    definite_results_agree linkedNodes _ _ hstands ha hb hda hdb⟩

end TypeFlow
