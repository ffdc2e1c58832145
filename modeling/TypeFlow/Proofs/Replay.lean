import TypeFlow.Proofs.Actions

/-!
# Replaying and processing

Replaying a scope evaluates its actions and joins what they assign into the slots. It
changes the state by steps and joins only, and it does the same on a state that remembers
nothing. Preparing a program builds on the global scope.

* `replay_advances`: one replay.
* `replay_widened`: what the mark says at its end.
* `prepare_final`, `prepare_forget`: before the first pass.
-/

namespace TypeFlow

open Relation

variable {p : Program} {w : Bool} {env : Setup} {α : Type} {a : Analysis}

/-- `x` changes the state by steps and joins, and `y` does the same from the state that remembers
nothing. -/
def Advances (p : Program) (x y : AnalysisM α) (a : Analysis) : Prop :=
  match x a with
  | .ok v b => Changes p a b ∧ y a.forget = .ok v b.forget
  | .error e b => (∃ c, Changes p a c ∧ c.Leaves b) ∧ y a.forget = .error e b.forget

theorem Advances.of_ok {x y : AnalysisM α} (h : Advances p x y a) {v : α} {b : Analysis}
    (hx : x a = .ok v b) : Changes p a b ∧ y a.forget = .ok v b.forget := by
  unfold Advances at h
  rwa [hx] at h

theorem Advances.of_error {x y : AnalysisM α} (h : Advances p x y a) {e : Fault} {b : Analysis}
    (hx : x a = .error e b) :
    (∃ c, Changes p a c ∧ c.Leaves b) ∧ y a.forget = .error e b.forget := by
  unfold Advances at h
  rwa [hx] at h

/-- Where a computation that advances can end. -/
theorem Advances.final {x y : AnalysisM α} (h : Advances p x y a) (hv : a.Valid p) :
    a.Grows (finalState x a) ∧ (finalState x a).Valid p := by
  cases hx : x a with
  | ok v b =>
    have hab := (h.of_ok hx).1
    rw [finalState_ok hx]
    exact ⟨Changes.grows hab, Changes.valid hab hv⟩
  | error e b =>
    obtain ⟨⟨c, hac, hcb⟩, -⟩ := h.of_error hx
    rw [finalState_error hx]
    exact ⟨trans_of Analysis.Grows (Changes.grows hac) hcb.grows, (Changes.valid hac hv).leaves hcb⟩

theorem Proceeds.advances {x y : AnalysisM α} {post : Analysis → α → Prop}
    (h : Proceeds p w x y post a) : Advances p x y a := by
  unfold Advances
  cases hx : x a with
  | ok v b =>
    obtain ⟨hab, -, hy⟩ := h.of_ok hx
    exact ⟨Steps.changes hab, hy⟩
  | error e b =>
    obtain ⟨⟨c, hac, hcb⟩, hy⟩ := h.of_error hx
    exact ⟨⟨c, Steps.changes hac, hcb⟩, hy⟩

/-! ## Applying assignments -/

namespace ScopeGraph

theorem apply_cons (x : SlotId) (t : ConcreteType) (rest : List Assignment) (dirty : List ScopeId)
    (g : ScopeGraph) :
    apply (⟨x, t⟩ :: rest) dirty g = apply rest
      (if (g.unionInto x t).1 then
        enqueue dirty (((g.unionInto x t).2.slot? x).map (·.owner)).toList else dirty)
      (g.unionInto x t).2 := rfl

end ScopeGraph

/-- The state with assignments applied. -/
def Analysis.assign (a : Analysis) (zs : List Assignment) (dirty : List ScopeId) : Analysis :=
  { a with graph := (ScopeGraph.apply zs dirty a.graph).2 }

theorem assign_changes : ∀ (zs : List Assignment) (dirty : List ScopeId) (a : Analysis),
    (∀ z ∈ zs, a.Knows z.type) → Changes p a (a.assign zs dirty)
  | [], _, _, _ => .refl
  | ⟨x, t⟩ :: rest, dirty, a, hz => by
    have hjoin : a.Joins { a with graph := (a.graph.unionInto x t).2 } :=
      ⟨x, t, hz ⟨x, t⟩ (List.mem_cons_self ..), rfl⟩
    refine .head (.inr (.inl hjoin)) ?_
    unfold Analysis.assign
    rw [ScopeGraph.apply_cons]
    exact assign_changes rest _ { a with graph := (a.graph.unionInto x t).2 } fun z h =>
      (hz z (List.mem_cons_of_mem _ h)).grows hjoin.grows

/-! ## Replays -/

namespace AnalysisM

theorem replayActions_cons (env : Setup) (s : ScopeId) (action : Action) (rest : List Action)
    (dirty : List ScopeId) (a : Analysis) :
    replayActions env s (action :: rest) dirty a = match evaluate env s action a with
      | .ok zs b => replayActions env s rest (ScopeGraph.apply zs dirty b.graph).1 (b.assign zs dirty)
      | .error e b => .error e b := by
  rw [replayActions, bind_apply]
  cases evaluate env s action a <;> rfl

theorem replayActions_ok {s : ScopeId} {b : Analysis} {action : Action} {rest : List Action} {dirty dirty' : List ScopeId}
    (h : replayActions env s (action :: rest) dirty a = .ok dirty' b) :
    ∃ zs c, evaluate env s action a = .ok zs c ∧
      replayActions env s rest (ScopeGraph.apply zs dirty c.graph).1 (c.assign zs dirty) = .ok dirty' b := by
  rw [replayActions_cons] at h
  cases he : evaluate env s action a with
  | error e c => rw [he] at h; cases h
  | ok zs c => rw [he] at h; exact ⟨zs, c, rfl, h⟩

theorem replayActions_advances {s : ScopeId} : ∀ (actions : List Action) (dirty : List ScopeId)
    (a : Analysis), a.Valid env.program → s.index < a.graph.scopes.length →
    (∀ action ∈ actions, ∀ x ∈ action.slot?, x.index < a.graph.slots.length) →
    Advances env.program (replayActions env s actions dirty) (replayActions env.plain s actions dirty) a
  | [], _, _, _, _, _ => ⟨.refl, rfl⟩
  | action :: rest, dirty, a, hv, hs, hslot => by
    have he := (evaluate_evaluates hv hs action (hslot action (List.mem_cons_self ..))).proceeds
    unfold Advances
    rw [replayActions_cons, replayActions_cons]
    cases ha : evaluate env s action a with
    | error e b =>
      obtain ⟨⟨c, hac, hcb⟩, hy⟩ := he.of_error ha
      rw [hy]
      exact ⟨⟨c, Steps.changes hac, hcb⟩, rfl⟩
    | ok zs b =>
      obtain ⟨hab, hzs, hy⟩ := he.of_ok ha
      rw [hy]
      have hbc : Changes env.program b (b.assign zs dirty) := assign_changes zs dirty b fun z hz => (hzs z hz).1
      have hac := (Steps.changes hab).trans hbc
      have hgrow := Changes.grows hac
      have ih := replayActions_advances rest (ScopeGraph.apply zs dirty b.graph).1 (b.assign zs dirty)
        (Changes.valid hac hv) (Nat.lt_of_lt_of_le hs hgrow.scopes_le) fun act hact x hx =>
          Nat.lt_of_lt_of_le (hslot act (List.mem_cons_of_mem _ hact) x hx) hgrow.slots_le
      dsimp only
      cases hr : replayActions env s rest (ScopeGraph.apply zs dirty b.graph).1 (b.assign zs dirty) with
      | ok v d =>
        obtain ⟨hbd, hy'⟩ := ih.of_ok hr
        exact ⟨hac.trans hbd, hy'⟩
      | error e d =>
        obtain ⟨⟨c, hbc', hcd⟩, hy'⟩ := ih.of_error hr
        exact ⟨⟨c, hac.trans hbc', hcd⟩, hy'⟩

/-- Whatever is allocated while actions are replayed is marked. -/
theorem replayActions_widened {s : ScopeId} : ∀ {actions : List Action} {dirty dirty' : List ScopeId}
    {a b : Analysis}, a.Valid env.program → s.index < a.graph.scopes.length →
    (∀ action ∈ actions, ∀ x ∈ action.slot?, x.index < a.graph.slots.length) →
    replayActions env s actions dirty a = .ok dirty' b →
    (b.widened = true ↔ a.widened = true ∨ a.allocated.length < b.allocated.length)
  | [], _, _, _, _, _, _, _, h => by
    cases h
    simp
  | action :: rest, dirty, dirty', a, b, hv, hs, hslot, h => by
    obtain ⟨zs, c, he, h⟩ := replayActions_ok h
    obtain ⟨hac, hzs, -⟩ :=
      (evaluate_evaluates hv hs action (hslot action (List.mem_cons_self ..))).proceeds.of_ok he
    have hcd : Changes env.program c (c.assign zs dirty) := assign_changes zs dirty c fun z hz => (hzs z hz).1
    have hac' := Steps.changes hac
    have hgrow := Changes.grows (hac'.trans hcd)
    have hvd := Changes.valid (hac'.trans hcd) hv
    have hs' := Nat.lt_of_lt_of_le hs hgrow.scopes_le
    have hslot' : ∀ action ∈ rest, ∀ x ∈ action.slot?, x.index < (c.assign zs dirty).graph.slots.length :=
      fun act hact x hx =>
        Nat.lt_of_lt_of_le (hslot act (List.mem_cons_of_mem _ hact) x hx) hgrow.slots_le
    have hrest := replayActions_widened hvd hs' hslot' h
    have hdb := Changes.grows ((replayActions_advances rest _ _ hvd hs' hslot').of_ok h).1
    -- assignments allocate nothing and leave the mark
    have hlength : (c.assign zs dirty).allocated.length = c.allocated.length := rfl
    have hmark : (c.assign zs dirty).widened = c.widened := rfl
    have hle := hac.grows.allocated.length_le
    have hle' := hdb.allocated.length_le
    rw [hrest, hmark, hac.widened, or_assoc]
    refine or_congr_right ?_
    omega

theorem replay_apply (env : Setup) (s : ScopeId) (a : Analysis) :
    replay env s a = match replayActions env s (a.graph.actionsOf s) [] a.begun with
      | .ok dirty b => .ok ⟨dirty, .ofNat (a.graph.actionsOf s).length, b.widened⟩ b
      | .error e b => .error e b := by
  change (replayActions env s (a.graph.actionsOf s) [] >>= _) a.begun = _
  rw [bind_apply]
  cases replayActions env s (a.graph.actionsOf s) [] a.begun <;> rfl

theorem replay_ok {s : ScopeId} {r : Replay ScopeId} {b : Analysis} (h : replay env s a = .ok r b) :
    replayActions env s (a.graph.actionsOf s) [] a.begun = .ok r.dirty b ∧ r.widened = b.widened ∧
      r.actions = .ofNat (a.graph.actionsOf s).length := by
  rw [replay_apply] at h
  cases hr : replayActions env s (a.graph.actionsOf s) [] a.begun with
  | error e c => rw [hr] at h; cases h
  | ok dirty c => rw [hr] at h; cases h; exact ⟨rfl, rfl, rfl⟩

theorem action_slot_lt (hg : a.graph.Sound) {s : ScopeId} {action : Action}
    (h : action ∈ a.graph.actionsOf s) : ∀ x ∈ action.slot?, x.index < a.graph.slots.length := by
  unfold ScopeGraph.actionsOf at h
  cases hc : a.graph.scope? s with
  | none => rw [hc] at h; cases h
  | some c =>
    rw [hc] at h
    exact (hg.fits s c hc).actions action h

/-- A scope that does not exist has no actions. -/
theorem actionsOf_absent {g : ScopeGraph} {s : ScopeId} (hs : g.scopes.length ≤ s.index) : g.actionsOf s = [] := by
  unfold ScopeGraph.actionsOf ScopeGraph.scope?
  rw [List.getElem?_eq_none_iff.2 hs]
  rfl

/-- **Replaying a scope** advances the state, with or without memory. -/
theorem replay_advances (hv : a.Valid env.program) (s : ScopeId) :
    Advances env.program (replay env s) (replay env.plain s) a := by
  have hactions : Advances env.program (replayActions env s (a.graph.actionsOf s) [])
      (replayActions env.plain s (a.graph.actionsOf s) []) a.begun := by
    rcases Nat.lt_or_ge s.index a.graph.scopes.length with hs | hs
    · exact replayActions_advances _ _ a.begun hv.begun hs fun action h => action_slot_lt hv.sound h
    · rw [actionsOf_absent hs]
      exact ⟨.refl, rfl⟩
  have hbegin : Changes env.program a a.begun := .single (.inr (.inr rfl))
  have hforget : a.forget.begun = a.begun.forget := rfl
  have hgraph : a.forget.graph = a.graph := rfl
  unfold Advances
  rw [replay_apply, replay_apply, hgraph, hforget]
  cases hr : replayActions env s (a.graph.actionsOf s) [] a.begun with
  | ok dirty b =>
    obtain ⟨h1, h2⟩ := hactions.of_ok hr
    rw [h2]
    exact ⟨hbegin.trans h1, rfl⟩
  | error e b =>
    obtain ⟨⟨c, h1, hcb⟩, h2⟩ := hactions.of_error hr
    rw [h2]
    exact ⟨⟨c, hbegin.trans h1, hcb⟩, rfl⟩

/-- **A replay widens the analysis exactly if it allocates an object.** -/
theorem replay_widened (hv : a.Valid env.program) {s : ScopeId} {r : Replay ScopeId} {b : Analysis}
    (h : replay env s a = .ok r b) : r.widened = true ↔ a.allocated.length < b.allocated.length := by
  obtain ⟨hactions, hwidened, -⟩ := replay_ok h
  rw [hwidened]
  rcases Nat.lt_or_ge s.index a.graph.scopes.length with hs | hs
  · have hmarked := replayActions_widened hv.begun hs (fun _ h => action_slot_lt hv.sound h) hactions
    simpa [Analysis.begun] using hmarked
  · rw [actionsOf_absent hs] at hactions
    have hnone : EStateM.Result.ok [] a.begun = .ok r.dirty b := hactions
    obtain ⟨-, rfl⟩ := EStateM.Result.ok.inj hnone
    simp [Analysis.begun]

/-! ## Preparation -/

/-- What a program declares is extracted into the global scope. -/
theorem extract_builds {D E : ScopeId → Prop} (hd : D .global) (he : E .global) (p : Program)
    (ambient body : List Stmt) : Moves (ScopeGraph.Builds D E) (extract p ambient body) :=
  (Extraction.hoist_builds p hd ambient).bind fun _ => (Extraction.hoist_builds p hd body).bind fun _ =>
    (ImplicitGlobals.declare_builds p hd body).bind fun _ =>
      (Extraction.visit_builds p hd he ambient).bind fun _ => Extraction.visit_builds p hd he body

theorem prepare_apply (env : Setup) (ambient body : List Stmt) (a : Analysis) :
    prepare env ambient body a =
      if a.processed then .error .alreadyProcessed a
      else match extract env.program ambient body a.graph with
        | .ok _ g => .ok ⟨⟩ { a with graph := g, processed := true }
        | .error e g => .error e { a with graph := g, processed := true } := by
  change (if a.processed then throw .alreadyProcessed
    else do set { a with processed := true }; onGraph (extract env.program ambient body) :
      AnalysisM Unit) a = _
  split
  · rfl
  · change onGraph (extract env.program ambient body) { a with processed := true } = _
    unfold onGraph
    cases extract env.program ambient body a.graph <;> rfl

/-- Preparation only builds on the graph, and does so once. -/
theorem prepare_final (hv : a.Valid env.program) (ambient body : List Stmt) :
    a.Grows (finalState (prepare env ambient body) a) ∧
      (finalState (prepare env ambient body) a).Valid env.program := by
  have hb := extract_builds (D := (· = .global)) (E := (· = .global)) rfl rfl env.program ambient body
    a.graph
  have hfinal {g : ScopeGraph} (hg : a.graph.Builds (· = .global) (· = .global) g) :
      a.Grows { a with graph := g, processed := true } ∧
        Analysis.Valid env.program { a with graph := g, processed := true } :=
    ⟨⟨hg.grows, List.prefix_rfl, List.prefix_rfl, List.prefix_rfl⟩,
      (hv.build hg).congr rfl rfl rfl rfl rfl⟩
  unfold finalState at hb ⊢
  rw [prepare_apply]
  cases hp : a.processed with
  | true => exact ⟨refl_of _ a, hv⟩
  | false =>
    rw [if_neg Bool.false_ne_true]
    cases hx : extract env.program ambient body a.graph with
    | ok u g => rw [hx] at hb; exact hfinal hb
    | error e g => rw [hx] at hb; exact hfinal hb

theorem prepare_forget (env : Setup) (ambient body : List Stmt) (a : Analysis) :
    prepare env.plain ambient body a.forget = match prepare env ambient body a with
      | .ok v b => .ok v b.forget
      | .error e b => .error e b.forget := by
  have hgraph : a.forget.graph = a.graph := rfl
  have hprocessed : a.forget.processed = a.processed := rfl
  have hprogram : env.plain.program = env.program := rfl
  rw [prepare_apply, prepare_apply, hgraph, hprocessed, hprogram]
  split
  · rfl
  · cases extract env.program ambient body a.graph <;> rfl

end AnalysisM

/-! ## Runs -/

/-- The system without memory mirrors the one with memory, on valid states that continue a
given one. -/
theorem system_mirrors (env : Setup) (a : Analysis) :
    env.system.Mirrors env.plain.system Analysis.forget
      (fun b => b.Valid env.program ∧ a.Grows b) where
  roots _ := rfl
  replay u b hb := by
    have h := AnalysisM.replay_advances hb.1 u
    obtain ⟨hgrow, hvalid⟩ := h.final hb.1
    have hI : (finalState (AnalysisM.replay env u) b).Valid env.program ∧
        a.Grows (finalState (AnalysisM.replay env u) b) :=
      ⟨hvalid, trans_of Analysis.Grows hb.2 hgrow⟩
    change Mirrored _ _ (AnalysisM.replay env u) (AnalysisM.replay env.plain u) b
    unfold Mirrored
    cases hr : AnalysisM.replay env u b with
    | ok v c =>
      rw [finalState_ok hr] at hI
      exact ⟨hI, (h.of_ok hr).2⟩
    | error e c =>
      rw [finalState_error hr] at hI
      exact ⟨hI, (h.of_error hr).2⟩
  kept b hb := ⟨hb.1.congr rfl rfl rfl rfl rfl,
    hb.2.graph, hb.2.functions, hb.2.objects, hb.2.allocated⟩
  taken _ := rfl

/-- **Processing with and without memory** goes through the same states. -/
theorem trace_forget (env : Setup) (ambient body : List Stmt) {a : Analysis}
    (hv : a.Valid env.program) :
    env.plain.trace ambient body a.forget = (env.trace ambient body a).map Analysis.forget := by
  unfold Setup.trace
  rw [AnalysisM.prepare_forget]
  have hp := AnalysisM.prepare_final hv ambient body
  cases hx : AnalysisM.prepare env ambient body a with
  | error e b => rfl
  | ok u b =>
    rw [finalState_ok hx] at hp
    obtain ⟨hrun, -⟩ := (system_mirrors env b).solve env.config.order env.config.maxPasses
      (s := b) ⟨hp.2, refl_of _ b⟩
    have horder : env.plain.config.order = env.config.order := rfl
    have hlimit : env.plain.config.maxPasses = env.config.maxPasses := rfl
    dsimp only
    rw [horder, hlimit, hrun]
    unfold Run.map
    cases (env.system.solve env.config.order env.config.maxPasses b).result <;> rfl

/-- Where processing can end. -/
theorem trace_final (env : Setup) (ambient body : List Stmt) {a : Analysis}
    (hv : a.Valid env.program) :
    a.Grows (env.trace ambient body a).final ∧ (env.trace ambient body a).final.Valid env.program := by
  have hp := AnalysisM.prepare_final hv ambient body
  unfold Setup.trace
  cases hx : AnalysisM.prepare env ambient body a with
  | error e b =>
    rw [finalState_error hx] at hp
    exact hp
  | ok u b =>
    rw [finalState_ok hx] at hp
    obtain ⟨-, hvalid, hgrow⟩ := (system_mirrors env a).solve env.config.order env.config.maxPasses
      (s := b) ⟨hp.2, hp.1⟩
    dsimp only
    cases (env.system.solve env.config.order env.config.maxPasses b).result with
    | error e => exact ⟨hgrow, hvalid⟩
    | ok c => exact ⟨⟨hgrow.graph, hgrow.functions, hgrow.objects, hgrow.allocated⟩,
        hvalid.congr rfl rfl rfl rfl rfl⟩

end TypeFlow
