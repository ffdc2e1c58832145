import TypeFlow.Proofs.Replay

/-!
# The last pass

A run that converged ends with a pass in which no slot grew, nothing was allocated and no
scope was discovered. Objects may still have been created in it. So the pass was calm, and
every action that was evaluated in it gives the same result in the final state, unless it
assigns a property of anything.

* `Queued`: every scope with actions is queued or has just been discovered.
* `converged_stable`: in the final state, every action assigns only what is there already, or it
  assigns a property of anything.
-/

namespace TypeFlow

open Relation

variable {p : Program} {w : Bool} {env : Setup} {a b : Analysis} {q : List ScopeId}

/-! ## What is queued -/

/-- Every scope with actions is on the queue or has been discovered, and what is waiting
exists. -/
structure Queued (q : List ScopeId) (a : Analysis) : Prop where
  units : ∀ u ∈ q, u.index < a.graph.scopes.length
  found : ∀ u ∈ a.discovered, u.index < a.graph.scopes.length
  actions : ∀ s, a.graph.actionsOf s ≠ [] → s ∈ q ∨ s ∈ a.discovered

namespace ScopeGraph

theorem scopes_unionInto (g : ScopeGraph) (x : SlotId) (t : ConcreteType) :
    (g.unionInto x t).2.scopes = g.scopes := by
  rw [unionInto_snd]
  rfl

theorem scopes_joinOwn (g : ScopeGraph) (s : ScopeId) (n : String) (t : ConcreteType) :
    (g.joinOwn s n t).scopes = g.scopes := by
  unfold joinOwn
  split
  · exact scopes_unionInto g _ t
  · rfl

theorem actionsOf_congr {g h : ScopeGraph} (hs : h.scopes = g.scopes) (s : ScopeId) :
    h.actionsOf s = g.actionsOf s := by
  unfold actionsOf scope?
  rw [hs]

end ScopeGraph

/-- A step gives actions to no scope but one that is discovered with it. -/
theorem Step.actionsOf (h : Step p w a b) (s : ScopeId) :
    b.graph.actionsOf s = a.graph.actionsOf s ∨ s ∈ b.discovered := by
  cases h with
  | object decl new proto found older built =>
    exact .inl ((object_builds older built).actions s id)
  | @function f d parent statics body object prototype g h decl new hp ho older hs hb =>
    have hbody : body = ⟨a.graph.scopes.length + 1⟩ := by
      obtain ⟨rfl, -⟩ := GraphM.addBodyScope_ok hb
      cases hs
      simp
    by_cases hsb : s = body
    · exact .inr (List.mem_append_right _ (hsb ▸ List.mem_singleton_self _))
    · have hbuild := function_builds (E := (· = body)) hbody.symm older hs (finalState_ok hb)
      exact .inl ((ScopeGraph.actionsOf_congr (ScopeGraph.scopes_joinOwn ..) s).trans (hbuild.actions s hsb))
  | property _ owner built =>
    have hg := (GraphM.declare_builds (D := fun _ => True) (E := fun _ => False) trivial _).ok built
    exact .inl (hg.actions s id)
  | allocate | remember => exact .inl rfl

/-- What a step discovers is new. -/
theorem Step.discovered (h : Step p w a b) :
    ∃ l, b.discovered = a.discovered ++ l ∧ l.length + a.functions.length = b.functions.length ∧
      ∀ u ∈ l, a.graph.scopes.length ≤ u.index ∧ u.index < b.graph.scopes.length := by
  cases h with
  | @function f d parent statics body object prototype g h decl new hp ho older hs hb =>
    refine ⟨[body], rfl, by simp [Nat.add_comm], fun u hu => ?_⟩
    rw [List.mem_singleton.1 hu]
    obtain ⟨rfl, c, hc, -⟩ := GraphM.addBodyScope_ok hb
    have hlt := ScopeGraph.scope_lt hc
    refine ⟨?_, ?_⟩
    · cases hs
      simp
    · rwa [ScopeGraph.scopes_joinOwn]
  | object | property | allocate | remember =>
    exact ⟨[], by simp, by simp, fun _ h => absurd h List.not_mem_nil⟩

theorem Step.queued (h : Step p w a b) (hq : Queued q a) : Queued q b := by
  have hle := h.grows.scopes_le
  obtain ⟨l, hl, -, hnew⟩ := h.discovered
  refine ⟨fun u hu => Nat.lt_of_lt_of_le (hq.units u hu) hle, fun u hu => ?_, fun s hs => ?_⟩
  · rw [hl] at hu
    rcases List.mem_append.1 hu with h1 | h1
    · exact Nat.lt_of_lt_of_le (hq.found u h1) hle
    · exact (hnew u h1).2
  · rcases h.actionsOf s with h1 | h1
    · refine (hq.actions s (h1 ▸ hs)).imp id fun h2 => ?_
      rw [hl]
      exact List.mem_append_left _ h2
    · exact .inr h1

theorem Analysis.Joins.queued (h : a.Joins b) (hq : Queued q a) : Queued q b := by
  obtain ⟨x, t, -, rfl⟩ := h
  have hscopes := ScopeGraph.scopes_unionInto a.graph x t
  refine ⟨fun u hu => ?_, fun u hu => ?_, fun s hs => ?_⟩
  · rw [hscopes]
    exact hq.units u hu
  · rw [hscopes]
    exact hq.found u hu
  · rw [ScopeGraph.actionsOf_congr hscopes] at hs
    exact hq.actions s hs

theorem Queued.begun (hq : Queued q a) : Queued q a.begun := ⟨hq.units, hq.found, hq.actions⟩

theorem Changes.queued (h : Changes p a b) (hq : Queued q a) : Queued q b := by
  induction h with
  | refl => exact hq
  | tail _ hstep ih =>
    rcases hstep with hstep | hjoin | rfl
    · exact hstep.queued ih
    · exact hjoin.queued ih
    · exact ih.begun

theorem Queued.enqueue (hq : Queued q a) {us : List ScopeId}
    (hus : ∀ u ∈ us, u.index < a.graph.scopes.length) : Queued (enqueue q us) a :=
  ⟨fun u hu => (mem_enqueue.1 hu).elim (hq.units u) (hus u), hq.found,
    fun s hs => (hq.actions s hs).imp (fun h => mem_enqueue.2 (.inl h)) id⟩

/-- What was discovered may be queued. -/
theorem Queued.take (hq : Queued q a) :
    Queued (TypeFlow.enqueue q a.discovered) { a with discovered := [] } :=
  ⟨(hq.enqueue hq.found).units, fun _ h => absurd h List.not_mem_nil,
    fun s hs => .inl (mem_enqueue.2 (hq.actions s hs))⟩

/-! ## Assignments that change nothing -/

namespace ScopeGraph

/-- What is dirty stays dirty. -/
theorem mem_apply_fst {u : ScopeId} : ∀ (zs : List Assignment) (dirty : List ScopeId) (g : ScopeGraph),
    u ∈ dirty → u ∈ (apply zs dirty g).1
  | [], _, _, h => h
  | ⟨x, t⟩ :: rest, dirty, g, h => by
    rw [apply_cons]
    refine mem_apply_fst rest _ _ ?_
    split
    · exact mem_enqueue.2 (.inl h)
    · exact h

/-- What becomes dirty exists. -/
theorem apply_fst_lt {u : ScopeId} : ∀ (zs : List Assignment) (dirty : List ScopeId) {g : ScopeGraph},
    g.Sound → u ∈ (apply zs dirty g).1 → u ∈ dirty ∨ u.index < g.scopes.length
  | [], _, _, _, hu => .inl hu
  | ⟨x, t⟩ :: rest, dirty, g, hg, hu => by
    rw [apply_cons] at hu
    have hg' : (g.unionInto x t).2.Sound := Sound.unionInto hg x t
    have ih := apply_fst_lt rest _ hg' hu
    rw [scopes_unionInto] at ih
    refine ih.elim (fun hu => ?_) .inr
    split at hu
    · refine (mem_enqueue.1 hu).imp id fun howner => ?_
      obtain ⟨k, hk, rfl⟩ := Option.map_eq_some_iff.1 (Option.mem_toList.1 howner)
      rw [← scopes_unionInto g x t]
      exact hg'.owner_lt hk
    · exact .inl hu

theorem unionInto_of_subset {g : ScopeGraph} {x : SlotId} {t : ConcreteType} (h : t ⊆ g.typeOf x) :
    g.unionInto x t = (false, g) := by
  simp only [unionInto]
  rw [if_pos (ConcreteType.union_eq_left_iff.2 h)]

/-- Assigning what is there already changes nothing. -/
theorem apply_of_subset : ∀ {zs : List Assignment} {dirty : List ScopeId} {g : ScopeGraph},
    (∀ z ∈ zs, z.type ⊆ g.typeOf z.slot) → apply zs dirty g = (dirty, g)
  | [], _, _, _ => rfl
  | ⟨x, t⟩ :: rest, dirty, g, h => by
    rw [apply_cons, unionInto_of_subset (h ⟨x, t⟩ (List.mem_cons_self ..))]
    exact apply_of_subset fun z hz => h z (List.mem_cons_of_mem _ hz)

/-- Where nothing becomes dirty, everything assigned was there already. -/
theorem subset_of_apply_nil : ∀ {zs : List Assignment} {g : ScopeGraph},
    (∀ z ∈ zs, z.slot.index < g.slots.length) → (apply zs [] g).1 = [] →
    ∀ z ∈ zs, z.type ⊆ g.typeOf z.slot
  | [], _, _, _ => fun _ h => absurd h List.not_mem_nil
  | ⟨x, t⟩ :: rest, g, hlt, hnil => by
    rw [apply_cons] at hnil
    have hx : x.index < g.slots.length := hlt ⟨x, t⟩ (List.mem_cons_self ..)
    have ht : t ⊆ g.typeOf x := by
      -- otherwise the owner of the slot is dirty
      by_contra ht
      have hgrew : g.unionInto x t = (true, g.setType x (g.typeOf x ∪ t)) := by
        simp only [unionInto]
        rw [if_neg fun h => ht (ConcreteType.union_eq_left_iff.1 h)]
      obtain ⟨k, hk⟩ : ∃ k, (g.setType x (g.typeOf x ∪ t)).slot? x = some k := by
        have hslot : g.slot? x = some g.slots[x.index] := List.getElem?_eq_getElem hx
        rw [slot?_setType, hslot]
        exact ⟨_, rfl⟩
      rw [hgrew, if_pos rfl, hk] at hnil
      have howner : k.owner ∈ enqueue [] [k.owner] := mem_enqueue.2 (.inr (List.mem_singleton_self _))
      have hmem := mem_apply_fst rest _ (g.setType x (g.typeOf x ∪ t)) howner
      exact absurd (hnil ▸ hmem) List.not_mem_nil
    rw [unionInto_of_subset ht] at hnil
    intro z hz
    rcases List.mem_cons.1 hz with rfl | hz
    · exact ht
    · exact subset_of_apply_nil (fun z hz => hlt z (List.mem_cons_of_mem _ hz)) hnil z hz

end ScopeGraph

theorem Analysis.assign_of_subset {zs : List Assignment} {dirty : List ScopeId}
    (h : ∀ z ∈ zs, z.type ⊆ a.graph.typeOf z.slot) : a.assign zs dirty = a := by
  unfold Analysis.assign
  rw [ScopeGraph.apply_of_subset h]

/-! ## Evaluations that show no progress -/

namespace AnalysisM

/-- A property that is added shows: its slot is assigned and empty. -/
theorem declareProperty_new {s : ScopeId} {name : String} {l : List SlotId}
    (h : (do let x ← onGraph (GraphM.declare s name); return [x] : AnalysisM (List SlotId)) a = .ok l b) :
    (∃ x ∈ l, b.graph.typeOf x = ∅) ∧ ∀ x, b.graph.typeOf x = a.graph.typeOf x := by
  obtain ⟨x, c, hx, hc⟩ := bind_ok h
  cases hc
  cases hd : GraphM.declare s name a.graph with
  | error e g => rw [onGraph_error hd] at hx; cases hx
  | ok y g =>
    rw [onGraph_ok hd] at hx
    cases hx
    have hg := (GraphM.declare_builds (D := fun _ => True) (E := fun _ => False) trivial _).ok hd
    refine ⟨⟨x, List.mem_singleton_self x, ?_⟩, hg.typeOf⟩
    obtain ⟨-, rfl, -⟩ := GraphM.declare_ok hd
    refine (hg.typeOf _).trans ?_
    unfold ScopeGraph.typeOf ScopeGraph.slot?
    rw [List.getElem?_eq_none (Nat.le_refl _)]
    rfl

theorem entitySlot_new {name : String} {e : Entity} {l : List SlotId} (h : entitySlot name e a = .ok l b) :
    (b = a ∨ ∃ x ∈ l, b.graph.typeOf x = ∅) ∧ ∀ x, b.graph.typeOf x = a.graph.typeOf x := by
  have hsame {m : List SlotId} (h : (pure m : AnalysisM (List SlotId)) a = .ok l b) :
      (b = a ∨ ∃ x ∈ l, b.graph.typeOf x = ∅) ∧ ∀ x, b.graph.typeOf x = a.graph.typeOf x := by
    cases h
    exact ⟨.inl rfl, fun _ => rfl⟩
  have hnew {s : ScopeId}
      (h : (do let x ← onGraph (GraphM.declare s name); return [x] : AnalysisM (List SlotId)) a = .ok l b) :
      (b = a ∨ ∃ x ∈ l, b.graph.typeOf x = ∅) ∧ ∀ x, b.graph.typeOf x = a.graph.typeOf x :=
    ⟨.inr (declareProperty_new h).1, (declareProperty_new h).2⟩
  cases e with
  | object o =>
    unfold entitySlot at h
    dsimp only at h
    rw [get_bind_apply] at h
    cases ho : a.object? o with
    | none => rw [ho] at h; exact hsame h
    | some e =>
      rw [ho] at h
      dsimp only at h
      cases hl : a.graph.lookup e.scope name with
      | some x => rw [hl] at h; exact hsame h
      | none => rw [hl] at h; exact hnew h
  | function f =>
    unfold entitySlot at h
    dsimp only at h
    split at h
    · exact hsame h
    · rw [get_bind_apply] at h
      cases hf : a.function? f with
      | none => rw [hf] at h; exact hsame h
      | some e =>
        rw [hf] at h
        dsimp only at h
        cases hl : a.graph.own e.statics name with
        | some x => rw [hl] at h; exact hsame h
        | none => rw [hl] at h; exact hnew h

theorem gather_entitySlot_new {name : String} : ∀ {es : List Entity} {l : List SlotId} {a b : Analysis},
    gather (entitySlot name) es a = .ok l b →
    (b = a ∨ ∃ x ∈ l, b.graph.typeOf x = ∅) ∧ ∀ x, b.graph.typeOf x = a.graph.typeOf x
  | [], _, _, _, h => by
    cases h
    exact ⟨.inl rfl, fun _ => rfl⟩
  | e :: es, l, a, b, h => by
    obtain ⟨here, c, he, h⟩ := bind_ok h
    obtain ⟨rest, d, hes, h⟩ := bind_ok h
    cases h
    obtain ⟨h1, k1⟩ := entitySlot_new he
    obtain ⟨h2, k2⟩ := gather_entitySlot_new hes
    refine ⟨?_, fun x => (k2 x).trans (k1 x)⟩
    rcases h2 with rfl | ⟨x, hx, hempty⟩
    · exact h1.imp id fun ⟨x, hx, hempty⟩ => ⟨x, List.mem_append_left _ hx, hempty⟩
    · exact .inr ⟨x, List.mem_append_right _ hx, hempty⟩

/-- Either there was a slot for every receiver, or an empty slot is now among them. -/
theorem propertySlots_new {r : ConcreteType} {name : String} {l : List SlotId}
    (h : propertySlots r name a = .ok l b) : b = a ∨ ∃ x ∈ l, b.graph.typeOf x = ∅ := by
  cases r with
  | all =>
    cases h
    exact .inl rfl
  | only m =>
    obtain ⟨slots, c, hg, h⟩ := bind_ok h
    cases h
    refine (gather_entitySlot_new hg).1.imp id fun ⟨x, hx, hempty⟩ => ⟨x, ?_, hempty⟩
    exact mem_enqueue.2 (.inr hx)

/-- **An evaluation adds no property** if all that it assigns is there already. -/
theorem evaluate_steps {s : ScopeId} (hv : a.Valid env.program) (hs : s.index < a.graph.scopes.length)
    {action : Action} (hslot : ∀ x ∈ action.slot?, x.index < a.graph.slots.length)
    {zs : List Assignment} (h : evaluate env s action a = .ok zs b)
    (hzs : ∀ z ∈ zs, z.type ⊆ b.graph.typeOf z.slot) : Steps env.program false a b := by
  by_cases hprop : ∃ receiver property value, action = .assignProperty receiver property value
  · obtain ⟨receiver, property, value, rfl⟩ := hprop
    obtain ⟨r, c, hr, h⟩ := bind_ok h
    have hac := ((infer_evaluates (w := false) receiver s a hv hs).proceeds.of_ok hr).1
    obtain ⟨t, d, ht, h⟩ := bind_ok h
    have hsc := Nat.lt_of_lt_of_le hs hac.grows.scopes_le
    have hcd := ((infer_evaluates (w := false) value s c (hac.valid hv) hsc).proceeds.of_ok ht).1
    by_cases hempty : t = ∅
    · rw [if_pos hempty] at h
      cases h
      exact hac.trans hcd
    · rw [if_neg hempty] at h
      obtain ⟨l, f, hl, h⟩ := bind_ok h
      cases h
      rcases propertySlots_new hl with rfl | ⟨x, hx, hnew⟩
      · exact hac.trans hcd
      · -- a new slot would be empty, and what is assigned is not
        have hsub := hzs ⟨x, t⟩ (List.mem_map.2 ⟨x, hx, rfl⟩)
        rw [hnew] at hsub
        exact absurd (ConcreteType.subset_empty hsub) hempty
  · exact ((evaluate_binds hv hs hslot fun r x v h => hprop ⟨r, x, v, h⟩).proceeds.of_ok h).1

end AnalysisM

/-! ## Replays -/

/-- In state `c` the action assigns what is there already, unless it assigns a property of
anything. -/
def Stable (env : Setup) (s : ScopeId) (action : Action) (c : Analysis) : Prop :=
  ∃ zs, AnalysisM.evaluate env.plain s action c.forget = .ok zs c.forget ∧
    ∀ z ∈ zs, z.type ⊆ c.graph.typeOf z.slot ∨ Wide env.plain s action c.forget z

namespace AnalysisM

theorem mem_replayActions {s u : ScopeId} : ∀ {actions : List Action} {dirty dirty' : List ScopeId}
    {a b : Analysis}, replayActions env s actions dirty a = .ok dirty' b → u ∈ dirty → u ∈ dirty'
  | [], _, _, _, _, h, hu => by
    cases h
    exact hu
  | action :: rest, dirty, dirty', a, b, h, hu => by
    obtain ⟨zs, c, -, h⟩ := replayActions_ok h
    exact mem_replayActions h (ScopeGraph.mem_apply_fst zs dirty c.graph hu)

theorem replayActions_lt {s u : ScopeId} : ∀ {actions : List Action} {dirty dirty' : List ScopeId}
    {a b : Analysis}, a.Valid env.program → s.index < a.graph.scopes.length →
    (∀ action ∈ actions, ∀ x ∈ action.slot?, x.index < a.graph.slots.length) →
    replayActions env s actions dirty a = .ok dirty' b → u ∈ dirty' →
    u ∈ dirty ∨ u.index < b.graph.scopes.length
  | [], _, _, _, _, _, _, _, h, hu => by
    cases h
    exact .inl hu
  | action :: rest, dirty, dirty', a, b, hv, hs, hslot, h, hu => by
    obtain ⟨zs, c, he, h⟩ := replayActions_ok h
    obtain ⟨hac, hzs, -⟩ :=
      (evaluate_evaluates hv hs action (hslot action (List.mem_cons_self ..))).proceeds.of_ok he
    have had : Changes env.program a (c.assign zs dirty) :=
      (Steps.changes hac).trans (assign_changes zs dirty c fun z hz => (hzs z hz).1)
    have hgrow := Changes.grows had
    have hs' := Nat.lt_of_lt_of_le hs hgrow.scopes_le
    have hslot' : ∀ action ∈ rest, ∀ x ∈ action.slot?, x.index < (c.assign zs dirty).graph.slots.length :=
      fun act hact x hx =>
        Nat.lt_of_lt_of_le (hslot act (List.mem_cons_of_mem _ hact) x hx) hgrow.slots_le
    have hvd := Changes.valid had hv
    rcases replayActions_lt hvd hs' hslot' h hu with hu | hu
    · refine (ScopeGraph.apply_fst_lt zs dirty (hac.valid hv).sound hu).imp id fun hu => ?_
      have hcd := Changes.grows (assign_changes (p := env.program) zs dirty c fun z hz => (hzs z hz).1)
      have hdb := Changes.grows ((replayActions_advances rest _ _ hvd hs' hslot').of_ok h).1
      exact Nat.lt_of_lt_of_le (Nat.lt_of_lt_of_le hu hcd.scopes_le) hdb.scopes_le
    · exact .inr hu

/-- Actions that make nothing dirty add no property, and if no more than objects were
created, they are stable. -/
theorem replayActions_quiet {s : ScopeId} : ∀ {actions : List Action} {a b : Analysis},
    a.Valid env.program → s.index < a.graph.scopes.length →
    (∀ action ∈ actions, ∀ x ∈ action.slot?, x.index < a.graph.slots.length) →
    replayActions env s actions [] a = .ok [] b → Steps env.program false a b ∧
      (a.Calm env.program b → ∀ c, b.Calm env.program c → ∀ action ∈ actions, Stable env s action c)
  | [], _, _, _, _, _, h => by
    cases h
    exact ⟨.refl, fun _ _ _ _ h => absurd h List.not_mem_nil⟩
  | action :: rest, a, b, hv, hs, hslot, h => by
    obtain ⟨zs, c, he, h⟩ := replayActions_ok h
    have heval := evaluate_evaluates hv hs action (hslot action (List.mem_cons_self ..))
    obtain ⟨-, hzs, -⟩ := heval.proceeds.of_ok he
    -- what this action made dirty would still be dirty at the end
    have hnil : (ScopeGraph.apply zs [] c.graph).1 = [] :=
      List.eq_nil_iff_forall_not_mem.2 fun u hu => List.not_mem_nil (mem_replayActions h hu)
    have hsub := ScopeGraph.subset_of_apply_nil (fun z hz => (hzs z hz).2) hnil
    rw [Analysis.assign_of_subset hsub, hnil] at h
    have hac := evaluate_steps hv hs (hslot action (List.mem_cons_self ..)) he hsub
    obtain ⟨hcb, hrest⟩ := replayActions_quiet (hac.valid hv)
      (Nat.lt_of_lt_of_le hs hac.grows.scopes_le) (fun act hact x hx =>
        Nat.lt_of_lt_of_le (hslot act (List.mem_cons_of_mem _ hact) x hx) hac.grows.slots_le) h
    refine ⟨hac.trans hcb, fun hab d hbd => ?_⟩
    obtain ⟨hac', hcb'⟩ := hab.between hac hcb
    intro act hact
    rcases List.mem_cons.1 hact with rfl | hact
    · obtain ⟨zs', hzs', hsame⟩ := heval.repeats zs c he hac' d (hcb'.trans hbd)
      refine ⟨zs', hzs', fun z hz => (hsame z hz).imp (fun h => ?_) id⟩
      rw [(hcb'.trans hbd).types]
      exact hsub z h
    · exact hrest hcb' d hbd act hact

theorem replay_queued {s : ScopeId} (hv : a.Valid env.program) (hs : s.index < a.graph.scopes.length)
    (hq : Queued q a) {r : Replay ScopeId} (h : replay env s a = .ok r b) :
    Queued (enqueue q r.dirty) b := by
  have hb := Changes.queued ((replay_advances hv s).of_ok h).1 hq
  refine hb.enqueue fun u hu => ?_
  exact (replayActions_lt hv.begun hs (fun _ h => action_slot_lt hv.sound h) (replay_ok h).1 hu).resolve_left
    List.not_mem_nil

/-- A replay without progress adds no property and allocates nothing, and the mark shows it. -/
theorem replay_quiet {s : ScopeId} (hv : a.Valid env.program) (hs : s.index < a.graph.scopes.length)
    {r : Replay ScopeId} (h : replay env s a = .ok r b) (hr : r.changed = false) :
    r.dirty = [] ∧ b.begun = b ∧ b.allocated.length ≤ a.allocated.length ∧ Steps env.program false a.begun b ∧
      (a.begun.Calm env.program b → ∀ c, b.Calm env.program c →
        ∀ action ∈ c.graph.actionsOf s, Stable env s action c) := by
  obtain ⟨hactions, hmark, -⟩ := replay_ok h
  simp only [Replay.changed, Bool.or_eq_false_iff, Bool.not_eq_false', List.isEmpty_iff] at hr
  rw [hr.2] at hactions
  obtain ⟨hab, hstable⟩ := replayActions_quiet hv.begun hs (fun _ h => action_slot_lt hv.sound h) hactions
  refine ⟨hr.2, Analysis.begun_eq (hmark.symm.trans hr.1), ?_, hab, fun hcalm c hbc action haction => ?_⟩
  · have hle := mt (replay_widened hv h).2 (Bool.eq_false_iff.1 hr.1)
    exact Nat.le_of_not_lt hle
  · rw [(hcalm.trans hbc).actionsOf hs] at haction
    exact hstable hcalm c hbc action haction

end AnalysisM

/-! ## Passes -/

/-- Steps that create no function and add no property are counted exactly. -/
theorem Steps.calm_of_not_assigned (h : Steps p false a b) (hf : b.functions.length ≤ a.functions.length)
    (ha : b.allocated.length ≤ a.allocated.length) : a.Calm p b := by
  refine h.calm hf ha ?_
  induction h with
  | refl => exact Nat.le_refl _
  | @tail u b hau hub ih =>
    have hgrow := hub.grows
    have hau' := Steps.grows hau
    have h1 := hgrow.functions.length_le
    have h2 := hgrow.allocated.length_le
    have h3 := hau'.functions.length_le
    have h4 := hau'.allocated.length_le
    have ih := ih (by omega) (by omega)
    cases hub with
    | object decl new proto found older built =>
      obtain ⟨-, hs, -⟩ := GraphM.addObjectScope_ok built
      rw [Analysis.declared_append u decl, hs, List.length_append, List.length_map]
      omega
    | function =>
      simp only [List.length_append, List.length_singleton] at hf
      omega
    | property assigned => cases assigned
    | allocate | remember => exact ih

theorem Steps.discovered (h : Steps p w a b) :
    ∃ l, b.discovered = a.discovered ++ l ∧ l.length + a.functions.length = b.functions.length ∧
      ∀ u ∈ l, a.graph.scopes.length ≤ u.index := by
  induction h with
  | refl => exact ⟨[], by simp, by simp, fun _ h => absurd h List.not_mem_nil⟩
  | tail hab hstep ih =>
    obtain ⟨l, hl, hlen, hnew⟩ := ih
    obtain ⟨m, hm, hmlen, hmnew⟩ := hstep.discovered
    refine ⟨l ++ m, by rw [hm, hl, List.append_assoc], by rw [List.length_append]; omega, fun u hu => ?_⟩
    rcases List.mem_append.1 hu with hu | hu
    · exact hnew u hu
    · exact Nat.le_trans (Steps.grows hab).scopes_le (hmnew u hu).1

theorem replayUnits_queued : ∀ {us : List ScopeId} {pr pr' : Progress ScopeId} {a b : Analysis},
    a.Valid env.program → (∀ u ∈ us, u.index < a.graph.scopes.length) → Queued pr.queued a →
    env.system.replayUnits us pr a = .ok pr' b → b.Valid env.program ∧ Queued pr'.queued b
  | [], _, _, _, _, hv, _, hq, h => by
    cases h
    exact ⟨hv, hq⟩
  | u :: us, pr, pr', a, b, hv, hus, hq, h => by
    obtain ⟨r, c, hr, h⟩ := bind_ok h
    have hac := ((AnalysisM.replay_advances hv u).of_ok hr).1
    have hq' := AnalysisM.replay_queued hv (hus u (List.mem_cons_self ..)) hq hr
    exact replayUnits_queued (Changes.valid hac hv) (fun v hv => Nat.lt_of_lt_of_le
      (hus v (List.mem_cons_of_mem _ hv)) (Changes.grows hac).scopes_le) hq' h

/-- Replays without progress, one after the other. Each finds the mark as the last one has left it. -/
theorem replayUnits_quiet : ∀ {us : List ScopeId} {pr pr' : Progress ScopeId} {a b : Analysis},
    a.Valid env.program → (∀ u ∈ us, u.index < a.graph.scopes.length) →
    env.system.replayUnits us pr a = .ok pr' b → pr'.changed = false →
    pr.changed = false ∧ pr'.queued = pr.queued ∧ (us ≠ [] → b.begun = b) ∧
      b.allocated.length ≤ a.allocated.length ∧ Steps env.program false a.begun b.begun ∧
      (a.begun.Calm env.program b.begun → ∀ c, b.begun.Calm env.program c →
        ∀ u ∈ us, ∀ action ∈ c.graph.actionsOf u, Stable env u action c)
  | [], _, _, _, _, _, _, h, hpr => by
    cases h
    exact ⟨hpr, rfl, fun h => absurd rfl h, Nat.le_refl _, .refl, fun _ _ _ _ h => absurd h List.not_mem_nil⟩
  | u :: us, pr, pr', a, b, hv, hus, h, hpr => by
    obtain ⟨r, c, hr, h⟩ := bind_ok h
    have hac := ((AnalysisM.replay_advances hv u).of_ok hr).1
    obtain ⟨hchanged, hqueued, hmark, hcb_allocated, hcb, hrest⟩ := replayUnits_quiet (Changes.valid hac hv)
      (fun v hv => Nat.lt_of_lt_of_le (hus v (List.mem_cons_of_mem _ hv)) (Changes.grows hac).scopes_le)
      h hpr
    obtain ⟨hchanged, hrc⟩ := Bool.or_eq_false_iff.1 hchanged
    obtain ⟨hdirty, hbegun, hac_allocated, hac, hu⟩ :=
      AnalysisM.replay_quiet hv (hus u (List.mem_cons_self ..)) hr hrc
    rw [hbegun] at hcb hrest
    refine ⟨hchanged, ?_, fun _ => ?_, Nat.le_trans hcb_allocated hac_allocated, hac.trans hcb, fun hab d hbd => ?_⟩
    · rw [hqueued, hdirty]
      rfl
    · cases us with
      | nil =>
        cases h
        exact hbegun
      | cons v us => exact hmark (List.cons_ne_nil v us)
    · obtain ⟨hac', hcb'⟩ := hab.between hac hcb
      intro v hv
      rcases List.mem_cons.1 hv with rfl | hv
      · exact hu hac' d (hcb'.trans hbd)
      · exact hrest hcb' d hbd v hv

theorem pass_ok {order : ReplayOrder} {n : UInt64} {pr : Progress ScopeId}
    (h : env.system.pass order q n a = .ok pr b) :
    ∃ pr' c, env.system.replayUnits (order.arrange q) ⟨q, n, false⟩ a = .ok pr' c ∧
      b = { c with discovered := [] } ∧ pr.queued = enqueue pr'.queued c.discovered ∧
      pr.changed = (pr'.changed || c.discovered.any (!pr'.queued.contains ·)) := by
  obtain ⟨pr', c, hc, h⟩ := bind_ok h
  cases h
  exact ⟨pr', c, hc, rfl, rfl, rfl⟩

theorem pass_queued {order : ReplayOrder} {n : UInt64} {pr : Progress ScopeId} (hv : a.Valid env.program)
    (hq : Queued q a) (h : env.system.pass order q n a = .ok pr b) :
    b.Valid env.program ∧ b.discovered = [] ∧ Queued pr.queued b := by
  obtain ⟨pr', c, hc, rfl, hqueued, -⟩ := pass_ok h
  obtain ⟨hvc, hqc⟩ := replayUnits_queued hv (fun u hu => hq.units u (mem_arrange.1 hu)) hq hc
  rw [hqueued]
  exact ⟨hvc.congr rfl rfl rfl rfl rfl, rfl, hqc.take⟩

/-- **After a pass in which nothing changed, every action is stable**, and nothing is marked. -/
theorem pass_stable {order : ReplayOrder} {n : UInt64} {pr : Progress ScopeId} (hv : a.Valid env.program)
    (hq : Queued q a) (hne : q ≠ []) (hd : a.discovered = []) (h : env.system.pass order q n a = .ok pr b)
    (hpr : pr.changed = false) : b.begun = b ∧
      ∀ c, b.Calm env.program c → ∀ s, ∀ action ∈ b.graph.actionsOf s, Stable env s action c := by
  obtain ⟨pr', c, hc, rfl, -, hchanged⟩ := pass_ok h
  rw [hchanged, Bool.or_eq_false_iff] at hpr
  have hunits : ∀ u ∈ order.arrange q, u.index < a.graph.scopes.length := fun u hu =>
    hq.units u (mem_arrange.1 hu)
  obtain ⟨-, hqueued, hmark, hallocated, hac, hstable⟩ := replayUnits_quiet hv hunits hc hpr.1
  obtain ⟨u, hu⟩ := List.exists_mem_of_ne_nil q hne
  have hbegun := hmark (List.ne_nil_of_mem (mem_arrange.2 hu))
  rw [hbegun] at hac hstable
  -- whatever was discovered would be new, and all of it was queued before
  obtain ⟨l, hl, hlen, hnew⟩ := Steps.discovered hac
  have hnil : l = [] := by
    refine List.eq_nil_iff_forall_not_mem.2 fun u hu => ?_
    have hmem : u ∈ c.discovered := hl ▸ List.mem_append_right _ hu
    have hqu : u ∈ q := by
      have hall := List.any_eq_false.1 hpr.2 u hmem
      simpa [hqueued] using hall
    exact absurd (hq.units u hqu) (Nat.not_lt.2 (hnew u hu))
  rw [hnil] at hl hlen
  rw [List.append_nil, show a.begun.discovered = [] from hd] at hl
  have hcalm : a.begun.Calm env.program c :=
    hac.calm_of_not_assigned (by rw [← hlen]; simp) hallocated
  have hsame : ({ c with discovered := [] } : Analysis) = c := by rw [← hl]
  rw [hsame]
  refine ⟨hbegun, fun d hcd s action haction => ?_⟩
  have hqc : Queued q c := Changes.queued (Steps.changes hac) hq.begun
  have hs : s ∈ q := by
    refine (hqc.actions s fun hempty => ?_).resolve_right ?_
    · rw [hempty] at haction
      cases haction
    · rw [hl]
      exact List.not_mem_nil
  refine hstable hcalm d hcd s (mem_arrange.2 hs) action ?_
  rwa [hcd.actionsOf (hqc.units s hs)]

/-! ## The whole run -/

/-- Preparation gives actions to the global scope only. -/
theorem prepare_queued {ambient body : List Stmt} {u : Unit}
    (h : AnalysisM.prepare env ambient body .fresh = .ok u a) : Queued [.global] a := by
  have hnew : ¬ Analysis.fresh.processed := Bool.false_ne_true
  rw [AnalysisM.prepare_apply, if_neg hnew] at h
  have hb := AnalysisM.extract_builds (D := (· = .global)) (E := (· = .global)) rfl rfl env.program
    ambient body Analysis.fresh.graph
  cases hx : extract env.program ambient body Analysis.fresh.graph with
  | error e g => rw [hx] at h; cases h
  | ok v g =>
    rw [hx] at h
    cases h
    rw [finalState_ok hx] at hb
    refine ⟨fun u hu => ?_, fun _ h => absurd h List.not_mem_nil, fun s hs => .inl ?_⟩
    · rw [List.mem_singleton.1 hu]
      exact Nat.lt_of_lt_of_le Nat.zero_lt_one hb.grows.scopes.length_le
    · by_contra hne
      refine hs ((hb.actions s fun h => hne (h ▸ List.mem_singleton_self _)).trans ?_)
      obtain ⟨i⟩ := s
      cases i with
      | zero => exact absurd (List.mem_singleton_self _) hne
      | succ i => rfl

/-- **When a run has converged, every action is stable**, and nothing is marked. -/
theorem converged_stable {ambient body : List Stmt} {c : Converged}
    (h : env.process ambient body .fresh = .ok c a) :
    a.Valid env.program ∧ a.begun = a ∧ ∀ s, ∀ action ∈ a.graph.actionsOf s, Stable env s action a := by
  have hv := (trace_final env ambient body (Analysis.fresh_valid env.program)).2
  unfold Setup.process at h
  unfold Setup.trace at h hv
  dsimp only at h hv
  cases hp : AnalysisM.prepare env ambient body .fresh with
  | error e b => rw [hp] at h; cases h
  | ok u b =>
    rw [hp] at h hv
    dsimp only at h hv
    cases hr : (env.system.solve env.config.order env.config.maxPasses b).result with
    | error e => rw [hr] at h; cases h
    | ok c' =>
      rw [hr] at h hv
      cases h
      refine ⟨hv, ?_⟩
      have hvb := (AnalysisM.prepare_final (Analysis.fresh_valid env.program) ambient body).2
      rw [finalState_ok hp] at hvb
      have hvb' : Analysis.Valid env.program { b with discovered := [] } :=
        hvb.congr rfl rfl rfl rfl rfl
      -- between passes, whatever has actions is queued, and so is the global scope
      obtain ⟨q, m, t, pr, ⟨⟨hvt, hdt, hqt⟩, hroot⟩, hpr, hpass⟩ := env.system.solve_ok (s := b)
        (J := fun q a => (a.Valid env.program ∧ a.discovered = [] ∧ Queued q a) ∧ ScopeId.global ∈ q)
        ⟨⟨hvb', rfl, (prepare_queued hp).take⟩, mem_enqueue.2 (.inl (List.mem_singleton_self _))⟩
        (fun q n s pr t hs hpass => ⟨pass_queued hs.1.1 hs.1.2.2 hpass, ConstraintSystem.mem_queued_of_pass hpass hs.2⟩) hr
      obtain ⟨hbegun, hstable⟩ := pass_stable hvt hqt (List.ne_nil_of_mem hroot) hdt hpass hpr
      exact ⟨congrArg (fun a : Analysis => { a with converged := some c }) hbegun,
        hstable _ ⟨rfl, rfl, rfl, List.prefix_rfl, List.prefix_rfl, fun _ => rfl, rfl⟩⟩

end TypeFlow
