import TypeFlow.Proofs.Tables
import TypeFlow.Proofs.Units

/-!
# What a replay reports

A replay reports the scopes that own a slot which grew. Assignments make slots grow one by
one, and evaluating an action in between may create functions, objects and properties. Among these
only a new function body has a slot that is not empty, that of its callee, and such a body is
discovered. So the report misses nothing: a replay that reports nothing and discovers nothing
has changed no type.

* `Step.raises`: a step makes no slot grow but in the body of a new function.
* `Reported`: a list names the owners of the slots that grew from one state to another.
* `replayActions_reported`: what a replay keeps, action by action.
* `replay_reports`: all that a replay reports.
-/

namespace TypeFlow

open Relation

variable {p : Program} {w : Bool} {env : Setup} {a b c : Analysis}

/-- **The slot holds more** in `b` than in `a`. What `a` does not have held nothing there. -/
def Analysis.Raised (a b : Analysis) (x : SlotId) : Prop := ¬ b.graph.typeOf x ⊆ a.graph.typeOf x

namespace Analysis

variable {x : SlotId}

theorem raised_iff (h : a.Grows b) : a.Raised b x ↔
    a.graph.typeOf x ⊆ b.graph.typeOf x ∧ a.graph.typeOf x ≠ b.graph.typeOf x := by
  have hsub := h.graph.typeOf_subset x
  constructor
  · intro hx
    exact ⟨hsub, fun heq => hx (heq ▸ ConcreteType.subset_refl _)⟩
  · rintro ⟨-, hne⟩ hx
    exact hne (ConcreteType.subset_antisymm hsub hx)

theorem Raised.grows (h : a.Raised b x) (hbc : b.Grows c) : a.Raised c x :=
  fun hx => h (ConcreteType.subset_trans (hbc.graph.typeOf_subset x) hx)

theorem Raised.of_grows (h : b.Raised c x) (hab : a.Grows b) : a.Raised c x :=
  fun hx => h (ConcreteType.subset_trans hx (hab.graph.typeOf_subset x))

/-- What has grown on a way has grown on one of its parts. -/
theorem Raised.split (h : a.Raised c x) (b : Analysis) : a.Raised b x ∨ b.Raised c x := by
  by_cases hbc : b.Raised c x
  · exact .inr hbc
  · refine .inl fun hab => h ?_
    exact ConcreteType.subset_trans (Classical.not_not.1 hbc) hab

theorem not_raised_of_eq (h : b.graph.typeOf x = a.graph.typeOf x) : ¬ a.Raised b x :=
  fun hx => hx (h ▸ ConcreteType.subset_refl _)

end Analysis

/-! ## What steps do to the slots -/

theorem ScopeGraph.Grows.slot? {g h : ScopeGraph} (hgh : g.Grows h) {x : SlotId} {k : Slot}
    (hk : g.slot? x = some k) : ∃ l, h.slot? x = some l ∧ l.name = k.name ∧ l.owner = k.owner := by
  obtain ⟨l, hl, hkl⟩ := hgh.slots x.index k hk
  exact ⟨l, hl, hkl.name, hkl.owner⟩

/-- Joining into the slot that a scope declares makes no slot grow that another scope owns. -/
theorem ScopeGraph.owner_of_joinOwn {g : ScopeGraph} (hg : g.Sound) {s : ScopeId} {n : String}
    {t : ConcreteType} {x : SlotId} {k : Slot} (hk : (g.joinOwn s n t).slot? x = some k)
    (hx : ¬ (g.joinOwn s n t).typeOf x ⊆ g.typeOf x) : k.owner = s := by
  cases hown : g.own s n with
  | none =>
    have hsame : g.joinOwn s n t = g := by
      unfold joinOwn
      rw [hown]
    rw [hsame] at hx
    exact absurd (ConcreteType.subset_refl _) hx
  | some y =>
    have hjoin : g.joinOwn s n t = (g.unionInto y t).2 := by
      unfold joinOwn
      rw [hown]
    by_cases hyx : y = x
    · subst hyx
      obtain ⟨d, hd, hmem⟩ := mem_slots_of_own hown
      obtain ⟨l, hl, -, howner⟩ := (hg.fits s d hd).slots n y hmem
      obtain ⟨k', hk', -, hsame⟩ := (joinOwn_grows g s n t).slot? hl
      rw [hk] at hk'
      cases hk'
      exact hsame.trans howner
    · rw [hjoin, typeOf_unionInto_of_ne hyx] at hx
      exact absurd (ConcreteType.subset_refl _) hx

/-- **A step makes no slot grow but in the body of a new function.** -/
theorem Step.raises (h : Step p w a b) (hv : a.Valid p) {x : SlotId} {k : Slot}
    (hk : b.graph.slot? x = some k) (hx : a.Raised b x) :
    a.graph.scopes.length ≤ k.owner.index ∧ k.owner ∈ b.bodies := by
  cases h with
  | object decl new proto found older built =>
    exact absurd hx (Analysis.not_raised_of_eq ((object_builds older built).typeOf x))
  | @function f d parent statics body object prototype g h decl new hp ho older hs hb =>
    have hbuild := function_builds (E := fun _ => True) trivial older hs (finalState_ok hb)
    have howner : k.owner = body := by
      refine ScopeGraph.owner_of_joinOwn (hbuild.sound hv.root_lt hv.sound) hk fun hsub => hx ?_
      rw [hbuild.typeOf x] at hsub
      exact hsub
    have hbody : body.index = a.graph.scopes.length + 1 := by
      obtain ⟨rfl, -⟩ := GraphM.addBodyScope_ok hb
      cases hs
      simp
    rw [howner]
    refine ⟨by omega, ?_⟩
    unfold Analysis.bodies
    simp
  | property _ owner built =>
    have hg := (GraphM.declare_builds (D := fun _ => True) (E := fun _ => False) trivial _).ok built
    exact absurd hx (Analysis.not_raised_of_eq (hg.typeOf x))
  | allocate known new => exact absurd hx (Analysis.not_raised_of_eq rfl)
  | remember d known => exact absurd hx (Analysis.not_raised_of_eq rfl)

/-- Steps leave the actions of the scopes that they find as they are. -/
theorem Step.actionsOf_of_lt (h : Step p w a b) {s : ScopeId} (hs : s.index < a.graph.scopes.length) :
    b.graph.actionsOf s = a.graph.actionsOf s := by
  cases h with
  | object decl new proto found older built => exact (object_builds older built).actions s id
  | @function f d parent statics body object prototype g h decl new hp ho older hstatics hb =>
    have hne : ¬ s = ⟨a.graph.scopes.length + 1⟩ := by
      rintro rfl
      exact absurd hs (by simp)
    have hbuild := function_builds (E := (· = ⟨a.graph.scopes.length + 1⟩)) rfl older hstatics (finalState_ok hb)
    exact (ScopeGraph.actionsOf_congr (ScopeGraph.scopes_joinOwn ..) s).trans (hbuild.actions s hne)
  | property _ owner built =>
    have hg := (GraphM.declare_builds (D := fun _ => True) (E := fun _ => False) trivial _).ok built
    exact hg.actions s id
  | allocate | remember => rfl

theorem Changes.actionsOf_of_lt (h : Changes p a b) {s : ScopeId} (hs : s.index < a.graph.scopes.length) :
    b.graph.actionsOf s = a.graph.actionsOf s := by
  induction h with
  | refl => rfl
  | tail hab hstep ih =>
    refine Eq.trans ?_ ih
    rcases hstep with hstep | ⟨x, t, -, rfl⟩ | rfl
    · exact hstep.actionsOf_of_lt (Nat.lt_of_lt_of_le hs (Changes.grows hab).scopes_le)
    · exact ScopeGraph.actionsOf_congr (ScopeGraph.scopes_unionInto ..) s
    · rfl

/-! ## Reports -/

/-- **A list reports what grew** from `a` to `b`: it names scopes that own a slot which grew, each
once, and it names all of them but the bodies of new functions. -/
structure Reported (a b : Analysis) (dirty : List ScopeId) : Prop where
  once : dirty.Nodup
  grew : ∀ u ∈ dirty, ∃ x k, b.graph.slot? x = some k ∧ k.owner = u ∧ a.Raised b x
  shown : ∀ x k, b.graph.slot? x = some k → a.Raised b x →
    k.owner ∈ dirty ∨ (a.graph.scopes.length ≤ k.owner.index ∧ k.owner ∈ b.bodies)

namespace Reported

variable {dirty : List ScopeId}

theorem begun (a : Analysis) : Reported a a.begun [] where
  once := .nil
  grew _ h := absurd h List.not_mem_nil
  shown _ _ _ h := absurd h (Analysis.not_raised_of_eq rfl)

/-- What was named before is named still, so only what grows on the rest of the way has to be
looked at. -/
theorem extend {dirty' : List ScopeId} (h : Reported a b dirty) (hab : a.Grows b) (hbc : b.Grows c)
    (hbodies : b.bodies ⊆ c.bodies) (hsub : dirty ⊆ dirty') (honce : dirty'.Nodup)
    (hgrew : ∀ u ∈ dirty', u ∈ dirty ∨ ∃ x k, c.graph.slot? x = some k ∧ k.owner = u ∧ b.Raised c x)
    (hshown : ∀ x k, c.graph.slot? x = some k → b.Raised c x →
      k.owner ∈ dirty' ∨ (b.graph.scopes.length ≤ k.owner.index ∧ k.owner ∈ c.bodies)) :
    Reported a c dirty' := by
  refine ⟨honce, fun u hu => ?_, fun x k hk hx => ?_⟩
  · rcases hgrew u hu with hu | ⟨x, k, hk, howner, hx⟩
    · obtain ⟨x, k, hk, howner, hx⟩ := h.grew u hu
      obtain ⟨l, hl, -, hsame⟩ := hbc.graph.slot? hk
      exact ⟨x, l, hl, hsame.trans howner, hx.grows hbc⟩
    · exact ⟨x, k, hk, howner, hx.of_grows hab⟩
  · by_cases hlate : b.Raised c x
    · rcases hshown x k hk hlate with hmem | ⟨hle, hmem⟩
      · exact .inl hmem
      · exact .inr ⟨Nat.le_trans hab.scopes_le hle, hmem⟩
    · -- it grew before, so the slot was there
      have hearly := (hx.split b).resolve_right hlate
      cases hl : b.graph.slot? x with
      | none =>
        have hempty : b.graph.typeOf x = ∅ :=
          ScopeGraph.typeOf_eq_empty (List.getElem?_eq_none_iff.1 hl)
        exact absurd (hempty ▸ ConcreteType.empty_subset _) hearly
      | some l =>
        obtain ⟨k', hk', -, howner⟩ := hbc.graph.slot? hl
        rw [hk] at hk'
        cases hk'
        rw [howner]
        exact (h.shown x l hl hearly).imp (fun hmem => hsub hmem) fun ⟨hle, hmem⟩ => ⟨hle, hbodies hmem⟩

theorem step (h : Reported a b dirty) (hab : a.Grows b) (hv : b.Valid p) (hbc : Step p w b c) :
    Reported a c dirty := by
  obtain ⟨l, -, hbodies⟩ := hbc.bodies
  refine h.extend hab hbc.grows ?_ (fun _ => id) h.once (fun u hu => .inl hu) fun x k hk hx => ?_
  · rw [hbodies]
    exact List.subset_append_left ..
  · exact .inr (hbc.raises hv hk hx)

theorem steps (h : Reported a b dirty) (hab : a.Grows b) (hv : b.Valid p) (hbc : Steps p w b c) :
    Reported a c dirty := by
  induction hbc with
  | refl => exact h
  | tail hbd hdc ih =>
    exact ih.step (trans_of Analysis.Grows hab (Steps.grows hbd)) (Steps.valid hbd hv) hdc

/-- One assignment: the owner of the slot is added if the slot grows. -/
theorem assign (h : Reported a b dirty) (hab : a.Grows b) {x : SlotId} {t : ConcreteType}
    (ht : b.Knows t) (hx : x.index < b.graph.slots.length) :
    Reported a { b with graph := (b.graph.unionInto x t).2 }
      (if (b.graph.unionInto x t).1 then
        enqueue dirty (((b.graph.unionInto x t).2.slot? x).map (·.owner)).toList else dirty) := by
  have hbc : b.Grows { b with graph := (b.graph.unionInto x t).2 } := Analysis.Joins.grows ⟨x, t, ht, rfl⟩
  have hother {y : SlotId} (hy : b.Raised { b with graph := (b.graph.unionInto x t).2 } y) : y = x := by
    by_contra hyx
    exact absurd hy (Analysis.not_raised_of_eq (ScopeGraph.typeOf_unionInto_of_ne (Ne.symm hyx) t))
  obtain ⟨k, hk⟩ : ∃ k, b.graph.slot? x = some k := ⟨_, List.getElem?_eq_getElem hx⟩
  obtain ⟨l, hl, -⟩ := hbc.graph.slot? hk
  by_cases hgrew : (b.graph.unionInto x t).1 = true
  · rw [if_pos hgrew, hl, Option.map_some, Option.toList_some]
    have hraised : b.Raised { b with graph := (b.graph.unionInto x t).2 } x := by
      obtain ⟨y, hy⟩ := ScopeGraph.unionInto_swells hgrew hl
      obtain rfl := hother hy
      exact hy
    refine h.extend hab hbc (fun _ => id) (fun u hu => mem_enqueue.2 (.inl hu)) (nodup_enqueue h.once _)
      (fun u hu => ?_) fun y j hj hy => ?_
    · rcases mem_enqueue.1 hu with hu | hu
      · exact .inl hu
      · exact .inr ⟨x, l, hl, (List.mem_singleton.1 hu).symm, hraised⟩
    · obtain rfl := hother hy
      rw [hl] at hj
      cases hj
      exact .inl (mem_enqueue.2 (.inr (List.mem_singleton_self _)))
  · rw [if_neg hgrew]
    -- nothing was joined that the slot did not hold
    have hsame : (b.graph.unionInto x t).2 = b.graph := by
      unfold ScopeGraph.unionInto at hgrew ⊢
      dsimp only at hgrew ⊢
      split at hgrew
      · rename_i heq
        rw [if_pos heq]
      · exact absurd rfl hgrew
    rw [hsame]
    exact h

theorem assigns : ∀ (zs : List Assignment) {dirty : List ScopeId} {b : Analysis}, Reported a b dirty →
    a.Grows b → (∀ z ∈ zs, b.Accepts z) →
    Reported a (b.assign zs dirty) (ScopeGraph.apply zs dirty b.graph).1 := by
  intro zs
  induction zs with
  | nil => exact fun h _ _ => h
  | cons z rest ih =>
    intro dirty b h hab hzs
    obtain ⟨x, t⟩ := z
    obtain ⟨ht, hx⟩ := hzs ⟨x, t⟩ (List.mem_cons_self ..)
    have hbc : b.Grows { b with graph := (b.graph.unionInto x t).2 } := Analysis.Joins.grows ⟨x, t, ht, rfl⟩
    unfold Analysis.assign
    rw [ScopeGraph.apply_cons]
    exact ih (h.assign hab ht hx) (trans_of Analysis.Grows hab hbc) fun z hz =>
      (hzs z (List.mem_cons_of_mem _ hz)).grows hbc

end Reported

/-- **Actions report what they make grow**, each added to what was reported before. -/
theorem replayActions_reported {s : ScopeId} : ∀ (actions : List Action) {dirty dirty' : List ScopeId}
    {b c : Analysis}, Reported a b dirty → a.Grows b → b.Valid env.program → s.index < b.graph.scopes.length →
    (∀ action ∈ actions, ∀ x ∈ action.slot?, x.index < b.graph.slots.length) →
    AnalysisM.replayActions env s actions dirty b = .ok dirty' c → Reported a c dirty' := by
  intro actions
  induction actions with
  | nil =>
    intro dirty dirty' b c h _ _ _ _ hx
    cases hx
    exact h
  | cons action rest ih =>
    intro dirty dirty' b c h hab hv hs hslot hx
    obtain ⟨zs, d, he, hrest⟩ := AnalysisM.replayActions_ok hx
    obtain ⟨hbd, hzs, -⟩ :=
      (AnalysisM.evaluate_evaluates hv hs action (hslot action (List.mem_cons_self ..))).proceeds.of_ok he
    have had := trans_of Analysis.Grows hab hbd.grows
    have hde : Changes env.program d (d.assign zs dirty) := assign_changes zs dirty d fun z hz => (hzs z hz).1
    have hbe := trans_of Analysis.Grows hbd.grows (Changes.grows hde)
    refine ih ((h.steps hab hv hbd).assigns zs had hzs) (trans_of Analysis.Grows hab hbe)
      (Changes.valid hde (hbd.valid hv)) (Nat.lt_of_lt_of_le hs hbe.scopes_le) (fun act hact x hx => ?_) hrest
    exact Nat.lt_of_lt_of_le (hslot act (List.mem_cons_of_mem _ hact) x hx) hbe.slots_le

/-- Replaying a scope that does not exist does nothing but begin. -/
theorem replay_absent {s : ScopeId} (hs : a.graph.scopes.length ≤ s.index) {r : Replay ScopeId}
    (h : AnalysisM.replay env s a = .ok r b) : b = a.begun ∧ r.dirty = [] := by
  rw [AnalysisM.replay_apply, AnalysisM.actionsOf_absent hs] at h
  cases h
  exact ⟨rfl, rfl⟩

theorem replay_reported (hv : a.Valid env.program) {s : ScopeId} {r : Replay ScopeId}
    (h : AnalysisM.replay env s a = .ok r b) : Reported a b r.dirty := by
  rcases Nat.lt_or_ge s.index a.graph.scopes.length with hs | hs
  · exact replayActions_reported _ (.begun a) a.begun_grows hv.begun hs
      (fun action haction => AnalysisM.action_slot_lt hv.sound haction) (AnalysisM.replay_ok h).1
  · obtain ⟨rfl, hdirty⟩ := replay_absent hs h
    rw [hdirty]
    exact .begun a

/-- The bodies of the functions that were created are discovered, in this order. -/
theorem Changes.created (h : Changes p a b) :
    ∃ new, b.functions = a.functions ++ new ∧ b.discovered = a.discovered ++ new.map (·.body) := by
  obtain ⟨new, hnew⟩ := (Changes.grows h).functions
  obtain ⟨l, hdiscovered, hbodies⟩ := Changes.bodies h
  refine ⟨new, hnew.symm, ?_⟩
  unfold Analysis.bodies at hbodies
  rw [← hnew, List.map_append] at hbodies
  rw [hdiscovered, List.append_cancel_left hbodies]

/-- No object is allocated twice, so more are allocated if one is that was not. -/
theorem Changes.allocated_lt_iff (h : Changes p a b) (ha : a.Tabled) :
    a.allocated.length < b.allocated.length ↔ ∃ o ∈ b.allocated, o ∉ a.allocated := by
  obtain ⟨new, hnew⟩ := (Changes.grows h).allocated
  have hnodup := (Changes.tabled h ha).allocated
  rw [← hnew] at hnodup ⊢
  constructor
  · intro hlt
    rw [List.length_append] at hlt
    obtain ⟨o, ho⟩ := List.exists_mem_of_length_pos (l := new) (by omega)
    exact ⟨o, List.mem_append_right _ ho, fun hold => (List.nodup_append.1 hnodup).2.2 o hold o ho rfl⟩
  · rintro ⟨o, ho, hold⟩
    have hpos := List.length_pos_of_mem ((List.mem_append.1 ho).resolve_left hold)
    rw [List.length_append]
    omega

/-- **A replay reports growth faithfully.** The scopes it names are named once, and each owns
a slot that holds more than before, where a new slot held nothing; every slot that was there and has
grown is owned by one of them. It reports widening exactly if an object was allocated that was not
before; the bodies of the functions that were created, and no others, are discovered; and it counts
the actions of the scope, which are the same before and after. So where it reports no change and
nothing was discovered, all types, the allocated objects and the functions are as before. -/
theorem replay_reports (h : Occurs env a) {s : ScopeId} {r : Replay ScopeId}
    (hr : AnalysisM.replay env s a = .ok r b) :
    (r.dirty.Nodup ∧ ∀ u ∈ r.dirty, ∃ x k, b.graph.slot? x = some k ∧ k.owner = u ∧
      a.graph.typeOf x ⊆ b.graph.typeOf x ∧ a.graph.typeOf x ≠ b.graph.typeOf x) ∧
    (∀ x k, a.graph.slot? x = some k → a.graph.typeOf x ≠ b.graph.typeOf x → k.owner ∈ r.dirty) ∧
    (r.widened = true ↔ ∃ o ∈ b.allocated, o ∉ a.allocated) ∧
    ((∃ new, b.functions = a.functions ++ new ∧ b.discovered = a.discovered ++ new.map (·.body)) ∧
      (a.discovered.length < b.discovered.length ↔ a.functions.length < b.functions.length)) ∧
    (r.actions = .ofNat (a.graph.actionsOf s).length ∧ b.graph.actionsOf s = a.graph.actionsOf s) ∧
    (r.changed = false → b.discovered = a.discovered →
      (∀ x, b.graph.typeOf x = a.graph.typeOf x) ∧ b.allocated = a.allocated ∧ b.functions = a.functions) := by
  have hv := h.valid
  have hchanges := ((AnalysisM.replay_advances hv s).of_ok hr).1
  have hgrows := Changes.grows hchanges
  have hreported := replay_reported hv hr
  have hwidened := AnalysisM.replay_widened hv hr
  obtain ⟨new, hfunctions, hdiscovered⟩ := Changes.created hchanges
  have hold : ∀ x k, b.graph.slot? x = some k → a.Raised b x → k.owner.index < a.graph.scopes.length →
      k.owner ∈ r.dirty := by
    intro x k hk hx hlt
    refine (hreported.shown x k hk hx).resolve_right fun hbody => ?_
    omega
  refine ⟨⟨hreported.once, fun u hu => ?_⟩, fun x k hk hne => ?_, ?_, ⟨⟨new, hfunctions, hdiscovered⟩, ?_⟩,
    ⟨(AnalysisM.replay_ok hr).2.2, ?_⟩, fun hquiet hnothing => ?_⟩
  · obtain ⟨x, k, hk, howner, hx⟩ := hreported.grew u hu
    exact ⟨x, k, hk, howner, (Analysis.raised_iff hgrows).1 hx⟩
  · obtain ⟨l, hl, -, howner⟩ := hgrows.graph.slot? hk
    have hx : a.Raised b x := (Analysis.raised_iff hgrows).2 ⟨hgrows.graph.typeOf_subset x, hne⟩
    rw [← howner]
    exact hold x l hl hx (howner ▸ hv.sound.owner_lt hk)
  · exact hwidened.trans (Changes.allocated_lt_iff hchanges h.tabled)
  · rw [hfunctions, hdiscovered, List.length_append, List.length_append, List.length_map]
    omega
  · rcases Nat.lt_or_ge s.index a.graph.scopes.length with hs | hs
    · exact Changes.actionsOf_of_lt hchanges hs
    · rw [(replay_absent hs hr).1]
      rfl
  · simp only [Replay.changed, Bool.or_eq_false_iff, Bool.not_eq_false', List.isEmpty_iff] at hquiet
    have hnew : new = [] := by
      rw [hdiscovered] at hnothing
      simpa using hnothing
    rw [hnew, List.append_nil] at hfunctions
    refine ⟨fun x => ?_, ?_, hfunctions⟩
    · by_contra hne
      have hx : a.Raised b x := (Analysis.raised_iff hgrows).2 ⟨hgrows.graph.typeOf_subset x, Ne.symm hne⟩
      cases hk : b.graph.slot? x with
      | none =>
        have hempty := ScopeGraph.typeOf_eq_empty (List.getElem?_eq_none_iff.1 hk)
        exact hx (hempty ▸ ConcreteType.empty_subset _)
      | some k =>
        -- the owner would be the body of a function that was there before
        rcases hreported.shown x k hk hx with hmem | ⟨hle, hmem⟩
        · rw [hquiet.2] at hmem
          exact absurd hmem List.not_mem_nil
        · unfold Analysis.bodies at hmem
          rw [hfunctions] at hmem
          obtain ⟨e, he, howner⟩ := List.mem_map.1 hmem
          obtain ⟨d, hd⟩ := hv.functions e he
          have hlt := hd.body.lt
          rw [howner] at hlt
          omega
    · have hle := mt hwidened.2 (Bool.eq_false_iff.1 hquiet.1)
      exact (List.IsPrefix.eq_of_length_le hgrows.allocated (by omega)).symm

/-- The program with one object, which is given no pass at all. -/
def unstarted : Setup := { oneObject with config.maxPasses := 0 }

/-- The state in which it stops: nothing is replayed. -/
def unstarted.prepared : Analysis := (Operation.process [] unstarted.program.body).after unstarted .fresh

/-- Replaying the global scope evaluates two actions. The variable `F` gets the function, whose body is
discovered; the object is allocated and becomes the receiver in that body. -/
theorem unstarted_reports : ∃ r b, AnalysisM.replay unstarted .global unstarted.prepared = .ok r b ∧
    r.dirty = [.global, ⟨3⟩] ∧ r.widened = true ∧
    (∀ u ∈ r.dirty, ∃ x k, b.graph.slot? x = some k ∧ k.owner = u ∧
      unstarted.prepared.graph.typeOf x ≠ b.graph.typeOf x) ∧
    (∃ o ∈ b.allocated, o ∉ unstarted.prepared.allocated) ∧ r.actions = 2 ∧
    unstarted.prepared.discovered.length < b.discovered.length := by
  have hoccurs : Occurs unstarted unstarted.prepared := Reachable.occurs (.after (.process _ _) .fresh trivial)
  have hreplay : checks (AnalysisM.replay unstarted .global) unstarted.prepared
      (fun r b => r.dirty = [.global, ⟨3⟩] ∧ r.widened ∧ b.functions.length = 1) = true := by
    decide +kernel
  obtain ⟨r, b, hr, htest⟩ := exists_ok hreplay
  obtain ⟨hdirty, hwidened, hfunctions⟩ := of_decide_eq_true htest
  have hstart : (unstarted.prepared.graph.actionsOf .global).length = 2 ∧
      unstarted.prepared.functions.length = 0 := by decide +kernel
  obtain ⟨⟨-, hgrew⟩, -, hallocated, ⟨-, hbodies⟩, ⟨hactions, -⟩, -⟩ := replay_reports hoccurs hr
  refine ⟨r, b, hr, hdirty, hwidened, fun u hu => ?_, hallocated.1 hwidened,
    hactions.trans (congrArg UInt64.ofNat hstart.1), hbodies.2 ?_⟩
  · obtain ⟨x, k, hk, howner, -, hne⟩ := hgrew u hu
    exact ⟨x, k, hk, howner, hne⟩
  · rw [hfunctions, hstart.2]
    exact Nat.one_pos

end TypeFlow
