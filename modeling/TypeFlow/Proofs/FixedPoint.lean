import TypeFlow.Proofs.LastPass

/-!
# Fixed points

A run that converged need not have reached a fixed point: an assignment to a property of
anything writes to the slots that exist when it is evaluated, and an object created later
in the last pass gives nobody a reason to evaluate it again. Nothing else can go wrong.

* `isFixedPoint_iff_landed`: the final state is a fixed point exactly if every such assignment has
  reached every slot.
* `lateObject_not_isFixedPoint`: a program whose final state is none.
-/

namespace TypeFlow

open AnalysisM

variable {env : Setup} {a b c : Analysis} {s : ScopeId}

/-- **A fixed point**: replaying any scope succeeds, makes no progress, and changes at most
what is remembered. -/
def Analysis.IsFixedPoint (env : Setup) (a : Analysis) : Prop :=
  ∀ s, s.index < a.graph.scopes.length →
    ∃ r b, replay env s a = .ok r b ∧ r.dirty = [] ∧ r.widened = false ∧ b.forget = a.forget

/-- What is assigned to a property of anything has reached every slot that a property of this
name now stands for. -/
def Analysis.Landed (env : Setup) (a : Analysis) : Prop :=
  ∀ s receiver property value, .assignProperty receiver property value ∈ a.graph.actionsOf s →
    ∀ t b c, infer env s receiver a = .ok .all b → infer env s value b = .ok t c →
      ∀ x ∈ allPropertySlots a property, t ⊆ a.graph.typeOf x

theorem scope_lt_of_mem_actionsOf {g : ScopeGraph} {action : Action} (h : action ∈ g.actionsOf s) :
    s.index < g.scopes.length := by
  unfold ScopeGraph.actionsOf at h
  cases hc : g.scope? s with
  | none => rw [hc] at h; cases h
  | some c => exact ScopeGraph.scope_lt hc

/-- What an action assigns to a property of anything has reached every slot of this name. -/
def Action.landed (env : Setup) (b : Analysis) (s : ScopeId) : Action → Bool
  | assignProperty receiver property value =>
    match AnalysisM.infer env s receiver b with
    | .ok .all c =>
      match AnalysisM.infer env s value c with
      | .ok t _ => (AnalysisM.allPropertySlots b property).all fun x => t ⊆ b.graph.typeOf x
      | .error _ _ => true
    | _ => true
  | _ => true

theorem Analysis.landed_iff :
    a.Landed env ↔ ∀ s, ∀ A ∈ a.graph.actionsOf s, A.landed env a s = true := by
  constructor
  · intro h s A hA
    cases A with
    | assignProperty receiver property value =>
      unfold Action.landed
      dsimp only
      split
      · rename_i c hc
        split
        · rename_i t d ht
          exact List.all_eq_true.2 fun x hx => decide_eq_true (h s receiver property value hA t c d hc ht x hx)
        · rfl
      · rfl
    | _ => rfl
  · intro h s receiver property value hA t c d hc ht x hx
    have hlanded := h s _ hA
    unfold Action.landed at hlanded
    dsimp only at hlanded
    rw [hc] at hlanded
    dsimp only at hlanded
    rw [ht] at hlanded
    exact of_decide_eq_true (List.all_eq_true.1 hlanded x hx)

instance (env : Setup) (a : Analysis) : Decidable (a.Landed env) :=
  decidable_of_iff (∀ i < a.graph.scopes.length, ∀ A ∈ a.graph.actionsOf ⟨i⟩, A.landed env a ⟨i⟩ = true)
    ⟨fun h => Analysis.landed_iff.2 fun s A hA => h s.index (scope_lt_of_mem_actionsOf hA) A hA,
      fun h i _ => Analysis.landed_iff.1 h ⟨i⟩⟩

/-! ## With and without memory -/

theorem Analysis.Valid.forget {p : Program} (hv : a.Valid p) : a.forget.Valid p := by
  have hw : a.Grows a.forget := ⟨refl_of _ a.graph, List.prefix_rfl, List.prefix_rfl, List.prefix_rfl⟩
  exact ⟨hv.toWired.grows hw hv.sound (fun _ h => .inl h) fun _ h => .inl h, hv.slots, hv.allocated,
    fun _ h => absurd h List.not_mem_nil⟩

/-- What is inferred without memory is inferred with memory too. -/
theorem infer_of_plain (hv : a.Valid env.program) (hs : s.index < a.graph.scopes.length) {e : Expr}
    {t : ConcreteType} (h : infer env.plain s e a.forget = .ok t c) :
    ∃ b, infer env s e a = .ok t b ∧ b.forget = c ∧ a.Grows b ∧ b.Valid env.program := by
  have hp : Proceeds env.program false (infer env s e) (infer env.plain s e) _ a :=
    (infer_evaluates e s a hv hs).proceeds
  cases hi : infer env s e a with
  | error f b =>
    rw [(hp.of_error hi).2] at h
    cases h
  | ok u b =>
    obtain ⟨hab, -, hy⟩ := hp.of_ok hi
    rw [hy] at h
    cases h
    exact ⟨b, rfl, rfl, hab.grows, hab.valid hv⟩

theorem Analysis.Landed.wide (hl : a.Landed env) (hv : a.Valid env.program) {action : Action}
    (haction : action ∈ a.graph.actionsOf s) {z : Assignment}
    (hz : Wide env.plain s action a.forget z) : z.type ⊆ a.graph.typeOf z.slot := by
  obtain ⟨receiver, property, value, rfl, hreceiver, hvalue, hslot⟩ := hz
  have hs := scope_lt_of_mem_actionsOf haction
  obtain ⟨b, hb, hforget, hab, hvb⟩ := infer_of_plain hv hs hreceiver
  rw [← hforget] at hvalue
  obtain ⟨c, hc, -⟩ := infer_of_plain hvb (Nat.lt_of_lt_of_le hs hab.scopes_le) hvalue
  exact hl s receiver property value haction _ b c hb hc z.slot hslot

/-! ## Replaying stable actions -/

/-- Replaying actions that assign what is there already changes nothing. -/
theorem replayActions_of_subset {dirty : List ScopeId} : ∀ {actions : List Action},
    (∀ action ∈ actions, ∃ zs, evaluate env s action a = .ok zs a ∧
      ∀ z ∈ zs, z.type ⊆ a.graph.typeOf z.slot) →
    replayActions env s actions dirty a = .ok dirty a
  | [], _ => rfl
  | action :: rest, h => by
    obtain ⟨zs, hzs, hsub⟩ := h action (List.mem_cons_self ..)
    rw [replayActions_cons, hzs]
    dsimp only
    rw [ScopeGraph.apply_of_subset hsub, Analysis.assign_of_subset hsub]
    exact replayActions_of_subset fun act hact => h act (List.mem_cons_of_mem _ hact)

/-- If replaying actions makes nothing dirty, they assign what is there already. -/
theorem subset_of_replayActions : ∀ {actions : List Action},
    (∀ action ∈ actions, ∃ zs, evaluate env s action a = .ok zs a ∧
      ∀ z ∈ zs, z.slot.index < a.graph.slots.length) →
    replayActions env s actions [] a = .ok [] b →
    ∀ action ∈ actions, ∀ zs, evaluate env s action a = .ok zs a →
      ∀ z ∈ zs, z.type ⊆ a.graph.typeOf z.slot
  | [], _, _ => fun _ h => absurd h List.not_mem_nil
  | action :: rest, h, hr => by
    obtain ⟨zs, hzs, hlt⟩ := h action (List.mem_cons_self ..)
    rw [replayActions_cons, hzs] at hr
    dsimp only at hr
    have hnil : (ScopeGraph.apply zs [] a.graph).1 = [] :=
      List.eq_nil_iff_forall_not_mem.2 fun u hu => List.not_mem_nil (mem_replayActions hr hu)
    have hsub := ScopeGraph.subset_of_apply_nil hlt hnil
    rw [hnil, Analysis.assign_of_subset hsub] at hr
    intro act hact zs' hzs'
    rcases List.mem_cons.1 hact with rfl | hact
    · rw [hzs] at hzs'
      cases hzs'
      exact hsub
    · exact subset_of_replayActions (fun act hact => h act (List.mem_cons_of_mem _ hact)) hr act hact zs'
        hzs'

theorem evaluate_assignEverywhere {receiver value : Expr} (property : String) {t : ConcreteType}
    (hreceiver : infer env s receiver a = .ok .all b) (hvalue : infer env s value b = .ok t c)
    (ht : t ≠ ∅) : evaluate env s (.assignProperty receiver property value) a =
      .ok ((enqueue [] (allPropertySlots c property)).map (⟨·, t⟩)) c := by
  change (infer env s receiver >>= _) a = _
  rw [bind_apply, hreceiver]
  dsimp only
  rw [bind_apply, hvalue]
  dsimp only
  rw [if_neg ht]
  rfl

/-! ## The final state -/

/-- Where every assignment has landed, replaying a scope changes nothing. -/
theorem replay_of_landed (hv : a.Valid env.program) (hbegun : a.begun = a)
    (hstable : ∀ action ∈ a.graph.actionsOf s, Stable env s action a) (hl : a.Landed env) :
    ∃ r b, replay env s a = .ok r b ∧ r.dirty = [] ∧ r.widened = false ∧ b.forget = a.forget := by
  have hactions : replayActions env.plain s (a.graph.actionsOf s) [] a.forget = .ok [] a.forget := by
    refine replayActions_of_subset fun action haction => ?_
    obtain ⟨zs, hzs, hsub⟩ := hstable action haction
    exact ⟨zs, hzs, fun z hz => (hsub z hz).elim id (hl.wide hv haction)⟩
  have hplain : replay env.plain s a.forget = .ok ⟨[], .ofNat (a.graph.actionsOf s).length, false⟩ a.forget := by
    have hgraph : a.forget.graph = a.graph := rfl
    have hforget : a.forget.begun = a.forget := congrArg Analysis.forget hbegun
    have hmark : a.forget.widened = false := congrArg Analysis.widened hforget.symm
    rw [replay_apply, hgraph, hforget, hactions]
    dsimp only
    rw [hmark]
  have hadv := replay_advances hv s
  cases hr : replay env s a with
  | error e b =>
    rw [(hadv.of_error hr).2] at hplain
    cases hplain
  | ok r b =>
    rw [(hadv.of_ok hr).2] at hplain
    obtain ⟨rfl, hforget⟩ := EStateM.Result.ok.inj hplain
    exact ⟨_, b, rfl, rfl, rfl, hforget⟩

/-- Where replaying changes nothing, every assignment has landed. -/
theorem landed_of_isFixedPoint (hv : a.Valid env.program) (hbegun : a.begun = a)
    (hstable : ∀ s, ∀ action ∈ a.graph.actionsOf s, Stable env s action a) (hfix : a.IsFixedPoint env) :
    a.Landed env := by
  intro s receiver property value haction t b c hreceiver hvalue x hx
  have hs := scope_lt_of_mem_actionsOf haction
  obtain ⟨r, d, hr, hdirty, -, -⟩ := hfix s hs
  have hactions := (replay_ok hr).1
  rw [hdirty, hbegun] at hactions
  have hplain := ((replayActions_advances _ _ a hv hs fun _ h => action_slot_lt hv.sound h).of_ok hactions).2
  by_cases ht : t = ∅
  · rw [ht]
    exact ConcreteType.empty_subset _
  · -- evaluating the assignment without memory leads back to the same state
    obtain ⟨hab, -, hp⟩ := (infer_evaluates (w := false) receiver s a hv hs).proceeds.of_ok hreceiver
    have hp' := ((infer_evaluates (w := false) value s b (hab.valid hv)
      (Nat.lt_of_lt_of_le hs hab.grows.scopes_le)).proceeds.of_ok hvalue).2.2
    have heval := evaluate_assignEverywhere property hp hp' ht
    obtain ⟨zs, hzs, -⟩ := hstable s _ haction
    obtain ⟨-, hc⟩ := EStateM.Result.ok.inj (heval.symm.trans hzs)
    rw [hc] at heval
    have hmem : x ∈ enqueue [] (allPropertySlots a.forget property) := mem_enqueue.2 (.inr hx)
    refine subset_of_replayActions (fun action haction => ?_) hplain _ haction _ heval ⟨x, t⟩
      (List.mem_map.2 ⟨x, hmem, rfl⟩)
    obtain ⟨zs, hzs, -⟩ := hstable s action haction
    have hvp : a.forget.Valid env.plain.program := hv.forget
    have haccepts := ((evaluate_evaluates hvp hs action (action_slot_lt hv.sound haction)).proceeds.of_ok
      hzs).2.1
    exact ⟨zs, hzs, fun z hz => (haccepts z hz).2⟩

/-- **The final state of a run that converged is a fixed point exactly if every assignment to a
property of anything has landed.** -/
theorem isFixedPoint_iff_landed (env : Setup) (ambient body : List Stmt) {c : Converged} {a : Analysis}
    (h : env.process ambient body .fresh = .ok c a) : a.IsFixedPoint env ↔ a.Landed env := by
  obtain ⟨hv, hbegun, hstable⟩ := converged_stable h
  exact ⟨landed_of_isFixedPoint hv hbegun hstable, fun hl s _ => replay_of_landed hv hbegun (hstable s) hl⟩

/-! ## An object that is created late -/

/-- What replaying a scope once more reports after a program was processed. -/
def Setup.recheck (env : Setup) (s : ScopeId) : Option (Replay ScopeId) :=
  match env.process env.program.ambient env.program.body .fresh with
  | .error _ _ => none
  | .ok _ a =>
    match replay env s a with
    | .error _ _ => none
    | .ok r _ => some r

theorem recheck_eq_some {r : Replay ScopeId} (h : env.recheck s = some r) :
    ∃ c a b, env.process env.program.ambient env.program.body .fresh = .ok c a ∧
      replay env s a = .ok r b := by
  unfold Setup.recheck at h
  cases hp : env.process env.program.ambient env.program.body .fresh with
  | error e a => rw [hp] at h; cases h
  | ok c a =>
    rw [hp] at h
    dsimp only at h
    cases hr : replay env s a with
    | error e b => rw [hr] at h; cases h
    | ok q b => rw [hr] at h; cases h; exact ⟨c, a, b, rfl, hr⟩

theorem not_isFixedPoint_of_replay (hv : a.Valid env.program) {r : Replay ScopeId}
    (h : replay env .global a = .ok r b) (hr : r.dirty ≠ []) : ¬ a.IsFixedPoint env := by
  intro hfix
  obtain ⟨q, d, hq, hdirty, -⟩ := hfix .global hv.root.lt
  rw [h] at hq
  cases hq
  exact hr hdirty

/-- The function `F` is assigned to the property `x` of something unknown. Only then does reading
the superclass of `F` create a prototype object that has this property. -/
def lateObject : Setup where
  program := {
    shapes := [{ name := "P", kind := .prototype, properties := ["x"] }]
    functions := [{ name := "F", body := some [], superclass := some ⟨1⟩ },
      { name := "B", body := some [], prototypeShape := some ⟨0⟩ }]
    body := [.function ⟨0⟩,
      .expr ⟨.assign ⟨.prop ⟨.name "u", none⟩ "x", none⟩ ⟨.name "F", none⟩, none⟩,
      .expr ⟨.assign ⟨.prop ⟨.prop ⟨.name "f", none⟩ "superClass_", none⟩ "y", none⟩ ⟨.literal, none⟩, none⟩,
      .var "f" (some ⟨.name "F", none⟩) none] }

theorem lateObject_recheck : lateObject.recheck .global = some ⟨[⟨3⟩], 4, false⟩ := by decide +kernel

/-- **Converging is not reaching a fixed point.** -/
theorem lateObject_not_isFixedPoint :
    ∃ c a, lateObject.process lateObject.program.ambient lateObject.program.body .fresh = .ok c a ∧
      ¬ a.IsFixedPoint lateObject := by
  obtain ⟨c, a, b, hp, hr⟩ := recheck_eq_some lateObject_recheck
  exact ⟨c, a, hp, not_isFixedPoint_of_replay (converged_stable hp).1 hr (by simp)⟩

/-- The same statements, except that the superclass is read first. -/
def earlyObject : Setup where
  program := { lateObject.program with
    body := [.function ⟨0⟩, .var "f" (some ⟨.name "F", none⟩) none,
      .expr ⟨.assign ⟨.prop ⟨.prop ⟨.name "f", none⟩ "superClass_", none⟩ "y", none⟩ ⟨.literal, none⟩, none⟩,
      .expr ⟨.assign ⟨.prop ⟨.name "u", none⟩ "x", none⟩ ⟨.name "F", none⟩, none⟩] }

/-- In the one program the assignment of `F` has not landed. In the other it has, in the one slot that there is
for `x`, and the final state is a fixed point. -/
theorem earlyObject_landed :
    (∃ c a, lateObject.process lateObject.program.ambient lateObject.program.body .fresh = .ok c a ∧
      ¬ a.Landed lateObject) ∧
    ∃ c a, earlyObject.process earlyObject.program.ambient earlyObject.program.body .fresh = .ok c a ∧
      (allPropertySlots a "x").map a.graph.typeOf = [.function ⟨0⟩] ∧ a.Landed earlyObject ∧
      a.IsFixedPoint earlyObject := by
  constructor
  · obtain ⟨c, a, b, hp, hr⟩ := recheck_eq_some lateObject_recheck
    have hfix := not_isFixedPoint_of_replay (converged_stable hp).1 hr (by simp)
    exact ⟨c, a, hp, fun hl => hfix ((isFixedPoint_iff_landed lateObject _ _ hp).2 hl)⟩
  · have hrun : checks (earlyObject.process earlyObject.program.ambient earlyObject.program.body) .fresh
        (fun _ a => (allPropertySlots a "x").map a.graph.typeOf = [.function ⟨0⟩] ∧ a.Landed earlyObject) = true := by
      decide +kernel
    obtain ⟨c, a, hp, htest⟩ := exists_ok hrun
    obtain ⟨hslots, hl⟩ := of_decide_eq_true htest
    exact ⟨c, a, hp, hslots, hl, (isFixedPoint_iff_landed earlyObject _ _ hp).2 hl⟩

end TypeFlow
