import TypeFlow.Proofs.FollowedCalls

/-!
# Following the actions of another run

What a definite action assigns in an embedded state is assigned by the like action in the state that it is embedded
in. A property that is new here has a slot there already, so declaring it keeps the state embedded.

* `AnalysisM.entitySlot_follows`, `AnalysisM.propertySlots_follows`: the slots of a property.
* `AnalysisM.evaluate_follows`: every action.
-/

namespace TypeFlow

variable {p : Program} {a b c : Analysis} {σ : Setting}

namespace AnalysisM

/-! ## Property assignments -/

/-- Declaring a property changes the state. -/
theorem not_declareProperty {s : ScopeId} {name : String} {xs : List SlotId}
    (h : (do let x ← onGraph (GraphM.declare s name); return [x] : AnalysisM (List SlotId)) b = .ok xs b) : False := by
  obtain ⟨x, c, hx, hlast⟩ := bind_ok h
  cases hlast
  cases hd : GraphM.declare s name b.graph with
  | error e g =>
    rw [onGraph_error hd] at hx
    cases hx
  | ok y g =>
    rw [onGraph_ok hd] at hx
    obtain ⟨-, -, rfl⟩ := GraphM.declare_ok hd
    have hlength := congrArg (fun c : Analysis => c.graph.slots.length) (EStateM.Result.ok.inj hx).2
    simp [ScopeGraph.bindSlot] at hlength

/-- A property of an object has a slot of its own, or one of a shape that declares it. -/
def Settled (p : Program) (b : Analysis) (name : String) (e : Entity) : Prop :=
  ∀ o q, e = .object o → b.object? o = some q → b.graph.own q.scope name = b.graph.lookup q.scope name ∨
    ∃ q' ∈ b.objects, b.graph.own q'.scope name = b.graph.lookup q.scope name ∧
      ∃ d, p.shape? q'.shape = some d ∧ name ∈ d.properties

section Slots

variable (hσ : σ.Hosted) (ha : σ.Guest a)
include hσ ha

/-- Declaring a property that the other run has. -/
theorem declareProperty_follows {K : ScopeKind} {s s' : ScopeId} {name : String} {x' : SlotId} {xs : List SlotId}
    (hs : a.Owns K s) (hs' : σ.host.Owns K s') (hx' : σ.host.graph.own s' name = some x')
    (owner : (∃ e ∈ a.objects, e.scope = s ∧ a.graph.lookup s name = none) ∨ ∃ e ∈ a.functions, e.statics = s)
    (h : (do let x ← onGraph (GraphM.declare s name); return [x] : AnalysisM (List SlotId)) a = .ok xs c) :
    σ.Guest c ∧ a.Grows c ∧ σ.Covers Analysis.Twins c xs [x'] := by
  obtain ⟨x, d, hx, hlast⟩ := bind_ok h
  cases hlast
  cases built : GraphM.declare s name a.graph with
  | error e g =>
    rw [onGraph_error built] at hx
    cases hx
  | ok y g =>
    rw [onGraph_ok built] at hx
    cases hx
    have hstep : Step σ.env.program true a { a with graph := g } := .property rfl owner built
    have hact : Act σ.env.program σ.here σ.mentions a { a with graph := g } := by
      have hact : Act σ.env.program σ.here σ.mentions a (finalState (onGraph (GraphM.declare s name)) a) :=
        .property name (owner.imp_left fun ⟨e, he, hscope, _⟩ => ⟨e, he, hscope⟩)
      rwa [finalState_ok (onGraph_ok built)] at hact
    have hembeds := ha.embeds.declare ha.valid hσ.tabled hs hs' (by simp [hx']) built hstep
    refine ⟨⟨ha.toStage.move (.single hact) (.single hstep), hembeds⟩, hstep.grows, covers_singleton ?_⟩
    refine ⟨K, name, s, s', hs.grows hstep.grows, hs', ?_, hx'⟩
    obtain ⟨hnone, rfl, rfl⟩ := GraphM.declare_ok built
    obtain ⟨_, hscope⟩ := hs.hasScope ha.valid
    rw [ScopeGraph.own_bindSlot hscope.lt hnone, if_pos ⟨rfl, rfl⟩]

/-- **The slot that a property of one entity is assigned to.** -/
theorem entitySlot_follows {e e' : Entity} (hmatch : a.Matches σ.host e e') {name : String}
    (hsettled : Settled σ.env.program σ.host name e') :
    Follows σ (entitySlot name e) (entitySlot name e') (σ.Covers Analysis.Twins) a := by
  intro xs c xs' hx hy
  cases e with
  | object o =>
    obtain ⟨o', q, q', rfl, hq, hq', hshape⟩ := Analysis.matches_object hmatch
    have hmem := List.mem_of_getElem? hq
    have hs : a.Owns (.object q.shape) q.scope := .object hmem
    have hs' := Analysis.owns_object (List.mem_of_getElem? hq') hshape
    rw [entitySlot, get_bind_apply, hq] at hx
    rw [entitySlot, get_bind_apply, hq'] at hy
    dsimp only at hx hy
    cases hlookup' : σ.host.graph.lookup q'.scope name with
    | none =>
      rw [hlookup'] at hy
      exact (not_declareProperty hy).elim
    | some x' =>
      rw [hlookup'] at hy
      cases hy
      cases hlookup : a.graph.lookup q.scope name with
      | some x =>
        rw [hlookup] at hx
        cases hx
        obtain ⟨y, hy, htwins⟩ := ha.embeds.lookup ha.valid hσ.valid hσ.unshadowed hs hs' hlookup
        obtain rfl := Option.some.inj (hlookup'.symm.trans hy)
        exact ⟨ha, refl_of _ _, covers_singleton htwins⟩
      | none =>
        rw [hlookup] at hx
        have hown : σ.host.graph.own q'.scope name = some x' := by
          rcases hsettled o' q' rfl hq' with heq | ⟨r, hr, heq, d, hd, hname⟩
          · rw [heq, hlookup']
          · -- the shape would declare the property here as well
            rw [hlookup'] at heq
            exact absurd hname (Analysis.Embeds.lookup_none ha.valid hσ.valid hs hs' hlookup hlookup' hr heq hd)
        exact declareProperty_follows hσ ha hs hs' hown (.inl ⟨q, hmem, rfl, hlookup⟩) hx
  | function f =>
    obtain ⟨f', q, q', rfl, hq, hq', hdecl⟩ := Analysis.matches_function hmatch
    by_cases hname : name = PropertyName.prototype
    · rw [entitySlot, if_pos hname] at hx
      cases hx
      exact ⟨ha, refl_of _ _, covers_nil⟩
    have hmem := List.mem_of_getElem? hq
    have hs : a.Owns (.statics q.decl) q.statics := .statics hmem
    have hs' : σ.host.Owns (.statics q.decl) q'.statics := hdecl ▸ .statics (List.mem_of_getElem? hq')
    rw [entitySlot, if_neg hname, get_bind_apply, hq] at hx
    rw [entitySlot, if_neg hname, get_bind_apply, hq'] at hy
    dsimp only at hx hy
    cases hown' : σ.host.graph.own q'.statics name with
    | none =>
      rw [hown'] at hy
      exact (not_declareProperty hy).elim
    | some x' =>
      rw [hown'] at hy
      cases hy
      cases hown : a.graph.own q.statics name with
      | some x =>
        rw [hown] at hx
        cases hx
        exact ⟨ha, refl_of _ _, covers_singleton ⟨_, name, _, _, hs, hs', hown, hown'⟩⟩
      | none =>
        rw [hown] at hx
        exact declareProperty_follows hσ ha hs hs' hown' (.inr ⟨q, hmem, rfl⟩) hx

/-- **The slots that a property assignment writes to.** -/
theorem propertySlots_follows {R R' : ConcreteType} (hR : a.Within σ.host R R') (hall : R' = .all → R = .all)
    {name : String} (hsettled : ∀ e' ∈ R'.members, Settled σ.env.program σ.host name e') :
    Follows σ (propertySlots R name) (propertySlots R' name) (σ.Covers Analysis.Twins) a := by
  have henqueue {c : Analysis} {xs xs' : List SlotId} (h : σ.Covers Analysis.Twins c xs xs') :
      σ.Covers Analysis.Twins c (enqueue [] xs) (enqueue [] xs') := by
    intro x hx
    obtain ⟨x', hx', htwins⟩ := h x ((mem_enqueue.1 hx).resolve_left List.not_mem_nil)
    exact ⟨x', mem_enqueue.2 (.inr hx'), htwins⟩
  cases R' with
  | all =>
    rw [hall rfl]
    refine follows_get (follows_pure ha (henqueue fun x hx => ?_))
    rcases List.mem_append.1 hx with hx | hx
    · obtain ⟨e, he, hlookup⟩ := List.mem_filterMap.1 hx
      obtain ⟨e', he', hshape⟩ := ha.embeds.objects e he
      obtain ⟨x', hx', htwins⟩ := ha.embeds.lookup ha.valid hσ.valid hσ.unshadowed (.object he)
        (Analysis.owns_object he' hshape) hlookup
      exact ⟨x', List.mem_append_left _ (List.mem_filterMap.2 ⟨e', he', hx'⟩), htwins⟩
    · obtain ⟨e, he, hown⟩ := List.mem_filterMap.1 hx
      obtain ⟨e', he', hdecl⟩ := ha.embeds.functions e he
      have hs : a.Owns (.statics e.decl) e.statics := .statics he
      have hs' : σ.host.Owns (.statics e.decl) e'.statics := hdecl ▸ .statics he'
      obtain ⟨x', hx'⟩ := Option.ne_none_iff_exists'.1 (ha.embeds.names _ _ _ name rfl hs hs' (by simp [hown]))
      exact ⟨x', List.mem_append_right _ (List.mem_filterMap.2 ⟨e', he', hx'⟩), _, name, _, _, hs, hs', hown, hx'⟩
  | only m' =>
    cases R with
    | all => exact hR.elim
    | only m =>
      have hgather : Follows σ (gather (entitySlot name) m.members) (gather (entitySlot name) m'.members)
          (σ.Covers Analysis.Twins) a := by
        refine gather_follows lasting_twins (fun e' _ => entitySlot_does name e') ha fun e he => ?_
        obtain ⟨e', he', hmatch⟩ := hR e he
        exact ⟨e', he', fun c hc hac => entitySlot_follows hσ hc (hmatch.grows hac) (hsettled e' he')⟩
      refine hgather.bind (gather_does fun e' _ => entitySlot_does name e') (fun _ => moves_pure _) ?_
      exact fun xs c xs' hc _ hxs => follows_pure hc (henqueue hxs)

end Slots

/-! ## Actions -/

/-- Where recording allocations changes nothing, all are allocated. -/
theorem mem_allocated_of_records : ∀ {os : List ObjRef} {u : Unit},
    recordAllocations os σ.host = .ok u σ.host → ∀ o ∈ os, o ∈ σ.host.allocated
  | [], _, _ => fun _ h => absurd h List.not_mem_nil
  | o :: os, u, h => by
    obtain ⟨_, ho, hos⟩ := split_host (recordAllocation_does o) (fun _ => recordAllocations_does os) h
    exact List.forall_mem_cons.2 ⟨mem_allocated_of_record ho, mem_allocated_of_records hos⟩

/-- Objects that match allocated ones are allocated. -/
theorem recordAllocations_guest (hσ : σ.Hosted) : ∀ {os : List ObjRef} {a c : Analysis} {u : Unit}, σ.Guest a →
    (∀ o ∈ os, ∃ o' ∈ σ.host.allocated, a.Matches σ.host (.object o) (.object o')) →
    recordAllocations os a = .ok u c → σ.Guest c ∧ a.Grows c
  | [], _, _, _, ha, _, h => by
    cases h
    exact ⟨ha, refl_of _ _⟩
  | o :: os, a, c, u, ha, hos, h => by
    obtain ⟨_, d, ho, hrest⟩ := bind_ok h
    obtain ⟨⟨o', ho', hmatch⟩, hothers⟩ := List.forall_mem_cons.1 hos
    obtain ⟨hd, had⟩ := ha.recordAllocation hσ hmatch ho' ho
    have hnext : ∀ o ∈ os, ∃ o' ∈ σ.host.allocated, d.Matches σ.host (.object o) (.object o') := fun o ho => by
      obtain ⟨o', ho', hmatch⟩ := hothers o ho
      exact ⟨o', ho', hmatch.grows had⟩
    obtain ⟨hc, hdc⟩ := recordAllocations_guest hσ hd hnext hrest
    exact ⟨hc, trans_of Analysis.Grows had hdc⟩

/-- The objects of a literal are allocated. -/
theorem recordAllocations_follows (hσ : σ.Hosted) (ha : σ.Guest a) {t t' : ConcreteType} (htt' : a.Within σ.host t t')
    (hall : t' = .all → t = .all) :
    Follows σ (recordAllocations t.objects) (recordAllocations t'.objects) (fun _ _ _ => True) a := by
  intro u c u' hx hy
  have hobjects : ∀ o ∈ t.objects, ∃ o' ∈ σ.host.allocated, a.Matches σ.host (.object o) (.object o') := by
    intro o ho
    cases t' with
    | all =>
      rw [hall rfl] at ho
      exact absurd ho List.not_mem_nil
    | only m' =>
      obtain ⟨e', he', hmatch⟩ := htt'.exists_mem (ConcreteType.mem_objects.1 ho)
      obtain ⟨o', -, -, rfl, -⟩ := Analysis.matches_object hmatch
      exact ⟨o', mem_allocated_of_records hy o' (ConcreteType.mem_objects.2 he'), hmatch⟩
  obtain ⟨hc, hac⟩ := recordAllocations_guest hσ ha hobjects hx
  exact ⟨hc, hac, trivial⟩

/-- The receivers of a settled property. -/
theorem settled_of_infer {receiver : Expr} {property : String}
    (h : σ.env.settled σ.host σ.there receiver property = true) {R : ConcreteType}
    (hR : infer σ.env σ.there receiver σ.host = .ok R σ.host) : ∀ e ∈ R.members, Settled σ.env.program σ.host property e := by
  rintro e he o q rfl hq
  unfold Setup.settled Setup.typeOf? at h
  rw [hR] at h
  cases R with
  | all => cases he
  | only m =>
    have hall := List.all_eq_true.1 h o (ConcreteType.mem_objects.2 he)
    rw [hq, Option.all_some, Bool.or_eq_true, decide_eq_true_eq] at hall
    refine hall.imp_right fun hany => ?_
    obtain ⟨q', hq', htest⟩ := List.any_eq_true.1 hany
    rw [Bool.and_eq_true, decide_eq_true_eq, Option.any_eq_true] at htest
    obtain ⟨hown, d, hd, hname⟩ := htest
    exact ⟨q', hq', hown, d, hd, List.contains_iff_mem.1 hname⟩

/-- **What a definite action assigns is assigned by the like action in the other run.** -/
theorem evaluate_follows (hσ : σ.Hosted) (ha : σ.Guest a) {A A' : Action} (halike : A.Alike (a.Twins σ.host) A')
    (htext : σ.env.program.HasText σ.owner ∨ ∃ x d, A = .declaredFlow x d) (hmentions : A.mentions ⊆ σ.mentions)
    (hdefinite : A'.definite σ.env σ.host σ.there = true) :
    Follows σ (evaluate σ.env σ.here A) (evaluate σ.env σ.there A') σ.Assigns a := by
  -- only declared flows stand in scopes without text, and they infer nothing
  have htext : (∀ x d, A ≠ .declaredFlow x d) → σ.env.program.HasText σ.owner := fun hne =>
    htext.resolve_right fun ⟨x, d, h⟩ => hne x d h
  cases halike with
  | assign slot value =>
    have hsure := (Action.of_definite hdefinite).1 value (List.mem_singleton_self _)
    refine (infer_follows hσ (htext nofun) value a ha hmentions hsure).bind (infer_does value hmentions)
      (fun _ => moves_pure _) fun t c t' hc hac htt' => ?_
    exact follows_pure hc (assigns_singleton (slot.grows hac) htt')
  | ret slot value =>
    have hsure := (Action.of_definite hdefinite).1 value (List.mem_singleton_self _)
    refine (infer_follows hσ (htext nofun) value a ha hmentions hsure).bind (infer_does value hmentions)
      (fun _ => moves_pure _) fun t c t' hc hac htt' => ?_
    exact follows_pure hc (assigns_singleton (slot.grows hac) htt')
  | call callee args => exact bindCall_follows hσ (htext nofun) ha hmentions hdefinite
  | construct callee args => exact bindConstruct_follows hσ (htext nofun) ha hmentions hdefinite
  | allocate literal =>
    obtain ⟨hsure, hclear, -⟩ := Action.of_definite hdefinite
    refine (infer_follows hσ (htext nofun) literal a ha hmentions (hsure literal (List.mem_singleton_self _))).bind_with
      (infer_does literal hmentions) (fun t => (recordAllocations_does _).bind fun _ => moves_pure _)
      fun t c t' ht ht' hc _ htt' => ?_
    have hall : t' = .all → t = .all := by
      rintro rfl
      exact eq_all_of_clear hσ (htext nofun) ha.toStage hmentions (hclear literal (List.mem_singleton_self _)) ht ht'
    refine (recordAllocations_follows hσ hc htt' hall).bind (recordAllocations_does _) (fun _ => moves_pure _) ?_
    exact fun _ d _ hd _ _ => follows_pure hd covers_nil
  | declareFunction slot f =>
    have hf : .function f ∈ σ.mentions := hmentions (List.mem_singleton_self _)
    refine (createFunction_follows hσ ha hf).bind (createFunction_does (.mentioned hf)) (fun _ => moves_pure _)
      fun r c r' hc hac hmatch => ?_
    have hsingle := Analysis.within_single hmatch (ConcreteType.mem_single.2 rfl)
    exact follows_pure hc (assigns_singleton (slot.grows hac) hsingle)
  | declaredFlow slot d =>
    refine (widen_follows hσ d a ha).bind (widen_does d) (fun _ => moves_pure _) fun t c t' hc hac htt' => ?_
    exact follows_pure hc (assigns_singleton (slot.grows hac) htt')
  | assignProperty receiver property value =>
    obtain ⟨hreceiver, hvalue⟩ := List.append_subset.1 hmentions
    obtain ⟨hsure, hclear, -⟩ := Action.of_definite hdefinite
    obtain ⟨hsureReceiver, hsureValue⟩ := List.forall_mem_cons.1 hsure
    have hdoes (R t : ConcreteType) : Moves σ.Does (if t = ∅ then return []
        else do let slots ← propertySlots R property; return slots.map (⟨·, t⟩) : AnalysisM (List Assignment)) := by
      split
      · exact moves_pure _
      · exact (propertySlots_does R property).bind fun _ => moves_pure _
    refine (infer_follows hσ (htext nofun) receiver a ha hreceiver hsureReceiver).bind_with
      (infer_does receiver hreceiver) (fun R => (infer_does value hvalue).bind (hdoes R))
      fun R c R' hR hR' hc hac hRR' => ?_
    have hall : R' = .all → R = .all := by
      rintro rfl
      exact eq_all_of_clear hσ (htext nofun) ha.toStage hreceiver (hclear receiver (List.mem_singleton_self _)) hR hR'
    refine (infer_follows hσ (htext nofun) value c hc hvalue (hsureValue value (List.mem_singleton_self _))).bind
      (infer_does value hvalue) (hdoes R') fun t d t' hd hcd htt' => ?_
    split
    · -- nothing is assigned
      intro zs e ws hx hy
      cases hx
      exact ⟨hd, refl_of _ _, covers_nil⟩
    · rename_i hne
      have hne' : t' ≠ ∅ := by
        rintro rfl
        exact hne (Analysis.Within.eq_empty htt')
      rw [if_neg hne']
      have hsettled := settled_of_infer (Action.settled_of_definite hdefinite) hR'
      refine (propertySlots_follows hσ hd (hRR'.grows hcd) hall hsettled).bind (propertySlots_does R' property)
        (fun _ => moves_pure _) fun xs e xs' he hde hxs => follows_pure he fun z hz => ?_
      obtain ⟨x, hx, rfl⟩ := List.mem_map.1 hz
      obtain ⟨x', hx', htwins⟩ := hxs x hx
      exact ⟨⟨x', t'⟩, List.mem_map_of_mem hx', htwins, htt'.grows hde⟩

end AnalysisM

end TypeFlow
