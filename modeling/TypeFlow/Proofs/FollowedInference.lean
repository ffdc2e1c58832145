import TypeFlow.Proofs.Following

/-!
# Following the inferences of another run

What is inferred in an embedded state is within what is inferred in the state that it is embedded in. Something unknown
narrows to what is allocated, and reading from it creates nothing, so whatever becomes unknown on the way has to be
unknown from the beginning where this matters.

* `AnalysisM.infer_foreign`: what is foreign is unknown in every run.
* `AnalysisM.propertyType_follows`: reading properties.
* `AnalysisM.infer_follows`: inference.
-/

namespace TypeFlow

variable {p : Program} {a b c : Analysis} {σ : Setting}

namespace AnalysisM

/-! ## Foreign expressions -/

/-- Without memory, narrowing changes nothing. -/
theorem narrow_eq {env : Setup} (henv : env.config.memoize = false) (t : ConcreteType) (d : DeclaredType)
    (a : Analysis) : narrow env t d a = .ok (a.narrowed env.program t d) a := by
  by_cases h : d = .unknown ∨ t = ∅
  · rw [narrow_of_trivial h]
    rcases h with rfl | rfl
    · rw [Analysis.narrowed_of_open .unknown]
      rfl
    · rw [Analysis.narrowed_empty]
      rfl
  · unfold narrow
    rw [if_neg h, henv]
    rfl

theorem narrow?_all {env : Setup} (henv : env.config.memoize = false) {declared : Option DeclaredType}
    (h : declared.all (fun d => (Admission.ofDeclared env.program d).everything) = true) (a : Analysis) :
    narrow? env .all declared a = .ok .all a := by
  cases declared with
  | none => rfl
  | some d => rw [narrow?, narrow_eq henv, Analysis.narrowed_of_open ((Admission.ofDeclared_everything _ d).1 h)]

theorem infer_stage (ha : σ.Stage a) {e : Expr} (he : e.mentions ⊆ σ.mentions) {v : ConcreteType}
    (h : infer σ.env σ.here e a = .ok v c) : σ.Stage c :=
  ha.move ((infer_does e he).ok h) ((infer_evaluates (w := false) e σ.here a ha.valid ha.lt).proceeds.of_ok h).1

/-- A choice is unknown if one of its sides is. -/
theorem inferBoth_all (ha : σ.Stage a) {left right : Expr} {v : ConcreteType} (hleft : left.mentions ⊆ σ.mentions)
    (h : (do let t ← infer σ.env σ.here left; let u ← infer σ.env σ.here right; return t ∪ u :
      AnalysisM ConcreteType) a = .ok v c)
    (hall : (∀ {c t}, infer σ.env σ.here left a = .ok t c → t = .all) ∨
      ∀ {a c u}, σ.Stage a → infer σ.env σ.here right a = .ok u c → u = .all) : v = .all := by
  obtain ⟨t, d, ht, hrest⟩ := bind_ok h
  obtain ⟨u, e, hu, hlast⟩ := bind_ok hrest
  cases hlast
  rcases hall with hall | hall
  · rw [hall ht, ConcreteType.all_union]
  · rw [hall (infer_stage ha hleft ht) hu, ConcreteType.union_all]

mutual

/-- **What is foreign is unknown** in every run. -/
theorem infer_foreign (hσ : σ.Hosted) (htext : σ.env.program.HasText σ.owner) : ∀ (e : Expr) {a c : Analysis}
    {v : ConcreteType}, σ.Stage a → e.mentions ⊆ σ.mentions → e.foreign σ.env.program σ.host.graph σ.there = true →
    infer σ.env σ.here e a = .ok v c → v = .all
  | ⟨form, declared⟩, a, c, v, ha, he, hforeign, h => by
    rw [Expr.foreign, Bool.and_eq_true] at hforeign
    obtain ⟨u, d, hu, hv⟩ := bind_ok h
    obtain rfl := inferForm_foreign hσ htext form declared ha he hforeign.1 hu
    rw [narrow?_all hσ.forgetful hforeign.2] at hv
    cases hv
    rfl
termination_by structural e => e

theorem inferForm_foreign (hσ : σ.Hosted) (htext : σ.env.program.HasText σ.owner) : ∀ (form : Form)
    (declared : Option DeclaredType) {a c : Analysis} {v : ConcreteType}, σ.Stage a →
    Expr.mentions ⟨form, declared⟩ ⊆ σ.mentions → form.foreign σ.env.program σ.host.graph σ.there declared = true →
    inferForm σ.env σ.here declared form a = .ok v c → v = .all
  | .name n, _, a, c, v, ha, _, hforeign, h => by
    have hrel := ha.lookup_rel hσ.toChart hσ.stands htext ha.owns hσ.owned n
    rw [Form.foreign, Option.isNone_iff_eq_none] at hforeign
    rw [hforeign] at hrel
    rw [inferForm, get_bind_apply] at h
    generalize a.graph.lookup σ.here n = o at hrel h
    cases hrel
    cases h
    rfl
  | .this, _, a, c, v, ha, _, hforeign, h => by
    have hrel := ha.own_rel hσ.toChart ha.code ha.owns hσ.owned SlotName.this
    rw [Form.foreign, Option.isNone_iff_eq_none] at hforeign
    rw [hforeign] at hrel
    rw [inferForm, get_bind_apply] at h
    generalize a.graph.own σ.here SlotName.this = o at hrel h
    cases hrel
    cases h
    rfl
  | .literal, _, _, _, _, _, _, hforeign, _ => by cases hforeign
  | .function _, _, _, _, _, _, _, hforeign, _ => by cases hforeign
  | .objectLit _, declared, a, c, v, _, _, hforeign, h => by
    unfold Form.foreign at hforeign
    unfold inferForm at h
    split at h
    · cases hforeign
    · cases h
      rfl
  | .arrayLit _, _, a, c, v, _, _, hforeign, h => by
    rw [Form.foreign, Option.isNone_iff_eq_none] at hforeign
    rw [inferForm, hforeign] at h
    cases h
    rfl
  | .prop receiver property, _, a, c, v, ha, he, hforeign, h => by
    obtain ⟨u, d, hu, hv⟩ := bind_ok h
    obtain rfl := infer_foreign hσ htext receiver ha he hforeign hu
    cases hv
    rfl
  | .elem _ _, _, _, _, _, _, _, _, h => by
    cases h
    rfl
  | .call callee args, _, a, c, v, ha, he, hforeign, h => by
    obtain ⟨u, d, hu, hv⟩ := bind_ok h
    obtain rfl := infer_foreign hσ htext callee ha (List.append_subset.1 he).1 hforeign hu
    cases hv
    rfl
  | .construct _ _, _, _, _, _, _, _, hforeign, _ => by cases hforeign
  | .assign target value, _, a, c, v, ha, he, hforeign, h => by
    unfold Expr.mentions at he
    exact infer_foreign hσ htext value ha (List.append_subset.1 he).1 hforeign h
  | .comma operands, _, a, c, v, ha, he, hforeign, h => inferLast_foreign hσ htext operands ha he hforeign h
  | .and left right, _, a, c, v, ha, he, hforeign, h => by
    obtain ⟨hleft, hright⟩ := List.append_subset.1 he
    exact inferBoth_all ha hleft h ((Bool.or_eq_true_iff.1 hforeign).imp
      (fun hf _ _ => infer_foreign hσ htext left ha hleft hf)
      fun hf _ _ _ hc => infer_foreign hσ htext right hc hright hf)
  | .or left right, _, a, c, v, ha, he, hforeign, h => by
    obtain ⟨hleft, hright⟩ := List.append_subset.1 he
    exact inferBoth_all ha hleft h ((Bool.or_eq_true_iff.1 hforeign).imp
      (fun hf _ _ => infer_foreign hσ htext left ha hleft hf)
      fun hf _ _ _ hc => infer_foreign hσ htext right hc hright hf)
  | .cond test yes no, _, a, c, v, ha, he, hforeign, h => by
    obtain ⟨hyes, hno⟩ := List.append_subset.1 (List.append_subset.1 he).2
    exact inferBoth_all ha hyes h ((Bool.or_eq_true_iff.1 hforeign).imp
      (fun hf _ _ => infer_foreign hσ htext yes ha hyes hf) fun hf _ _ _ hc => infer_foreign hσ htext no hc hno hf)
  | .unknown _, _, _, _, _, _, _, _, h => by
    cases h
    rfl
termination_by structural form => form

theorem inferLast_foreign (hσ : σ.Hosted) (htext : σ.env.program.HasText σ.owner) : ∀ (es : List Expr) {a c : Analysis}
    {v : ConcreteType}, σ.Stage a → Expr.mentionsAll es ⊆ σ.mentions →
    Expr.foreignLast σ.env.program σ.host.graph σ.there es = true → inferLast σ.env σ.here es a = .ok v c → v = .all
  | [], _, _, _, _, _, hforeign, _ => by cases hforeign
  | [e], _, _, _, ha, he, hforeign, h => infer_foreign hσ htext e ha (List.append_subset.1 he).1 hforeign h
  | _ :: e :: es, _, _, _, ha, he, hforeign, h =>
    inferLast_foreign hσ htext (e :: es) ha (List.append_subset.1 he).2 hforeign h
termination_by structural es => es

end

/-! ## Reading properties -/

/-- Only reading the prototype of a superclass creates anything. -/
theorem functionProperty_stays {f : FnRef} {name : String} (hname : name ≠ PropertyName.superclass) {u : ConcreteType}
    (h : functionProperty p f name a = .ok u c) : c = a := by
  unfold functionProperty at h
  rw [get_bind_apply] at h
  cases hf : a.function? f with
  | none =>
    rw [hf] at h
    cases h
    rfl
  | some e =>
    rw [hf] at h
    dsimp only at h
    rw [if_neg hname] at h
    split at h
    · cases h
      rfl
    · split at h <;> cases h <;> rfl

theorem entityProperties_stay {name : String} (hname : name ≠ PropertyName.superclass) : ∀ {es : List Entity}
    {a c : Analysis} {u : ConcreteType}, entityProperties p name es a = .ok u c → c = a
  | [], _, _, _, h => by
    cases h
    rfl
  | e :: es, a, c, u, h => by
    obtain ⟨v, d, hv, hrest⟩ := bind_ok h
    obtain ⟨w, d', hw, hlast⟩ := bind_ok hrest
    cases hlast
    have hd : d = a := by
      cases e with
      | object o =>
        cases hv
        rfl
      | function f => exact functionProperty_stays hname hv
    rw [entityProperties_stay hname hw, hd]

/-- A static property of a function is found in the other run. -/
theorem static_within (ha : σ.Guest a) {f f' : FnRef} {q q' : FunctionEntry} (hq : a.function? f = some q)
    (hq' : σ.host.function? f' = some q') (hdecl : q'.decl = q.decl) (name : String) :
    a.Within σ.host (a.typeOr ∅ (a.graph.own q.statics name)) (σ.host.typeOr ∅ (σ.host.graph.own q'.statics name)) := by
  refine ha.embeds.typeOr_empty fun x hx => ?_
  have hs : a.Owns (.statics q.decl) q.statics := .statics (List.mem_of_getElem? hq)
  have hs' : σ.host.Owns (.statics q.decl) q'.statics := by
    rw [← hdecl]
    exact .statics (List.mem_of_getElem? hq')
  obtain ⟨x', hx'⟩ := Option.ne_none_iff_exists'.1 (ha.embeds.names _ _ _ name rfl hs hs' (by simp [hx]))
  exact ⟨x', hx', _, name, _, _, hs, hs', hx, hx'⟩

section Properties

variable (hσ : σ.Hosted) (ha : σ.Guest a)
include hσ ha

theorem functionProperty_follows {f f' : FnRef} (hmatch : a.Matches σ.host (.function f) (.function f'))
    (name : String) :
    Follows σ (functionProperty σ.env.program f name) (functionProperty σ.env.program f' name) σ.Within a := by
  obtain ⟨_, q, q', heq, hq, hq', hdecl⟩ := Analysis.matches_function hmatch
  cases heq
  have hstatic := static_within ha hq hq' hdecl name
  unfold functionProperty
  refine follows_get ?_
  rw [hq, hq']
  dsimp only
  split
  · -- the prototype, or a static property of that name
    obtain ⟨d, hd⟩ := ha.valid.functions q (List.mem_of_getElem? hq)
    obtain ⟨d', hd'⟩ := hσ.valid.functions q' (List.mem_of_getElem? hq')
    obtain rfl : d = d' := Option.some.inj (hd.decl.symm.trans (hdecl ▸ hd'.decl))
    have hrel := hd.prototype.rel hd'.prototype
    generalize q.prototype = r at hrel
    generalize q'.prototype = r' at hrel
    cases hrel with
    | none => exact follows_pure ha hstatic
    | some hobject => exact follows_pure ha (Analysis.within_single hobject (ConcreteType.mem_single.2 rfl))
  · split
    · exact follows_pure ha (Analysis.within_single hmatch (ConcreteType.mem_single.2 rfl))
    · split
      · rw [hdecl]
        refine follows_demandFunction fun d _ => ?_
        split
        · exact follows_pure ha hstatic
        · refine follows_demandFunction fun d' _ => ?_
          split
          · exact follows_pure ha hstatic
          · refine (createObject_follows hσ ha _).bind (createObject_does _) (fun _ => moves_pure _)
              fun o c o' hc _ hobject => ?_
            exact follows_pure hc (Analysis.within_single hobject (ConcreteType.mem_single.2 rfl))
      · exact follows_pure ha hstatic

theorem entityProperty_follows {e e' : Entity} (hmatch : a.Matches σ.host e e') (name : String) :
    Follows σ (entityProperty σ.env.program name e) (entityProperty σ.env.program name e') σ.Within a := by
  cases e with
  | function f =>
    obtain ⟨f', -, -, rfl, -⟩ := Analysis.matches_function hmatch
    exact functionProperty_follows hσ ha hmatch name
  | object o =>
    obtain ⟨o', q, q', rfl, hq, hq', hshape⟩ := Analysis.matches_object hmatch
    exact follows_get (follows_pure ha (ha.embeds.objectProperty ha.valid hσ.valid hσ.unshadowed hq hq' hshape name))

end Properties

/-- Where reading several entities changes nothing, reading each of them does not, and gives part of it. -/
theorem entityProperties_each {name : String} : ∀ {es : List Entity} {u : ConcreteType},
    entityProperties σ.env.program name es σ.host = .ok u σ.host →
    ∀ e ∈ es, ∃ v, entityProperty σ.env.program name e σ.host = .ok v σ.host ∧ v ⊆ u
  | [], _, _ => fun _ h => absurd h List.not_mem_nil
  | d :: es, u, h => by
    obtain ⟨v, hv, hrest⟩ := split_host (entityProperty_does name d)
      (fun _ => (entityProperties_does name es).bind fun _ => moves_pure _) h
    obtain ⟨w, hw, hlast⟩ := split_host (entityProperties_does name es) (fun _ => moves_pure _) hrest
    cases hlast
    refine List.forall_mem_cons.2 ⟨⟨v, hv, ConcreteType.subset_union_left v w⟩, fun e he => ?_⟩
    obtain ⟨v', hv', hsub⟩ := entityProperties_each hw e he
    exact ⟨v', hv', ConcreteType.subset_trans hsub (ConcreteType.subset_union_right v w)⟩

/-- Each entity is followed by one that it matches. -/
theorem entityProperties_follow (hσ : σ.Hosted) {name : String} {es' : List Entity} {u' : ConcreteType}
    (hu' : entityProperties σ.env.program name es' σ.host = .ok u' σ.host) : ∀ {es : List Entity} {a c : Analysis}
    {u : ConcreteType}, σ.Guest a → (∀ e ∈ es, ∃ e' ∈ es', a.Matches σ.host e e') →
    entityProperties σ.env.program name es a = .ok u c → σ.Guest c ∧ a.Grows c ∧ c.Within σ.host u u'
  | [], _, _, _, ha, _, h => by
    cases h
    exact ⟨ha, refl_of _ _, Analysis.within_empty u'⟩
  | e :: es, a, c, u, ha, hes, h => by
    obtain ⟨v, d, hv, hrest⟩ := bind_ok h
    obtain ⟨w, d', hw, hlast⟩ := bind_ok hrest
    cases hlast
    obtain ⟨⟨e', he', hmatch⟩, hes⟩ := List.forall_mem_cons.1 hes
    obtain ⟨v', hv', hsub⟩ := entityProperties_each hu' e' he'
    obtain ⟨hd, had, hvv'⟩ := entityProperty_follows hσ ha hmatch name v d v' hv hv'
    have hnext : ∀ e ∈ es, ∃ e' ∈ es', d.Matches σ.host e e' := fun e he => by
      obtain ⟨e', he', hmatch⟩ := hes e he
      exact ⟨e', he', hmatch.grows had⟩
    obtain ⟨hc, hdc, hww'⟩ := entityProperties_follow hσ hu' hd hnext hw
    exact ⟨hc, trans_of Analysis.Grows had hdc, ((hvv'.grows hdc).of_subset hsub).union_left hww'⟩

/-- **What reading a property gives.** -/
theorem propertyType_follows (hσ : σ.Hosted) (ha : σ.Guest a) {t t' : ConcreteType} (htt' : a.Within σ.host t t')
    {name : String} (hsuper : name = PropertyName.superclass → t' = .all → t = .all) :
    Follows σ (propertyType σ.env.program t name) (propertyType σ.env.program t' name) σ.Within a := by
  cases t' with
  | all =>
    cases t with
    | all => exact follows_pure ha (Analysis.within_all _)
    | only m =>
      intro u c u' hx hy
      have hname : name ≠ PropertyName.superclass := fun hname => nomatch hsuper hname rfl
      obtain rfl := entityProperties_stay hname hx
      cases hy
      exact ⟨ha, refl_of _ _, Analysis.within_all u⟩
  | only m' =>
    cases t with
    | all => exact htt'.elim
    | only m => exact fun u c u' hx hy => entityProperties_follow hσ hy ha htt' hx

/-! ## Inference -/

/-- A clear expression that is unknown in the other run is unknown. -/
theorem eq_all_of_clear (hσ : σ.Hosted) (htext : σ.env.program.HasText σ.owner) (ha : σ.Stage a) {e : Expr}
    (he : e.mentions ⊆ σ.mentions) (hclear : σ.env.clear σ.host σ.there e = true) {v : ConcreteType}
    (hx : infer σ.env σ.here e a = .ok v c) (hy : infer σ.env σ.there e σ.host = .ok .all σ.host) : v = .all := by
  unfold Setup.clear Setup.typeOf? at hclear
  rw [hy] at hclear
  simp only [ne_eq, not_true_eq_false, decide_false, Bool.false_or] at hclear
  exact infer_foreign hσ htext e ha he hclear hx

/-- What a choice finds, from what its sides find. -/
theorem inferBoth_follows {left right : Expr} (hleft : left.mentions ⊆ σ.mentions)
    (hright : right.mentions ⊆ σ.mentions)
    (hl : Follows σ (infer σ.env σ.here left) (infer σ.env σ.there left) σ.Within a)
    (hr : ∀ c, σ.Guest c → Follows σ (infer σ.env σ.here right) (infer σ.env σ.there right) σ.Within c) :
    Follows σ (do let t ← infer σ.env σ.here left; let u ← infer σ.env σ.here right; return t ∪ u)
      (do let t ← infer σ.env σ.there left; let u ← infer σ.env σ.there right; return t ∪ u) σ.Within a := by
  refine hl.bind (infer_does left hleft) (fun _ => (infer_does right hright).bind fun _ => moves_pure _)
    fun u c u' hc _ huu' => ?_
  refine (hr c hc).bind (infer_does right hright) (fun _ => moves_pure _) ?_
  exact fun v d v' hd hcd hvv' => follows_pure hd ((huu'.grows hcd).union hvv')

mutual

/-- **What inference finds is within what it finds in the other run.** -/
theorem infer_follows (hσ : σ.Hosted) (htext : σ.env.program.HasText σ.owner) : ∀ (e : Expr) (a : Analysis), σ.Guest a →
    e.mentions ⊆ σ.mentions → (∀ q ∈ e.inferred, σ.env.sure σ.host σ.there q = true) →
    Follows σ (infer σ.env σ.here e) (infer σ.env σ.there e) σ.Within a
  | ⟨form, declared⟩, a, ha, he, hsure => by
    rw [Expr.inferred, List.forall_mem_cons] at hsure
    refine (inferForm_follows hσ htext form declared a ha he hsure.1 hsure.2).bind_with
      (inferForm_does declared form he) (fun t => narrow?_does t declared) fun u c u' hu hu' hc _ huu' => ?_
    have hproceeds := (inferForm_evaluates (w := false) form σ.here declared a ha.valid ha.toStage.lt).proceeds
    obtain ⟨-, hknows, -⟩ := hproceeds.of_ok hu
    cases declared with
    | none => exact follows_pure hc huu'
    | some t =>
      intro v d v' hv hv'
      rw [narrow?, narrow_eq hσ.forgetful] at hv hv'
      cases hv
      cases hv'
      refine ⟨hc, refl_of _ _, hc.embeds.narrowed hknows huu' fun hall hopen => ?_⟩
      subst hall
      -- the form is foreign, or all that the declared type admits is allocated
      have htest := (Bool.and_eq_true_iff.1 hsure.1).1
      unfold Setup.formTypeOf? at htest
      rw [hu', Option.all_some, mt (Admission.ofDeclared_everything _ t).1 hopen |> Bool.eq_false_iff.2] at htest
      simp only [ne_eq, not_true_eq_false, decide_false, Bool.false_or, Bool.or_eq_true] at htest
      exact htest.imp (fun hforeign => inferForm_foreign hσ htext form _ ha.toStage he hforeign hu) id
termination_by structural e => e

theorem inferForm_follows (hσ : σ.Hosted) (htext : σ.env.program.HasText σ.owner) : ∀ (form : Form)
    (declared : Option DeclaredType) (a : Analysis), σ.Guest a → Expr.mentions ⟨form, declared⟩ ⊆ σ.mentions →
    σ.env.sure σ.host σ.there ⟨form, declared⟩ = true → (∀ q ∈ form.inferred, σ.env.sure σ.host σ.there q = true) →
    Follows σ (inferForm σ.env σ.here declared form) (inferForm σ.env σ.there declared form) σ.Within a
  | .name n, _, a, ha, _, _, _ => follows_get (follows_pure ha (ha.embeds.typeOr_all
      (ha.lookup_rel hσ.toChart hσ.stands htext ha.owns hσ.owned n)))
  | .this, _, a, ha, _, _, _ => follows_get (follows_pure ha (ha.embeds.typeOr_all
      (ha.own_rel hσ.toChart ha.code ha.owns hσ.owned SlotName.this)))
  | .literal, _, _, ha, _, _, _ => follows_pure ha (Analysis.within_empty _)
  | .function f, _, a, ha, he, _, _ => by
    have hf : .function f ∈ σ.mentions := he (List.mem_singleton_self _)
    refine (createFunction_follows hσ ha hf).bind (createFunction_does (.mentioned hf)) (fun _ => moves_pure _) ?_
    exact fun r c r' hc _ hmatch => follows_pure hc (Analysis.within_single hmatch (ConcreteType.mem_single.2 rfl))
  | .objectLit _, declared, a, ha, _, _, _ => by
    unfold inferForm
    split
    · refine (createObject_follows hσ ha _).bind (createObject_does _) (fun _ => moves_pure _) ?_
      exact fun o c o' hc _ hmatch => follows_pure hc (Analysis.within_single hmatch (ConcreteType.mem_single.2 rfl))
    · exact follows_pure ha (Analysis.within_all _)
  | .arrayLit _, _, a, ha, _, _, _ => by
    unfold inferForm
    split
    · refine (createObject_follows hσ ha _).bind (createObject_does _) (fun _ => moves_pure _) ?_
      exact fun o c o' hc _ hmatch => follows_pure hc (Analysis.within_single hmatch (ConcreteType.mem_single.2 rfl))
    · exact follows_pure ha (Analysis.within_all _)
  | .prop receiver property, _, a, ha, he, hsure, hall => by
    refine (infer_follows hσ htext receiver a ha he hall).bind_with (infer_does receiver he)
      (fun t => propertyType_does t property) fun u c u' hu hu' hc _ huu' => ?_
    refine propertyType_follows hσ hc huu' ?_
    rintro rfl rfl
    have hclear := (Bool.and_eq_true_iff.1 hsure).2
    simp only [ne_eq, not_true_eq_false, decide_false, Bool.false_or] at hclear
    exact eq_all_of_clear (e := receiver) hσ htext ha.toStage he hclear hu hu'
  | .elem _ _, _, _, ha, _, _, _ => follows_pure ha (Analysis.within_all _)
  | .call callee args, _, a, ha, he, _, hall => by
    have hcallee := (List.append_subset.1 he).1
    refine (infer_follows hσ htext callee a ha hcallee hall).bind (infer_does callee hcallee)
      (fun _ => moves_get.bind fun _ => moves_pure _) fun u c u' hc _ huu' => ?_
    exact follows_get (follows_pure hc (hc.embeds.returnedBy hc.toChart hσ.toChart huu'))
  | .construct callee args, _, a, ha, he, _, hall => by
    have hcallee := (List.append_subset.1 he).1
    rw [inferForm, inferForm]
    refine (infer_follows hσ htext callee a ha hcallee hall).bind (infer_does callee hcallee) (fun t => ?_)
      fun u c u' hc _ huu' => ?_
    · cases t with
      | all => exact moves_throw _
      | only m => exact moves_get.bind fun _ => moves_pure _
    · cases u' with
      | all =>
        intro v d v' _ hy
        cases hy
      | only m' =>
        cases u with
        | all => exact huu'.elim
        | only m => exact follows_get (follows_pure hc (hc.constructedBy hσ.toChart huu'))
  | .assign target value, _, a, ha, he, _, hall => by
    unfold Expr.mentions at he
    exact infer_follows hσ htext value a ha (List.append_subset.1 he).1 hall
  | .comma operands, _, a, ha, he, _, hall => inferLast_follows hσ htext operands a ha he hall
  | .and left right, _, a, ha, he, _, hall => by
    obtain ⟨hleft, hright⟩ := List.append_subset.1 he
    obtain ⟨hsure, hsure'⟩ := List.forall_mem_append.1 hall
    exact inferBoth_follows hleft hright (infer_follows hσ htext left a ha hleft hsure)
      fun c hc => infer_follows hσ htext right c hc hright hsure'
  | .or left right, _, a, ha, he, _, hall => by
    obtain ⟨hleft, hright⟩ := List.append_subset.1 he
    obtain ⟨hsure, hsure'⟩ := List.forall_mem_append.1 hall
    exact inferBoth_follows hleft hright (infer_follows hσ htext left a ha hleft hsure)
      fun c hc => infer_follows hσ htext right c hc hright hsure'
  | .cond test yes no, _, a, ha, he, _, hall => by
    obtain ⟨hyes, hno⟩ := List.append_subset.1 (List.append_subset.1 he).2
    obtain ⟨hsure, hsure'⟩ := List.forall_mem_append.1 hall
    exact inferBoth_follows hyes hno (infer_follows hσ htext yes a ha hyes hsure)
      fun c hc => infer_follows hσ htext no c hc hno hsure'
  | .unknown _, _, _, ha, _, _, _ => follows_pure ha (Analysis.within_all _)
termination_by structural form => form

theorem inferLast_follows (hσ : σ.Hosted) (htext : σ.env.program.HasText σ.owner) : ∀ (es : List Expr) (a : Analysis),
    σ.Guest a → Expr.mentionsAll es ⊆ σ.mentions → (∀ q ∈ Expr.inferredLast es, σ.env.sure σ.host σ.there q = true) →
    Follows σ (inferLast σ.env σ.here es) (inferLast σ.env σ.there es) σ.Within a
  | [], _, ha, _, _ => follows_pure ha (Analysis.within_empty _)
  | [e], a, ha, he, hsure => infer_follows hσ htext e a ha (List.append_subset.1 he).1 hsure
  | _ :: e :: es, a, ha, he, hsure => inferLast_follows hσ htext (e :: es) a ha (List.append_subset.1 he).2 hsure
termination_by structural es => es

end

end AnalysisM

end TypeFlow
