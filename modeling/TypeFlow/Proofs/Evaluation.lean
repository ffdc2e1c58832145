import TypeFlow.Proofs.Effects

/-!
# Evaluation

Narrowing, widening and inference proceed by steps, give types whose members exist, do the
same with and without memory, and can be repeated after a calm stretch.

* `narrow_evaluates`: what is remembered is what would be computed.
* `infer_evaluates`: inference.
-/

namespace TypeFlow

variable {p : Program} {w : Bool} {env : Setup} {α β : Type} {a : Analysis}

namespace AnalysisM

/-! ## Allocation and iteration -/

theorem recordAllocation_apply (o : ObjRef) (a : Analysis) :
    recordAllocation o a = .ok ⟨⟩ (if o ∈ a.allocated then a
      else { a with allocated := a.allocated ++ [o], widened := true, narrowings := [] }) := rfl

theorem recordAllocation_evaluates {o : ObjRef} (ho : a.Has (.object o)) :
    Evaluates p w (recordAllocation o) (recordAllocation o) (fun _ _ => True) a := by
  by_cases h : o ∈ a.allocated
  · have hx : ∀ b : Analysis, b.allocated = a.allocated → recordAllocation o b = .ok ⟨⟩ b := by
      intro b hb
      rw [recordAllocation_apply, hb, if_pos h]
    refine ⟨?_, fun v b hb hab c hbc => ⟨⟨⟩, hx _ (hab.trans hbc).allocated, rfl⟩⟩
    unfold Proceeds
    rw [hx a rfl, hx a.forget rfl]
    exact ⟨.refl, trivial, rfl⟩
  · have hx : ∀ b : Analysis, b.allocated = a.allocated → recordAllocation o b =
        .ok ⟨⟩ { b with allocated := b.allocated ++ [o], widened := true, narrowings := [] } := by
      intro b hb
      rw [recordAllocation_apply, hb, if_neg h]
    refine ⟨?_, fun v b hb hab => ?_⟩
    · unfold Proceeds
      rw [hx a rfl, hx a.forget rfl]
      exact ⟨.single (.allocate ho h), trivial, rfl⟩
    · rw [hx a rfl] at hb
      cases hb
      have hlen := congrArg List.length hab.allocated
      simp at hlen

theorem recordAllocations_evaluates : ∀ (os : List ObjRef) (a : Analysis), a.Valid p →
    (∀ o ∈ os, a.Has (.object o)) →
    Evaluates p w (recordAllocations os) (recordAllocations os) (fun _ _ => True) a
  | [], _, _, _ => evaluates_pure trivial
  | o :: os, a, hv, ho => by
    refine .bind hv (recordAllocation_evaluates (ho o (List.mem_cons_self ..))) ?_
    intro _ b hab hb _
    exact recordAllocations_evaluates os b hb fun q hq =>
      (ho q (List.mem_cons_of_mem _ hq)).grows hab.grows

/-- What every element produces is still good when all have been evaluated. -/
theorem gather_evaluates {f g : α → AnalysisM (List β)} {q : Analysis → β → Prop}
    (hq : ∀ b c z, Steps p w b c → q b z → q c z) : ∀ (xs : List α) (a : Analysis), a.Valid p →
    (∀ x ∈ xs, ∀ b, Steps p w a b → b.Valid p →
      Evaluates p w (f x) (g x) (fun c l => ∀ z ∈ l, q c z) b) →
    Evaluates p w (gather f xs) (gather g xs) (fun c l => ∀ z ∈ l, q c z) a
  | [], _, _, _ => evaluates_pure fun _ h => absurd h List.not_mem_nil
  | x :: xs, a, hv, hf => by
    refine .bind hv (hf x (List.mem_cons_self ..) a .refl hv) ?_
    intro here b hab hb hhere
    have hrest := gather_evaluates hq xs b hb fun y hy c hbc hc =>
      hf y (List.mem_cons_of_mem _ hy) c (hab.trans hbc) hc
    refine .bind hb hrest ?_
    intro rest c hbc hc hrest
    refine evaluates_pure fun z hz => ?_
    rcases List.mem_append.1 hz with h | h
    · exact hq b c z hbc (hhere z h)
    · exact hrest z h

/-- Two computations of types, joined. -/
theorem union_evaluates {x y x' y' : AnalysisM ConcreteType} (hv : a.Valid p)
    (hx : Evaluates p w x y (fun b t => b.Knows t) a)
    (hx' : ∀ b, Steps p w a b → b.Valid p → Evaluates p w x' y' (fun b t => b.Knows t) b) :
    Evaluates p w (do let t ← x; let u ← x'; return t ∪ u) (do let t ← y; let u ← y'; return t ∪ u)
      (fun b t => b.Knows t) a := by
  refine .bind hv hx ?_
  intro t b hab hb ht
  refine .bind hb (hx' b hab hb) ?_
  intro u c hbc hc hu
  exact evaluates_pure ((ht.grows hbc.grows).union hu)

/-! ## Narrowing and widening -/

theorem narrow_of_trivial {t : ConcreteType} {d : DeclaredType} (h : d = .unknown ∨ t = ∅) :
    narrow env t d = pure t := by
  unfold narrow
  rw [if_pos h]

theorem narrow_plain {t : ConcreteType} {d : DeclaredType} (h : ¬ (d = .unknown ∨ t = ∅)) :
    narrow env.plain t d a = .ok (a.narrowed env.program t d) a := by
  unfold narrow
  rw [if_neg h]
  rfl

theorem narrow_of_remembered {t r : ConcreteType} {d : DeclaredType} (h : ¬ (d = .unknown ∨ t = ∅))
    (hm : env.config.memoize = true) (hr : a.remembered t d = some r) :
    narrow env t d a = .ok r a := by
  unfold narrow
  rw [if_neg h, if_pos hm, get_bind_apply, hr]
  rfl

theorem narrow_of_not_remembered {t : ConcreteType} {d : DeclaredType}
    (h : ¬ (d = .unknown ∨ t = ∅)) (hm : env.config.memoize = true) (hr : a.remembered t d = none) :
    narrow env t d a = .ok (a.narrowed env.program t d)
      { a with narrowings := ⟨t, d, a.narrowed env.program t d⟩ :: a.narrowings } := by
  unfold narrow
  rw [if_neg h, if_pos hm, get_bind_apply, hr]
  rfl

/-- In a valid state, what is remembered is what would be computed. -/
theorem remembered_eq (hv : a.Valid p) {t r : ConcreteType} {d : DeclaredType}
    (h : a.remembered t d = some r) : r = a.narrowed p t d :=
  hv.honest.remembered_eq h

/-- With or without memory, narrowing gives the narrowed type and changes nothing else. -/
theorem narrow_apply (hv : a.Valid env.program) {t : ConcreteType} (ht : a.Knows t) {d : DeclaredType}
    (h : ¬ (d = .unknown ∨ t = ∅)) :
    ∃ b, narrow env t d a = .ok (a.narrowed env.program t d) b ∧ Steps env.program w a b ∧
      b.forget = a.forget := by
  by_cases hm : env.config.memoize = true
  · cases hr : a.remembered t d with
    | some r =>
      rw [narrow_of_remembered h hm hr, remembered_eq hv hr]
      exact ⟨a, rfl, .refl, rfl⟩
    | none =>
      rw [narrow_of_not_remembered h hm hr]
      exact ⟨_, rfl, .single (.remember d ht), rfl⟩
  · refine ⟨a, ?_, .refl, rfl⟩
    unfold narrow
    rw [if_neg h, if_neg hm]
    rfl

theorem narrow_evaluates (hv : a.Valid env.program) {t : ConcreteType} (ht : a.Knows t)
    (d : DeclaredType) :
    Evaluates env.program w (narrow env t d) (narrow env.plain t d) (fun b u => b.Knows u) a := by
  by_cases h : d = .unknown ∨ t = ∅
  · rw [narrow_of_trivial h, narrow_of_trivial h]
    exact evaluates_pure ht
  · obtain ⟨b, hx, hab, hb⟩ := narrow_apply hv ht h
    constructor
    · unfold Proceeds
      rw [hx, narrow_plain h]
      exact ⟨hab, (hv.knows_narrowed ht d).grows hab.grows, by rw [hb]; rfl⟩
    · intro u b' hx' hab' c hbc
      rw [hx] at hx'
      cases hx'
      refine ⟨_, narrow_plain h, ?_⟩
      exact (hab'.trans hbc).forget.narrowed hv ht d

mutual

theorem widen_evaluates : ∀ (d : DeclaredType) (a : Analysis), a.Valid p →
    Evaluates p w (widen p d) (widen p d) (fun b t => b.Knows t) a
  | .unknown, a, _ => evaluates_pure (Analysis.knows_all a)
  | .anyObject, a, _ => evaluates_pure (Analysis.knows_all a)
  | .primitive, a, _ => evaluates_pure (Analysis.knows_empty a)
  | .object s, a, hv => by
    refine .bind hv (demandShape_evaluates s) ?_
    rintro d b - hb ⟨rfl, hd⟩
    have hexpand (c : Analysis) (hc : c.Valid p) (x : Admission) : c.Knows (c.expand p x) :=
      Analysis.knows_ofList fun e he =>
        Analysis.has_of_mem_present hc.allocated (List.mem_filter.1 he).1
    by_cases hk : d.kind = .interface
    · rw [if_pos hk]
      refine evaluates_get (fun c hc => by rw [hc.expand hv]) ?_
      exact evaluates_pure (hexpand _ hv _)
    · rw [if_neg hk]
      refine .bind hv (createObject_evaluates hv s) ?_
      rintro o b hab hb ⟨ho, -⟩
      have hhas := Analysis.has_of_findObject ho
      refine .bind hb (recordAllocation_evaluates hhas) ?_
      rintro - c hbc hc -
      refine evaluates_get (fun e he => by rw [he.expand hc]) ?_
      exact evaluates_pure ((Analysis.knows_single (hhas.grows hbc.grows)).union (hexpand c hc _))
  | .function (some f) _, a, hv => by
    refine evaluates_get (fun c hc => by rw [hc.findFunction]) ?_
    cases ha : a.findFunction f with
    | some r => exact evaluates_pure (Analysis.knows_single (Analysis.has_of_findFunction ha))
    | none =>
      refine .bind hv (demandFunction_evaluates f) ?_
      rintro d b - hb ⟨rfl, hd⟩
      by_cases hd : d.isAmbient = true
      · simp only [hd, if_true]
        refine .bind hv (createFunction_evaluates hv f hv.root.lt) ?_
        intro r c hac hc hr
        exact evaluates_pure (Analysis.knows_single (Analysis.has_of_findFunction hr))
      · simp only [hd]
        exact evaluates_pure (Analysis.knows_empty _)
  | .function none _, a, _ => evaluates_pure (Analysis.knows_all a)
  | .union ds, a, hv => widenAny_evaluates ds a hv
termination_by structural d => d

theorem widenAny_evaluates : ∀ (ds : List DeclaredType) (a : Analysis), a.Valid p →
    Evaluates p w (widenAny p ds) (widenAny p ds) (fun b t => b.Knows t) a
  | [], a, _ => evaluates_pure (Analysis.knows_empty a)
  | d :: ds, a, hv => union_evaluates hv (widen_evaluates d a hv) fun b _ hb =>
    widenAny_evaluates ds b hb
termination_by structural ds => ds

end

/-! ## Inference -/

theorem created_evaluates (hv : a.Valid p) (s : ShapeId) :
    Evaluates p w (do let o ← createObject p s; return .object o)
      (do let o ← createObject p s; return .object o) (fun b t => b.Knows t) a := by
  refine .bind hv (createObject_evaluates hv s) ?_
  rintro o b hab hb ⟨ho, -⟩
  exact evaluates_pure (Analysis.knows_single (Analysis.has_of_findObject ho))

theorem functionProperty_evaluates (hv : a.Valid p) {f : FnRef} (hf : a.Has (.function f))
    (name : String) :
    Evaluates p w (functionProperty p f name) (functionProperty p f name) (fun b t => b.Knows t) a := by
  refine evaluates_get (fun c hc => ?_) ?_
  · rw [hc.function?]
    cases he : a.function? f with
    | none => rfl
    | some e =>
      obtain ⟨d, hd⟩ := hv.functions e (List.mem_of_getElem? he)
      simp only [hc.own hd.statics.lt, hc.typeOr]
  · cases he : a.function? f with
    | none => exact evaluates_pure (Analysis.knows_empty a)
    | some e =>
      have hmem := List.mem_of_getElem? he
      have hstatic : a.Knows (a.typeOr ∅ (a.graph.own e.statics name)) :=
        hv.knows_typeOr (Analysis.knows_empty a) _
      dsimp only
      split
      · refine evaluates_pure ?_
        cases hp : e.prototype with
        | none => exact hstatic
        | some o => exact Analysis.knows_single (hv.entity hmem (.inr hp))
      · split
        · exact evaluates_pure (Analysis.knows_single hf)
        · split
          · refine .bind hv (demandFunction_evaluates e.decl) ?_
            rintro d b - hb ⟨rfl, hd⟩
            split
            · exact evaluates_pure hstatic
            · rename_i k _
              refine .bind hv (demandFunction_evaluates k) ?_
              rintro d' b - hb ⟨rfl, hd'⟩
              split
              · exact evaluates_pure hstatic
              · exact created_evaluates hv _
          · exact evaluates_pure hstatic

theorem entityProperty_evaluates (hv : a.Valid p) (name : String) {e : Entity} (he : a.Has e) :
    Evaluates p w (entityProperty p name e) (entityProperty p name e) (fun b t => b.Knows t) a := by
  cases e with
  | function f => exact functionProperty_evaluates hv he name
  | object o =>
    refine evaluates_get (fun c hc => ?_) ?_
    · unfold Analysis.objectProperty
      rw [hc.object? he]
      cases ho : a.object? o with
      | none => rfl
      | some e =>
        obtain ⟨d, hd⟩ := hv.objects e (List.mem_of_getElem? ho)
        simp only [Option.bind_some, hc.lookup hv.toWired hd.scope.lt, hc.typeOr]
    · exact evaluates_pure (hv.knows_typeOr (Analysis.knows_empty a) _)

theorem entityProperties_evaluates (name : String) : ∀ (es : List Entity) (a : Analysis), a.Valid p →
    (∀ e ∈ es, a.Has e) → Evaluates p w (entityProperties p name es) (entityProperties p name es)
      (fun b t => b.Knows t) a
  | [], a, _, _ => evaluates_pure (Analysis.knows_empty a)
  | e :: es, _, hv, he =>
    union_evaluates hv (entityProperty_evaluates hv name (he e (List.mem_cons_self ..))) fun b hab hb =>
      entityProperties_evaluates name es b hb fun x hx =>
        (he x (List.mem_cons_of_mem _ hx)).grows hab.grows

theorem propertyType_evaluates (hv : a.Valid p) {t : ConcreteType} (ht : a.Knows t) (name : String) :
    Evaluates p w (propertyType p t name) (propertyType p t name) (fun b u => b.Knows u) a := by
  cases t with
  | all => exact evaluates_pure (Analysis.knows_all a)
  | only s => exact entityProperties_evaluates name s.members a hv ht

theorem narrow?_evaluates (hv : a.Valid env.program) {t : ConcreteType} (ht : a.Knows t)
    (d : Option DeclaredType) :
    Evaluates env.program w (narrow? env t d) (narrow? env.plain t d) (fun b u => b.Knows u) a := by
  cases d with
  | none => exact evaluates_pure ht
  | some d => exact narrow_evaluates hv ht d

theorem knows_unions {ts : List ConcreteType} (h : ∀ t ∈ ts, a.Knows t) : a.Knows (.unions ts) := by
  suffices hfold : ∀ u : ConcreteType, a.Knows u → a.Knows (ts.foldl (· ∪ ·) u) from
    hfold ∅ (Analysis.knows_empty a)
  induction ts with
  | nil => exact fun u hu => hu
  | cons t ts ih =>
    intro u hu
    exact ih (fun v hv => h v (List.mem_cons_of_mem _ hv)) _ (hu.union (h t (List.mem_cons_self ..)))

theorem knows_returnedBy (hv : a.Valid p) (t : ConcreteType) : a.Knows (a.returnedBy t) := by
  cases t with
  | all => exact Analysis.knows_all a
  | only s =>
    refine knows_unions fun t ht => ?_
    obtain ⟨f, -, rfl⟩ := List.mem_map.1 ht
    exact hv.knows_typeOr (Analysis.knows_empty a) _

theorem knows_constructedBy (hv : a.Valid p) (t : ConcreteType) : a.Knows (a.constructedBy t) := by
  refine Analysis.knows_ofList fun e he => ?_
  obtain ⟨f, -, hf⟩ := List.mem_filterMap.1 he
  obtain ⟨k, hk, hko⟩ := Option.bind_eq_some_iff.1 hf
  obtain ⟨o, ho, rfl⟩ := Option.map_eq_some_iff.1 hko
  exact hv.entity (List.mem_of_getElem? hk) (.inl ho)

theorem returnedBy_of_calm {c : Analysis} (hv : a.Valid p) (hc : a.Calm p c) (t : ConcreteType) :
    c.returnedBy t = a.returnedBy t := by
  cases t with
  | all => rfl
  | only s =>
    unfold Analysis.returnedBy
    refine congrArg ConcreteType.unions (List.map_congr_left fun f _ => ?_)
    rw [hc.function?, hc.typeOr]
    cases he : a.function? f with
    | none => rfl
    | some e =>
      obtain ⟨d, hd⟩ := hv.functions e (List.mem_of_getElem? he)
      rw [Option.bind_some, Option.bind_some, hc.own hd.body.lt]

theorem constructedBy_of_calm {c : Analysis} (hc : a.Calm p c) (t : ConcreteType) :
    c.constructedBy t = a.constructedBy t := by
  unfold Analysis.constructedBy
  simp only [hc.function?]

mutual

/-- **Inference evaluates**: it gives a type whose members exist. -/
theorem infer_evaluates : ∀ (e : Expr) (s : ScopeId) (a : Analysis), a.Valid env.program →
    s.index < a.graph.scopes.length →
    Evaluates env.program w (infer env s e) (infer env.plain s e) (fun b t => b.Knows t) a
  | ⟨form, declared⟩, s, a, hv, hs => by
    refine .bind hv (inferForm_evaluates form s declared a hv hs) ?_
    intro t b hab hb ht
    exact narrow?_evaluates hb ht declared
termination_by structural e => e

theorem inferForm_evaluates : ∀ (form : Form) (s : ScopeId) (declared : Option DeclaredType)
    (a : Analysis), a.Valid env.program → s.index < a.graph.scopes.length →
    Evaluates env.program w (inferForm env s declared form) (inferForm env.plain s declared form)
      (fun b t => b.Knows t) a
  | .name x, s, declared, a, hv, hs => by
    refine evaluates_get (fun c hc => by rw [hc.lookup hv.toWired hs, hc.typeOr]) ?_
    exact evaluates_pure (hv.knows_typeOr (Analysis.knows_all a) _)
  | .this, s, declared, a, hv, hs => by
    refine evaluates_get (fun c hc => by rw [hc.own hs, hc.typeOr]) ?_
    exact evaluates_pure (hv.knows_typeOr (Analysis.knows_all a) _)
  | .literal, _, _, a, _, _ => evaluates_pure (Analysis.knows_empty a)
  | .function f, s, declared, a, hv, hs => by
    refine .bind hv (createFunction_evaluates hv f hs) ?_
    intro r b hab hb hr
    exact evaluates_pure (Analysis.knows_single (Analysis.has_of_findFunction hr))
  | .objectLit _, s, declared, a, hv, hs => by
    unfold inferForm
    split
    · exact created_evaluates hv _
    · exact evaluates_pure (Analysis.knows_all a)
  | .arrayLit _, s, declared, a, hv, hs => by
    have harray : env.plain.program.arrayShape = env.program.arrayShape := rfl
    unfold inferForm
    rw [harray]
    split
    · exact created_evaluates hv _
    · exact evaluates_pure (Analysis.knows_all a)
  | .prop receiver property, s, declared, a, hv, hs => by
    refine .bind hv (infer_evaluates receiver s a hv hs) ?_
    intro t b hab hb ht
    exact propertyType_evaluates hb ht property
  | .elem _ _, _, _, a, _, _ => evaluates_pure (Analysis.knows_all a)
  | .call callee _, s, declared, a, hv, hs => by
    refine .bind hv (infer_evaluates callee s a hv hs) ?_
    intro t b hab hb ht
    refine evaluates_get (fun c hc => by rw [returnedBy_of_calm hb hc]) ?_
    exact evaluates_pure (knows_returnedBy hb t)
  | .construct callee _, s, declared, a, hv, hs => by
    refine .bind hv (infer_evaluates callee s a hv hs) ?_
    intro t b hab hb ht
    cases t with
    | all => exact evaluates_throw _
    | only m =>
      refine evaluates_get (fun c hc => by rw [constructedBy_of_calm hc]) ?_
      exact evaluates_pure (knows_constructedBy hb _)
  | .assign _ value, s, _, a, hv, hs => infer_evaluates value s a hv hs
  | .comma operands, s, _, a, hv, hs => inferLast_evaluates operands s a hv hs
  | .and left right, s, _, a, hv, hs => union_evaluates hv (infer_evaluates left s a hv hs)
    fun b hab hb => infer_evaluates right s b hb (Nat.lt_of_lt_of_le hs hab.grows.scopes_le)
  | .or left right, s, _, a, hv, hs => union_evaluates hv (infer_evaluates left s a hv hs)
    fun b hab hb => infer_evaluates right s b hb (Nat.lt_of_lt_of_le hs hab.grows.scopes_le)
  | .cond _ yes no, s, _, a, hv, hs => union_evaluates hv (infer_evaluates yes s a hv hs)
    fun b hab hb => infer_evaluates no s b hb (Nat.lt_of_lt_of_le hs hab.grows.scopes_le)
  | .unknown _, _, _, a, _, _ => evaluates_pure (Analysis.knows_all a)
termination_by structural form => form

theorem inferLast_evaluates : ∀ (es : List Expr) (s : ScopeId) (a : Analysis), a.Valid env.program →
    s.index < a.graph.scopes.length →
    Evaluates env.program w (inferLast env s es) (inferLast env.plain s es) (fun b t => b.Knows t) a
  | [], _, a, _, _ => evaluates_pure (Analysis.knows_empty a)
  | [e], s, a, hv, hs => infer_evaluates e s a hv hs
  | _ :: e :: es, s, a, hv, hs => inferLast_evaluates (e :: es) s a hv hs
termination_by structural es => es

end

end AnalysisM

end TypeFlow
