import TypeFlow.Proofs.Evaluation
import TypeFlow.Proofs.Runs

/-!
# Actions

Binding and the evaluation of actions proceed by steps and give assignments whose types
are known and whose slots exist. Repeated after a calm stretch they assign the same, with
one exception: a property assignment whose receiver may be anything writes to the slots of
all objects, also of those created since (`Wide`).

* `bindCall_binds`, `bindConstruct_binds`: calls and allocations.
* `evaluate_binds`: actions other than property assignments add no properties.
* `evaluate_evaluates`: every action.
-/

namespace TypeFlow

variable {p : Program} {w : Bool} {env : Setup} {a : Analysis}

/-- The type of the assignment is known and its slot is there. -/
def Analysis.Accepts (a : Analysis) (z : Assignment) : Prop :=
  a.Knows z.type ∧ z.slot.index < a.graph.slots.length

theorem Analysis.Accepts.grows {b : Analysis} {z : Assignment} (h : a.Accepts z) (hab : a.Grows b) :
    b.Accepts z :=
  ⟨h.1.grows hab, Nat.lt_of_lt_of_le h.2 hab.slots_le⟩

theorem ScopeGraph.Sound.param_lt {g : ScopeGraph} (hg : g.Sound) {s : ScopeId} {x : SlotId}
    (hx : x ∈ g.paramsOf s) : x.index < g.slots.length := by
  unfold ScopeGraph.paramsOf at hx
  cases hc : g.scope? s with
  | none => rw [hc] at hx; cases hx
  | some c =>
    rw [hc] at hx
    obtain ⟨n, hn⟩ := (hg.fits s c hc).params x hx
    obtain ⟨k, hk, -⟩ := (hg.fits s c hc).slots n x hn
    exact ScopeGraph.slot_lt hk

namespace AnalysisM

/-- Evaluates to acceptable assignments. -/
abbrev Binds (p : Program) (w : Bool) (x y : AnalysisM (List Assignment)) (a : Analysis) : Prop :=
  Evaluates p w x y (fun b l => ∀ z ∈ l, b.Accepts z) a

theorem gather_binds {α : Type} {f g : α → AnalysisM (List Assignment)} (xs : List α)
    (hv : a.Valid p) (h : ∀ x ∈ xs, ∀ b, Steps p w a b → b.Valid p → Binds p w (f x) (g x) b) :
    Binds p w (gather f xs) (gather g xs) a :=
  gather_evaluates (fun _ _ _ hbc hz => hz.grows hbc.grows) xs a hv h

theorem accepts_append {l m : List Assignment} (hl : ∀ z ∈ l, a.Accepts z)
    (hm : ∀ z ∈ m, a.Accepts z) : ∀ z ∈ l ++ m, a.Accepts z :=
  fun z hz => (List.mem_append.1 hz).elim (hl z) (hm z)

theorem accepts_singleton {x : SlotId} {t : ConcreteType} (ht : a.Knows t)
    (hx : x.index < a.graph.slots.length) : ∀ z ∈ [(⟨x, t⟩ : Assignment)], a.Accepts z := by
  intro z hz
  rw [List.mem_singleton.1 hz]
  exact ⟨ht, hx⟩

theorem accepts_nil : ∀ z ∈ ([] : List Assignment), a.Accepts z :=
  fun _ h => absurd h List.not_mem_nil

/-! ## Callbacks -/

theorem widen?_evaluates (hv : a.Valid p) (d : Option DeclaredType) :
    Evaluates p w (widen? p d) (widen? p d) (fun b t => b.Knows t) a := by
  cases d with
  | none => exact evaluates_pure (Analysis.knows_all a)
  | some d => exact widen_evaluates d a hv

theorem callBack_binds (hv : a.Valid p) (signature : Option Signature) (f : FnRef) :
    Binds p w (callBack p signature f) (callBack p signature f) a := by
  refine evaluates_get (fun c hc => ?_) ?_
  · rw [hc.function?]
    cases he : a.function? f with
    | none => rfl
    | some e =>
      obtain ⟨d, hd⟩ := hv.functions e (List.mem_of_getElem? he)
      simp only [hc.own hd.body.lt, hc.paramsOf hd.body.lt]
  · cases he : a.function? f with
    | none => exact evaluates_pure accepts_nil
    | some e =>
      refine .bind hv (gather_binds _ hv ?_) ?_
      · rintro ⟨x, i⟩ hx b hab hb
        have hlt := hv.sound.param_lt (List.fst_mem_of_mem_zipIdx hx)
        refine .bind hb (widen?_evaluates hb _) ?_
        intro t c hbc hc ht
        exact evaluates_pure (accepts_singleton ht
          (Nat.lt_of_lt_of_le hlt (Steps.grows (hab.trans hbc)).slots_le))
      · intro bound b hab hb hbound
        cases hx : a.graph.own e.body SlotName.this with
        | none => exact evaluates_pure hbound
        | some x =>
          have hlt := hv.sound.own_lt hx
          refine .bind hb (widen?_evaluates hb _) ?_
          intro t c hbc hc ht
          exact evaluates_pure (accepts_append (fun z hz => (hbound z hz).grows hbc.grows)
            (accepts_singleton ht (Nat.lt_of_lt_of_le hlt (Steps.grows (hab.trans hbc)).slots_le)))

theorem bindCallback_binds (hv : a.Valid p) (declared : Option DeclaredType) (arg : ConcreteType) :
    Binds p w (bindCallback p declared arg) (bindCallback p declared arg) a :=
  gather_binds _ hv fun f _ _ _ hb => callBack_binds hb _ f

theorem callBackArgument_binds (hv : a.Valid p) (d : FunctionDecl) (i : Nat) (arg : ConcreteType) :
    Binds p w (callBackArgument p d i arg) (callBackArgument p d i arg) a := by
  unfold callBackArgument
  split
  · exact bindCallback_binds hv _ arg
  · exact evaluates_pure accepts_nil

/-! ## Calls -/

variable {s : ScopeId}

theorem escapeArguments_binds (hv : a.Valid env.program) (hs : s.index < a.graph.scopes.length)
    (args : List Expr) :
    Binds env.program w (escapeArguments env s args) (escapeArguments env.plain s args) a := by
  refine gather_binds _ hv fun arg _ b hab hb => ?_
  refine .bind hb (infer_evaluates arg s b hb (Nat.lt_of_lt_of_le hs hab.grows.scopes_le)) ?_
  intro t c hbc hc ht
  exact bindCallback_binds hc none t

theorem bindArgument_binds (hv : a.Valid env.program) (hs : s.index < a.graph.scopes.length)
    (d : FunctionDecl) {params : List SlotId} (hp : ∀ x ∈ params, x.index < a.graph.slots.length)
    (arg : Expr) (i : Nat) :
    Binds env.program w (bindArgument env s d params arg i) (bindArgument env.plain s d params arg i) a := by
  refine .bind hv (infer_evaluates arg s a hv hs) ?_
  intro t b hab hb ht
  refine .bind hb (callBackArgument_binds hb d i t) ?_
  intro called c hbc hc hcalled
  cases hx : params[i]? with
  | none => exact evaluates_pure hcalled
  | some x =>
    have hlt := hp x (List.mem_of_getElem? hx)
    exact evaluates_pure (accepts_append hcalled (accepts_singleton (ht.grows hbc.grows)
      (Nat.lt_of_lt_of_le hlt (Steps.grows (hab.trans hbc)).slots_le)))

theorem bindFunction_binds (hv : a.Valid env.program) (hs : s.index < a.graph.scopes.length)
    {this : ConcreteType} (ht : a.Knows this) (args : List Expr) (f : FnRef) :
    Binds env.program w (bindFunction env s this args f) (bindFunction env.plain s this args f) a := by
  refine evaluates_get (fun c hc => ?_) ?_
  · rw [hc.function?]
    cases he : a.function? f with
    | none => rfl
    | some e =>
      obtain ⟨d, hd⟩ := hv.functions e (List.mem_of_getElem? he)
      simp only [hc.own hd.body.lt, hc.paramsOf hd.body.lt]
  · cases he : a.function? f with
    | none => exact evaluates_pure accepts_nil
    | some e =>
      refine .bind hv (demandFunction_evaluates e.decl) ?_
      rintro d b - hb ⟨rfl, hd⟩
      refine .bind hv (gather_binds _ hv ?_) ?_
      · rintro ⟨arg, i⟩ _ c hbc hc
        refine bindArgument_binds hc (Nat.lt_of_lt_of_le hs hbc.grows.scopes_le) d (fun x hx => ?_) arg i
        exact Nat.lt_of_lt_of_le (hv.sound.param_lt hx) hbc.grows.slots_le
      · intro bound c hbc hc hbound
        refine evaluates_pure (accepts_append ?_ hbound)
        split
        · rename_i x hx
          split
          · exact accepts_nil
          · exact accepts_singleton (ht.grows hbc.grows)
              (Nat.lt_of_lt_of_le (hv.sound.own_lt hx) hbc.grows.slots_le)
        · exact accepts_nil

theorem bindCallees_binds (hv : a.Valid env.program) (hs : s.index < a.graph.scopes.length)
    (callees : ConcreteType) {this : ConcreteType} (ht : a.Knows this) (args : List Expr) :
    Binds env.program w (bindCallees env s callees this args) (bindCallees env.plain s callees this args)
      a := by
  cases callees with
  | all => exact escapeArguments_binds hv hs args
  | only m =>
    exact gather_binds _ hv fun f _ b hab hb =>
      bindFunction_binds hb (Nat.lt_of_lt_of_le hs hab.grows.scopes_le) (ht.grows hab.grows) args f

theorem explicitReceiver_evaluates (hv : a.Valid env.program) (hs : s.index < a.graph.scopes.length)
    (args : List Expr) :
    Evaluates env.program w (explicitReceiver env s args) (explicitReceiver env.plain s args)
      (fun b t => b.Knows t) a := by
  cases args with
  | nil => exact evaluates_pure (Analysis.knows_all a)
  | cons first rest => exact infer_evaluates first s a hv hs

theorem bindExplicitCall_binds (hv : a.Valid env.program) (hs : s.index < a.graph.scopes.length)
    {receiver : ConcreteType} (hr : a.Knows receiver) (callees : ConcreteType) (args : List Expr) :
    Binds env.program w (bindExplicitCall env s receiver callees args)
      (bindExplicitCall env.plain s receiver callees args) a := by
  refine .bind hv (explicitReceiver_evaluates hv hs args) ?_
  intro this b hab hb ht
  have hsb := Nat.lt_of_lt_of_le hs hab.grows.scopes_le
  refine .bind hb (gather_binds _ hb fun f _ c hbc hc => bindFunction_binds hc
    (Nat.lt_of_lt_of_le hsb hbc.grows.scopes_le) (ht.grows hbc.grows) args.tail f) ?_
  intro bound c hbc hc hbound
  have hac := Steps.grows (hab.trans hbc)
  refine .bind hc (bindCallees_binds hc (Nat.lt_of_lt_of_le hs hac.scopes_le) _
    ((hr.grows hac).filter _) args) ?_
  intro rest d hcd hd hrest
  exact evaluates_pure (accepts_append (fun z hz => (hbound z hz).grows hcd.grows) hrest)

theorem bindCall_binds (hv : a.Valid env.program) (hs : s.index < a.graph.scopes.length)
    (callee : Expr) (args : List Expr) :
    Binds env.program w (bindCall env s callee args) (bindCall env.plain s callee args) a := by
  unfold bindCall
  split
  · rename_i receiver property declared
    refine .bind hv (infer_evaluates receiver s a hv hs) ?_
    intro this b hab hb ht
    have hsb := Nat.lt_of_lt_of_le hs hab.grows.scopes_le
    cases this with
    | all => exact escapeArguments_binds hb hsb args
    | only m =>
      refine .bind hb (infer_evaluates _ s b hb hsb) ?_
      intro callees c hbc hc hcallees
      have hsc := Nat.lt_of_lt_of_le hsb hbc.grows.scopes_le
      split
      · exact bindExplicitCall_binds hc hsc (ht.grows hbc.grows) callees args
      · exact bindCallees_binds hc hsc callees (ht.grows hbc.grows) args
  · refine .bind hv (infer_evaluates _ s a hv hs) ?_
    intro callees b hab hb hcallees
    exact bindCallees_binds hb (Nat.lt_of_lt_of_le hs hab.grows.scopes_le) callees
      (Analysis.knows_empty b) args

/-! ## Allocations -/

theorem bindConstructor_binds (hv : a.Valid env.program) (hs : s.index < a.graph.scopes.length)
    (args : List Expr) (f : FnRef) :
    Binds env.program w (bindConstructor env s args f) (bindConstructor env.plain s args f) a := by
  refine evaluates_get (fun c hc => by rw [hc.function?]) ?_
  cases ho : (a.function? f).bind (·.object) with
  | none => exact bindFunction_binds hv hs (Analysis.knows_empty a) args f
  | some o =>
    obtain ⟨e, he, heo⟩ := Option.bind_eq_some_iff.1 ho
    have hhas := hv.entity (List.mem_of_getElem? he) (.inl heo)
    refine .bind hv (recordAllocation_evaluates hhas) ?_
    intro _ b hab hb _
    exact bindFunction_binds hb (Nat.lt_of_lt_of_le hs hab.grows.scopes_le)
      (Analysis.knows_single (hhas.grows hab.grows)) args f

theorem bindConstruct_binds (hv : a.Valid env.program) (hs : s.index < a.graph.scopes.length)
    (callee : Expr) (args : List Expr) :
    Binds env.program w (bindConstruct env s callee args) (bindConstruct env.plain s callee args) a := by
  refine .bind hv (infer_evaluates callee s a hv hs) ?_
  intro callees b hab hb hcallees
  cases callees with
  | all => exact evaluates_throw _
  | only m =>
    exact gather_binds _ hb fun f _ c hbc hc =>
      bindConstructor_binds hc (Nat.lt_of_lt_of_le hs (Steps.grows (hab.trans hbc)).scopes_le) args f

/-! ## Property assignments -/

theorem declareProperty_evaluates {s : ScopeId} {name : String}
    (owner : (∃ e ∈ a.objects, e.scope = s ∧ a.graph.lookup s name = none) ∨
      ∃ e ∈ a.functions, e.statics = s) :
    Evaluates p true (onGraph (GraphM.declare s name)) (onGraph (GraphM.declare s name))
      (fun b x => x.index < b.graph.slots.length) a := by
  cases hd : GraphM.declare s name a.graph with
  | error e g =>
    have hg : g = a.graph := by
      rw [GraphM.declare_apply] at hd
      split at hd
      · cases hd; rfl
      · cases hd
    refine ⟨?_, fun v b hx => ?_⟩
    · unfold Proceeds
      rw [onGraph_error hd, onGraph_error (a := a.forget) hd]
      exact ⟨⟨a, .refl, g, hg ▸ refl_of _ _, rfl⟩, rfl⟩
    · rw [onGraph_error hd] at hx
      cases hx
  | ok x g =>
    refine ⟨?_, fun v b hx hab => ?_⟩
    · unfold Proceeds
      rw [onGraph_ok hd, onGraph_ok (a := a.forget) hd]
      exact ⟨.single (.property rfl owner hd), GraphM.declare_lt hd, rfl⟩
    · -- there is one slot more than before
      rw [onGraph_ok hd] at hx
      cases hx
      obtain ⟨-, -, rfl⟩ := GraphM.declare_ok hd
      have hcount := hab.counted
      simp only [ScopeGraph.bindSlot, List.length_append, List.length_singleton] at hcount
      change _ = _ + a.declared p at hcount
      omega

theorem entitySlot_evaluates (hv : a.Valid p) (name : String) {e : Entity} (he : a.Has e) :
    Evaluates p true (entitySlot name e) (entitySlot name e)
      (fun b l => ∀ x ∈ l, x.index < b.graph.slots.length) a := by
  have hsingle {b : Analysis} {x : SlotId} (hx : x.index < b.graph.slots.length) :
      ∀ y ∈ [x], y.index < b.graph.slots.length := fun y hy => List.mem_singleton.1 hy ▸ hx
  have hnil {b : Analysis} : ∀ y ∈ ([] : List SlotId), y.index < b.graph.slots.length :=
    fun _ h => absurd h List.not_mem_nil
  cases e with
  | object o =>
    refine evaluates_get (fun c hc => ?_) ?_
    · rw [hc.object? he]
      cases ho : a.object? o with
      | none => rfl
      | some e =>
        obtain ⟨d, hd⟩ := hv.objects e (List.mem_of_getElem? ho)
        simp only [hc.lookup hv.toWired hd.scope.lt]
    · cases ho : a.object? o with
      | none => exact evaluates_pure hnil
      | some e =>
        have hmem := List.mem_of_getElem? ho
        dsimp only
        cases hl : a.graph.lookup e.scope name with
        | some x => exact evaluates_pure (hsingle (hv.sound.lookup_lt hl))
        | none =>
          refine .bind hv (declareProperty_evaluates (.inl ⟨e, hmem, rfl, hl⟩)) ?_
          intro x b hab hb hx
          exact evaluates_pure (hsingle hx)
  | function f =>
    unfold entitySlot
    dsimp only
    by_cases hname : name = PropertyName.prototype
    · rw [if_pos hname]
      exact evaluates_pure hnil
    · rw [if_neg hname]
      refine evaluates_get (fun c hc => ?_) ?_
      · rw [hc.function?]
        cases hf : a.function? f with
        | none => rfl
        | some e =>
          obtain ⟨d, hd⟩ := hv.functions e (List.mem_of_getElem? hf)
          simp only [hc.own hd.statics.lt]
      · cases hf : a.function? f with
        | none => exact evaluates_pure hnil
        | some e =>
          have hmem := List.mem_of_getElem? hf
          dsimp only
          cases hl : a.graph.own e.statics name with
          | some x => exact evaluates_pure (hsingle (hv.sound.own_lt hl))
          | none =>
            refine .bind hv (declareProperty_evaluates (.inr ⟨e, hmem, rfl⟩)) ?_
            intro x b hab hb hx
            exact evaluates_pure (hsingle hx)

/-- A listed receiver has the same slots again. -/
theorem propertySlots_evaluates (hv : a.Valid p) {m : EntitySet} (hm : a.Knows (.only m))
    (name : String) :
    Evaluates p true (propertySlots (.only m) name) (propertySlots (.only m) name)
      (fun b l => ∀ x ∈ l, x.index < b.graph.slots.length) a := by
  have hgather : Evaluates p true (gather (entitySlot name) m.members) (gather (entitySlot name) m.members)
      (fun b l => ∀ x ∈ l, x.index < b.graph.slots.length) a :=
    gather_evaluates (q := fun b (x : SlotId) => x.index < b.graph.slots.length)
      (fun b c x hbc hx => Nat.lt_of_lt_of_le hx hbc.grows.slots_le) m.members a hv
      fun e he b hab hb => entitySlot_evaluates hb name ((hm e he).grows hab.grows)
  refine .bind hv hgather ?_
  intro slots b hab hb hslots
  refine evaluates_pure fun x hx => hslots x ?_
  rcases mem_enqueue.1 hx with h | h
  · cases h
  · exact h

theorem lt_of_mem_allPropertySlots (hv : a.Valid p) {name : String} {x : SlotId}
    (hx : x ∈ allPropertySlots a name) : x.index < a.graph.slots.length := by
  rcases List.mem_append.1 hx with h | h
  · obtain ⟨e, -, he⟩ := List.mem_filterMap.1 h
    exact hv.sound.lookup_lt he
  · obtain ⟨e, -, he⟩ := List.mem_filterMap.1 h
    exact hv.sound.own_lt he

/-! ## Actions -/

end AnalysisM

open AnalysisM

/-- What a property assignment to anything assigns. -/
def Wide (env : Setup) (s : ScopeId) (action : Action) (a : Analysis) (z : Assignment) : Prop :=
  ∃ receiver property value, action = .assignProperty receiver property value ∧
    infer env s receiver a = .ok .all a ∧ infer env s value a = .ok z.type a ∧
    z.slot ∈ allPropertySlots a property

namespace AnalysisM

variable {s : ScopeId}

/-- Assigning a property of anything writes to all slots that exist by then. -/
theorem assignEverywhere_evaluates (hv : a.Valid env.program) {t : ConcreteType} (ht : a.Knows t)
    (name : String) :
    EvaluatesUpTo env.program true
      (fun c _ w => ∀ z ∈ w, z.type = t ∧ z.slot ∈ allPropertySlots c.forget name)
      (do let slots ← propertySlots .all name; return slots.map (⟨·, t⟩))
      (do let slots ← propertySlots .all name; return slots.map (⟨·, t⟩))
      (fun b l => ∀ z ∈ l, b.Accepts z) a := by
  have hmem {b : Analysis} {z : Assignment}
      (hz : z ∈ (enqueue [] (allPropertySlots b name)).map (⟨·, t⟩)) :
      z.type = t ∧ z.slot ∈ allPropertySlots b name := by
    obtain ⟨x, hx, rfl⟩ := List.mem_map.1 hz
    refine ⟨rfl, (mem_enqueue.1 hx).resolve_left ?_⟩
    exact List.not_mem_nil
  refine ⟨⟨.refl, fun z hz => ?_, rfl⟩, fun v b hb hab c hbc => ⟨_, rfl, fun z hz => hmem hz⟩⟩
  obtain ⟨h1, h2⟩ := hmem hz
  exact ⟨h1 ▸ ht, lt_of_mem_allPropertySlots hv h2⟩

theorem assignProperty_evaluates (hv : a.Valid env.program) (hs : s.index < a.graph.scopes.length)
    (receiver : Expr) (property : String) (value : Expr) :
    EvaluatesUpTo env.program true
      (fun c v w => ∀ z ∈ w, z ∈ v ∨
        Wide env.plain s (.assignProperty receiver property value) c.forget z)
      (evaluate env s (.assignProperty receiver property value))
      (evaluate env.plain s (.assignProperty receiver property value))
      (fun b l => ∀ z ∈ l, b.Accepts z) a := by
  refine .bind_with hv (infer_evaluates receiver s a hv hs) ?_
  intro r b hab hb hr
  refine .bind_with hb (infer_evaluates value s b hb (Nat.lt_of_lt_of_le hs hab.grows.scopes_le)) ?_
  intro t c hbc hc ht
  by_cases hempty : t = ∅
  · rw [if_pos hempty]
    refine EvaluatesUpTo.mono (evaluates_pure accepts_nil) ?_
    rintro d v w rfl _ _ z hz
    exact .inl hz
  · rw [if_neg hempty]
    cases r with
    | all =>
      refine (assignEverywhere_evaluates hc ht property).mono ?_
      intro d v w h hvalue hreceiver z hz
      obtain ⟨h1, h2⟩ := h z hz
      exact .inr ⟨receiver, property, value, rfl, hreceiver, h1 ▸ hvalue, h2⟩
    | only m =>
      have hslots := propertySlots_evaluates hc (hr.grows hbc.grows) property
      have hassign : Evaluates env.program true
          (do let slots ← propertySlots (.only m) property; return slots.map (⟨·, t⟩))
          (do let slots ← propertySlots (.only m) property; return slots.map (⟨·, t⟩))
          (fun b l => ∀ z ∈ l, b.Accepts z) c := by
        refine .bind hc hslots ?_
        intro slots d hcd hd hlt
        refine evaluates_pure fun z hz => ?_
        obtain ⟨x, hx, rfl⟩ := List.mem_map.1 hz
        exact ⟨ht.grows hcd.grows, hlt x hx⟩
      refine hassign.mono ?_
      rintro d v w rfl _ _ z hz
      exact .inl hz

/-- Actions other than property assignments add no properties, and assign the same again. -/
theorem evaluate_binds (hv : a.Valid env.program) (hs : s.index < a.graph.scopes.length)
    {action : Action} (hslot : ∀ x ∈ action.slot?, x.index < a.graph.slots.length)
    (hother : ∀ receiver property value, action ≠ .assignProperty receiver property value) :
    Binds env.program w (evaluate env s action) (evaluate env.plain s action) a := by
  -- a type that flows into the slot that the action names
  have hflow {x : SlotId} (hx : x ∈ action.slot?) {y y' : AnalysisM ConcreteType}
      (hy : Evaluates env.program w y y' (fun b t => b.Knows t) a) :
      Binds env.program w (do let t ← y; return [⟨x, t⟩]) (do let t ← y'; return [⟨x, t⟩]) a := by
    refine .bind hv hy ?_
    intro t b hab hb ht
    exact evaluates_pure (accepts_singleton ht (Nat.lt_of_lt_of_le (hslot x hx) hab.grows.slots_le))
  cases action with
  | assign x value => exact hflow rfl (infer_evaluates value s a hv hs)
  | ret x value => exact hflow rfl (infer_evaluates value s a hv hs)
  | assignProperty receiver property value => exact absurd rfl (hother receiver property value)
  | call callee args => exact bindCall_binds hv hs callee args
  | construct callee args => exact bindConstruct_binds hv hs callee args
  | allocate literal =>
    refine .bind hv (infer_evaluates literal s a hv hs) ?_
    intro t b hab hb ht
    refine .bind hb (recordAllocations_evaluates t.objects b hb fun o ho => ?_) ?_
    · obtain ⟨e, he, heo⟩ := List.mem_filterMap.1 ho
      cases e with
      | function f => cases heo
      | object q =>
        cases heo
        exact ht _ he
    · intro _ c hbc hc _
      exact evaluates_pure accepts_nil
  | declareFunction x f =>
    refine .bind hv (createFunction_evaluates hv f hs) ?_
    intro r b hab hb hr
    exact evaluates_pure (accepts_singleton (Analysis.knows_single (Analysis.has_of_findFunction hr))
      (Nat.lt_of_lt_of_le (hslot x rfl) hab.grows.slots_le))
  | declaredFlow x declared => exact hflow rfl (widen_evaluates declared a hv)

/-- **Every action evaluates**, and only a property assignment to anything may assign more
when it is repeated. -/
theorem evaluate_evaluates (hv : a.Valid env.program) (hs : s.index < a.graph.scopes.length)
    (action : Action) (hslot : ∀ x ∈ action.slot?, x.index < a.graph.slots.length) :
    EvaluatesUpTo env.program true (fun c v w => ∀ z ∈ w, z ∈ v ∨ Wide env.plain s action c.forget z)
      (evaluate env s action) (evaluate env.plain s action) (fun b l => ∀ z ∈ l, b.Accepts z) a := by
  by_cases hprop : ∃ receiver property value, action = .assignProperty receiver property value
  · obtain ⟨receiver, property, value, rfl⟩ := hprop
    exact assignProperty_evaluates hv hs receiver property value
  · have hother := evaluate_binds (w := true) hv hs hslot fun r x v h => hprop ⟨r, x, v, h⟩
    exact hother.mono fun c v w hw z hz => .inl (hw ▸ hz)

end AnalysisM

end TypeFlow
