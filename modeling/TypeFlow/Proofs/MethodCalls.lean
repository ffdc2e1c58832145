import TypeFlow.Proofs.Resolution
import TypeFlow.Proofs.Widening

/-!
# Method calls

A call `r.q(args)` binds the functions that reading `q` of the receiver gives, with the receiver as
`this`. Through `q = call`, a function in the receiver is bound with the first argument as `this`
and the others shifted. Two things may go wrong. A function that is in the receiver and is also what
an object of the receiver holds under `call` is bound in the first way only. And the receiver is
inferred a second time with the callee, when it may have become another type, because inferring it
may create a function.

* `AnalysisM.entityProperty_cases`: what is read later contains what is read now.
* `Evaluated`: a computation was evaluated on the way from one state to another.
* `Bound`: what binding a call of one function assigns.
* `Steady`, `steady_of_samePresent`: when the second inference does no harm.
* `call_binds_callees`: apart from these two cases, every callee is bound.
* `sharedCall_not_bound`, `laterReceiver_not_bound`: the two cases.
-/

namespace TypeFlow

variable {p : Program} {env : Setup} {s : ScopeId} {a b c d : Analysis} {α : Type}

/-! ## Reading a property now and later -/

namespace Analysis

variable {n : String} {x y : Option SlotId}

theorem typeOr_subset (hab : a.Grows b) (hxy : ∀ z, x = some z → y = some z) :
    a.typeOr ∅ x ⊆ b.typeOr ∅ y := by
  cases x with
  | none => exact ConcreteType.empty_subset _
  | some z =>
    rw [hxy z rfl]
    exact hab.graph.typeOf_subset z

/-- What an object holds under a name it goes on holding. -/
theorem objectProperty_subset (hv : a.Valid p) (hab : Evolves p a b) {o : ObjRef} (ho : a.Has (.object o)) :
    a.objectProperty o n ⊆ b.objectProperty o n := by
  refine typeOr_subset hab.grows fun z hz => ?_
  obtain ⟨e, he, hfound⟩ := Option.bind_eq_some_iff.1 hz
  have he' : b.object? o = some e := (getElem?_of_isPrefix hab.grows.objects ho).trans he
  exact Option.bind_eq_some_iff.2 ⟨e, he', hab.resolves hv _ _ _ hfound⟩

end Analysis

namespace AnalysisM

variable {n : String} {m : Entity} {t : ConcreteType}

/-- Where `f` has the entry `e`, reading its property gives what its own scope holds. -/
def ReadsOwn (p : Program) (f : FnRef) (n : String) (e : FunctionEntry) : Prop :=
  ∀ c, c.function? f = some e → functionProperty p f n c = .ok (c.typeOr ∅ (c.graph.own e.statics n)) c

/-- Reading a property of a function gives an object, or the function itself, or what its own scope
holds. -/
theorem functionProperty_cases {f : FnRef} {e : FunctionEntry} (he : a.function? f = some e)
    (h : functionProperty p f n a = .ok t b) : (∃ o, t = .object o) ∨ n = PropertyName.call ∧ t = .function f ∨
      ReadsOwn p f n e := by
  unfold functionProperty at h
  rw [get_bind_apply, he] at h
  dsimp only at h
  -- without a prototype object, the prototype is read like any other property
  by_cases hprototype : n = PropertyName.prototype
  · rw [if_pos hprototype] at h
    cases h
    cases hobject : e.prototype with
    | some o => exact .inl ⟨o, rfl⟩
    | none =>
      refine .inr (.inr fun c hc => ?_)
      unfold functionProperty
      rw [get_bind_apply, hc]
      dsimp only
      rw [if_pos hprototype, hobject]
      rfl
  rw [if_neg hprototype] at h
  by_cases hcall : n = PropertyName.call
  · rw [if_pos hcall] at h
    cases h
    exact .inr (.inl ⟨hcall, rfl⟩)
  rw [if_neg hcall] at h
  -- the superclass gives an object only if its declaration names the shape of a prototype
  by_cases hsuper : n = PropertyName.superclass
  · rw [if_pos hsuper] at h
    obtain ⟨decl, a', hdemand, hrest⟩ := bind_ok h
    obtain ⟨rfl, hdecl⟩ := demandFunction_ok hdemand
    cases hk : decl.superclass with
    | none =>
      refine .inr (.inr fun c hc => ?_)
      unfold functionProperty
      rw [get_bind_apply, hc]
      dsimp only
      rw [if_neg hprototype, if_neg hcall, if_pos hsuper, demandFunction_eq hdecl, pure_bind, hk]
      rfl
    | some k =>
      rw [hk] at hrest
      obtain ⟨decl', a', hdemand', hrest⟩ := bind_ok hrest
      obtain ⟨rfl, hdecl'⟩ := demandFunction_ok hdemand'
      cases hshape : decl'.prototypeShape with
      | none =>
        refine .inr (.inr fun c hc => ?_)
        unfold functionProperty
        rw [get_bind_apply, hc]
        dsimp only
        rw [if_neg hprototype, if_neg hcall, if_pos hsuper, demandFunction_eq hdecl, pure_bind, hk]
        dsimp only
        rw [demandFunction_eq hdecl', pure_bind, hshape]
        rfl
      | some shape =>
        rw [hshape] at hrest
        obtain ⟨o, a'', -, hrest⟩ := bind_ok hrest
        cases hrest
        exact .inl ⟨o, rfl⟩
  · rw [if_neg hsuper] at h
    cases h
    refine .inr (.inr fun c hc => ?_)
    unfold functionProperty
    rw [get_bind_apply, hc]
    dsimp only
    rw [if_neg hprototype, if_neg hcall, if_neg hsuper]
    rfl

/-- **What is read later contains what is read now**, and that is known already, unless an object is
given, which reading may have created. -/
theorem entityProperty_cases (hv : a.Valid p) (hm : a.Has m) (h : entityProperty p n m a = .ok t b) :
    (∃ o, t = .object o) ∨ a.Knows t ∧
      ∀ c, Evolves p a c → ∀ u d, entityProperty p n m c = .ok u d → t ⊆ u := by
  cases m with
  | object o =>
    cases h
    refine .inr ⟨hv.knows_typeOr (Analysis.knows_empty a) _, fun c hac u d hc => ?_⟩
    cases hc
    exact Analysis.objectProperty_subset hv hac hm
  | function f =>
    obtain ⟨e, he⟩ : ∃ e, a.function? f = some e := ⟨_, List.getElem?_eq_getElem hm⟩
    have hentry : ∀ c, Evolves p a c → c.function? f = some e := fun c hac =>
      (Analysis.getElem?_of_isPrefix hac.grows.functions hm).trans he
    rcases functionProperty_cases he h with hobject | ⟨rfl, rfl⟩ | hown
    · exact .inl hobject
    · refine .inr ⟨Analysis.knows_single hm, fun c hac u d hc => ?_⟩
      change functionProperty p f _ c = _ at hc
      unfold functionProperty at hc
      rw [get_bind_apply, hentry c hac] at hc
      cases hc
      exact ConcreteType.subset_refl _
    · change functionProperty p f n a = _ at h
      rw [hown a he] at h
      cases h
      refine .inr ⟨hv.knows_typeOr (Analysis.knows_empty _) _, fun c hac u d hc => ?_⟩
      change functionProperty p f n c = _ at hc
      rw [hown c (hentry c hac)] at hc
      cases hc
      exact Analysis.typeOr_subset hac.grows fun z hz => hac.grows.graph.own hz

/-- Each of several entities was read on the way, and what that gave is in the result. -/
theorem mem_entityProperties : ∀ {es : List Entity} {a : Analysis} {t : ConcreteType}, a.Valid p →
    (∀ e ∈ es, a.Has e) → entityProperties p n es a = .ok t b → m ∈ es →
    ∃ c u d, Steps p true a c ∧ entityProperty p n m c = .ok u d ∧ u ⊆ t
  | [], _, _, _, _, _, hm => absurd hm List.not_mem_nil
  | e :: es, a, _, hv, hes, h, hm => by
    obtain ⟨t, c, hc, hrest⟩ := bind_ok h
    obtain ⟨u, d, hd, hrest⟩ := bind_ok hrest
    cases hrest
    obtain ⟨he, hes⟩ := List.forall_mem_cons.1 hes
    obtain ⟨hac, -, -⟩ := (entityProperty_evaluates (w := true) hv n he).proceeds.of_ok hc
    rcases List.mem_cons.1 hm with rfl | hm
    · exact ⟨a, t, c, .refl, hc, ConcreteType.subset_union_left t u⟩
    · obtain ⟨c', u', d', hc', hread, hu'⟩ :=
        mem_entityProperties (hac.valid hv) (fun e he => (hes e he).grows hac.grows) hd hm
      exact ⟨c', u', d', hac.trans hc', hread,
        ConcreteType.subset_trans hu' (ConcreteType.subset_union_right t u)⟩

/-- **A function that reading a property of one entity gives is also given later**, if a type with
that entity is read and does not give everything. -/
theorem propertyType_keeps {r u : ConcreteType} {g : FnRef} (hv : a.Valid p) (hm : a.Has m)
    (h : propertyType p (.single m) n a = .ok t b) (hg : g ∈ t.functions) (hac : Evolves p a c)
    (hr : c.Knows r) (hmr : m ∈ r) (hc : propertyType p r n c = .ok u d) (hu : u ≠ .all) :
    a.Has (.function g) ∧ g ∈ u.functions := by
  -- reading the one entity in `a`
  obtain ⟨t', b', ht, hrest⟩ := bind_ok (show (entityProperty p n m >>= _) a = .ok t b from h)
  cases hrest
  have hmember : .function g ∈ t'.members := by
    have hmem := ConcreteType.mem_functions.1 hg
    cases t' with
    | all => cases hmem
    | only l =>
      rcases EntitySet.mem_union.1 hmem with hl | hl
      · exact hl
      · exact absurd hl (EntitySet.not_mem_empty _)
  -- reading it again, among the members of the type
  cases r with
  | all =>
    cases hc
    exact absurd rfl hu
  | only l =>
    obtain ⟨c', u', d', hcc', hread, hu'⟩ := mem_entityProperties (hac.valid hv) hr hc hmr
    have hac' : Evolves p a c' := hac.trans hcc'.changes.evolves
    rcases entityProperty_cases hv hm ht with ⟨o, rfl⟩ | ⟨hknown, hlater⟩
    · cases ConcreteType.mem_single.1 hmember
    · have hsubset := ConcreteType.subset_trans (hlater c' hac' u' d' hread) hu'
      refine ⟨hknown _ hmember, ConcreteType.mem_functions.2 ?_⟩
      rcases ConcreteType.subset_iff.1 hsubset with hall | ⟨-, hmem⟩
      · exact absurd hall hu
      · cases u with
        | all => exact absurd rfl hu
        | only l => exact hmem _ hmember

end AnalysisM

/-! ## What was evaluated on the way -/

/-- On the way from `a` to `b`, the computation was evaluated and gave `v`. -/
def Evaluated (p : Program) (x : AnalysisM α) (a : Analysis) (v : α) (b : Analysis) : Prop :=
  ∃ c d, Steps p true a c ∧ x c = .ok v d ∧ Steps p true d b

theorem Evaluated.extend {x : AnalysisM α} {v : α} (h : Evaluated p x b v c) (hab : Steps p true a b)
    (hcd : Steps p true c d) : Evaluated p x a v d := by
  obtain ⟨b', c', hb, hx, hc⟩ := h
  exact ⟨b', c', hab.trans hb, hx, hc.trans hcd⟩

theorem ScopeGraph.Grows.param {g h : ScopeGraph} (hgh : g.Grows h) {t : ScopeId} {i : Nat} {x : SlotId}
    (hx : (g.paramsOf t)[i]? = some x) : (h.paramsOf t)[i]? = some x := by
  unfold paramsOf at hx ⊢
  cases hc : g.scope? t with
  | none => rw [hc] at hx; cases hx
  | some k =>
    obtain ⟨k', hk', hkk'⟩ := hgh.scopes t.index k hc
    have hk' : h.scope? t = some k' := hk'
    rw [hc] at hx
    rw [hk']
    change k.params[i]? = some x at hx
    change k'.params[i]? = some x
    rw [Analysis.getElem?_of_isPrefix hkk'.params (List.getElem?_eq_some_iff.1 hx).1, hx]

/-- **A call of `f` is bound** in the state `a`: the slot for its receiver is assigned `this`, unless
that is empty, and the slot of each parameter is assigned the type that is inferred for the
argument in its place on the way to `b`. -/
def Bound (env : Setup) (s : ScopeId) (a b : Analysis) (zs : List Assignment) (f : FnRef)
    (this : ConcreteType) (args : List Expr) : Prop :=
  ∃ e x, a.function? f = some e ∧ a.graph.own e.body SlotName.this = some x ∧
    (this = ∅ ∨ ⟨x, this⟩ ∈ zs) ∧
    ∀ (i : Nat) (arg : Expr) (y : SlotId), args[i]? = some arg → (a.graph.paramsOf e.body)[i]? = some y →
      ∃ t, Evaluated env.program (AnalysisM.infer env s arg) a t b ∧ ⟨y, t⟩ ∈ zs

namespace AnalysisM

variable {zs : List Assignment} {this : ConcreteType} {args : List Expr} {f : FnRef}

/-- Each item was evaluated on the way, and what it assigns is in the result. -/
theorem mem_gather {x y : α → AnalysisM (List Assignment)} {i : α} : ∀ {is : List α} {a : Analysis}
    {zs : List Assignment}, a.Valid p →
    (∀ j ∈ is, ∀ c, Steps p true a c → c.Valid p → Binds p true (x j) (y j) c) →
    gather x is a = .ok zs b → i ∈ is → ∃ l, Evaluated p (x i) a l b ∧ l ⊆ zs
  | [], _, _, _, _, _, hi => absurd hi List.not_mem_nil
  | j :: js, a, _, hv, hbinds, h, hi => by
    obtain ⟨here, c, hc, hrest⟩ := bind_ok h
    obtain ⟨rest, d, hd, hrest⟩ := bind_ok hrest
    cases hrest
    have hac := ((hbinds j (List.mem_cons_self ..) a .refl hv).proceeds.of_ok hc).1
    have hlater : ∀ k ∈ js, ∀ e, Steps p true c e → e.Valid p → Binds p true (x k) (y k) e :=
      fun k hk e hce => hbinds k (List.mem_cons_of_mem _ hk) e (hac.trans hce)
    rcases List.mem_cons.1 hi with rfl | hi
    · have hcd := ((gather_binds js (hac.valid hv) hlater).proceeds.of_ok hd).1
      exact ⟨here, ⟨a, c, .refl, hc, hcd⟩, List.subset_append_left here rest⟩
    · obtain ⟨l, hl, hsubset⟩ := mem_gather (hac.valid hv) hlater hd hi
      exact ⟨l, hl.extend hac .refl, List.Subset.trans hsubset (List.subset_append_right here rest)⟩

theorem bindArgument_ok {decl : FunctionDecl} {params : List SlotId} {arg : Expr} {i : Nat} {x : SlotId}
    (hv : a.Valid env.program) (hs : s.index < a.graph.scopes.length)
    (h : bindArgument env s decl params arg i a = .ok zs b) (hx : params[i]? = some x) :
    ∃ t, Evaluated env.program (infer env s arg) a t b ∧ ⟨x, t⟩ ∈ zs := by
  obtain ⟨t, c, hc, hrest⟩ := bind_ok h
  obtain ⟨calledBack, d, hd, hrest⟩ := bind_ok hrest
  rw [hx] at hrest
  cases hrest
  obtain ⟨hac, -, -⟩ := (infer_evaluates (w := true) arg s a hv hs).proceeds.of_ok hc
  obtain ⟨hcd, -, -⟩ := (callBackArgument_binds (w := true) (hac.valid hv) decl i t).proceeds.of_ok hd
  exact ⟨t, ⟨a, c, .refl, hc, hcd⟩, List.mem_append_right _ (List.mem_singleton_self _)⟩

/-- **Binding a function binds it**, as seen from any state before in which it exists. -/
theorem bound_of_bindFunction (h : Occurs env a) (hs : s.index < a.graph.scopes.length)
    (hf : a.Has (.function f)) {l : List Assignment}
    (hbind : Evaluated env.program (bindFunction env s this args f) a l b) (hl : l ⊆ zs) :
    Bound env s a b zs f this args := by
  obtain ⟨c, d, hac, hc, hdb⟩ := hbind
  obtain ⟨e, he⟩ : ∃ e, a.function? f = some e := ⟨_, List.getElem?_eq_getElem hf⟩
  obtain ⟨x, hx⟩ := h.furnished e (List.mem_of_getElem? he) SlotName.this (by simp [SlotName.reserved])
  have hvc := hac.valid h.valid
  have hsc := Nat.lt_of_lt_of_le hs hac.grows.scopes_le
  -- where the function is bound, its entry and its slots are those of `a`
  have he' : c.function? f = some e := (Analysis.getElem?_of_isPrefix hac.grows.functions hf).trans he
  have hx' : c.graph.own e.body SlotName.this = some x := hac.grows.graph.own hx
  unfold bindFunction at hc
  rw [get_bind_apply, he'] at hc
  obtain ⟨decl, c', hdemand, hrest⟩ := bind_ok hc
  obtain ⟨rfl, -⟩ := demandFunction_ok hdemand
  obtain ⟨bound, d', hbound, hrest⟩ := bind_ok hrest
  rw [hx'] at hrest
  cases hrest
  refine ⟨e, x, he, hx, ?_, fun i arg y harg hy => ?_⟩
  · by_cases hthis : this = ∅
    · exact .inl hthis
    · refine .inr (hl (List.mem_append_left _ ?_))
      dsimp only
      rw [if_neg hthis]
      exact List.mem_singleton_self _
  · have hbinds : ∀ j ∈ args.zipIdx, ∀ q, Steps env.program true c' q → q.Valid env.program →
        Binds env.program true (bindArgument env s decl (c'.graph.paramsOf e.body) j.1 j.2)
          (bindArgument env.plain s decl (c'.graph.paramsOf e.body) j.1 j.2) q := by
      intro j _ q hcq hq
      refine bindArgument_binds hq (Nat.lt_of_lt_of_le hsc hcq.grows.scopes_le) decl (fun z hz => ?_) j.1 j.2
      exact Nat.lt_of_lt_of_le (hvc.sound.param_lt hz) hcq.grows.slots_le
    obtain ⟨m, ⟨q, q', hcq, hq, hqd⟩, hm⟩ :=
      mem_gather hvc hbinds hbound (List.mk_mem_zipIdx_iff_getElem?.2 harg)
    obtain ⟨t, ht, hmem⟩ := bindArgument_ok (hcq.valid hvc)
      (Nat.lt_of_lt_of_le hsc hcq.grows.scopes_le) hq (hac.grows.graph.param hy)
    exact ⟨t, ht.extend (hac.trans hcq) (hqd.trans hdb), hl (List.mem_append_right _ (hm hmem))⟩

/-- Every function that the callee may be was bound. -/
theorem mem_bindCallees {callees : ConcreteType} (hv : a.Valid env.program)
    (hs : s.index < a.graph.scopes.length) (hthis : a.Knows this) (hcallees : callees ≠ .all)
    (h : bindCallees env s callees this args a = .ok zs b) (hf : f ∈ callees.functions) :
    ∃ l, Evaluated env.program (bindFunction env s this args f) a l b ∧ l ⊆ zs := by
  cases callees with
  | all => exact absurd rfl hcallees
  | only m =>
    refine mem_gather (y := bindFunction env.plain s this args) hv (fun g _ c hac hc => ?_) h hf
    exact bindFunction_binds hc (Nat.lt_of_lt_of_le hs hac.grows.scopes_le) (hthis.grows hac.grows) args g

theorem infer_prop {r : Expr} {n : String} {t u : ConcreteType} (hr : infer env s r a = .ok t b)
    (hread : propertyType env.program t n b = .ok u c) : infer env s ⟨.prop r n, none⟩ a = .ok u c := by
  rw [infer, inferForm, bind_apply, bind_apply, hr]
  dsimp only
  rw [hread]
  rfl

/-- A call through the property `call` binds the functions of the receiver with the first argument, and
any other callee with the objects of the receiver. -/
theorem bindExplicitCall_ok {receiver callees : ConcreteType} (hv : a.Valid env.program)
    (hs : s.index < a.graph.scopes.length) (hr : a.Knows receiver)
    (h : bindExplicitCall env s receiver callees args a = .ok zs b) :
    ∃ this, Evaluated env.program (explicitReceiver env s args) a this b ∧
      (∀ f ∈ receiver.functions,
        ∃ l, Evaluated env.program (bindFunction env s this args.tail f) a l b ∧ l ⊆ zs) ∧
      (callees ≠ .all → ∀ f ∈ callees.functions, f ∉ receiver.functions → ∃ l, Evaluated env.program
        (bindFunction env s (receiver.filter fun m => m.object?.isSome) args f) a l b ∧ l ⊆ zs) := by
  obtain ⟨this, c, hc, hrest⟩ := bind_ok h
  obtain ⟨bound, d, hd, hrest⟩ := bind_ok hrest
  obtain ⟨rest, b', hb, hrest⟩ := bind_ok hrest
  cases hrest
  obtain ⟨hac, hthis, -⟩ := (explicitReceiver_evaluates (w := true) hv hs args).proceeds.of_ok hc
  have hvc := hac.valid hv
  have hsc := Nat.lt_of_lt_of_le hs hac.grows.scopes_le
  have hbinds : ∀ f ∈ receiver.functions, ∀ q, Steps env.program true c q → q.Valid env.program →
      Binds env.program true (bindFunction env s this args.tail f)
        (bindFunction env.plain s this args.tail f) q := fun f _ q hcq hq =>
    bindFunction_binds hq (Nat.lt_of_lt_of_le hsc hcq.grows.scopes_le) (hthis.grows hcq.grows) args.tail f
  obtain ⟨hcd, -, -⟩ := (gather_binds _ hvc hbinds).proceeds.of_ok hd
  have hsd := Nat.lt_of_lt_of_le hsc hcd.grows.scopes_le
  have hobjects : d.Knows (receiver.filter fun m => m.object?.isSome) :=
    ((hr.grows hac.grows).grows hcd.grows).filter _
  obtain ⟨hdb, -, -⟩ := (bindCallees_binds (w := true) (hcd.valid hvc) hsd _ hobjects args).proceeds.of_ok hb
  refine ⟨this, ⟨a, c, .refl, hc, hcd.trans hdb⟩, fun f hf => ?_, fun hcallees f hf hnot => ?_⟩
  · obtain ⟨l, hl, hsubset⟩ := mem_gather hvc hbinds hd hf
    exact ⟨l, hl.extend hac hdb, List.Subset.trans hsubset (List.subset_append_left bound rest)⟩
  · -- a callee that the receiver does not have as a function is among the methods
    cases callees with
    | all => exact absurd rfl hcallees
    | only m =>
      have hmethod : f ∈ ((ConcreteType.only m).filter fun e =>
          e.function?.all fun g => decide (g ∉ receiver.functions)).functions := by
        refine ConcreteType.mem_functions.2 (EntitySet.mem_filter.2 ⟨ConcreteType.mem_functions.1 hf, ?_⟩)
        exact decide_eq_true hnot
      have hlisted : (ConcreteType.only m).filter (fun e =>
          e.function?.all fun g => decide (g ∉ receiver.functions)) ≠ .all := nofun
      obtain ⟨l, hl, hsubset⟩ := mem_bindCallees (hcd.valid hvc) hsd hobjects hlisted hb hmethod
      exact ⟨l, hl.extend (hac.trans hcd) .refl,
        List.Subset.trans hsubset (List.subset_append_right bound rest)⟩

end AnalysisM

/-! ## The receiver, inferred twice -/

variable {R C : ConcreteType} {r : Expr} {q : String} {args : List Expr} {zs : List Assignment}
  {z : Analysis}

/-- **The receiver is steady**: inferred once more with the callee `r.q`, it still has its members `R`,
and reading `q` then does not give everything. -/
def Steady (env : Setup) (s : ScopeId) (r : Expr) (q : String) (R : ConcreteType) (b : Analysis) : Prop :=
  ∃ R' b' C c, AnalysisM.infer env s r b = .ok R' b' ∧ R ⊆ R' ∧
    AnalysisM.propertyType env.program R' q b' = .ok C c ∧ C ≠ .all

/-- **A receiver whose inference makes nothing present is steady**, if reading the property does not give
everything. -/
theorem steady_of_samePresent (h : Occurs env a) (hs : s.index < a.graph.scopes.length)
    (hr : AnalysisM.infer env s r a = .ok R b) (hsame : a.SamePresent b)
    (hread : AnalysisM.propertyType env.program R q b = .ok C c) (hC : C ≠ .all) :
    Steady env s r q R b := by
  have hinfer := AnalysisM.infer_evaluates (w := false) r s a h.valid hs
  obtain ⟨hab, hknown, -⟩ := hinfer.proceeds.of_ok hr
  have hvb := (h.steps hab).valid
  have hsb := Nat.lt_of_lt_of_le hs hab.grows.scopes_le
  have hcalm : a.Calm env.program b := hab.calm_of_not_assigned hsame.lengths.1 hsame.lengths.2
  -- after a calm stretch, the receiver is inferred to be the same
  obtain ⟨_, hrepeat, rfl⟩ := hinfer.repeats R b hr hcalm b (Analysis.Calm.refl b)
  have hinfer' := (AnalysisM.infer_evaluates (w := false) r s b hvb hsb).proceeds
  obtain ⟨b', hagain, hforget⟩ := hinfer'.returns hrepeat
  obtain ⟨hbb', hknown', -⟩ := hinfer'.of_ok hagain
  obtain ⟨-, -, hplain⟩ :=
    (AnalysisM.propertyType_evaluates (w := false) hvb hknown q).proceeds.of_ok hread
  rw [← hforget] at hplain
  obtain ⟨c', hread', -⟩ :=
    (AnalysisM.propertyType_evaluates (w := false) (hbb'.valid hvb) hknown' q).proceeds.returns hplain
  exact ⟨_, b', C, c', hagain, ConcreteType.subset_refl _, hread', hC⟩

/-! ## Method calls -/

/-- The second inference of a steady receiver finds what its members give. -/
theorem Steady.callees (h : Occurs env b) (hs : s.index < b.graph.scopes.length) (hknown : b.Knows R)
    (hR : R ≠ .all) (hsteady : Steady env s r q R b)
    (hcallee : AnalysisM.infer env s ⟨.prop r q, none⟩ b = .ok C c) :
    C ≠ .all ∧ ∀ m ∈ R, ∀ u v, AnalysisM.propertyType env.program (.single m) q b = .ok u v →
      ∀ g ∈ u.functions, b.Has (.function g) ∧ g ∈ C.functions := by
  obtain ⟨R', b', C', c', hagain, hkeeps, hread, hC⟩ := hsteady
  rw [AnalysisM.infer_prop hagain hread] at hcallee
  cases hcallee
  refine ⟨hC, fun m hm u v hu g hg => ?_⟩
  obtain ⟨hbb', hknown', -⟩ := (AnalysisM.infer_evaluates (w := true) r s b h.valid hs).proceeds.of_ok hagain
  cases R with
  | all => exact absurd rfl hR
  | only l =>
    have hm' : m ∈ R' := by
      rcases ConcreteType.subset_iff.1 hkeeps with rfl | ⟨-, hmem⟩
      · trivial
      · exact hmem m hm
    exact AnalysisM.propertyType_keeps h.valid (hknown m hm) hu hg hbb'.changes.evolves hknown' hm' hread hC

/-- **A method call binds every callee.** If the receiver is steady, every function that reading `q` of
one of its members gives is bound with that member as a receiver. Through `q = call`, every function
of the receiver is bound with the first argument as its receiver, and with anything if there is
none; a function that an object holds under `call` is then bound as a method only if it is not
itself in the receiver. -/
theorem call_binds_callees (h : Occurs env a) (hs : s.index < a.graph.scopes.length)
    (hr : AnalysisM.infer env s r a = .ok R b) (hR : R ≠ .all)
    (hz : AnalysisM.evaluate env s (.call ⟨.prop r q, none⟩ args) a = .ok zs z) :
    (Steady env s r q R b → ∀ m ∈ R, ∀ u v,
      AnalysisM.propertyType env.program (.single m) q b = .ok u v → ∀ g ∈ u.functions,
      (q = PropertyName.call → m.function? = none ∧ .function g ∉ R) →
      ∃ this, m ∈ this ∧ Bound env s b z zs g this args) ∧
    (q = PropertyName.call → ∀ f ∈ R.functions,
      (∀ first rest, args = first :: rest → ∃ this,
        Evaluated env.program (AnalysisM.infer env s first) b this z ∧ Bound env s b z zs f this rest) ∧
      (args = [] → Bound env s b z zs f .all [])) := by
  obtain ⟨hab, hknown, -⟩ := (AnalysisM.infer_evaluates (w := true) r s a h.valid hs).proceeds.of_ok hr
  have hb := h.steps hab
  have hsb := Nat.lt_of_lt_of_le hs hab.grows.scopes_le
  change AnalysisM.bindCall env s ⟨.prop r q, none⟩ args a = _ at hz
  obtain ⟨R₁, b₁, hr₁, hrest⟩ := bind_ok hz
  rw [hr] at hr₁
  cases hr₁
  cases R with
  | all => exact absurd rfl hR
  | only l =>
    -- the callee comes after the receiver, and contains it once more
    obtain ⟨C, c, hcallee, hrest⟩ := bind_ok hrest
    obtain ⟨hbc, -, -⟩ := (AnalysisM.infer_evaluates (w := true) _ s b hb.valid hsb).proceeds.of_ok hcallee
    have hvc := hbc.valid hb.valid
    have hsc := Nat.lt_of_lt_of_le hsb hbc.grows.scopes_le
    have hRc := hknown.grows hbc.grows
    by_cases hq : q = PropertyName.call
    · rw [if_pos hq] at hrest
      obtain ⟨this, hthis, hdirect, hmethods⟩ := AnalysisM.bindExplicitCall_ok hvc hsc hRc hrest
      have hbound : ∀ f ∈ (ConcreteType.only l).functions, Bound env s b z zs f this args.tail := by
        intro f hf
        obtain ⟨zs', hbound, hsubset⟩ := hdirect f hf
        have hhas := hknown _ (ConcreteType.mem_functions.1 hf)
        exact AnalysisM.bound_of_bindFunction hb hsb hhas (hbound.extend hbc .refl) hsubset
      refine ⟨fun hsteady m hm u v hu g hg hexcept => ?_, fun _ f hf => ⟨?_, ?_⟩⟩
      · obtain ⟨hC, hcallees⟩ := hsteady.callees hb hsb hknown hR hcallee
        obtain ⟨hobject, hnot⟩ := hexcept hq
        obtain ⟨hhas, hgC⟩ := hcallees m hm u v hu g hg
        obtain ⟨zs', hbound, hsubset⟩ := hmethods hC g hgC fun hin => hnot (ConcreteType.mem_functions.1 hin)
        refine ⟨_, ?_, AnalysisM.bound_of_bindFunction hb hsb hhas (hbound.extend hbc .refl) hsubset⟩
        refine EntitySet.mem_filter.2 ⟨hm, ?_⟩
        cases m with
        | object o => rfl
        | function f => cases hobject
      · rintro first rest rfl
        exact ⟨this, hthis.extend hbc .refl, hbound f hf⟩
      · rintro rfl
        obtain ⟨e, e', -, hpure, -⟩ := hthis
        cases hpure
        exact hbound f hf
    · rw [if_neg hq] at hrest
      refine ⟨fun hsteady m hm u v hu g hg _ => ?_, fun hcall => absurd hcall hq⟩
      obtain ⟨hC, hcallees⟩ := hsteady.callees hb hsb hknown hR hcallee
      obtain ⟨hhas, hgC⟩ := hcallees m hm u v hu g hg
      obtain ⟨zs', hbound, hsubset⟩ := AnalysisM.mem_bindCallees hvc hsc hRc hC hrest hgC
      exact ⟨.only l, hm, AnalysisM.bound_of_bindFunction hb hsb hhas (hbound.extend hbc .refl) hsubset⟩

/-- `v` is the function `x`, or an object that holds `g` under `call`; `v.call(k)` is called. -/
def sharedCall (x : String) : Setup where
  program := {
    shapes := [{ name := "S", kind := .constructed, properties := ["call"] }]
    functions := [
      { name := "g", params := ["p"], body := some [] },
      { name := "k", body := some [] },
      { name := "F", body := some [], objectShape := some ⟨0⟩ }]
    body := [.function ⟨0⟩, .function ⟨1⟩, .function ⟨2⟩,
      .var "v" (some ⟨.name x, none⟩) none,
      .expr ⟨.assign ⟨.name "v", none⟩ ⟨.construct ⟨.name "F", none⟩ [], none⟩, none⟩,
      .expr ⟨.assign ⟨.prop ⟨.construct ⟨.name "F", none⟩ [], none⟩ "call", none⟩ ⟨.name "g", none⟩, none⟩,
      .expr ⟨.call ⟨.prop ⟨.name "v", none⟩ "call", none⟩ [⟨.name "k", none⟩], none⟩] }

/-- The state after processing it. -/
def sharedCall.final (x : String) : Analysis :=
  (Operation.process [] (sharedCall x).program.body).after (sharedCall x) .fresh

theorem sharedCall.final_reachable (x : String) : Reachable (sharedCall x) (final x) :=
  .after (.process _ _) .fresh trivial

theorem AnalysisM.infer_name (env : Setup) (s : ScopeId) (x : String) (a : Analysis) :
    infer env s ⟨.name x, none⟩ a = .ok (a.typeOr .all (a.graph.lookup s x)) a := rfl

/-- Where `v` is `k` or the object, the object is the receiver of `g`, and `k` gets the argument as its
receiver. -/
theorem sharedCall_binds : ∃ zs z,
    AnalysisM.evaluate (sharedCall "k") .global
      (.call ⟨.prop ⟨.name "v", none⟩ "call", none⟩ [⟨.name "k", none⟩]) (sharedCall.final "k") = .ok zs z ∧
    (∃ this, .object ⟨0⟩ ∈ this ∧
      Bound (sharedCall "k") .global (sharedCall.final "k") z zs ⟨0⟩ this [⟨.name "k", none⟩]) ∧
    ∃ this, Evaluated (sharedCall "k").program
        (AnalysisM.infer (sharedCall "k") .global ⟨.name "k", none⟩) (sharedCall.final "k") this z ∧
      Bound (sharedCall "k") .global (sharedCall.final "k") z zs ⟨1⟩ this [] := by
  have hv : (sharedCall.final "k").typeOr .all ((sharedCall.final "k").graph.lookup .global "v") =
      .ofList [.function ⟨1⟩, .object ⟨0⟩] := by
    decide +kernel
  have hr := AnalysisM.infer_name (sharedCall "k") .global "v" (sharedCall.final "k")
  rw [hv] at hr
  have hreads : checks (AnalysisM.propertyType (sharedCall "k").program (.ofList [.function ⟨1⟩, .object ⟨0⟩]) "call")
      (sharedCall.final "k") (fun C _ => decide (C ≠ .all)) = true := by
    decide +kernel
  have hholds : checks (AnalysisM.propertyType (sharedCall "k").program (.object ⟨0⟩) "call")
      (sharedCall.final "k") (fun u _ => decide (⟨0⟩ ∈ u.functions)) = true := by
    decide +kernel
  obtain ⟨C, c, hread, hC⟩ := exists_ok hreads
  obtain ⟨u, v, hu, hg⟩ := exists_ok hholds
  have hcalls : checks (AnalysisM.evaluate (sharedCall "k") .global
      (.call ⟨.prop ⟨.name "v", none⟩ "call", none⟩ [⟨.name "k", none⟩])) (sharedCall.final "k")
      (fun _ _ => true) = true := by
    decide +kernel
  obtain ⟨zs, z, hz, -⟩ := exists_ok hcalls
  have hreach := sharedCall.final_reachable "k"
  have hs := hreach.valid.root_lt .global rfl
  have hsteady := steady_of_samePresent hreach.occurs hs hr (refl_of Analysis.SamePresent _) hread
    (of_decide_eq_true hC)
  obtain ⟨hmethods, hdirect⟩ := call_binds_callees hreach.occurs hs hr nofun hz
  refine ⟨zs, z, hz, ?_, (hdirect rfl ⟨1⟩ (by decide)).1 _ _ rfl⟩
  exact hmethods hsteady (.object ⟨0⟩) (by simp) u v hu ⟨0⟩ (of_decide_eq_true hg) fun _ => ⟨rfl, by simp⟩

/-- **A function that plays both parts is bound in one of them only.** Where `v` is `g` or the object,
which holds `g` under `call`, no assignment of `v.call(k)` gives `g` the object as its receiver. -/
theorem sharedCall_not_bound : Reachable (sharedCall "g") (sharedCall.final "g") ∧ ∃ R C c u v zs z,
    AnalysisM.infer (sharedCall "g") .global ⟨.name "v", none⟩ (sharedCall.final "g") =
      .ok R (sharedCall.final "g") ∧ R ≠ .all ∧
    AnalysisM.propertyType (sharedCall "g").program R "call" (sharedCall.final "g") = .ok C c ∧ C ≠ .all ∧
    AnalysisM.evaluate (sharedCall "g") .global
      (.call ⟨.prop ⟨.name "v", none⟩ "call", none⟩ [⟨.name "k", none⟩]) (sharedCall.final "g") = .ok zs z ∧
    .object ⟨0⟩ ∈ R ∧
    AnalysisM.propertyType (sharedCall "g").program (.single (.object ⟨0⟩)) "call" (sharedCall.final "g") =
      .ok u v ∧ ⟨0⟩ ∈ u.functions ∧
    ∀ this, .object ⟨0⟩ ∈ this →
      ¬ Bound (sharedCall "g") .global (sharedCall.final "g") z zs ⟨0⟩ this [⟨.name "k", none⟩] := by
  have hv : (sharedCall.final "g").typeOr .all ((sharedCall.final "g").graph.lookup .global "v") =
      .ofList [.function ⟨0⟩, .object ⟨0⟩] := by
    decide +kernel
  have hr := AnalysisM.infer_name (sharedCall "g") .global "v" (sharedCall.final "g")
  rw [hv] at hr
  have hreads : checks (AnalysisM.propertyType (sharedCall "g").program (.ofList [.function ⟨0⟩, .object ⟨0⟩]) "call")
      (sharedCall.final "g") (fun C _ => decide (C ≠ .all)) = true := by
    decide +kernel
  have hholds : checks (AnalysisM.propertyType (sharedCall "g").program (.object ⟨0⟩) "call")
      (sharedCall.final "g") (fun u _ => decide (⟨0⟩ ∈ u.functions)) = true := by
    decide +kernel
  obtain ⟨C, c, hread, hC⟩ := exists_ok hreads
  obtain ⟨u, v, hu, hg⟩ := exists_ok hholds
  -- all that is assigned is `k`
  have hcalls : checks (AnalysisM.evaluate (sharedCall "g") .global
      (.call ⟨.prop ⟨.name "v", none⟩ "call", none⟩ [⟨.name "k", none⟩])) (sharedCall.final "g")
      (fun zs _ => zs.all fun x => decide (x.type = .function ⟨1⟩)) = true := by
    decide +kernel
  obtain ⟨zs, z, hz, hk⟩ := exists_ok hcalls
  refine ⟨sharedCall.final_reachable "g", _, C, c, u, v, zs, z, hr, nofun, hread, of_decide_eq_true hC, hz,
    by simp, hu, of_decide_eq_true hg, ?_⟩
  rintro this hthis ⟨e, x, -, -, hassigned, -⟩
  rcases hassigned with rfl | hassigned
  · exact ConcreteType.not_mem_empty _ hthis
  · have htype := of_decide_eq_true (List.all_eq_true.1 hk _ hassigned)
    rw [show this = .function ⟨1⟩ from htype] at hthis
    cases ConcreteType.mem_single.1 hthis

/-- The receiver `(u : function).prototype || function k`, where `u` may be anything and `k` is new. The
prototype of `f` holds `h` under `m`, and that of `k` may hold anything. -/
def laterReceiver : Setup where
  program := {
    shapes := [
      { name := "Q", kind := .prototype, properties := ["m"] },
      { name := "P", kind := .prototype, properties := ["m"] }]
    functions := [
      { name := "h", params := ["x"], body := some [] },
      { name := "f", body := some [], prototypeShape := some ⟨0⟩ },
      { name := "k", body := some [], prototypeShape := some ⟨1⟩ },
      { name := "c", body := some [], superclass := some ⟨2⟩ }]
    body := [.function ⟨0⟩, .function ⟨1⟩, .function ⟨3⟩,
      .expr ⟨.assign ⟨.prop ⟨.prop ⟨.name "f", none⟩ "prototype", none⟩ "m", none⟩ ⟨.name "h", none⟩, none⟩,
      .expr ⟨.assign ⟨.prop ⟨.prop ⟨.name "c", none⟩ "superClass_", none⟩ "m", none⟩ ⟨.name "u", none⟩, none⟩] }

def laterReceiver.receiver : Expr :=
  ⟨.or ⟨.prop ⟨.name "u", some (.function none none)⟩ "prototype", none⟩ ⟨.function ⟨2⟩, none⟩, none⟩

/-- The state after processing it, in which there is no `k`. -/
def laterReceiver.final : Analysis :=
  (Operation.process [] laterReceiver.program.body).after laterReceiver .fresh

/-- **A receiver that is not steady loses its callees.** The receiver is the prototype of `f` or the new
`k`, and reading `m` of them gives `h`. Inferred again, it may also be the prototype of `k`,
reading `m` of which gives everything, so that `h` is not bound. -/
theorem laterReceiver_not_bound : Reachable laterReceiver laterReceiver.final ∧ ∃ R b C c u v zs z,
    AnalysisM.infer laterReceiver .global laterReceiver.receiver laterReceiver.final = .ok R b ∧ R ≠ .all ∧
    AnalysisM.propertyType laterReceiver.program R "m" b = .ok C c ∧ C ≠ .all ∧
    AnalysisM.evaluate laterReceiver .global
      (.call ⟨.prop laterReceiver.receiver "m", none⟩ [⟨.name "f", none⟩]) laterReceiver.final = .ok zs z ∧
    .object ⟨0⟩ ∈ R ∧
    AnalysisM.propertyType laterReceiver.program (.single (.object ⟨0⟩)) "m" b = .ok u v ∧
    ⟨0⟩ ∈ u.functions ∧
    ∀ this, .object ⟨0⟩ ∈ this →
      ¬ Bound laterReceiver .global b z zs ⟨0⟩ this [⟨.name "f", none⟩] := by
  have hinfers : checks (AnalysisM.infer laterReceiver .global laterReceiver.receiver) laterReceiver.final
      (fun R b => decide (R = .ofList [.function ⟨3⟩, .object ⟨0⟩] ∧
          (b.function? ⟨0⟩).bind (fun e => b.graph.own e.body SlotName.this) = some ⟨4⟩) &&
        checks (AnalysisM.propertyType laterReceiver.program R "m") b (fun C _ => decide (C ≠ .all)) &&
        checks (AnalysisM.propertyType laterReceiver.program (.object ⟨0⟩) "m") b
          (fun u _ => decide (⟨0⟩ ∈ u.functions))) = true := by
    decide +kernel
  obtain ⟨R, b, hr, htests⟩ := exists_ok hinfers
  rw [Bool.and_eq_true, Bool.and_eq_true, decide_eq_true_eq] at htests
  obtain ⟨⟨⟨rfl, hslot⟩, hreads⟩, hholds⟩ := htests
  obtain ⟨C, c, hread, hC⟩ := exists_ok hreads
  obtain ⟨u, v, hu, hg⟩ := exists_ok hholds
  -- the slot for the receiver of `h` is not assigned
  have hcalls : checks (AnalysisM.evaluate laterReceiver .global
      (.call ⟨.prop laterReceiver.receiver "m", none⟩ [⟨.name "f", none⟩])) laterReceiver.final
      (fun zs _ => zs.all fun x => decide (x.slot ≠ ⟨4⟩)) = true := by
    decide +kernel
  obtain ⟨zs, z, hz, hk⟩ := exists_ok hcalls
  refine ⟨.after (.process _ _) .fresh trivial, _, b, C, c, u, v, zs, z, hr, nofun, hread,
    of_decide_eq_true hC, hz, by simp, hu, of_decide_eq_true hg, ?_⟩
  rintro this hthis ⟨e, x, he, hx, hassigned, -⟩
  rcases hassigned with rfl | hassigned
  · exact ConcreteType.not_mem_empty _ hthis
  · rw [he, Option.bind_some, hx, Option.some_inj] at hslot
    exact of_decide_eq_true (List.all_eq_true.1 hk _ hassigned) hslot

end TypeFlow
