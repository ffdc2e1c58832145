import TypeFlow.Proofs.FiniteSets
import TypeFlow.Proofs.Narrowing

/-!
# Monotonicity of inference

Once every declared function and shape has its entity, inference creates nothing: it only reads the
slots, and remembers what it narrowed. If the slots hold more in one state than in another, then more
is inferred there, as long as no declared type narrows the result. A callee of `new` that may be
anything goes on being anything, so a fault for this reason is not mended by larger types.

* `Analysis.Below`: the slots of one state hold no more than those of another.
* `Mirrors`: a computation that ends in the same way in two states, and changes neither.
* `Rises`: a computation whose result is larger in the second state, or which fails there.
* `infer_monotone`: inference is monotone in the slots.
-/

namespace TypeFlow

open AnalysisM

variable {p : Program} {env : Setup} {a b c : Analysis} {α β : Type} {t u : ConcreteType} {n : String}

/-! ## Declared types in an expression -/

mutual

/-- The types declared in an expression, for itself or for one of its parts. -/
def Expr.annotations : Expr → List DeclaredType
  | ⟨form, declared⟩ => declared.toList ++ form.annotations
termination_by structural e => e

def Form.annotations : Form → List DeclaredType
  | .name _ => []
  | .this => []
  | .literal => []
  | .function _ => []
  | .objectLit entries => Entry.annotationsAll entries
  | .arrayLit elements => Expr.annotationsAll elements
  | .prop receiver _ => receiver.annotations
  | .elem receiver index => receiver.annotations ++ index.annotations
  | .call callee args => callee.annotations ++ Expr.annotationsAll args
  | .construct callee args => callee.annotations ++ Expr.annotationsAll args
  | .assign target value => target.annotations ++ value.annotations
  | .comma operands => Expr.annotationsAll operands
  | .and left right => left.annotations ++ right.annotations
  | .or left right => left.annotations ++ right.annotations
  | .cond test yes no => test.annotations ++ (yes.annotations ++ no.annotations)
  | .unknown operands => Expr.annotationsAll operands
termination_by structural form => form

def Expr.annotationsAll : List Expr → List DeclaredType
  | [] => []
  | e :: es => e.annotations ++ Expr.annotationsAll es
termination_by structural es => es

def Entry.annotationsAll : List Entry → List DeclaredType
  | [] => []
  | ⟨_, value⟩ :: rest => value.annotations ++ Entry.annotationsAll rest
termination_by structural es => es

end

/-- A declared type that says nothing about a value, or only that it is an object. -/
def DeclaredType.Vague (d : DeclaredType) : Prop := d = .unknown ∨ d = .anyObject

theorem DeclaredType.Vague.open {d : DeclaredType} (h : d.Vague) : d.Open := by
  rcases h with rfl | rfl
  · exact .unknown
  · exact .anyObject

/-! ## Two states with the same tables -/

namespace Analysis

/-- **The slots of `a` hold no more than those of `b`**, in the same scopes and with the same
entities. -/
structure Below (a b : Analysis) : Prop where
  scopes : b.graph.scopes = a.graph.scopes
  functions : b.functions = a.functions
  objects : b.objects = a.objects
  types : ∀ x, a.graph.typeOf x ⊆ b.graph.typeOf x

/-- **Everything declared has its entity.** -/
structure Settled (p : Program) (a : Analysis) : Prop where
  functions : ∀ f, p.function? f ≠ none → a.findFunction f ≠ none
  shapes : ∀ s, p.shape? s ≠ none → a.findObject s ≠ none

theorem Below.trans (hab : a.Below b) (hbc : b.Below c) : a.Below c :=
  ⟨hbc.scopes.trans hab.scopes, hbc.functions.trans hab.functions, hbc.objects.trans hab.objects,
    fun x => ConcreteType.subset_trans (hab.types x) (hbc.types x)⟩

theorem Below.refl (a : Analysis) : a.Below a :=
  ⟨rfl, rfl, rfl, fun _ => ConcreteType.subset_refl _⟩

/-- What is remembered does not matter. -/
theorem Below.of_forget (h : b.forget = a.forget) : a.Below b := by
  have hsame : a.forget.Below b.forget := by
    rw [h]
    exact .refl a.forget
  exact ⟨hsame.scopes, hsame.functions, hsame.objects, hsame.types⟩

namespace Below

variable (h : a.Below b)
include h

theorem function? (f : FnRef) : b.function? f = a.function? f := by
  unfold Analysis.function?
  rw [h.functions]

theorem findFunction (f : FunctionId) : b.findFunction f = a.findFunction f := by
  unfold Analysis.findFunction
  rw [h.functions]

theorem findObject (s : ShapeId) : b.findObject s = a.findObject s := by
  unfold Analysis.findObject
  rw [h.objects]

theorem settled (ha : a.Settled p) : b.Settled p := by
  refine ⟨fun f hf => ?_, fun s hs => ?_⟩
  · rw [h.findFunction]
    exact ha.functions f hf
  · rw [h.findObject]
    exact ha.shapes s hs

theorem typeOr_subset (missing : ConcreteType) (x : Option SlotId) :
    a.typeOr missing x ⊆ b.typeOr missing x := by
  cases x with
  | none => exact ConcreteType.subset_refl missing
  | some x => exact h.types x

theorem own_subset (missing : ConcreteType) (s : ScopeId) (n : String) :
    a.typeOr missing (a.graph.own s n) ⊆ b.typeOr missing (b.graph.own s n) := by
  rw [ScopeGraph.own_of_scopes_eq h.scopes]
  exact h.typeOr_subset missing _

theorem lookup_subset (missing : ConcreteType) (s : ScopeId) (n : String) :
    a.typeOr missing (a.graph.lookup s n) ⊆ b.typeOr missing (b.graph.lookup s n) := by
  rw [ScopeGraph.lookup_of_scopes_eq h.scopes]
  exact h.typeOr_subset missing _

theorem objectProperty_subset (o : ObjRef) (n : String) : a.objectProperty o n ⊆ b.objectProperty o n := by
  have hobject : b.object? o = a.object? o := by
    unfold Analysis.object?
    rw [h.objects]
  unfold Analysis.objectProperty
  rw [hobject]
  cases a.object? o with
  | none => exact ConcreteType.empty_subset _
  | some e => exact h.lookup_subset ∅ e.scope n

/-- More callees return more. -/
theorem returnedBy_subset (htu : t ⊆ u) : a.returnedBy t ⊆ b.returnedBy u := by
  cases u with
  | all => exact ConcreteType.subset_all _
  | only m' =>
    cases t with
    | all => cases ConcreteType.all_subset.1 htu
    | only m =>
      refine ConcreteType.unions_subset fun v hv => ?_
      obtain ⟨f, hf, rfl⟩ := List.mem_map.1 hv
      -- the callee is also a callee in `b`, where it returns no less
      have hf' : f ∈ (ConcreteType.only m').functions :=
        ConcreteType.mem_functions.2 (htu _ (ConcreteType.mem_functions.1 hf))
      refine ConcreteType.subset_trans ?_ (ConcreteType.subset_unions (List.mem_map_of_mem hf'))
      rw [h.function?]
      cases a.function? f with
      | none => exact ConcreteType.subset_refl ∅
      | some e => exact h.own_subset ∅ e.body SlotName.ret

/-- More constructors make more objects. -/
theorem constructedBy_subset {m m' : EntitySet} (hm : ConcreteType.only m ⊆ .only m') :
    a.constructedBy (.only m) ⊆ b.constructedBy (.only m') := by
  intro e he
  obtain ⟨f, hf, hobject⟩ := List.mem_filterMap.1 (EntitySet.mem_ofList.1 he)
  refine EntitySet.mem_ofList.2 (List.mem_filterMap.2 ⟨f, ?_, ?_⟩)
  · exact ConcreteType.mem_functions.2 (hm _ (ConcreteType.mem_functions.1 hf))
  · rwa [h.function?]

end Below

/-- Two states between which inference is compared: everything declared has its entity, and what is
remembered can be relied on. -/
structure Under (p : Program) (a b : Analysis) : Prop extends a.Below b where
  settled : a.Settled p
  honest : a.Honest p ∧ b.Honest p

namespace Under

theorem of_forget {a' b' : Analysis} (h : a.Under p b) (ha : a'.forget = a.forget)
    (hb : b'.forget = b.forget) (ha' : a'.Honest p) (hb' : b'.Honest p) : Under p a' b' :=
  ⟨(Below.of_forget ha.symm).trans (h.toBelow.trans (Below.of_forget hb)),
    (Below.of_forget ha).settled h.settled, ha', hb'⟩

/-- Either state can be compared with itself. -/
theorem left (h : a.Under p b) : Under p a a := ⟨.refl a, h.settled, h.honest.1, h.honest.1⟩

theorem right (h : a.Under p b) : Under p b b :=
  ⟨.refl b, h.toBelow.settled h.settled, h.honest.2, h.honest.2⟩

end Under

end Analysis

/-! ## Reading without changing -/

/-- The fault names something that is not declared. -/
inductive Program.Misses (p : Program) : Fault → Prop
  | function {f : FunctionId} (h : p.function? f = none) : p.Misses (.unknownFunction f)
  | shape {s : ShapeId} (h : p.shape? s = none) : p.Misses (.unknownShape s)

theorem Program.Misses.ne_unboundedConstructor {f : Fault} (h : p.Misses f) : f ≠ .unboundedConstructor := by
  rintro rfl
  cases h

/-- **The same end in two states**: results that are related, or the same missing declaration. -/
inductive Mirrors (p : Program) (a b : Analysis) (le : α → α → Prop) :
    EStateM.Result Fault Analysis α → EStateM.Result Fault Analysis α → Prop
  | ok {v w : α} (h : le v w) : Mirrors p a b le (.ok v a) (.ok w b)
  | missing {f : Fault} (h : p.Misses f) : Mirrors p a b le (.error f a) (.error f b)

theorem Mirrors.bind {le : α → α → Prop} {le' : β → β → Prop} {x y : AnalysisM α} {f g : α → AnalysisM β}
    (hx : Mirrors p a b le (x a) (y b)) (hf : ∀ v w, le v w → Mirrors p a b le' (f v a) (g w b)) :
    Mirrors p a b le' ((x >>= f) a) ((y >>= g) b) := by
  rw [bind_apply, bind_apply]
  generalize x a = r at hx
  generalize y b = q at hx
  cases hx with
  | ok h => exact hf _ _ h
  | missing h => exact .missing h

namespace AnalysisM

theorem demandFunction_mirrors (f : FunctionId) :
    Mirrors p a b Eq ((p.demandFunction f : AnalysisM FunctionDecl) a)
      ((p.demandFunction f : AnalysisM FunctionDecl) b) := by
  unfold Program.demandFunction FunctionRegistry.demand
  cases hd : p.function? f with
  | some d => exact .ok rfl
  | none => exact .missing (.function hd)

theorem createObject_of_undeclared {s : ShapeId} (ho : a.findObject s = none) (hs : p.shape? s = none) :
    createObject p s a = .error (.unknownShape s) a := by
  unfold createObject createObjectWithin
  rw [get_bind_apply, ho]
  dsimp only
  rw [if_neg List.not_mem_nil]
  unfold objectScope Program.demandShape
  rw [hs]
  rfl

theorem createObject_mirrors (h : a.Under p b) (s : ShapeId) :
    Mirrors p a b Eq (createObject p s a) (createObject p s b) := by
  have hfind := h.findObject s
  cases ho : a.findObject s with
  | some o =>
    rw [createObject_of_found ho, createObject_of_found (hfind.trans ho)]
    exact .ok rfl
  | none =>
    have hs : p.shape? s = none := by
      by_contra hne
      exact h.settled.shapes s hne ho
    rw [createObject_of_undeclared ho hs, createObject_of_undeclared (hfind.trans ho) hs]
    exact .missing (.shape hs)

theorem createFunction_mirrors (h : a.Under p b) (f : FunctionId) (parent : ScopeId) :
    Mirrors p a b Eq (createFunction p f parent a) (createFunction p f parent b) := by
  unfold createFunction
  rw [get_bind_apply, get_bind_apply, h.findFunction]
  cases hr : a.findFunction f with
  | some r => exact .ok rfl
  | none =>
    have hf : p.function? f = none := by
      by_contra hne
      exact h.settled.functions f hne hr
    unfold Program.demandFunction FunctionRegistry.demand
    rw [hf]
    exact .missing (.function hf)

/-- Reading a property of a function gives the same object or function in both states, or what its own
scope holds. -/
theorem functionProperty_mirrors (h : a.Under p b) (f : FnRef) (n : String) :
    Mirrors p a b (· ⊆ ·) (functionProperty p f n a) (functionProperty p f n b) := by
  unfold functionProperty
  rw [get_bind_apply, get_bind_apply, h.function?]
  cases a.function? f with
  | none => exact .ok (ConcreteType.subset_refl ∅)
  | some e =>
    have hstatic := h.own_subset ∅ e.statics n
    dsimp only
    by_cases hprototype : n = PropertyName.prototype
    · rw [if_pos hprototype, if_pos hprototype]
      cases e.prototype with
      | none => exact .ok hstatic
      | some o => exact .ok (ConcreteType.subset_refl _)
    rw [if_neg hprototype, if_neg hprototype]
    by_cases hcall : n = PropertyName.call
    · rw [if_pos hcall, if_pos hcall]
      exact .ok (ConcreteType.subset_refl _)
    rw [if_neg hcall, if_neg hcall]
    by_cases hsuperclass : n = PropertyName.superclass
    · rw [if_pos hsuperclass, if_pos hsuperclass]
      -- the declarations are the same, and so is the prototype object of the superclass
      refine (demandFunction_mirrors e.decl).bind ?_
      rintro d _ rfl
      cases d.superclass with
      | none => exact .ok hstatic
      | some g =>
        refine (demandFunction_mirrors g).bind ?_
        rintro d _ rfl
        cases d.prototypeShape with
        | none => exact .ok hstatic
        | some s =>
          refine (createObject_mirrors h s).bind ?_
          rintro o _ rfl
          exact .ok (ConcreteType.subset_refl _)
    · rw [if_neg hsuperclass, if_neg hsuperclass]
      exact .ok hstatic

theorem entityProperty_mirrors (h : a.Under p b) (n : String) (e : Entity) :
    Mirrors p a b (· ⊆ ·) (entityProperty p n e a) (entityProperty p n e b) := by
  cases e with
  | object o => exact .ok (h.objectProperty_subset o n)
  | function f => exact functionProperty_mirrors h f n

/-- Reading a property of several entities joins what each of them gives. -/
theorem entityProperties_cases (h : a.Under p a) (n : String) (es : List Entity) :
    (∃ t, entityProperties p n es a = .ok t a ∧
      (∀ e ∈ es, ∃ v, entityProperty p n e a = .ok v a ∧ v ⊆ t) ∧
      ∀ u, (∀ e ∈ es, ∀ v, entityProperty p n e a = .ok v a → v ⊆ u) → t ⊆ u) ∨
    ∃ f, p.Misses f ∧ entityProperties p n es a = .error f a := by
  induction es with
  | nil =>
    refine .inl ⟨∅, rfl, fun e he => absurd he List.not_mem_nil, fun u _ => ConcreteType.empty_subset u⟩
  | cons e es ih =>
    have hhead := entityProperty_mirrors h n e
    have hrun : entityProperties p n (e :: es) a =
        (entityProperty p n e >>= fun t => entityProperties p n es >>= fun u => pure (t ∪ u)) a := rfl
    rw [hrun, bind_apply]
    cases hv : entityProperty p n e a with
    | error f a' =>
      rw [hv] at hhead
      cases hhead with
      | missing hf => exact .inr ⟨f, hf, rfl⟩
    | ok v a' =>
      rw [hv] at hhead
      cases hhead with
      | ok _ =>
        dsimp only
        rw [bind_apply]
        rcases ih with ⟨t, ht, hmem, hleast⟩ | ⟨f, hf, ht⟩
        · refine .inl ⟨v ∪ t, by rw [ht]; rfl, ?_, fun u hu => ?_⟩
          · refine List.forall_mem_cons.2 ⟨⟨v, hv, ConcreteType.subset_union_left v t⟩, fun q hq => ?_⟩
            obtain ⟨w, hw, hwt⟩ := hmem q hq
            exact ⟨w, hw, ConcreteType.subset_trans hwt (ConcreteType.subset_union_right v t)⟩
          · obtain ⟨hhere, hrest⟩ := List.forall_mem_cons.1 hu
            exact ConcreteType.union_subset (hhere v hv) (hleast u hrest)
        · exact .inr ⟨f, hf, by rw [ht]⟩

end AnalysisM

/-! ## Larger results in the larger state -/

/-- **What comes of a computation rises** from one state to another: the second result is larger, or
the second fails, or the first met something undeclared. -/
inductive Rises (p : Program) (le : α → α → Prop) :
    EStateM.Result Fault Analysis α → EStateM.Result Fault Analysis α → Prop
  | ok {v w : α} {a b : Analysis} (h : le v w) (hab : a.Under p b) : Rises p le (.ok v a) (.ok w b)
  | fails {r : EStateM.Result Fault Analysis α} {f : Fault} {b : Analysis}
      (h : f = .unboundedConstructor ∨ p.Misses f) : Rises p le r (.error f b)
  | missing {f : Fault} {a : Analysis} {r : EStateM.Result Fault Analysis α} (h : p.Misses f) :
      Rises p le (.error f a) r

theorem Rises.bind {le : α → α → Prop} {le' : β → β → Prop} {x y : AnalysisM α} {f g : α → AnalysisM β}
    (hx : Rises p le (x a) (y b))
    (hf : ∀ v w a' b', le v w → a'.Under p b' → Rises p le' (f v a') (g w b')) :
    Rises p le' ((x >>= f) a) ((y >>= g) b) := by
  rw [bind_apply, bind_apply]
  generalize x a = r at hx
  generalize y b = q at hx
  cases hx with
  | ok h hab => exact hf _ _ _ _ h hab
  | fails h => exact .fails h
  | missing h => exact .missing h

theorem Mirrors.rises {le : α → α → Prop} {r q : EStateM.Result Fault Analysis α} (h : Mirrors p a b le r q)
    (hab : a.Under p b) : Rises p le r q := by
  cases h with
  | ok hle => exact .ok hle hab
  | missing hf => exact .missing hf

namespace AnalysisM

/-- **A property of a larger type is larger.** -/
theorem propertyType_rises (h : a.Under p b) (htu : t ⊆ u) (n : String) :
    Rises p (· ⊆ ·) (propertyType p t n a) (propertyType p u n b) := by
  cases u with
  | all =>
    cases t with
    | all => exact .ok (ConcreteType.subset_refl _) h
    | only m =>
      have hm : propertyType p (.only m) n a = entityProperties p n m.members a := rfl
      rw [hm]
      rcases entityProperties_cases h.left n m.members with ⟨t, ht, -⟩ | ⟨f, hf, ht⟩
      · rw [ht]
        exact .ok (ConcreteType.subset_all t) h
      · rw [ht]
        exact .missing hf
  | only m' =>
    cases t with
    | all => cases ConcreteType.all_subset.1 htu
    | only m =>
      have hm : propertyType p (.only m) n a = entityProperties p n m.members a := rfl
      have hm' : propertyType p (.only m') n b = entityProperties p n m'.members b := rfl
      rw [hm, hm']
      rcases entityProperties_cases h.left n m.members with ⟨t, ht, -, hleast⟩ | ⟨f, hf, ht⟩
      · rcases entityProperties_cases h.right n m'.members with ⟨u, hu, hmem, -⟩ | ⟨f, hf, hu⟩
        · rw [ht, hu]
          refine .ok (hleast u fun e he v hv => ?_) h
          -- the entity is read in `b` too, and gives no less there
          obtain ⟨w, hw, hwu⟩ := hmem e (htu e he)
          have hsame := entityProperty_mirrors h n e
          rw [hv, hw] at hsame
          cases hsame with
          | ok hvw => exact ConcreteType.subset_trans hvw hwu
        · rw [hu]
          exact .fails (.inr hf)
      · rw [ht]
        exact .missing hf

/-- Narrowing by a vague type gives the type itself, whether it is remembered or not. -/
theorem narrow_vague (ha : a.Honest env.program) {d : DeclaredType} (hd : d.Vague) (t : ConcreteType) :
    ∃ b, narrow env t d a = .ok t b ∧ b.forget = a.forget ∧ b.Honest env.program := by
  have hsame : a.narrowed env.program t d = t := Analysis.narrowed_of_open hd.open
  by_cases h : d = .unknown ∨ t = ∅
  · rw [narrow_of_trivial h]
    exact ⟨a, rfl, rfl, ha⟩
  by_cases hm : env.config.memoize = true
  · cases hr : a.remembered t d with
    | some r =>
      rw [narrow_of_remembered h hm hr, ha.remembered_eq hr, hsame]
      exact ⟨a, rfl, rfl, ha⟩
    | none =>
      rw [narrow_of_not_remembered h hm hr, hsame]
      exact ⟨_, rfl, rfl, List.forall_mem_cons.2 ⟨hsame.symm, ha⟩⟩
  · have hplain : narrow env t d a = .ok (a.narrowed env.program t d) a := by
      unfold narrow
      rw [if_neg h, if_neg hm]
      rfl
    rw [hplain, hsame]
    exact ⟨a, rfl, rfl, ha⟩

theorem narrow?_rises (h : a.Under env.program b) (htu : t ⊆ u) {declared : Option DeclaredType}
    (hd : ∀ d ∈ declared.toList, d.Vague) :
    Rises env.program (· ⊆ ·) (narrow? env t declared a) (narrow? env u declared b) := by
  cases declared with
  | none => exact .ok htu h
  | some d =>
    have hvague := hd d (List.mem_singleton_self d)
    obtain ⟨a', hta, ha, hha⟩ := narrow_vague h.honest.1 hvague t
    obtain ⟨b', hub, hb, hhb⟩ := narrow_vague h.honest.2 hvague u
    have hleft : narrow? env t (some d) a = .ok t a' := hta
    have hright : narrow? env u (some d) b = .ok u b' := hub
    rw [hleft, hright]
    exact .ok htu (h.of_forget ha hb hha hhb)

theorem union_rises {x y : AnalysisM ConcreteType} (hx : Rises p (· ⊆ ·) (x a) (x b))
    (hy : ∀ a' b', a'.Under p b' → Rises p (· ⊆ ·) (y a') (y b')) :
    Rises p (· ⊆ ·) ((do let t ← x; let u ← y; return t ∪ u : AnalysisM ConcreteType) a)
      ((do let t ← x; let u ← y; return t ∪ u : AnalysisM ConcreteType) b) := by
  refine hx.bind fun t t' a' b' ht h' => ?_
  refine (hy a' b' h').bind fun u u' a'' b'' hu h'' => ?_
  refine .ok (ConcreteType.union_subset ?_ ?_) h''
  · exact ConcreteType.subset_trans ht (ConcreteType.subset_union_left t' u')
  · exact ConcreteType.subset_trans hu (ConcreteType.subset_union_right t' u')

mutual

/-- **What is inferred rises with the slots.** -/
theorem infer_rises : ∀ (e : Expr) (s : ScopeId) (a b : Analysis), a.Under env.program b →
    (∀ d ∈ e.annotations, d.Vague) → Rises env.program (· ⊆ ·) (infer env s e a) (infer env s e b)
  | ⟨form, declared⟩, s, a, b, h, he => by
    obtain ⟨hdeclared, hform⟩ := List.forall_mem_append.1 he
    refine (inferForm_rises form s declared a b h hdeclared hform).bind ?_
    intro t u a' b' htu h'
    exact narrow?_rises h' htu hdeclared
termination_by structural e => e

theorem inferForm_rises : ∀ (form : Form) (s : ScopeId) (declared : Option DeclaredType) (a b : Analysis),
    a.Under env.program b → (∀ d ∈ declared.toList, d.Vague) → (∀ d ∈ form.annotations, d.Vague) →
    Rises env.program (· ⊆ ·) (inferForm env s declared form a) (inferForm env s declared form b)
  | .name x, s, _, a, b, h, _, _ => .ok (h.lookup_subset .all s x) h
  | .this, s, _, a, b, h, _, _ => .ok (h.own_subset .all s SlotName.this) h
  | .literal, _, _, a, b, h, _, _ => .ok (ConcreteType.subset_refl ∅) h
  | .function f, s, _, a, b, h, _, _ => by
    refine ((createFunction_mirrors h f s).rises h).bind ?_
    rintro r _ a' b' rfl h'
    exact .ok (ConcreteType.subset_refl _) h'
  | .objectLit entries, s, declared, a, b, h, hd, _ => by
    -- a declared shape would not be vague
    have hall : inferForm env s declared (.objectLit entries) = pure .all := by
      unfold inferForm
      split
      · rcases hd _ (List.mem_singleton_self _) with hshape | hshape <;> cases hshape
      · rfl
    rw [hall]
    exact .ok (ConcreteType.subset_refl _) h
  | .arrayLit _, s, declared, a, b, h, _, _ => by
    unfold inferForm
    cases env.program.arrayShape with
    | none => exact .ok (ConcreteType.subset_refl _) h
    | some shape =>
      refine ((createObject_mirrors h shape).rises h).bind ?_
      rintro o _ a' b' rfl h'
      exact .ok (ConcreteType.subset_refl _) h'
  | .prop receiver property, s, _, a, b, h, _, he => by
    refine (infer_rises receiver s a b h he).bind ?_
    intro t u a' b' htu h'
    exact propertyType_rises h' htu property
  | .elem _ _, _, _, a, b, h, _, _ => .ok (ConcreteType.subset_refl _) h
  | .call callee _, s, _, a, b, h, _, he => by
    refine (infer_rises callee s a b h (List.forall_mem_append.1 he).1).bind ?_
    intro t u a' b' htu h'
    exact .ok (h'.returnedBy_subset htu) h'
  | .construct callee _, s, _, a, b, h, _, he => by
    refine (infer_rises callee s a b h (List.forall_mem_append.1 he).1).bind ?_
    intro t u a' b' htu h'
    cases u with
    | all => exact .fails (.inl rfl)
    | only m' =>
      cases t with
      | all => cases ConcreteType.all_subset.1 htu
      | only m => exact .ok (h'.constructedBy_subset htu) h'
  | .assign _ value, s, _, a, b, h, _, he => infer_rises value s a b h (List.forall_mem_append.1 he).2
  | .comma operands, s, _, a, b, h, _, he => inferLast_rises operands s a b h he
  | .and left right, s, _, a, b, h, _, he => by
    obtain ⟨hleft, hright⟩ := List.forall_mem_append.1 he
    exact union_rises (infer_rises left s a b h hleft) fun a' b' h' => infer_rises right s a' b' h' hright
  | .or left right, s, _, a, b, h, _, he => by
    obtain ⟨hleft, hright⟩ := List.forall_mem_append.1 he
    exact union_rises (infer_rises left s a b h hleft) fun a' b' h' => infer_rises right s a' b' h' hright
  | .cond _ yes no, s, _, a, b, h, _, he => by
    obtain ⟨-, hbranches⟩ := List.forall_mem_append.1 he
    obtain ⟨hyes, hno⟩ := List.forall_mem_append.1 hbranches
    exact union_rises (infer_rises yes s a b h hyes) fun a' b' h' => infer_rises no s a' b' h' hno
  | .unknown _, _, _, a, b, h, _, _ => .ok (ConcreteType.subset_refl _) h
termination_by structural form => form

theorem inferLast_rises : ∀ (es : List Expr) (s : ScopeId) (a b : Analysis), a.Under env.program b →
    (∀ d ∈ Expr.annotationsAll es, d.Vague) →
    Rises env.program (· ⊆ ·) (inferLast env s es a) (inferLast env s es b)
  | [], _, _, _, h, _ => .ok (ConcreteType.subset_refl ∅) h
  | [e], s, a, b, h, he => infer_rises e s a b h (List.forall_mem_append.1 he).1
  | _ :: e :: es, s, a, b, h, he => inferLast_rises (e :: es) s a b h (List.forall_mem_append.1 he).2
termination_by structural es => es

end

end AnalysisM

/-- **Inference is monotone in the slots.** Let everything declared have its entity in two states with
the same scopes and tables, where the slots of the second hold at least what they hold in the first.
Then an expression that is narrowed by no declared type gives a larger type in the second state, if it
gives a type in both; and if `new` is applied to anything in the first state, the second fails too, for
the same reason or for want of a declaration. -/
theorem infer_monotone {e : Expr} (he : ∀ d ∈ e.annotations, d = .unknown ∨ d = .anyObject)
    (hab : a.Below b) (hs : a.Settled env.program) (ha : a.Honest env.program)
    (hb : b.Honest env.program) (s : ScopeId) :
    (∀ a', infer env s e a = .error .unboundedConstructor a' →
      ∃ f b', infer env s e b = .error f b' ∧ (f = .unboundedConstructor ∨ env.program.Misses f)) ∧
    ∀ t u a' b', infer env s e a = .ok t a' → infer env s e b = .ok u b' → t ⊆ u := by
  have hrises := infer_rises e s a b ⟨hab, hs, ha, hb⟩ he
  refine ⟨fun a' hfails => ?_, fun t u a' b' ht hu => ?_⟩
  · rw [hfails] at hrises
    generalize infer env s e b = r at hrises
    cases hrises with
    | fails hf => exact ⟨_, _, rfl, hf⟩
    | missing hf => exact absurd rfl hf.ne_unboundedConstructor
  · rw [ht, hu] at hrises
    cases hrises with
    | ok htu _ => exact htu

/-- Joining a type into a slot leads to a larger state. -/
theorem Analysis.below_unionInto (a : Analysis) (x : SlotId) (t : ConcreteType) :
    a.Below { a with graph := (a.graph.unionInto x t).2 } := by
  refine ⟨?_, rfl, rfl, (ScopeGraph.unionInto_grows a.graph x t).typeOf_subset⟩
  rw [ScopeGraph.unionInto_snd]
  rfl

/-- What is narrowed does not depend on the graph. -/
theorem Analysis.Honest.on_graph (h : a.Honest p) (g : ScopeGraph) :
    Analysis.Honest p { a with graph := g } := h

/-- The state after processing in which the class `D` was joined into the slot of the property `x`. -/
def derived.raised : Analysis :=
  { derived.final with graph := (derived.final.graph.unionInto ⟨7⟩ (.function ⟨1⟩)).2 }

theorem derived.final_settled : derived.final.Settled derived.program := by
  have hfunctions : ∀ i < 2, derived.final.findFunction ⟨i⟩ ≠ none := by decide +kernel
  have hshapes : ∀ i < 3, derived.final.findObject ⟨i⟩ ≠ none := by decide +kernel
  refine ⟨fun f hf => hfunctions f.index ?_, fun s hs => hshapes s.index ?_⟩
  · obtain ⟨d, hd⟩ := Option.ne_none_iff_exists'.1 hf
    exact (List.getElem?_eq_some_iff.1 hd).1
  · obtain ⟨d, hd⟩ := Option.ne_none_iff_exists'.1 hs
    exact (List.getElem?_eq_some_iff.1 hd).1

/-- Reading `d.x` gives the class `B`, and after the slot was raised also `D`. Applying `new` to an
undeclared variable fails in both states. -/
theorem derived_reads_more : (∃ t u a' b',
      infer derived .global ⟨.prop ⟨.name "d", some .anyObject⟩ "x", none⟩ derived.final = .ok t a' ∧
      infer derived .global ⟨.prop ⟨.name "d", some .anyObject⟩ "x", none⟩ derived.raised = .ok u b' ∧
      t ⊆ u ∧ t ≠ u) ∧
    (∃ a', infer derived .global ⟨.construct ⟨.name "u", none⟩ [], some .unknown⟩ derived.final =
      .error .unboundedConstructor a') ∧
    ∃ f b', infer derived .global ⟨.construct ⟨.name "u", none⟩ [], some .unknown⟩ derived.raised =
      .error f b' ∧ (f = .unboundedConstructor ∨ derived.program.Misses f) := by
  have hbelow : derived.final.Below derived.raised := derived.final.below_unionInto ⟨7⟩ (.function ⟨1⟩)
  have hhonest := derived.final_reachable.valid.honest
  have hraised : derived.raised.Honest derived.program := hhonest.on_graph _
  have hsmall : checks (infer derived .global ⟨.prop ⟨.name "d", some .anyObject⟩ "x", none⟩) derived.final
      (fun t _ => t = .function ⟨0⟩) = true := by
    decide +kernel
  have hlarge : checks (infer derived .global ⟨.prop ⟨.name "d", some .anyObject⟩ "x", none⟩) derived.raised
      (fun u _ => u = .ofList [.function ⟨0⟩, .function ⟨1⟩]) = true := by
    decide +kernel
  obtain ⟨t, a', ht, htest⟩ := exists_ok hsmall
  obtain ⟨u, b', hu, htest'⟩ := exists_ok hlarge
  have hname (a : Analysis) : infer derived .global ⟨.name "u", none⟩ a =
      .ok (a.typeOr .all (a.graph.lookup .global "u")) a := rfl
  have hlookup : derived.final.graph.lookup .global "u" = none := by decide +kernel
  have hfails : infer derived .global ⟨.construct ⟨.name "u", none⟩ [], some .unknown⟩ derived.final =
      .error .unboundedConstructor derived.final := by
    unfold infer inferForm
    rw [bind_apply, bind_apply, hname, hlookup]
    rfl
  refine ⟨⟨t, u, a', b', ht, hu, ?_, ?_⟩, ⟨_, hfails⟩, ?_⟩
  · exact (infer_monotone (by decide) hbelow derived.final_settled hhonest hraised .global).2 t u a' b' ht hu
  · rw [of_decide_eq_true htest, of_decide_eq_true htest']
    decide
  · exact (infer_monotone (by decide) hbelow derived.final_settled hhonest hraised .global).1 _ hfails

end TypeFlow
