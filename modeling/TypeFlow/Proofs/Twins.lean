import TypeFlow.Proofs.Charts
import TypeFlow.Proofs.FiniteSets
import TypeFlow.Proofs.Narrowing

/-!
# Two runs of one program

Two runs of one program number their entities, scopes and slots differently. Entities match if they
stand for the same declaration, and slots are twins if they have the same name in the scopes of the
same owner. What code says does not depend on the run.

* `Analysis.Within`: a type of one state is within a type of the other.
* `Analysis.Chart.lookup_rel`: names stand for twins in both states.
* `Analysis.Chart.alike`: the scopes of one owner have alike actions in both states.
-/

namespace TypeFlow

variable {p : Program} {ambient body : List Stmt} {base : ScopeGraph} {a b c : Analysis} {s t s' t' : ScopeId}
  {K L : ScopeKind} {n : String} {x x' y : SlotId}

/-! ## Matching entities -/

namespace Analysis

/-- Two entities stand for the same declaration. -/
def Matches (a b : Analysis) (e e' : Entity) : Prop := ∃ l, a.label e = some l ∧ b.label e' = some l

/-- **A type is within a type of another state**, up to the numbers of the entities. -/
def Within (a b : Analysis) : ConcreteType → ConcreteType → Prop
  | _, .all => True
  | .all, .only _ => False
  | .only m, .only m' => ∀ e ∈ m, ∃ e' ∈ m', a.Matches b e e'

variable {e e' : Entity} {u v w : ConcreteType}

theorem matches_function {f : FnRef} (h : a.Matches b (.function f) e') :
    ∃ f' q q', e' = .function f' ∧ a.function? f = some q ∧ b.function? f' = some q' ∧ q'.decl = q.decl := by
  obtain ⟨l, hl, hl'⟩ := h
  obtain ⟨q, hq, rfl⟩ := Option.map_eq_some_iff.1 hl
  cases e' with
  | function f' =>
    obtain ⟨q', hq', heq⟩ := Option.map_eq_some_iff.1 hl'
    exact ⟨f', q, q', rfl, hq, hq', Label.function.inj heq⟩
  | object o' =>
    obtain ⟨q', -, heq⟩ := Option.map_eq_some_iff.1 hl'
    cases heq

theorem matches_object {o : ObjRef} (h : a.Matches b (.object o) e') :
    ∃ o' q q', e' = .object o' ∧ a.object? o = some q ∧ b.object? o' = some q' ∧ q'.shape = q.shape := by
  obtain ⟨l, hl, hl'⟩ := h
  obtain ⟨q, hq, rfl⟩ := Option.map_eq_some_iff.1 hl
  cases e' with
  | function f' =>
    obtain ⟨q', -, heq⟩ := Option.map_eq_some_iff.1 hl'
    cases heq
  | object o' =>
    obtain ⟨q', hq', heq⟩ := Option.map_eq_some_iff.1 hl'
    exact ⟨o', q, q', rfl, hq, hq', Label.object.inj heq⟩

theorem Matches.of_function {f f' : FnRef} {q q' : FunctionEntry} (hq : a.function? f = some q)
    (hq' : b.function? f' = some q') (h : q'.decl = q.decl) : a.Matches b (.function f) (.function f') :=
  ⟨.function q.decl, by rw [label, hq]; rfl, by rw [label, hq', ← h]; rfl⟩

theorem Matches.of_object {o o' : ObjRef} {q q' : ObjectEntry} (hq : a.object? o = some q)
    (hq' : b.object? o' = some q') (h : q'.shape = q.shape) : a.Matches b (.object o) (.object o') :=
  ⟨.object q.shape, by rw [label, hq]; rfl, by rw [label, hq', ← h]; rfl⟩

theorem object?_of_findObject {q : ShapeId} {o : ObjRef} (h : a.findObject q = some o) :
    ∃ y, a.object? o = some y ∧ y.shape = q := by
  obtain ⟨i, hi, rfl⟩ := Option.map_eq_some_iff.1 h
  obtain ⟨hlt, hshape, -⟩ := List.findIdx?_eq_some_iff_getElem.1 hi
  exact ⟨a.objects[i], List.getElem?_eq_getElem hlt, of_decide_eq_true hshape⟩

theorem Matches.of_findObject {q : ShapeId} {o o' : ObjRef} (h : a.findObject q = some o)
    (h' : b.findObject q = some o') : a.Matches b (.object o) (.object o') := by
  obtain ⟨y, hy, hshape⟩ := object?_of_findObject h
  obtain ⟨y', hy', hshape'⟩ := object?_of_findObject h'
  exact .of_object hy hy' (hshape'.trans hshape.symm)

theorem Matches.of_findFunction {f : FunctionId} {r r' : FnRef} (h : a.findFunction f = some r)
    (h' : b.findFunction f = some r') : a.Matches b (.function r) (.function r') := by
  obtain ⟨y, hy, hdecl⟩ := function?_of_findFunction h
  obtain ⟨y', hy', hdecl'⟩ := function?_of_findFunction h'
  exact .of_function hy hy' (hdecl'.trans hdecl.symm)

/-- An entity stands for the same declaration later on. -/
theorem label_grows {l : Label} (h : a.label e = some l) (hac : a.Grows c) : c.label e = some l := by
  cases e with
  | function f =>
    obtain ⟨q, hq, rfl⟩ := Option.map_eq_some_iff.1 h
    have hc : c.function? f = some q := (getElem?_of_isPrefix hac.functions (List.getElem?_eq_some_iff.1 hq).1).trans hq
    rw [label, hc]
    rfl
  | object o =>
    obtain ⟨q, hq, rfl⟩ := Option.map_eq_some_iff.1 h
    have hc : c.object? o = some q := (getElem?_of_isPrefix hac.objects (List.getElem?_eq_some_iff.1 hq).1).trans hq
    rw [label, hc]
    rfl

theorem Matches.grows (h : a.Matches b e e') (hac : a.Grows c) : c.Matches b e e' := by
  obtain ⟨l, hl, hl'⟩ := h
  exact ⟨l, label_grows hl hac, hl'⟩

@[simp] theorem within_all (u : ConcreteType) : a.Within b u .all := by
  cases u <;> trivial

theorem Within.eq_all (h : a.Within b .all u) : u = .all := by
  cases u with
  | all => rfl
  | only m => exact h.elim

theorem Within.exists_mem {m : EntitySet} (h : a.Within b u (.only m)) (he : e ∈ u.members) :
    ∃ e' ∈ m, a.Matches b e e' := by
  cases u with
  | all => exact h.elim
  | only m => exact h e he

/-- A finite type is within another if its members match members of the other. -/
theorem Within.of_members {m : EntitySet} (h : ∀ e ∈ m, ∃ e', e' ∈ u ∧ a.Matches b e e') :
    a.Within b (.only m) u := by
  cases u with
  | all => trivial
  | only m' => exact h

theorem within_ofList {l : List Entity} (h : ∀ e ∈ l, ∃ e', e' ∈ u ∧ a.Matches b e e') :
    a.Within b (.ofList l) u :=
  .of_members fun e he => h e (EntitySet.mem_ofList.1 he)

@[simp] theorem within_empty (u : ConcreteType) : a.Within b ∅ u :=
  .of_members fun e he => absurd he (EntitySet.not_mem_empty e)

theorem Within.eq_empty (h : a.Within b u ∅) : u = ∅ := by
  cases u with
  | all => exact h.elim
  | only m =>
    refine ConcreteType.subset_empty fun e he => ?_
    obtain ⟨e', he', -⟩ := h e he
    exact absurd he' (EntitySet.not_mem_empty e')

theorem within_single (h : a.Matches b e e') (he : e' ∈ u) : a.Within b (.single e) u := by
  refine within_ofList fun d hd => ?_
  obtain rfl := List.mem_singleton.1 hd
  exact ⟨e', he, h⟩

theorem Within.of_subset (h : a.Within b u v) (hvw : v ⊆ w) : a.Within b u w := by
  cases w with
  | all => exact within_all u
  | only m =>
    cases v with
    | all => exact hvw.elim
    | only m' =>
      cases u with
      | all => exact h.elim
      | only m'' =>
        intro e he
        obtain ⟨e', he', hmatch⟩ := h e he
        exact ⟨e', hvw e' he', hmatch⟩

theorem Within.union_left (h : a.Within b u w) (k : a.Within b v w) : a.Within b (u ∪ v) w := by
  cases w with
  | all => exact within_all _
  | only m =>
    cases u with
    | all => exact h.elim
    | only m' =>
      cases v with
      | all => exact k.elim
      | only m'' =>
        intro e he
        rcases EntitySet.mem_union.1 he with he | he
        · exact h e he
        · exact k e he

theorem Within.union {u' v' : ConcreteType} (h : a.Within b u u') (k : a.Within b v v') :
    a.Within b (u ∪ v) (u' ∪ v') :=
  (h.of_subset (ConcreteType.subset_union_left ..)).union_left (k.of_subset (ConcreteType.subset_union_right ..))

theorem Within.filter {keep keep' : Entity → Bool} (h : a.Within b u v)
    (hkeep : ∀ e e', a.Matches b e e' → keep e = true → keep' e' = true) :
    a.Within b (u.filter keep) (v.filter keep') := by
  cases v with
  | all => exact within_all _
  | only m' =>
    cases u with
    | all => exact h.elim
    | only m =>
      intro e he
      obtain ⟨hmem, hk⟩ := EntitySet.mem_filter.1 he
      obtain ⟨e', he', hmatch⟩ := h e hmem
      exact ⟨e', EntitySet.mem_filter.2 ⟨he', hkeep e e' hmatch hk⟩, hmatch⟩

theorem Within.grows (h : a.Within b u v) (hac : a.Grows c) : c.Within b u v := by
  cases v with
  | all => exact within_all u
  | only m =>
    cases u with
    | all => exact h.elim
    | only m' =>
      intro e he
      obtain ⟨e', he', hmatch⟩ := h e he
      exact ⟨e', he', hmatch.grows hac⟩

theorem within_unions {us : List ConcreteType} (h : ∀ u ∈ us, a.Within b u w) : a.Within b (.unions us) w := by
  induction us with
  | nil => exact within_empty w
  | cons u us ih =>
    obtain ⟨hu, hus⟩ := List.forall_mem_cons.1 h
    rw [ConcreteType.unions_cons]
    exact hu.union_left (ih hus)

/-! ## Twins -/

/-- **Twins**: slots of the same name, in the scopes of the same owner. -/
def Twins (a b : Analysis) (x x' : SlotId) : Prop :=
  ∃ K n s s', a.Owns K s ∧ b.Owns K s' ∧ a.graph.own s n = some x ∧ b.graph.own s' n = some x'

theorem Twins.grows (h : a.Twins b x x') (hac : a.Grows c) : c.Twins b x x' := by
  obtain ⟨K, n, s, s', hs, hs', hx, hx'⟩ := h
  exact ⟨K, n, s, s', hs.grows hac, hs', hac.graph.own hx, hx'⟩

end Analysis

/-- A slot stands in one scope, under one name. -/
theorem ScopeGraph.Sound.own_inj {g : ScopeGraph} (hg : g.Sound) {m : String} (hs : g.own s n = some x)
    (ht : g.own t m = some x) : s = t ∧ n = m := by
  obtain ⟨c, hc, hx⟩ := mem_slots_of_own hs
  obtain ⟨k, hk, rfl, rfl⟩ := (hg.fits s c hc).slots n x hx
  obtain ⟨c', hc', hx'⟩ := mem_slots_of_own ht
  obtain ⟨k', hk', rfl, rfl⟩ := (hg.fits t c' hc').slots m x hx'
  obtain rfl := Option.some.inj (hk.symm.trans hk')
  exact ⟨rfl, rfl⟩

namespace Analysis

/-- A slot has at most one twin. -/
theorem Twins.unique (h : a.Twins b x x') (h' : a.Twins b x y) (hv : a.Valid p) (hb : b.Tabled) : x' = y := by
  obtain ⟨K, n, s, s', hs, hs', hx, hx'⟩ := h
  obtain ⟨L, m, t, t', ht, ht', hy, hy'⟩ := h'
  obtain ⟨rfl, rfl⟩ := hv.sound.own_inj hx hy
  obtain rfl := hs.kind_eq ht hv
  obtain rfl := hs'.scope_eq ht' hb
  exact Option.some.inj (hx'.symm.trans hy')

theorem owns_body {e : FunctionEntry} {f : FunctionId} (he : e ∈ a.functions) (hdecl : e.decl = f) :
    a.Owns (.body f) e.body := by
  rw [← hdecl]
  exact .body he

theorem owns_object {e : ObjectEntry} {q : ShapeId} (he : e ∈ a.objects) (hshape : e.shape = q) :
    a.Owns (.object q) e.scope := by
  rw [← hshape]
  exact .object he

end Analysis

/-! ## Code in both states -/

/-- The scope of an owner holds text. -/
def Program.HasText (p : Program) (K : ScopeKind) : Prop :=
  K = .global ∨ ∃ f d, K = .body f ∧ p.function? f = some d ∧ d.body ≠ none

theorem Program.hasText_of_mem {f : FunctionId} (h : .function f ∈ Stmt.mentionsAll (p.textOf body K)) : p.HasText K := by
  cases K with
  | global => exact .inl rfl
  | body g =>
    obtain ⟨d, text, hd, ht, -⟩ := Program.mem_textOf_body h
    exact .inr ⟨g, d, rfl, hd, by simp [ht]⟩
  | statics | object => cases h

/-- **Alike actions**: they differ in the numbers of their slots only. -/
inductive Action.Alike (R : SlotId → SlotId → Prop) : Action → Action → Prop
  | assign {x x' : SlotId} (slot : R x x') (value : Expr) : Alike R (.assign x value) (.assign x' value)
  | assignProperty (receiver : Expr) (property : String) (value : Expr) :
      Alike R (.assignProperty receiver property value) (.assignProperty receiver property value)
  | call (callee : Expr) (args : List Expr) : Alike R (.call callee args) (.call callee args)
  | construct (callee : Expr) (args : List Expr) : Alike R (.construct callee args) (.construct callee args)
  | allocate (literal : Expr) : Alike R (.allocate literal) (.allocate literal)
  | ret {x x' : SlotId} (slot : R x x') (value : Expr) : Alike R (.ret x value) (.ret x' value)
  | declareFunction {x x' : SlotId} (slot : R x x') (f : FunctionId) :
      Alike R (.declareFunction x f) (.declareFunction x' f)
  | declaredFlow {x x' : SlotId} (slot : R x x') (d : DeclaredType) :
      Alike R (.declaredFlow x d) (.declaredFlow x' d)

theorem Action.alike_self {R : SlotId → SlotId → Prop} {A : Action} (h : ∀ x ∈ A.slot?, R x x) : A.Alike R A := by
  cases A with
  | assign x value => exact .assign (h x rfl) value
  | assignProperty receiver property value => exact .assignProperty receiver property value
  | call callee args => exact .call callee args
  | construct callee args => exact .construct callee args
  | allocate literal => exact .allocate literal
  | ret x value => exact .ret (h x rfl) value
  | declareFunction x f => exact .declareFunction (h x rfl) f
  | declaredFlow x d => exact .declaredFlow (h x rfl) d

/-- A part calls for alike actions wherever names stand for related slots. -/
theorem Part.Gives.alike {R : SlotId → SlotId → Prop} {r : Part} {g h : ScopeGraph} {A A' : Action}
    (hr : r.Gives p s g g A) (hr' : r.Gives p s' h h A') (hown : ∀ n, Option.Rel R (g.own s n) (h.own s' n))
    (hlookup : ∀ n, Option.Rel R (g.lookup s n) (h.lookup s' n))
    (hroot : ∀ n, Option.Rel R (g.own .global n) (h.own .global n)) : A.Alike R A' := by
  have related {o o' : Option SlotId} {x x' : SlotId} (hrel : Option.Rel R o o') (hx : o = some x) (hx' : o' = some x') :
      R x x' := by
    rw [hx, hx'] at hrel
    cases hrel with
    | some h => exact h
  cases hr with
  | call => cases hr'; exact .call ..
  | construct => cases hr'; exact .construct ..
  | object => cases hr'; exact .allocate _
  | array => cases hr'; exact .allocate _
  | entry => cases hr'; exact .assignProperty ..
  | @name n value _ _ x aims =>
    cases hr' with
    | name aims' =>
      refine .assign ?_ value
      have hrel := hlookup n
      rcases aims_iff.1 aims with hx | ⟨hnone, hx⟩
      · rcases aims_iff.1 aims' with hx' | ⟨hnone', -⟩
        · exact related hrel hx hx'
        · rw [hx, hnone'] at hrel
          cases hrel
      · rcases aims_iff.1 aims' with hx' | ⟨-, hx'⟩
        · rw [hnone, hx'] at hrel
          cases hrel
        · exact related (hroot n) hx hx'
  | property => cases hr'; exact .assignProperty ..
  | var own =>
    cases hr' with
    | var own' => exact .assign (related (hown _) own own') _
  | ret own =>
    cases hr' with
    | ret own' => exact .ret (related (hown _) own own') _
  | function decl name own =>
    cases hr' with
    | function decl' name' own' =>
      obtain rfl := Option.some.inj (decl.symm.trans decl')
      obtain rfl := Option.some.inj (name.symm.trans name')
      exact .declareFunction (related (hown _) own own') _

namespace Analysis

variable (ha : a.Chart p body base) (hb : b.Chart p body base)
include ha hb

/-- **The scopes of one owner of code declare the same names.** -/
theorem Chart.own_rel (hK : K.isCode = true) (hs : a.Owns K s) (hs' : b.Owns K s') (n : String) :
    Option.Rel (a.Twins b) (a.graph.own s n) (b.graph.own s' n) := by
  have hnone : a.graph.own s n = none ↔ b.graph.own s' n = none := by
    obtain ⟨_, hscope⟩ := hs.hasScope ha.valid
    obtain ⟨_, hscope'⟩ := hs'.hasScope hb.valid
    cases K with
    | global =>
      -- nothing is declared globally once the run has begun
      obtain rfl := hs.scope_eq .global ha.tabled
      obtain rfl := hs'.scope_eq .global hb.tabled
      obtain ⟨c, hc, hc'⟩ := ha.ground.lexed.root_code
      unfold ScopeGraph.own
      rw [ha.fixed _ c hc hc', hb.fixed _ c hc hc']
    | body f =>
      obtain ⟨e, entry, rfl, rfl⟩ := hs.exists_body
      obtain ⟨e', entry', hdecl, rfl⟩ := hs'.exists_body
      obtain ⟨⟨d, hd⟩, -⟩ := ha.scripted _ entry
      obtain ⟨⟨d', hd'⟩, -⟩ := hb.scripted _ entry'
      obtain rfl : d = d' := Option.some.inj (hd.decl.symm.trans (hdecl ▸ hd'.decl))
      rw [ScopeGraph.own_eq_none_iff hscope.lt, ScopeGraph.own_eq_none_iff hscope'.lt, hd.layout.names, hd'.layout.names]
    | statics | object => cases hK
  cases hx : a.graph.own s n with
  | none =>
    rw [hnone.1 hx]
    exact .none
  | some x =>
    cases hx' : b.graph.own s' n with
    | none => rw [hnone.2 hx'] at hx; cases hx
    | some x' => exact .some ⟨K, n, s, s', hs, hs', hx, hx'⟩

/-- **Names stand for twins** in text of the same owner. -/
theorem Chart.lookup_rel (hp : p.StandsOnce ambient body) (hK : p.HasText K) (hs : a.Owns K s) (hs' : b.Owns K s')
    (n : String) : Option.Rel (a.Twins b) (a.graph.lookup s n) (b.graph.lookup s' n) := by
  induction s using ha.valid.sound.ordered.parent_induction generalizing K s' with
  | hP s ih =>
    have hcode : K.isCode = true := by
      rcases hK with rfl | ⟨f, d, rfl, -⟩ <;> rfl
    have hown := ha.own_rel hb hcode hs hs' n
    rw [ha.valid.sound.lookup_eq, hb.valid.sound.lookup_eq]
    generalize a.graph.own s n = x at hown
    generalize b.graph.own s' n = x' at hown
    cases hown with
    | some htwins => exact .some htwins
    | none =>
      rw [Option.none_or, Option.none_or]
      rcases hK with rfl | ⟨f, d, rfl, hd, hbody⟩
      · obtain rfl := hs.scope_eq .global ha.tabled
        obtain rfl := hs'.scope_eq .global hb.tabled
        rw [ha.valid.root.parent?_eq, hb.valid.root.parent?_eq]
        exact .none
      · obtain ⟨e, entry, rfl, rfl⟩ := hs.exists_body
        obtain ⟨e', entry', hdecl, rfl⟩ := hs'.exists_body
        obtain ⟨⟨_, hscripted⟩, L, hL, -, hhoused⟩ := ha.scripted _ entry
        obtain ⟨⟨_, hscripted'⟩, L', hL', -, hhoused'⟩ := hb.scripted _ entry'
        have hparent := hscripted.scope.parent?_eq
        rw [hparent, hscripted'.scope.parent?_eq]
        -- the function stands in the same text in both
        have hmem := hhoused d hd hbody
        have hmem' := hhoused' d (hdecl ▸ hd) hbody
        rw [hdecl] at hmem'
        obtain rfl := hp.owner_eq hmem hmem'
        exact ih _ hparent (Program.hasText_of_mem hmem) hL hL'

/-- The parameters of a function are twins. -/
theorem Chart.params_rel {e e' : FunctionEntry} (he : e ∈ a.functions) (he' : e' ∈ b.functions) (hdecl : e'.decl = e.decl) :
    List.Forall₂ (a.Twins b) (a.graph.paramsOf e.body) (b.graph.paramsOf e'.body) := by
  obtain ⟨⟨d, hd⟩, -⟩ := ha.scripted _ he
  obtain ⟨⟨d', hd'⟩, -⟩ := hb.scripted _ he'
  obtain rfl : d = d' := Option.some.inj (hd.decl.symm.trans (hdecl ▸ hd'.decl))
  have hown (n : String) := ha.own_rel hb rfl (.body he) (owns_body he' hdecl) n
  have hparams := hd.layout.params
  have hparams' := hd'.layout.params
  revert hparams hparams'
  generalize a.graph.paramsOf e.body = xs
  generalize b.graph.paramsOf e'.body = xs'
  generalize d.params = names
  intro hparams hparams'
  induction names generalizing xs xs' with
  | nil =>
    rw [List.map_nil, List.map_eq_nil_iff] at hparams hparams'
    rw [hparams, hparams']
    exact .nil
  | cons n names ih =>
    rw [List.map_cons, List.map_eq_cons_iff] at hparams hparams'
    obtain ⟨x, rest, rfl, hx, hrest⟩ := hparams
    obtain ⟨x', rest', rfl, hx', hrest'⟩ := hparams'
    have h := hown n
    rw [← hx, ← hx'] at h
    cases h with
    | some htwins => exact .cons htwins (ih _ _ hrest hrest')

/-- **The scopes of one owner have alike actions.** -/
theorem Chart.alike (hp : p.StandsOnce ambient body) (hs : a.Owns K s) (hs' : b.Owns K s') {A : Action}
    (hA : A ∈ a.graph.actionsOf s) : ∃ A' ∈ b.graph.actionsOf s', A.Alike (a.Twins b) A' := by
  have hK := (ha.stage hs hA).code
  cases K with
  | global =>
    obtain rfl := hs.scope_eq .global ha.tabled
    obtain rfl := hs'.scope_eq .global hb.tabled
    obtain ⟨c, hc, hc'⟩ := ha.ground.lexed.root_code
    have hactions {g : ScopeGraph} (hg : base.Fixes g) : g.actionsOf .global = base.actionsOf .global := by
      unfold ScopeGraph.actionsOf
      rw [hc, hg _ c hc hc']
    have hown {g : ScopeGraph} (hg : base.Fixes g) (n : String) : g.own .global n = base.own .global n := by
      unfold ScopeGraph.own
      rw [hc, hg _ c hc hc']
    rw [hactions ha.fixed] at hA
    refine ⟨A, by rwa [hactions hb.fixed], Action.alike_self fun x hx => ?_⟩
    -- the slots of the ground are global ones
    have hlt : x.index < base.slots.length := by
      refine (ha.ground.lexed.sound.fits .global c hc).actions A ?_ x hx
      unfold ScopeGraph.actionsOf at hA
      rwa [hc] at hA
    have hslot : base.slot? x = some _ := List.getElem?_eq_getElem hlt
    have hbound := ha.ground.lexed.sound.bound x _ hslot
    obtain ⟨d, hd, -⟩ := ScopeGraph.mem_slots_of_own hbound
    rw [ha.ground.only _ d hd] at hbound
    exact ⟨.global, _, .global, .global, .global, .global, (hown ha.fixed _).trans hbound, (hown hb.fixed _).trans hbound⟩
  | body f =>
    have hown := ha.own_rel hb hK hs hs'
    obtain ⟨e, entry, rfl, rfl⟩ := hs.exists_body
    obtain ⟨e', entry', hdecl, rfl⟩ := hs'.exists_body
    obtain ⟨⟨d, hd⟩, -⟩ := ha.scripted _ entry
    obtain ⟨⟨d', hd'⟩, -⟩ := hb.scripted _ entry'
    obtain rfl : d = d' := Option.some.inj (hd.decl.symm.trans (hdecl ▸ hd'.decl))
    cases htext : d.body with
    | none =>
      obtain ⟨x, hx, hflow⟩ := hd.ambient htext
      obtain ⟨x', hx', hflow'⟩ := hd'.ambient htext
      rw [hflow] at hA
      obtain rfl := List.mem_singleton.1 hA
      rw [hflow']
      exact ⟨_, List.mem_singleton_self _, .declaredFlow ⟨_, _, _, _, hs, hs', hx, hx'⟩ _⟩
    | some text =>
      obtain ⟨log, hlog, hlogs⟩ := hd.written text htext
      obtain ⟨log', hlog', hlogs'⟩ := hd'.written text htext
      rw [hlog] at hA
      obtain ⟨q, hq, rfl⟩ := List.mem_map.1 hA
      -- the other log has the place too
      obtain ⟨r, hr, hgives⟩ := hlogs.right q hq
      have hplace := (hlogs.places q.1).1 (List.mem_map_of_mem hq)
      obtain ⟨q', hq', hplace'⟩ := List.mem_map.1 ((hlogs'.places q.1).2 hplace)
      obtain ⟨r', hr', hgives'⟩ := hlogs'.right q' hq'
      rw [hplace', hr] at hr'
      obtain rfl := Option.some.inj hr'
      have hK : p.HasText (.body e.decl) := .inr ⟨_, d, rfl, hd.decl, by simp [htext]⟩
      refine ⟨q'.2, by rw [hlog']; exact List.mem_map_of_mem hq', ?_⟩
      exact hgives.alike hgives' hown (ha.lookup_rel hb hp hK hs hs') (ha.own_rel hb rfl .global .global)
  | statics | object => cases hK

omit hb in
/-- Where no text stands, values only flow from declared types. -/
theorem Chart.hasText (hs : a.Owns K s) {A : Action} (hA : A ∈ a.graph.actionsOf s) :
    p.HasText K ∨ ∃ x d, A = .declaredFlow x d := by
  have hK := (ha.stage hs hA).code
  cases K with
  | global => exact .inl (.inl rfl)
  | body f =>
    obtain ⟨e, entry, rfl, rfl⟩ := hs.exists_body
    obtain ⟨⟨d, hd⟩, -⟩ := ha.scripted _ entry
    cases htext : d.body with
    | none =>
      obtain ⟨x, -, hflow⟩ := hd.ambient htext
      rw [hflow] at hA
      exact .inr ⟨x, _, List.mem_singleton.1 hA⟩
    | some text => exact .inl (.inr ⟨_, d, rfl, hd.decl, by simp [htext]⟩)
  | statics | object => cases hK

end Analysis

end TypeFlow
