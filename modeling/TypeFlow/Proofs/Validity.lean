import TypeFlow.Proofs.Steps

/-!
# Valid states

In every state of an analysis each entity has its scopes, and scopes inherit where their
entities do (`Analysis.Wired`); types list only entities that exist, and what is remembered is
what would be computed (`Analysis.Valid`).

* `Step.wired`, `Step.valid`: a step keeps a state wired and valid.
* `Changes.valid`: so does any number of steps and joins.
-/

namespace TypeFlow

variable {p : Program} {w : Bool} {a b : Analysis}

/-! ## Finding entities -/

namespace Analysis

theorem findObject_append {s q : ShapeId} {scope : ScopeId} {g : ScopeGraph}
    (h : a.findObject s = none) :
    Analysis.findObject { a with graph := g, objects := a.objects ++ [⟨s, scope⟩] } q =
      if q = s then some ⟨a.objects.length⟩ else a.findObject q := by
  unfold findObject at h ⊢
  rw [Option.map_eq_none_iff] at h
  simp only [List.findIdx?_append]
  by_cases hq : q = s
  · subst hq
    simp [h]
  · rw [if_neg hq]
    cases hf : a.objects.findIdx? (·.shape = q) with
    | none => simp [Ne.symm hq]
    | some i => rfl

theorem findFunction_append {f : FunctionId} (h : a.findFunction f = none) {e : FunctionEntry}
    (he : e.decl = f) (hb : b.functions = a.functions ++ [e]) :
    b.findFunction f = some ⟨a.functions.length⟩ := by
  unfold findFunction at h ⊢
  rw [Option.map_eq_none_iff] at h
  rw [hb, List.findIdx?_append, h]
  simp [he]

theorem findObject_of_isPrefix {s : ShapeId} {o : ObjRef} (h : a.findObject s = some o)
    (hab : a.objects <+: b.objects) : b.findObject s = some o := by
  obtain ⟨l, hl⟩ := hab
  unfold findObject at h ⊢
  obtain ⟨i, hi, rfl⟩ := Option.map_eq_some_iff.1 h
  rw [← hl, List.findIdx?_append, hi]
  rfl

theorem findFunction_of_isPrefix {f : FunctionId} {r : FnRef} (h : a.findFunction f = some r)
    (hab : a.functions <+: b.functions) : b.findFunction f = some r := by
  obtain ⟨l, hl⟩ := hab
  unfold findFunction at h ⊢
  obtain ⟨i, hi, rfl⟩ := Option.map_eq_some_iff.1 h
  rw [← hl, List.findIdx?_append, hi]
  rfl

theorem getElem?_of_isPrefix {α : Type} {l m : List α} (h : l <+: m) {i : Nat} (hi : i < l.length) :
    m[i]? = l[i]? := by
  obtain ⟨k, rfl⟩ := h
  exact List.getElem?_append_left hi

theorem has_of_findObject {s : ShapeId} {o : ObjRef} (h : a.findObject s = some o) :
    a.Has (.object o) := by
  obtain ⟨i, hi, rfl⟩ := Option.map_eq_some_iff.1 h
  exact (List.findIdx?_eq_some_iff_getElem.1 hi).1

theorem has_of_findFunction {f : FunctionId} {r : FnRef} (h : a.findFunction f = some r) :
    a.Has (.function r) := by
  obtain ⟨i, hi, rfl⟩ := Option.map_eq_some_iff.1 h
  exact (List.findIdx?_eq_some_iff_getElem.1 hi).1

/-- The scope of an object stays the same. -/
theorem objectScope_of_isPrefix {s : ShapeId} (h : a.findObject s ≠ none)
    (hab : a.objects <+: b.objects) : b.objectScope s = a.objectScope s := by
  obtain ⟨o, ho⟩ := Option.ne_none_iff_exists'.1 h
  unfold objectScope
  rw [findObject_of_isPrefix ho hab, ho]
  exact congrArg (Option.map _) (getElem?_of_isPrefix hab (has_of_findObject ho))

theorem Provides.grows {shape : Option ShapeId} {r : Option ObjRef} (h : a.Provides shape r)
    (hab : a.Grows b) : b.Provides shape r := by
  cases shape with
  | none => exact h
  | some s =>
    obtain ⟨o, ho, hr⟩ := h
    exact ⟨o, findObject_of_isPrefix ho hab.objects, hr⟩

theorem Provides.has {shape : Option ShapeId} {r : Option ObjRef} (h : a.Provides shape r) {o : ObjRef}
    (hr : r = some o) : a.Has (.object o) := by
  cases shape with
  | none =>
    rw [show r = none from h] at hr
    cases hr
  | some s =>
    obtain ⟨q, hq, rfl⟩ := h
    cases hr
    exact has_of_findObject hq

end Analysis

/-! ## Wiring -/

/-- The graph has a scope of this kind, inside this parent. -/
def ScopeGraph.HasScope (g : ScopeGraph) (s : ScopeId) (kind : ScopeKind) (parent : Option ScopeId) :
    Prop :=
  ∃ c, g.scope? s = some c ∧ c.kind = kind ∧ c.parent = parent

/-- A function has its scopes and its objects. -/
structure FunctionEntry.Placed (p : Program) (a : Analysis) (e : FunctionEntry) (d : FunctionDecl) :
    Prop where
  decl : p.function? e.decl = some d
  body : a.graph.HasScope e.body (.body e.decl) (some e.parent)
  statics : a.graph.HasScope e.statics (.statics e.decl) none
  prototype : a.Provides d.prototypeShape e.prototype
  object : a.Provides d.objectShape e.object

/-- An object has its scope, inside that of its prototype, with the properties of its shape. -/
structure ObjectEntry.Placed (p : Program) (a : Analysis) (e : ObjectEntry) (d : ShapeDecl) :
    Prop where
  decl : p.shape? e.shape = some d
  scope : a.graph.HasScope e.scope (.object e.shape) (d.proto.bind a.objectScope)
  proto : ∀ t ∈ d.proto, a.findObject t ≠ none
  names : ∀ n ∈ d.properties, ∃ x, a.graph.own e.scope n = some x

/-- **A state is wired** if its graph is sound and every entity is placed in it. -/
structure Analysis.Wired (p : Program) (a : Analysis) : Prop where
  sound : a.graph.Sound
  root : a.graph.HasScope .global .global none
  functions : ∀ e ∈ a.functions, ∃ d, e.Placed p a d
  objects : ∀ e ∈ a.objects, ∃ d, e.Placed p a d

theorem ScopeGraph.HasScope.grows {g h : ScopeGraph} {s : ScopeId} {kind : ScopeKind}
    {parent : Option ScopeId} (hs : g.HasScope s kind parent) (hgh : g.Grows h) :
    h.HasScope s kind parent := by
  obtain ⟨c, hc, hk, hp⟩ := hs
  obtain ⟨d, hd, hcd⟩ := hgh.scopes s.index c hc
  exact ⟨d, hd, hcd.kind.trans hk, hcd.parent.trans hp⟩

theorem ScopeGraph.HasScope.lt {g : ScopeGraph} {s : ScopeId} {kind : ScopeKind}
    {parent : Option ScopeId} (hs : g.HasScope s kind parent) : s.index < g.scopes.length := by
  obtain ⟨c, hc, -⟩ := hs
  exact ScopeGraph.scope_lt hc

theorem FunctionEntry.Placed.grows {e : FunctionEntry} {d : FunctionDecl} (h : e.Placed p a d)
    (hab : a.Grows b) : e.Placed p b d :=
  ⟨h.decl, h.body.grows hab.graph, h.statics.grows hab.graph, h.prototype.grows hab,
    h.object.grows hab⟩

theorem ObjectEntry.Placed.grows {e : ObjectEntry} {d : ShapeDecl} (h : e.Placed p a d)
    (hab : a.Grows b) : e.Placed p b d := by
  have hscope : d.proto.bind b.objectScope = d.proto.bind a.objectScope := by
    cases ht : d.proto with
    | none => rfl
    | some t => exact Analysis.objectScope_of_isPrefix (h.proto t ht) hab.objects
  refine ⟨h.decl, hscope ▸ h.scope.grows hab.graph, fun t ht hn => ?_, fun n hn => ?_⟩
  · obtain ⟨o, ho⟩ := Option.ne_none_iff_exists'.1 (h.proto t ht)
    rw [Analysis.findObject_of_isPrefix ho hab.objects] at hn
    cases hn
  · obtain ⟨x, hx⟩ := h.names n hn
    exact ⟨x, hab.graph.own hx⟩

theorem ScopeGraph.Sound.setType {g : ScopeGraph} (hg : g.Sound) (x : SlotId) (t : ConcreteType) :
    (g.setType x t).Sound := by
  refine ⟨fun s c hc => ?_, fun y k hk => ?_⟩
  · have hf := hg.fits s c hc
    refine ⟨hf.parent, fun n y hy => ?_, hf.distinct, hf.params, fun a ha y hy => ?_⟩
    · obtain ⟨k, hk, hn, ho⟩ := hf.slots n y hy
      rw [ScopeGraph.slot?_setType, hk, Option.map_some]
      refine ⟨_, rfl, ?_⟩
      split
      · exact ⟨hn, ho⟩
      · exact ⟨hn, ho⟩
    · have hlt := hf.actions a ha y hy
      rwa [ScopeGraph.setType, List.length_modify]
  · rw [ScopeGraph.slot?_setType] at hk
    obtain ⟨d, hd, rfl⟩ := Option.map_eq_some_iff.1 hk
    have hb : (g.setType x t).own d.owner d.name = some y := hg.bound y d hd
    split
    · exact hb
    · exact hb

theorem ScopeGraph.Sound.unionInto {g : ScopeGraph} (hg : g.Sound) (x : SlotId) (t : ConcreteType) :
    (g.unionInto x t).2.Sound := by
  rw [ScopeGraph.unionInto_snd]
  exact hg.setType x _

theorem ScopeGraph.Sound.joinOwn {g : ScopeGraph} (hg : g.Sound) (s : ScopeId) (n : String)
    (t : ConcreteType) : (g.joinOwn s n t).Sound := by
  unfold ScopeGraph.joinOwn
  split
  · exact hg.unionInto _ t
  · exact hg

namespace Analysis

theorem fresh_wired (p : Program) : Wired p fresh := by
  refine ⟨⟨fun s c hc => ?_, fun x k hk => by cases hk⟩, ⟨_, rfl, rfl, rfl⟩,
    fun _ h => absurd h List.not_mem_nil, fun _ h => absurd h List.not_mem_nil⟩
  have hs := ScopeGraph.scope_lt hc
  obtain rfl : s = .global := by
    cases s
    simp [fresh] at hs
    simp [hs, ScopeId.global]
  cases hc
  refine ⟨?_, ?_, .nil, ?_, ?_⟩ <;> simp

/-- What is placed stays placed, so only new entries have to be looked at. -/
theorem Wired.grows (hw : a.Wired p) (hab : a.Grows b) (hg : b.graph.Sound)
    (hf : ∀ e ∈ b.functions, e ∈ a.functions ∨ ∃ d, e.Placed p b d)
    (ho : ∀ e ∈ b.objects, e ∈ a.objects ∨ ∃ d, e.Placed p b d) : b.Wired p := by
  refine ⟨hg, hw.root.grows hab.graph, fun e he => ?_, fun e he => ?_⟩
  · rcases hf e he with h | h
    · obtain ⟨d, hd⟩ := hw.functions e h
      exact ⟨d, hd.grows hab⟩
    · exact h
  · rcases ho e he with h | h
    · obtain ⟨d, hd⟩ := hw.objects e h
      exact ⟨d, hd.grows hab⟩
    · exact h

theorem Wired.root_lt (hw : a.Wired p) (t : ScopeId) (ht : t = .global) :
    t.index < a.graph.scopes.length := by
  rw [ht]
  exact hw.root.lt

/-- Only the graph changes. -/
theorem Wired.build (hw : a.Wired p) {g : ScopeGraph} (hag : a.graph.Grows g) (hg : g.Sound) :
    Wired p { a with graph := g } :=
  hw.grows ⟨hag, List.prefix_rfl, List.prefix_rfl, List.prefix_rfl⟩ hg (fun _ => .inl) (fun _ => .inl)

theorem Wired.objectScope_lt (hw : a.Wired p) {s : ShapeId} {t : ScopeId}
    (h : a.objectScope s = some t) : t.index < a.graph.scopes.length := by
  obtain ⟨e, he, rfl⟩ := Option.map_eq_some_iff.1 h
  obtain ⟨o, -, ho⟩ := Option.bind_eq_some_iff.1 he
  obtain ⟨d, hd⟩ := hw.objects e (List.mem_of_getElem? ho)
  exact hd.scope.lt

end Analysis

open Analysis in
theorem Step.wired (h : Step p w a b) (hw : a.Wired p) : b.Wired p := by
  have hab := h.grows
  cases h with
  | @object s d parent scope g decl new proto found older built =>
    refine hw.grows hab ((object_builds older built).sound (fun _ => False.elim) hw.sound) (fun _ => .inl) fun e he => ?_
    rcases List.mem_append.1 he with h1 | h1
    · exact .inl h1
    · rw [List.mem_singleton.1 h1]
      obtain ⟨-, -, hown, c, hc, hk, hp⟩ := GraphM.addObjectScope_ok built
      have hscope : d.proto.bind a.objectScope = d.proto.bind
          (objectScope { a with graph := g, objects := a.objects ++ [⟨s, scope⟩] }) := by
        cases ht : d.proto with
        | none => rfl
        | some t => exact (objectScope_of_isPrefix (found t ht) hab.objects).symm
      refine .inr ⟨d, decl, ⟨c, hc, hk, hp.trans (proto.trans hscope)⟩, fun t ht hn => ?_, hown⟩
      obtain ⟨o, ho⟩ := Option.ne_none_iff_exists'.1 (found t ht)
      rw [findObject_of_isPrefix ho hab.objects] at hn
      cases hn
  | @function f d parent statics body object prototype g h decl new hp ho older hs hb =>
    have hbuild := function_builds (E := fun _ => True) trivial older hs (finalState_ok hb)
    refine hw.grows hab ((hbuild.sound hw.root_lt hw.sound).joinOwn _ _ _) (fun e he => ?_) (fun _ => .inl)
    rcases List.mem_append.1 he with h1 | h1
    · exact .inl h1
    · rw [List.mem_singleton.1 h1]
      obtain ⟨-, hbody⟩ := GraphM.addBodyScope_ok hb
      have hstatics : g.HasScope statics (.statics f) none := by
        cases hs
        exact ⟨_, List.getElem?_concat_length, rfl, rfl⟩
      have hgh : g.Grows h := by
        have hlt : parent.index < g.scopes.length := by
          cases hs
          simpa using Nat.lt_succ_of_lt older
        have hh := GraphM.addBodyScope_builds (D := (· = .global)) (E := fun _ => True) rfl trivial p f d hlt
        rw [finalState_ok hb] at hh
        exact hh.grows
      have hjoin := ScopeGraph.joinOwn_grows h body SlotName.callee (.function ⟨a.functions.length⟩)
      exact .inr ⟨d, decl, ScopeGraph.HasScope.grows hbody hjoin, (hstatics.grows hgh).grows hjoin,
        hp.grows hab, ho.grows hab⟩
  | @property s name x g _ owner built =>
    have hg := (GraphM.declare_builds (D := (· = s)) (E := fun _ => False) rfl name).ok built
    refine hw.build hg.grows (hg.sound ?_ hw.sound)
    rintro t rfl
    rcases owner with ⟨e, he, rfl, -⟩ | ⟨e, he, rfl⟩
    · obtain ⟨d, hd⟩ := hw.objects e he
      exact hd.scope.lt
    · obtain ⟨d, hd⟩ := hw.functions e he
      exact hd.statics.lt
  | allocate known new => exact hw.grows hab hw.sound (fun _ => .inl) (fun _ => .inl)
  | remember d known => exact hw.grows hab hw.sound (fun _ => .inl) (fun _ => .inl)

/-! ## Validity -/

namespace Analysis

/-- **A state is valid** if it is wired, everything it lists exists, and what it remembers is
what narrowing would give now. -/
structure Valid (p : Program) (a : Analysis) : Prop extends a.Wired p where
  slots : ∀ x ∈ a.graph.slots, a.Knows x.type
  allocated : ∀ o ∈ a.allocated, a.Has (.object o)
  fresh : ∀ n ∈ a.narrowings, a.Knows n.type ∧ n.result = a.narrowed p n.type n.declared

/-- **A state is honest** if it remembers nothing but what narrowing would give now. -/
def Honest (p : Program) (a : Analysis) : Prop :=
  ∀ n ∈ a.narrowings, n.result = a.narrowed p n.type n.declared

theorem Valid.honest (hv : a.Valid p) : a.Honest p := fun n hn => (hv.fresh n hn).2

theorem Honest.remembered_eq (h : a.Honest p) {t r : ConcreteType} {d : DeclaredType}
    (hr : a.remembered t d = some r) : r = a.narrowed p t d := by
  obtain ⟨n, hn, rfl⟩ := Option.map_eq_some_iff.1 hr
  have hcond := List.find?_some hn
  obtain ⟨rfl, rfl⟩ := of_decide_eq_true hcond
  exact h n (List.mem_of_find?_eq_some hn)

theorem fresh_valid (p : Program) : Valid p fresh :=
  ⟨fresh_wired p, fun _ h => absurd h List.not_mem_nil, fun _ h => absurd h List.not_mem_nil,
    fun _ h => absurd h List.not_mem_nil⟩

theorem Has.mono {e : Entity} (h : a.Has e) (hf : a.functions <+: b.functions)
    (ho : a.objects <+: b.objects) : b.Has e := by
  cases e with
  | function f => exact Nat.lt_of_lt_of_le h hf.length_le
  | object o => exact Nat.lt_of_lt_of_le h ho.length_le

theorem Knows.mono {t : ConcreteType} (h : a.Knows t) (hf : a.functions <+: b.functions)
    (ho : a.objects <+: b.objects) : b.Knows t :=
  fun e he => (h e he).mono hf ho

theorem Has.grows {e : Entity} (h : a.Has e) (hab : a.Grows b) : b.Has e :=
  h.mono hab.functions hab.objects

theorem Knows.grows {t : ConcreteType} (h : a.Knows t) (hab : a.Grows b) : b.Knows t :=
  h.mono hab.functions hab.objects

@[simp] theorem knows_all (a : Analysis) : a.Knows .all := fun _ h => absurd h List.not_mem_nil

@[simp] theorem knows_empty (a : Analysis) : a.Knows ∅ := fun _ h => absurd h List.not_mem_nil

theorem knows_only {s : EntitySet} : a.Knows (.only s) ↔ ∀ e ∈ s, a.Has e := .rfl

theorem Knows.union {t u : ConcreteType} (ht : a.Knows t) (hu : a.Knows u) : a.Knows (t ∪ u) := by
  cases t with
  | all => rw [ConcreteType.all_union]; exact knows_all a
  | only s =>
    cases u with
    | all => rw [ConcreteType.union_all]; exact knows_all a
    | only r =>
      rw [ConcreteType.only_union_only, knows_only]
      intro e he
      exact (EntitySet.mem_union.1 he).elim (ht e) (hu e)

theorem knows_ofList {l : List Entity} (h : ∀ e ∈ l, a.Has e) : a.Knows (.ofList l) :=
  knows_only.2 fun e he => h e (EntitySet.mem_ofList.1 he)

theorem knows_single {e : Entity} (h : a.Has e) : a.Knows (.single e) :=
  knows_ofList fun _ hx => List.mem_singleton.1 hx ▸ h

theorem Knows.filter {t : ConcreteType} (h : a.Knows t) (keep : Entity → Bool) :
    a.Knows (t.filter keep) := by
  cases t with
  | all => exact knows_all a
  | only s => exact knows_only.2 fun e he => h e (EntitySet.mem_filter.1 he).1

/-- Whether an entity is admitted depends on its own entry only. -/
theorem admits_congr {e : Entity} (h : a.Has e) (hf : a.functions <+: b.functions)
    (ho : a.objects <+: b.objects) (x : Admission) : b.admits p x e = a.admits p x e := by
  cases e with
  | function f => simp only [admits, function?, getElem?_of_isPrefix hf h]
  | object o => simp only [admits, object?, getElem?_of_isPrefix ho h]

theorem has_of_mem_present (hal : ∀ o ∈ a.allocated, a.Has (.object o)) {e : Entity}
    (he : e ∈ a.present) : a.Has e := by
  rcases List.mem_append.1 he with h | h
  · obtain ⟨o, ho, rfl⟩ := List.mem_map.1 h
    exact hal o ho
  · obtain ⟨i, hi, rfl⟩ := List.mem_map.1 h
    exact List.mem_range.1 hi

theorem expand_congr (hal : ∀ o ∈ a.allocated, a.Has (.object o)) (hf : b.functions = a.functions)
    (ho : a.objects <+: b.objects) (hb : b.allocated = a.allocated) (x : Admission) :
    b.expand p x = a.expand p x := by
  have hp : b.present = a.present := by unfold present; rw [hf, hb]
  unfold expand
  rw [hp]
  refine congrArg _ (List.filter_congr fun e he => ?_)
  exact admits_congr (has_of_mem_present hal he) (hf ▸ List.prefix_rfl) ho x

/-- Narrowing depends on the functions and the allocated objects, and otherwise only on the
members of the type. -/
theorem narrowed_congr {t : ConcreteType} (ht : a.Knows t) (hal : ∀ o ∈ a.allocated, a.Has (.object o))
    (hf : b.functions = a.functions) (ho : a.objects <+: b.objects) (hb : b.allocated = a.allocated)
    (d : DeclaredType) : b.narrowed p t d = a.narrowed p t d := by
  have hx := expand_congr (p := p) hal hf ho hb (Admission.ofDeclared p d)
  cases t with
  | all => simp only [narrowed, hx]
  | only s =>
    have hm : (ConcreteType.only s).filter (b.admits p (Admission.ofDeclared p d)) =
        (ConcreteType.only s).filter (a.admits p (Admission.ofDeclared p d)) :=
      ConcreteType.filter_congr fun e he => admits_congr (ht e he) (hf ▸ List.prefix_rfl) ho _
    simp only [narrowed, hm]

theorem Valid.knows_narrowed (hv : a.Valid p) {t : ConcreteType} (ht : a.Knows t) (d : DeclaredType) :
    a.Knows (a.narrowed p t d) := by
  cases t with
  | all =>
    simp only [narrowed]
    split
    · exact knows_all a
    · exact knows_ofList fun e he => has_of_mem_present hv.allocated (List.mem_filter.1 he).1
  | only s =>
    simp only [narrowed]
    split
    · exact ht
    · exact ht.filter _

theorem Valid.knows_typeOf (hv : a.Valid p) (x : SlotId) : a.Knows (a.graph.typeOf x) := by
  unfold ScopeGraph.typeOf
  cases hx : a.graph.slot? x with
  | none => exact knows_empty a
  | some c => exact hv.slots c (List.mem_of_getElem? hx)

theorem Valid.knows_typeOr (hv : a.Valid p) {missing : ConcreteType} (hm : a.Knows missing)
    (x : Option SlotId) : a.Knows (a.typeOr missing x) := by
  cases x with
  | none => exact hm
  | some x => exact hv.knows_typeOf x

/-- The slots of a graph that was only built on hold known types if the old ones did. -/
theorem knows_of_builds {D E : ScopeId → Prop} {g h : ScopeGraph} (hg : g.Builds D E h)
    (hk : ∀ x ∈ g.slots, a.Knows x.type) : ∀ x ∈ h.slots, a.Knows x.type := by
  obtain ⟨new, hn, hnew⟩ := hg.slots
  intro x hx
  rw [hn] at hx
  rcases List.mem_append.1 hx with h1 | h1
  · exact hk x h1
  · rw [hnew x h1]
    exact knows_empty a

theorem knows_setType {g : ScopeGraph} {x : SlotId} {t : ConcreteType} (ht : a.Knows t)
    (hk : ∀ c ∈ g.slots, a.Knows c.type) : ∀ c ∈ (g.setType x t).slots, a.Knows c.type := by
  intro c hc
  obtain ⟨i, hi⟩ := List.mem_iff_getElem?.1 hc
  have hi : (g.setType x t).slot? ⟨i⟩ = some c := hi
  rw [ScopeGraph.slot?_setType] at hi
  obtain ⟨d, hd, rfl⟩ := Option.map_eq_some_iff.1 hi
  split
  · exact ht
  · exact hk d (List.mem_of_getElem? hd)

theorem knows_unionInto {g : ScopeGraph} {x : SlotId} {t : ConcreteType} (ht : a.Knows t)
    (hk : ∀ c ∈ g.slots, a.Knows c.type) : ∀ c ∈ (g.unionInto x t).2.slots, a.Knows c.type := by
  rw [ScopeGraph.unionInto_snd]
  refine knows_setType (Knows.union ?_ ht) hk
  unfold ScopeGraph.typeOf
  cases hx : g.slot? x with
  | none => exact knows_empty a
  | some c => exact hk c (List.mem_of_getElem? hx)

theorem knows_joinOwn {g : ScopeGraph} {s : ScopeId} {name : String} {t : ConcreteType}
    (ht : a.Knows t) (hk : ∀ c ∈ g.slots, a.Knows c.type) :
    ∀ c ∈ (g.joinOwn s name t).slots, a.Knows c.type := by
  unfold ScopeGraph.joinOwn
  split
  · exact knows_unionInto ht hk
  · exact hk

/-- What is remembered stays right as long as no function is created and nothing is
allocated. -/
theorem Valid.fresh_congr (hv : a.Valid p) (hn : b.narrowings = a.narrowings)
    (hf : b.functions = a.functions) (ho : a.objects <+: b.objects) (hb : b.allocated = a.allocated) :
    ∀ n ∈ b.narrowings, b.Knows n.type ∧ n.result = b.narrowed p n.type n.declared := by
  intro n hmem
  obtain ⟨hk, hr⟩ := hv.fresh n (hn ▸ hmem)
  refine ⟨hk.mono (hf ▸ List.prefix_rfl) ho, ?_⟩
  rw [hr, narrowed_congr hk hv.allocated hf ho hb]

/-- Building on the graph keeps a state valid. -/
theorem Valid.build (hv : a.Valid p) {E : ScopeId → Prop} {g : ScopeGraph}
    (hg : a.graph.Builds (· = .global) E g) : Valid p { a with graph := g } :=
  ⟨hv.toWired.build hg.grows (hg.sound hv.root_lt hv.sound), knows_of_builds hg hv.slots, hv.allocated,
    hv.fresh_congr rfl rfl List.prefix_rfl rfl⟩

/-- What is waiting and whether the program was processed makes no difference. -/
theorem Valid.congr (hv : a.Valid p) (hg : b.graph = a.graph) (hf : b.functions = a.functions)
    (ho : b.objects = a.objects) (ha : b.allocated = a.allocated) (hn : b.narrowings = a.narrowings) :
    b.Valid p := by
  have hab : a.Grows b :=
    ⟨hg ▸ refl_of _ b.graph, hf ▸ List.prefix_rfl, ho ▸ List.prefix_rfl, ha ▸ List.prefix_rfl⟩
  refine ⟨hv.toWired.grows hab (hg ▸ hv.sound) (fun e he => .inl (hf ▸ he)) fun e he => .inl (ho ▸ he),
    fun x hx => (hv.slots x (hg ▸ hx)).grows hab, fun o h => (hv.allocated o (ha ▸ h)).grows hab,
    hv.fresh_congr hn hf hab.objects ha⟩

theorem Valid.leaves (hv : a.Valid p) (h : a.Leaves b) : b.Valid p := by
  obtain ⟨g, hg, rfl⟩ := h
  exact hv.build hg

theorem Valid.joins (hv : a.Valid p) (h : a.Joins b) : b.Valid p := by
  obtain ⟨x, t, ht, rfl⟩ := h
  exact ⟨hv.toWired.build (ScopeGraph.unionInto_grows ..) (ScopeGraph.Sound.unionInto hv.sound x t),
    knows_unionInto ht hv.slots, hv.allocated, hv.fresh_congr rfl rfl List.prefix_rfl rfl⟩

theorem Valid.entity (hv : a.Valid p) {e : FunctionEntry} (he : e ∈ a.functions) {o : ObjRef}
    (h : e.object = some o ∨ e.prototype = some o) : a.Has (.object o) := by
  obtain ⟨d, hd⟩ := hv.functions e he
  exact h.elim hd.object.has hd.prototype.has

end Analysis

open Analysis in
theorem Step.valid (h : Step p w a b) (hv : a.Valid p) : b.Valid p := by
  have hab := h.grows
  refine ⟨h.wired hv.toWired, ?_, ?_, ?_⟩
  · -- a slot holds what it held, or it is new
    cases h with
    | object decl new proto found older built =>
      exact knows_of_builds (object_builds older built) fun x hx => (hv.slots x hx).grows hab
    | function decl new hp ho older hs hb =>
      have hbuild := function_builds (E := fun _ => True) trivial older hs (finalState_ok hb)
      refine knows_joinOwn (knows_single ?_) (knows_of_builds hbuild fun x hx =>
        (hv.slots x hx).grows hab)
      simp [Has]
    | property _ owner built =>
      have hg := (GraphM.declare_builds (D := fun _ => True) (E := fun _ => False) trivial _).ok built
      exact knows_of_builds hg hv.slots
    | allocate known new => exact hv.slots
    | remember d known => exact hv.slots
  · cases h with
    | object | function | property | remember => exact fun o h => (hv.allocated o h).grows hab
    | allocate known new =>
      intro o h
      rcases List.mem_append.1 h with h1 | h1
      · exact hv.allocated o h1
      · rw [List.mem_singleton.1 h1]
        exact known
  · -- what is remembered is dropped where it could change
    cases h with
    | object => exact hv.fresh_congr rfl rfl hab.objects rfl
    | property => exact hv.fresh_congr rfl rfl hab.objects rfl
    | function | allocate => exact fun n hn => absurd hn List.not_mem_nil
    | remember d known =>
      intro n hn
      rcases List.mem_cons.1 hn with rfl | h1
      · exact ⟨known, rfl⟩
      · exact hv.fresh n h1

/-- Whether something was allocated in the present replay does not matter. -/
theorem Analysis.Valid.begun (hv : a.Valid p) : a.begun.Valid p := hv.congr rfl rfl rfl rfl rfl

theorem Steps.valid (h : Steps p w a b) (hv : a.Valid p) : b.Valid p := by
  induction h with
  | refl => exact hv
  | tail _ hstep ih => exact hstep.valid ih

theorem Changes.valid (h : Changes p a b) (hv : a.Valid p) : b.Valid p := by
  induction h with
  | refl => exact hv
  | tail _ hstep ih =>
    rcases hstep with hstep | hjoin | rfl
    · exact hstep.valid ih
    · exact ih.joins hjoin
    · exact ih.begun

end TypeFlow
