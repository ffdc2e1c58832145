import TypeFlow.Proofs.Definite
import TypeFlow.Proofs.Twins

/-!
# One run inside another

A state is **embedded** in another if its entities and properties are found there and its types are
within those of the twins. What an analysis reads in such a state is within what it reads in the
other, and what it does keeps the state embedded if the other has the entities that are created.

* `Analysis.Peopled.narrowed`, `Analysis.Embeds.lookup`: what is read.
* `Steps.embeds`: what is done.
* `Analysis.Embeds.assign`: what is assigned.
-/

namespace TypeFlow

variable {p : Program} {body : List Stmt} {base : ScopeGraph} {a b c : Analysis} {s t s' t' : ScopeId}
  {K L : ScopeKind} {n : String} {x x' y : SlotId}

namespace Analysis

/-- Every entity of a state is found in another. -/
structure Peopled (a b : Analysis) : Prop where
  functions : ∀ e ∈ a.functions, ∃ e' ∈ b.functions, e'.decl = e.decl
  objects : ∀ e ∈ a.objects, ∃ e' ∈ b.objects, e'.shape = e.shape
  allocated : ∀ o ∈ a.allocated, ∃ o' ∈ b.allocated, a.Matches b (.object o) (.object o')

/-- **A state is embedded in another**: its entities and their properties are found there, and its types
are within those of the twins. -/
structure Embeds (a b : Analysis) : Prop extends a.Peopled b where
  names : ∀ K s s' n, K.isCode = false → a.Owns K s → b.Owns K s' → a.graph.own s n ≠ none →
    b.graph.own s' n ≠ none
  types : ∀ x x', a.Twins b x x' → a.Within b (a.graph.typeOf x) (b.graph.typeOf x')

theorem Peopled.owns (h : a.Peopled b) (hs : a.Owns K s) : ∃ s', b.Owns K s' := by
  cases hs with
  | global => exact ⟨_, .global⟩
  | body entry =>
    obtain ⟨e', he', hdecl⟩ := h.functions _ entry
    exact ⟨_, owns_body he' hdecl⟩
  | statics entry =>
    obtain ⟨e', he', hdecl⟩ := h.functions _ entry
    rw [← hdecl]
    exact ⟨_, .statics he'⟩
  | object entry =>
    obtain ⟨e', he', hshape⟩ := h.objects _ entry
    exact ⟨_, owns_object he' hshape⟩

end Analysis

/-! ## Reading -/

namespace Analysis

variable {u u' : ConcreteType} {e e' : Entity} {d : DeclaredType}

theorem Embeds.typeOr_all (hab : a.Embeds b) {o o' : Option SlotId} (h : Option.Rel (a.Twins b) o o') :
    a.Within b (a.typeOr .all o) (b.typeOr .all o') := by
  cases h with
  | none => exact within_all _
  | some htwins => exact hab.types _ _ htwins

theorem Embeds.typeOr_empty (hab : a.Embeds b) {o o' : Option SlotId}
    (h : ∀ x, o = some x → ∃ x', o' = some x' ∧ a.Twins b x x') : a.Within b (a.typeOr ∅ o) (b.typeOr ∅ o') := by
  cases o with
  | none => exact within_empty _
  | some x =>
    obtain ⟨x', rfl, htwins⟩ := h x rfl
    exact hab.types x x' htwins

/-- Whether an entity is admitted depends on its declaration. -/
theorem Matches.admits_eq (h : a.Matches b e e') (X : Admission) : a.admits p X e = b.admits p X e' := by
  cases e with
  | function f =>
    obtain ⟨f', q, q', rfl, hq, hq', hdecl⟩ := matches_function h
    simp only [admits, hq, hq', Option.any_some, hdecl]
  | object o =>
    obtain ⟨o', q, q', rfl, hq, hq', hshape⟩ := matches_object h
    simp only [admits, hq, hq', Option.any_some, hshape]

theorem Peopled.function (h : a.Peopled b) {f : FnRef} (hf : a.Has (.function f)) :
    ∃ f', b.Has (.function f') ∧ a.Matches b (.function f) (.function f') := by
  have hq : a.function? f = some _ := List.getElem?_eq_getElem hf
  obtain ⟨q', hq', hdecl⟩ := h.functions _ (List.mem_of_getElem? hq)
  obtain ⟨i, hi, hi'⟩ := List.getElem_of_mem hq'
  have hfound : b.function? ⟨i⟩ = some q' := by rw [← hi']; exact List.getElem?_eq_getElem hi
  exact ⟨⟨i⟩, hi, .of_function hq hfound hdecl⟩

theorem Peopled.object (h : a.Peopled b) {o : ObjRef} (ho : a.Has (.object o)) :
    ∃ o', b.Has (.object o') ∧ a.Matches b (.object o) (.object o') := by
  have hq : a.object? o = some _ := List.getElem?_eq_getElem ho
  obtain ⟨q', hq', hshape⟩ := h.objects _ (List.mem_of_getElem? hq)
  obtain ⟨i, hi, hi'⟩ := List.getElem_of_mem hq'
  have hfound : b.object? ⟨i⟩ = some q' := by rw [← hi']; exact List.getElem?_eq_getElem hi
  exact ⟨⟨i⟩, hi, .of_object hq hfound hshape⟩

theorem Peopled.findFunction (h : a.Peopled b) (hb : b.Tabled) {f : FunctionId} {r : FnRef}
    (hr : a.findFunction f = some r) : ∃ r', b.findFunction f = some r' := by
  obtain ⟨e, he, rfl⟩ := function?_of_findFunction hr
  obtain ⟨e', he', hdecl⟩ := h.functions e (List.mem_of_getElem? he)
  obtain ⟨i, hi, rfl⟩ := List.getElem_of_mem he'
  exact ⟨_, hdecl ▸ hb.findFunction (List.getElem?_eq_getElem hi)⟩

/-- Whatever is present is present in the other state. -/
theorem Peopled.present (h : a.Peopled b) (he : e ∈ a.present) : ∃ e' ∈ b.present, a.Matches b e e' := by
  have hlists := lists_all.2 he
  cases e with
  | function f =>
    obtain ⟨f', hf', hmatch⟩ := h.function hlists
    exact ⟨.function f', lists_all.1 hf', hmatch⟩
  | object o =>
    obtain ⟨o', ho', hmatch⟩ := h.allocated o hlists
    exact ⟨.object o', lists_all.1 ho', hmatch⟩

theorem Peopled.expand (h : a.Peopled b) (X : Admission) :
    a.Within b (a.expand p X) (b.expand p X) := by
  refine within_ofList fun e he => ?_
  obtain ⟨hpresent, hadmits⟩ := List.mem_filter.1 he
  obtain ⟨e', he', hmatch⟩ := h.present hpresent
  exact ⟨e', ConcreteType.mem_ofList.2 (List.mem_filter.2 ⟨he', hmatch.admits_eq X ▸ hadmits⟩), hmatch⟩

/-- **Narrowed types are within each other** if the types are. Where only the larger is unknown, what it
is narrowed to lists allocated objects only. -/
theorem Peopled.narrowed (h : a.Peopled b) (hu : a.Knows u) (huu' : a.Within b u u')
    (hall : u' = .all → ¬ d.Open → u = .all ∨ b.allocatedAll p d = true) :
    a.Within b (a.narrowed p u d) (b.narrowed p u' d) := by
  by_cases hd : d.Open
  · rwa [narrowed_of_open hd, narrowed_of_open hd]
  have hx : (Admission.ofDeclared p d).everything = false := by
    rw [← Bool.not_eq_true]
    exact fun hx => hd ((Admission.ofDeclared_everything p d).1 hx)
  have hall := fun hu => hall hu hd
  unfold Analysis.narrowed
  simp only [hx, Bool.false_eq_true, if_false]
  cases u with
  | all =>
    obtain rfl := huu'.eq_all
    exact h.expand _
  | only m =>
    refine .of_members fun e he => ?_
    obtain ⟨hmem, hadmits⟩ := EntitySet.mem_filter.1 he
    cases u' with
    | only m' =>
      obtain ⟨e', he', hmatch⟩ := huu' e hmem
      exact ⟨e', EntitySet.mem_filter.2 ⟨he', hmatch.admits_eq _ ▸ hadmits⟩, hmatch⟩
    | all =>
      have hallocated := (hall rfl).resolve_left (by simp)
      have hhas := hu e hmem
      cases e with
      | function f =>
        obtain ⟨f', hf', hmatch⟩ := h.function hhas
        have hpresent : .function f' ∈ b.present := lists_all.1 hf'
        exact ⟨_, ConcreteType.mem_ofList.2 (List.mem_filter.2 ⟨hpresent, hmatch.admits_eq _ ▸ hadmits⟩), hmatch⟩
      | object o =>
        obtain ⟨o', ho', hmatch⟩ := h.object hhas
        have hadmits' := hmatch.admits_eq (p := p) (.ofDeclared p d) ▸ hadmits
        have hpresent : .object o' ∈ b.present := lists_all.1 (mem_allocated hallocated ho' hadmits')
        exact ⟨_, ConcreteType.mem_ofList.2 (List.mem_filter.2 ⟨hpresent, hadmits'⟩), hmatch⟩

/-- The functions of a type match those of a type that it is within. -/
theorem Within.exists_function {m : EntitySet} (h : a.Within b u (.only m)) {f : FnRef} (hf : f ∈ u.functions) :
    ∃ f' q q', f' ∈ (ConcreteType.only m).functions ∧ a.function? f = some q ∧ b.function? f' = some q' ∧
      q'.decl = q.decl := by
  obtain ⟨e', he', hmatch⟩ := h.exists_mem (ConcreteType.mem_functions.1 hf)
  obtain ⟨f', q, q', rfl, hq, hq', hdecl⟩ := matches_function hmatch
  exact ⟨f', q, q', ConcreteType.mem_functions.2 he', hq, hq', hdecl⟩

/-- The prototype or the object of a function matches that of the same function. -/
theorem Provides.rel {shape : Option ShapeId} {r r' : Option ObjRef} (hr : a.Provides shape r)
    (hr' : b.Provides shape r') : Option.Rel (fun o o' => a.Matches b (.object o) (.object o')) r r' := by
  cases shape with
  | none =>
    rw [show r = none from hr, show r' = none from hr']
    exact .none
  | some q =>
    obtain ⟨o, ho, rfl⟩ := hr
    obtain ⟨o', ho', rfl⟩ := hr'
    exact .some (.of_findObject ho ho')

section Charted

variable (ha : a.Chart p body base) (hb : b.Chart p body base) (hab : a.Embeds b)
include ha hb hab

/-- What functions return. -/
theorem Embeds.returnedBy (h : a.Within b u u') : a.Within b (a.returnedBy u) (b.returnedBy u') := by
  cases u' with
  | all => exact within_all _
  | only m' =>
    cases u with
    | all => exact h.elim
    | only m =>
      refine within_unions fun v hv => ?_
      obtain ⟨f, hf, rfl⟩ := List.mem_map.1 hv
      obtain ⟨f', q, q', hf', hq, hq', hdecl⟩ := h.exists_function hf
      refine Within.of_subset ?_ (ConcreteType.subset_unions (List.mem_map_of_mem hf'))
      rw [hq, hq', Option.bind_some, Option.bind_some]
      have hrel := ha.own_rel hb rfl (.body (List.mem_of_getElem? hq)) (owns_body (List.mem_of_getElem? hq') hdecl)
        SlotName.ret
      refine hab.typeOr_empty fun x hx => ?_
      rw [hx] at hrel
      generalize b.graph.own q'.body SlotName.ret = o' at hrel
      cases hrel with
      | some htwins => exact ⟨_, rfl, htwins⟩

omit hab in
/-- What `new` makes. -/
theorem Chart.constructedBy {m : EntitySet} (h : a.Within b u (.only m)) :
    a.Within b (a.constructedBy u) (b.constructedBy (.only m)) := by
  refine within_ofList fun e he => ?_
  obtain ⟨f, hf, he⟩ := List.mem_filterMap.1 he
  obtain ⟨f', q, q', hf', hq, hq', hdecl⟩ := h.exists_function hf
  obtain ⟨d, hd⟩ := ha.valid.functions q (List.mem_of_getElem? hq)
  obtain ⟨d', hd'⟩ := hb.valid.functions q' (List.mem_of_getElem? hq')
  obtain rfl : d = d' := Option.some.inj (hd.decl.symm.trans (hdecl ▸ hd'.decl))
  have hrel := hd.object.rel hd'.object
  rw [hq, Option.bind_some] at he
  obtain ⟨o, ho, rfl⟩ := Option.map_eq_some_iff.1 he
  rw [ho] at hrel
  generalize ho' : q'.object = r' at hrel
  cases hrel with
  | @some _ o' hmatch =>
    refine ⟨.object o', ConcreteType.mem_ofList.2 (List.mem_filterMap.2 ⟨f', hf', ?_⟩), hmatch⟩
    rw [hq', Option.bind_some, ho']
    rfl

end Charted

/-! ## Properties of objects -/

theorem owns_of_objectScope {q : ShapeId} (h : a.objectScope q = some s) : a.Owns (.object q) s := by
  obtain ⟨e, he, rfl⟩ := Option.map_eq_some_iff.1 h
  obtain ⟨o, ho, hentry⟩ := Option.bind_eq_some_iff.1 he
  obtain ⟨y, hy, hshape⟩ := object?_of_findObject ho
  obtain rfl := Option.some.inj (hentry.symm.trans hy)
  exact owns_object (List.mem_of_getElem? hy) hshape

theorem exists_objectScope {q : ShapeId} (h : a.findObject q ≠ none) : ∃ s, a.objectScope q = some s := by
  obtain ⟨o, ho⟩ := Option.ne_none_iff_exists'.1 h
  obtain ⟨y, hy, -⟩ := object?_of_findObject ho
  exact ⟨y.scope, by rw [objectScope, ho, Option.bind_some, hy]; rfl⟩

section Valid

variable (ha : a.Valid p) (hb : b.Valid p)
include ha hb

/-- The prototypes of an object are the same in both states. -/
theorem Owns.parents {q : ShapeId} (hs : a.Owns (.object q) s) (hs' : b.Owns (.object q) s') :
    ∃ d, p.shape? q = some d ∧ (∀ n ∈ d.properties, a.graph.own s n ≠ none) ∧
      (a.graph.parent? s = none ∧ b.graph.parent? s' = none ∨ ∃ r t t', a.graph.parent? s = some t ∧
        b.graph.parent? s' = some t' ∧ a.Owns (.object r) t ∧ b.Owns (.object r) t') := by
  obtain ⟨e, entry, rfl, rfl⟩ := hs.exists_object
  obtain ⟨e', entry', hshape, rfl⟩ := hs'.exists_object
  obtain ⟨d, hd⟩ := ha.objects e entry
  obtain ⟨d', hd'⟩ := hb.objects e' entry'
  obtain rfl : d = d' := Option.some.inj (hd.decl.symm.trans (hshape ▸ hd'.decl))
  refine ⟨d, hd.decl, fun n hn => Option.ne_none_iff_exists'.2 (hd.names n hn), ?_⟩
  rw [hd.scope.parent?_eq, hd'.scope.parent?_eq]
  cases hproto : d.proto with
  | none => exact .inl ⟨rfl, rfl⟩
  | some r =>
    obtain ⟨t, ht⟩ := exists_objectScope (hd.proto r hproto)
    obtain ⟨t', ht'⟩ := exists_objectScope (hd'.proto r hproto)
    exact .inr ⟨r, t, t', ht, ht', owns_of_objectScope ht, owns_of_objectScope ht'⟩

/-- **A property of an object is found in the other state**, in the twin. -/
theorem Embeds.lookup (hab : a.Embeds b) (hun : b.unshadowed p = true) {q : ShapeId} (hs : a.Owns (.object q) s)
    (hs' : b.Owns (.object q) s') (hx : a.graph.lookup s n = some x) :
    ∃ x', b.graph.lookup s' n = some x' ∧ a.Twins b x x' := by
  induction s using ha.sound.ordered.parent_induction generalizing q s' with
  | hP s ih =>
    obtain ⟨d, hd, hdeclared, hparents⟩ := hs.parents ha hb hs'
    rw [ha.sound.lookup_eq] at hx
    rw [hb.sound.lookup_eq]
    cases hown : a.graph.own s n with
    | some y =>
      rw [hown] at hx
      obtain rfl := Option.some.inj hx
      obtain ⟨x', hx'⟩ := Option.ne_none_iff_exists'.1 (hab.names _ s s' n rfl hs hs' (by simp [hown]))
      exact ⟨x', by rw [hx']; rfl, _, n, s, s', hs, hs', hown, hx'⟩
    | none =>
      rw [hown, Option.none_or] at hx
      rcases hparents with ⟨hnone, -⟩ | ⟨r, t, t', ht, ht', hr, hr'⟩
      · rw [hnone] at hx
        cases hx
      · rw [ht, Option.bind_some] at hx
        obtain ⟨x', hx', htwins⟩ := ih t ht hr hr' hx
        refine ⟨x', ?_, htwins⟩
        cases hown' : b.graph.own s' n with
        | none => rw [Option.none_or, ht', Option.bind_some, hx']
        | some y =>
          -- a property of the other state that is not declared would hide the one that is found
          have hnot : n ∉ d.properties := fun hn => hdeclared n hn hown
          obtain ⟨e', entry', rfl, rfl⟩ := hs'.exists_object
          rw [lookup_eq_none hun entry' hd hnot (by simp [hown']) ht'] at hx'
          cases hx'

/-- What is found in the other state only is not declared by a shape. -/
theorem Embeds.lookup_none {q : ShapeId} (hs : a.Owns (.object q) s) (hs' : b.Owns (.object q) s')
    (hnone : a.graph.lookup s n = none) (hx' : b.graph.lookup s' n = some x') {e' : ObjectEntry} (he' : e' ∈ b.objects)
    (hown' : b.graph.own e'.scope n = some x') {d : ShapeDecl} (hd : p.shape? e'.shape = some d) :
    n ∉ d.properties := by
  induction s using ha.sound.ordered.parent_induction generalizing q s' with
  | hP s ih =>
    obtain ⟨d', hd', hdeclared, hparents⟩ := hs.parents ha hb hs'
    rw [ha.sound.lookup_eq, Option.or_eq_none_iff] at hnone
    rw [hb.sound.lookup_eq] at hx'
    cases hown : b.graph.own s' n with
    | some y =>
      rw [hown] at hx'
      obtain rfl := Option.some.inj hx'
      obtain ⟨rfl, -⟩ := hb.sound.own_inj hown hown'
      obtain rfl := ScopeKind.object.inj ((Owns.object he').kind_eq hs' hb)
      obtain rfl := Option.some.inj (hd.symm.trans hd')
      exact fun hn => hdeclared n hn hnone.1
    | none =>
      rw [hown, Option.none_or] at hx'
      rcases hparents with ⟨-, hnone'⟩ | ⟨r, t, t', ht, ht', hr, hr'⟩
      · rw [hnone'] at hx'
        cases hx'
      · rw [ht', Option.bind_some] at hx'
        have hnext := hnone.2
        rw [ht, Option.bind_some] at hnext
        exact ih t ht hr hr' hnext hx'

theorem Embeds.objectProperty (hab : a.Embeds b) (hun : b.unshadowed p = true) {o o' : ObjRef} {q q' : ObjectEntry}
    (hq : a.object? o = some q) (hq' : b.object? o' = some q') (hshape : q'.shape = q.shape) (name : String) :
    a.Within b (a.objectProperty o name) (b.objectProperty o' name) := by
  unfold Analysis.objectProperty
  rw [hq, hq', Option.bind_some, Option.bind_some]
  exact hab.typeOr_empty fun x hx => hab.lookup ha hb hun (.object (List.mem_of_getElem? hq))
    (owns_object (List.mem_of_getElem? hq') hshape) hx

end Valid

/-! ## Steps -/

theorem Peopled.of_grows (h : c.Peopled b) (hac : a.Grows c) (ha : a.Valid p) : a.Peopled b := by
  refine ⟨fun e he => h.functions e (hac.functions.subset he), fun e he => h.objects e (hac.objects.subset he),
    fun o ho => ?_⟩
  obtain ⟨o', ho', l, hl, hl'⟩ := h.allocated o (hac.allocated.subset ho)
  obtain ⟨m, hm⟩ := (ha.allocated o ho).exists_label
  obtain rfl := Option.some.inj ((label_grows hm hac).symm.trans hl)
  exact ⟨o', ho', m, hm, hl'⟩

/-- **A larger state is embedded** if its entities are found, what is new has no other names, and types are
as before or within those of the twins. -/
theorem Embeds.extend (hab : a.Embeds b) (hac : a.Grows c) (ha : a.Valid p) (hc : c.Valid p) (hpeopled : c.Peopled b)
    (hback : ∀ K s, c.Owns K s → s.index < a.graph.scopes.length → a.Owns K s)
    (hnames : ∀ K s s' n, K.isCode = false → c.Owns K s → b.Owns K s' → c.graph.own s n ≠ none →
      a.graph.own s n ≠ none ∨ b.graph.own s' n ≠ none)
    (htypes : ∀ x x', c.Twins b x x' → c.graph.typeOf x = a.graph.typeOf x ∨
      c.Within b (c.graph.typeOf x) (b.graph.typeOf x')) : c.Embeds b := by
  refine ⟨hpeopled, fun K s s' n hK hs hs' hn => ?_, fun x x' htwins => ?_⟩
  · rcases hnames K s s' n hK hs hs' hn with hold | hnew
    · obtain ⟨x, hx⟩ := Option.ne_none_iff_exists'.1 hold
      obtain ⟨d, hd, -⟩ := ScopeGraph.mem_slots_of_own hx
      exact hab.names K s s' n hK (hback K s hs (ScopeGraph.scope_lt hd)) hs' hold
    · exact hnew
  · rcases htypes x x' htwins with htype | hwithin
    · rw [htype]
      rcases Nat.lt_or_ge x.index a.graph.slots.length with hlt | hge
      · -- the slot was there, with its owner
        obtain ⟨K, n, s, s', hs, hs', hx, hx'⟩ := htwins
        have hslot : a.graph.slot? x = some _ := List.getElem?_eq_getElem hlt
        have hbound := ha.sound.bound x _ hslot
        obtain ⟨rfl, rfl⟩ := hc.sound.own_inj (hac.graph.own hbound) hx
        have howner := hback K _ hs (ha.sound.owner_lt hslot)
        exact (hab.types x x' ⟨K, _, _, s', howner, hs', hbound, hx'⟩).grows hac
      · rw [ScopeGraph.typeOf_eq_empty hge]
        exact within_empty _
    · exact hwithin

end Analysis

/-- The scopes of new entities are new. -/
theorem Step.owns_back {w : Bool} (h : Step p w a c) (hs : c.Owns K s) (hlt : s.index < a.graph.scopes.length) :
    a.Owns K s := by
  cases h with
  | object decl new proto found older built =>
    obtain ⟨hscope, -⟩ := GraphM.addObjectScope_ok built
    cases hs with
    | global => exact .global
    | body entry => exact .body entry
    | statics entry => exact .statics entry
    | object entry =>
      rcases List.mem_append.1 entry with entry | entry
      · exact .object entry
      · obtain rfl := List.mem_singleton.1 entry
        rw [hscope] at hlt
        exact absurd hlt (Nat.lt_irrefl _)
  | @function f d parent statics scope object prototype g h decl new hp ho older hadd hbuilt =>
    obtain ⟨hscope, -⟩ := GraphM.addBodyScope_ok hbuilt
    cases hadd
    cases hs with
    | global => exact .global
    | body entry =>
      rcases List.mem_append.1 entry with entry | entry
      · exact .body entry
      · obtain rfl := List.mem_singleton.1 entry
        simp [hscope] at hlt
    | statics entry =>
      rcases List.mem_append.1 entry with entry | entry
      · exact .statics entry
      · obtain rfl := List.mem_singleton.1 entry
        exact absurd hlt (Nat.lt_irrefl _)
    | object entry => exact .object entry
  | property | allocate | remember =>
    cases hs with
    | global => exact .global
    | body entry => exact .body entry
    | statics entry => exact .statics entry
    | object entry => exact .object entry

theorem ScopeGraph.Builds.own {D E : ScopeId → Prop} {g h : ScopeGraph} (hgh : g.Builds D E h)
    (hs : s.index < g.scopes.length) (hD : ¬ D s) (n : String) : h.own s n = g.own s n := by
  obtain ⟨c, hc⟩ := ScopeGraph.exists_scope hs
  obtain ⟨d, hd, -, hslots, -⟩ := hgh.scopes s c hc
  unfold ScopeGraph.own
  rw [hc, hd, Option.bind_some, Option.bind_some, hslots hD]

section NewScopes

variable {g h : ScopeGraph} {n : String} {x : SlotId}

/-- A scope is added at the end. -/
theorem GraphM.addScope_ok {kind : ScopeKind} {parent : Option ScopeId} (hadd : addScope kind parent g = .ok s h) :
    s = ⟨g.scopes.length⟩ ∧ h.scopes.length = g.scopes.length + 1 := by
  cases hadd
  simp

/-- A scope that is added has no names. -/
theorem GraphM.own_of_addScope {kind : ScopeKind} {parent : Option ScopeId} {t : ScopeId}
    (hadd : addScope kind parent g = .ok t h) (hn : h.own s n ≠ none) : g.own s n ≠ none := by
  obtain ⟨x, hx⟩ := Option.ne_none_iff_exists'.1 hn
  obtain ⟨k, hk, hlookup⟩ := Option.bind_eq_some_iff.1 hx
  cases hadd
  rcases ScopeGraph.scope?_addScope hk with hold | ⟨-, rfl⟩
  · unfold ScopeGraph.own
    rw [hold, Option.bind_some, hlookup]
    exact Option.some_ne_none x
  · cases hlookup

/-- Joining into the slot of a name changes that slot only. -/
theorem ScopeGraph.typeOf_joinOwn (hg : g.Sound) (s : ScopeId) (n : String) (t : ConcreteType) (x : SlotId) :
    (g.joinOwn s n t).typeOf x = if g.own s n = some x then g.typeOf x ∪ t else g.typeOf x := by
  unfold ScopeGraph.joinOwn
  cases hy : g.own s n with
  | none => rfl
  | some y =>
    by_cases hxy : y = x
    · subst hxy
      rw [if_pos rfl]
      exact ScopeGraph.typeOf_unionInto (hg.own_lt hy) t
    · rw [if_neg (mt Option.some.inj hxy)]
      exact ScopeGraph.typeOf_unionInto_of_ne hxy _

/-- What is a slot of a scope that is not there yet holds nothing. -/
theorem Analysis.Valid.typeOf_eq_empty (ha : a.Valid p) (hc : c.Valid p) (hac : a.Grows c)
    (hx : c.graph.own s n = some x) (hs : a.graph.scopes.length ≤ s.index) : a.graph.typeOf x = ∅ := by
  refine ScopeGraph.typeOf_eq_empty (Nat.le_of_not_lt fun hlt => ?_)
  have hslot : a.graph.slot? x = some _ := List.getElem?_eq_getElem hlt
  obtain ⟨howner, -⟩ := hc.sound.own_inj (hac.graph.own (ha.sound.bound x _ hslot)) hx
  have hold := ha.sound.owner_lt hslot
  rw [howner] at hold
  omega

/-- Among the scopes of a new function, the one of its static properties comes first, and no other scope of
properties is new. -/
theorem Analysis.Owns.le_statics {e : FunctionEntry} (hs : c.Owns K s) (ha : a.Valid p) (hK : K.isCode = false)
    (hfunctions : c.functions = a.functions ++ [e]) (hobjects : c.objects = a.objects)
    (he : e.statics = ⟨a.graph.scopes.length⟩) : s.index ≤ a.graph.scopes.length := by
  cases hs with
  | global | body => cases hK
  | statics entry =>
    rw [hfunctions] at entry
    rcases List.mem_append.1 entry with entry | entry
    · obtain ⟨_, hold⟩ := (Analysis.Owns.statics entry).hasScope ha
      exact Nat.le_of_lt hold.lt
    · obtain rfl := List.mem_singleton.1 entry
      rw [he]
  | object entry =>
    rw [hobjects] at entry
    obtain ⟨_, hold⟩ := (Analysis.Owns.object entry).hasScope ha
    exact Nat.le_of_lt hold.lt

/-- A function is within the type of the slot that is the twin of its own callee. -/
theorem Analysis.Called.within (hcalled : b.Called) (hc : c.Valid p) {i : Nat} {e : FunctionEntry} {x' : SlotId}
    (hentry : c.functions[i]? = some e) (hcallee : c.graph.own e.body SlotName.callee = some x)
    (htwins : c.Twins b x x') : c.Within b (.function ⟨i⟩) (b.graph.typeOf x') := by
  obtain ⟨K, n, s, s', hs, hs', hx, hx'⟩ := htwins
  obtain ⟨rfl, rfl⟩ := hc.sound.own_inj hx hcallee
  obtain rfl := hs.kind_eq (.body (List.mem_of_getElem? hentry)) hc
  obtain ⟨e', entry', hdecl, rfl⟩ := hs'.exists_body
  obtain ⟨j, hj, rfl⟩ := List.getElem_of_mem entry'
  have hj' : b.functions[j]? = some _ := List.getElem?_eq_getElem hj
  obtain ⟨y', hy', hcall⟩ := hcalled j _ hj'
  obtain rfl := Option.some.inj (hx'.symm.trans hy')
  have hmatch : c.Matches b (.function ⟨i⟩) (.function ⟨j⟩) := .of_function hentry hj' hdecl
  exact (Analysis.within_single hmatch (ConcreteType.mem_single.2 rfl)).of_subset hcall

end NewScopes

section Entities

variable (ha : a.Valid p) (hb : b.Valid p) (hab : a.Embeds b) (hpeopled : c.Peopled b)
include ha hb hab hpeopled

/-- The object of a shape has the properties of its shape. -/
theorem Analysis.Embeds.addObject {w : Bool} {q : ShapeId} {d : ShapeDecl} {parent : Option ScopeId}
    {scope : ScopeId} {g : ScopeGraph}
    (hstep : Step p w a c) (decl : p.shape? q = some d) (older : ∀ t ∈ parent, t.index < a.graph.scopes.length)
    (built : GraphM.addObjectScope q parent d.properties a.graph = .ok scope g)
    (hc : c = { a with graph := g, objects := a.objects ++ [⟨q, scope⟩] }) : c.Embeds b := by
  have hvalid : c.Valid p := Steps.valid (.single hstep) ha
  have hbuilds := object_builds older built
  obtain ⟨hscope, hslots, -⟩ := GraphM.addObjectScope_ok built
  have hgraph : c.graph = g := by rw [hc]
  refine hab.extend hstep.grows ha hvalid hpeopled (fun K s => hstep.owns_back) (fun K s s' n hK hs hs' hn => ?_)
    fun x x' _ => ?_
  · by_cases hlt : s.index < a.graph.scopes.length
    · rw [hgraph, hbuilds.own hlt not_false] at hn
      exact .inl hn
    · right
      obtain ⟨x, hx⟩ := Option.ne_none_iff_exists'.1 hn
      obtain ⟨k, hk, hmem⟩ := ScopeGraph.mem_slots_of_own hx
      obtain ⟨y, hy, rfl, rfl⟩ := (hvalid.sound.fits s k hk).slots n x hmem
      -- only the new object has a slot in a new scope
      have hnew : y ∈ d.properties.map (⟨·, scope, ∅⟩) := by
        have hy' := List.mem_of_getElem? (show g.slots[x.index]? = some y from hgraph ▸ hy)
        rw [hslots] at hy'
        refine (List.mem_append.1 hy').resolve_left fun hold => hlt ?_
        obtain ⟨i, hi, rfl⟩ := List.getElem_of_mem hold
        exact ha.sound.owner_lt (x := ⟨i⟩) (List.getElem?_eq_getElem hi)
      obtain ⟨n, hdeclared, rfl⟩ := List.mem_map.1 hnew
      have howns : c.Owns (.object q) scope := by
        rw [hc]
        exact .object (e := ⟨q, scope⟩) (List.mem_append_right _ (List.mem_singleton_self _))
      obtain rfl := howns.kind_eq hs hvalid
      obtain ⟨e', entry', rfl, rfl⟩ := hs'.exists_object
      obtain ⟨d', hd'⟩ := hb.objects e' entry'
      obtain rfl := Option.some.inj (decl.symm.trans hd'.decl)
      exact Option.ne_none_iff_exists'.2 (hd'.names n hdeclared)
  · rw [hgraph]
    exact .inl (hbuilds.typeOf x)

omit hb in
/-- A function has no properties at first, and its body holds nothing but the function itself. -/
theorem Analysis.Embeds.addFunction {w : Bool} (hcalled : b.Called) {f : FunctionId} {d : FunctionDecl}
    {parent statics scope : ScopeId} {object prototype : Option ObjRef} {g h : ScopeGraph} (hstep : Step p w a c)
    (older : parent.index < a.graph.scopes.length) (hadd : GraphM.addScope (.statics f) none a.graph = .ok statics g)
    (hbuilt : GraphM.addBodyScope p f d parent g = .ok scope h)
    (hc : c = { a with
      graph := h.joinOwn scope SlotName.callee (.function ⟨a.functions.length⟩)
      functions := a.functions ++ [⟨f, parent, scope, statics, object, prototype⟩]
      narrowings := []
      discovered := a.discovered ++ [scope] }) : c.Embeds b := by
  have hvalid : c.Valid p := Steps.valid (.single hstep) ha
  have hgraph : c.graph = h.joinOwn scope SlotName.callee (.function ⟨a.functions.length⟩) := by rw [hc]
  have hfunctions : c.functions = a.functions ++ [⟨f, parent, scope, statics, object, prototype⟩] := by rw [hc]
  have hobjects : c.objects = a.objects := by rw [hc]
  have hown (s : ScopeId) (n : String) : c.graph.own s n = h.own s n := by
    unfold ScopeGraph.own ScopeGraph.scope?
    rw [hgraph, ScopeGraph.scopes_joinOwn]
  obtain ⟨hstatics, hlength⟩ := GraphM.addScope_ok hadd
  obtain ⟨hscope, -⟩ := GraphM.addBodyScope_ok hbuilt
  have hbuilds := function_builds (E := fun _ => True) trivial older hadd (finalState_ok hbuilt)
  have hsound : h.Sound := hbuilds.sound (fun t ht => ht ▸ ha.root.lt) ha.sound
  have hbody : g.Builds (· = .global) (fun _ => True) h :=
    finalState_ok hbuilt ▸ GraphM.addBodyScope_builds (D := (· = .global)) (E := fun _ => True) rfl trivial p f d
      (by omega)
  refine hab.extend hstep.grows ha hvalid hpeopled (fun K s => hstep.owns_back) (fun K s s' n hK hs _ hn => .inl ?_)
    fun x x' htwins => ?_
  · have hne : s ≠ .global := by
      rintro rfl
      obtain rfl := hs.kind_eq .global hvalid
      cases hK
    have hle := hs.le_statics ha hK hfunctions hobjects hstatics
    rw [hown, hbody.own (by omega) hne] at hn
    exact GraphM.own_of_addScope hadd hn
  · rw [hgraph, ScopeGraph.typeOf_joinOwn hsound, hbuilds.typeOf x]
    by_cases hcallee : h.own scope SlotName.callee = some x
    · right
      have hcallee' := (hown _ _).trans hcallee
      have hnew : a.graph.scopes.length ≤ scope.index := by
        rw [hscope, hlength]
        exact Nat.le_succ _
      have hentry : c.functions[a.functions.length]? = some ⟨f, parent, scope, statics, object, prototype⟩ := by
        rw [hfunctions]
        exact List.getElem?_concat_length
      rw [if_pos hcallee, ha.typeOf_eq_empty hvalid hstep.grows hcallee' hnew]
      exact (Analysis.within_empty _).union_left (hcalled.within hvalid hentry hcallee' htwins)
    · left
      rw [if_neg hcallee]

end Entities

/-- **Steps keep a state embedded** as long as the entities are found. -/
theorem Step.embeds (h : Step p false a c) (ha : a.Valid p) (hb : b.Valid p) (hcalled : b.Called) (hab : a.Embeds b)
    (hpeopled : c.Peopled b) : c.Embeds b := by
  have hstep := h
  have hvalid := h.valid ha
  cases h with
  | object decl new proto found older built => exact hab.addObject ha hb hpeopled hstep decl older built rfl
  | function decl new hp ho older hadd hbuilt => exact hab.addFunction ha hpeopled hcalled hstep older hadd hbuilt rfl
  | property assigned => cases assigned
  | allocate | remember =>
    exact hab.extend hstep.grows ha hvalid hpeopled (fun K s => hstep.owns_back) (fun _ _ _ _ _ _ _ hn => .inl hn)
      fun _ _ _ => .inl rfl

theorem Steps.embeds (h : Steps p false a c) (ha : a.Valid p) (hb : b.Valid p) (hcalled : b.Called) (hab : a.Embeds b)
    (hpeopled : c.Peopled b) : c.Embeds b := by
  induction h with
  | refl => exact hab
  | @tail d c had hdc ih =>
    have hd := Steps.valid had ha
    exact hdc.embeds hd hb hcalled (ih (hpeopled.of_grows hdc.grows hd)) hpeopled

namespace Analysis

theorem Owns.congr (h : c.Owns K s) (hf : c.functions = a.functions) (ho : c.objects = a.objects) : a.Owns K s := by
  cases h with
  | global => exact .global
  | body entry => exact .body (hf ▸ entry)
  | statics entry => exact .statics (hf ▸ entry)
  | object entry => exact .object (ho ▸ entry)

/-- A state with the same tables has the same entities. -/
theorem Peopled.congr (h : a.Peopled b) (hf : c.functions = a.functions) (ho : c.objects = a.objects)
    (hl : c.allocated = a.allocated) : c.Peopled b := by
  refine ⟨hf ▸ h.functions, ho ▸ h.objects, fun o hmem => ?_⟩
  obtain ⟨o', ho', l, hlabel, hlabel'⟩ := h.allocated o (hl ▸ hmem)
  refine ⟨o', ho', l, ?_, hlabel'⟩
  unfold label object? at hlabel ⊢
  rwa [ho]

/-- What is remembered and kept in the books does not matter. -/
theorem Embeds.congr (h : a.Embeds b) (hg : c.graph = a.graph) (hf : c.functions = a.functions)
    (ho : c.objects = a.objects) (hl : c.allocated = a.allocated) : c.Embeds b := by
  have hac : a.Grows c := ⟨hg ▸ refl_of _ c.graph, hf ▸ List.prefix_rfl, ho ▸ List.prefix_rfl, hl ▸ List.prefix_rfl⟩
  refine ⟨h.toPeopled.congr hf ho hl, fun K s s' n hK hs hs' hn => ?_, fun x x' htwins => ?_⟩
  · exact h.names K s s' n hK (hs.congr hf ho) hs' (hg ▸ hn)
  · obtain ⟨K, n, s, s', hs, hs', hx, hx'⟩ := htwins
    rw [hg] at hx ⊢
    exact (h.types x x' ⟨K, n, s, s', hs.congr hf ho, hs', hx, hx'⟩).grows hac

/-- A new property keeps a state embedded if the other has it. -/
theorem Embeds.declare (hab : a.Embeds b) (ha : a.Valid p) (hb : b.Tabled) (hs : a.Owns K s)
    (hs' : b.Owns K s') (hn : b.graph.own s' n ≠ none) {g : ScopeGraph} (built : GraphM.declare s n a.graph = .ok x g)
    (hstep : Step p true a { a with graph := g }) : Embeds { a with graph := g } b := by
  have hvalid := hstep.valid ha
  obtain ⟨hnone, rfl, rfl⟩ := GraphM.declare_ok built
  obtain ⟨_, hscope⟩ := hs.hasScope ha
  have hown := ScopeGraph.own_bindSlot hscope.lt hnone
  have hbuilds := (GraphM.declare_builds (D := fun _ => True) (E := fun _ => False) trivial _).ok built
  refine hab.extend hstep.grows ha hvalid (hab.toPeopled.congr rfl rfl rfl) (fun K s => hstep.owns_back)
    (fun L t t' m hL ht ht' hm => ?_) fun x _ _ => .inl (hbuilds.typeOf x)
  by_cases hst : s = t ∧ n = m
  · obtain ⟨rfl, rfl⟩ := hst
    obtain rfl := hs.kind_eq (ht.congr rfl rfl) ha
    obtain rfl := hs'.scope_eq ht' hb
    exact .inr hn
  · rw [hown, if_neg hst] at hm
    exact .inl hm

/-- Joining a type into a slot keeps a state embedded if the type is within that of the twin. -/
theorem Embeds.join (hab : a.Embeds b) (ha : a.Valid p) (hb : b.Tabled) {u : ConcreteType} (hu : a.Knows u)
    (htwins : a.Twins b x x') (hwithin : a.Within b u (b.graph.typeOf x')) :
    Embeds { a with graph := (a.graph.unionInto x u).2 } b := by
  have hjoin : a.Joins { a with graph := (a.graph.unionInto x u).2 } := ⟨x, u, hu, rfl⟩
  have hvalid : Valid p _ := Changes.valid (.single (.inr (.inl hjoin))) ha
  have hown (t : ScopeId) (m : String) : (a.graph.unionInto x u).2.own t m = a.graph.own t m := by
    unfold ScopeGraph.own ScopeGraph.scope?
    rw [ScopeGraph.scopes_unionInto]
  refine hab.extend hjoin.grows ha hvalid (hab.toPeopled.congr rfl rfl rfl) (fun K s hs _ => hs.congr rfl rfl)
    (fun L t t' m _ _ _ hm => .inl (hown t m ▸ hm)) fun y y' htwins' => ?_
  by_cases hxy : x = y
  · subst hxy
    right
    have htwins' : a.Twins b x y' := by
      obtain ⟨L, m, t, t', ht, ht', hy, hy'⟩ := htwins'
      exact ⟨L, m, t, t', ht.congr rfl rfl, ht', (hown t m).symm.trans hy, hy'⟩
    obtain rfl := htwins.unique htwins' ha hb
    obtain ⟨L, m, t, t', ht, ht', hx, hx'⟩ := htwins
    have htype := ScopeGraph.typeOf_unionInto (ha.sound.own_lt hx) u
    rw [htype]
    exact ((hab.types x x' ⟨L, m, t, t', ht, ht', hx, hx'⟩).union_left hwithin).grows hjoin.grows
  · exact .inl (ScopeGraph.typeOf_unionInto_of_ne hxy u)

/-- **Applying what was assigned keeps a state embedded.** -/
theorem Embeds.assign {zs : List Assignment} (dirty : List ScopeId) (hab : a.Embeds b) (ha : a.Valid p) (hb : b.Tabled)
    (hknows : ∀ z ∈ zs, a.Knows z.type)
    (hzs : ∀ z ∈ zs, ∃ x', a.Twins b z.slot x' ∧ a.Within b z.type (b.graph.typeOf x')) :
    (a.assign zs dirty).Embeds b := by
  induction zs generalizing a dirty with
  | nil => exact hab
  | cons z rest ih =>
    obtain ⟨x, u⟩ := z
    obtain ⟨hu, hknows⟩ := List.forall_mem_cons.1 hknows
    obtain ⟨⟨x', htwins, hwithin⟩, hzs⟩ := List.forall_mem_cons.1 hzs
    have hjoin : a.Joins { a with graph := (a.graph.unionInto x u).2 } := ⟨x, u, hu, rfl⟩
    have hvalid : Valid p _ := Changes.valid (.single (.inr (.inl hjoin))) ha
    unfold Analysis.assign
    rw [ScopeGraph.apply_cons]
    refine ih _ (hab.join ha hb hu htwins hwithin) hvalid (fun z hz => (hknows z hz).grows hjoin.grows) fun z hz => ?_
    obtain ⟨y', hy, hw⟩ := hzs z hz
    exact ⟨y', hy.grows hjoin.grows, hw.grows hjoin.grows⟩

end Analysis

/-! ## Creation -/

/-- What is added is found in `b`. -/
def Analysis.Peoples (b a c : Analysis) : Prop := a.Peopled b → c.Peopled b

instance (b : Analysis) : IsPreorder Analysis b.Peoples where
  refl _ := id
  trans _ _ _ h k := k ∘ h

namespace AnalysisM

theorem addObject_peoples {q : ShapeId} (hq : b.findObject q ≠ none) (x : GraphM ScopeId) :
    Moves b.Peoples (onGraph x >>= addObject q) := by
  intro a ha
  unfold finalState
  rw [bind_apply]
  cases hx : x a.graph with
  | error e g =>
    rw [onGraph_error hx]
    exact ha.congr rfl rfl rfl
  | ok scope g =>
    rw [onGraph_ok hx]
    refine ⟨ha.functions, fun e he => ?_, fun o ho => ?_⟩
    · rcases List.mem_append.1 he with he | he
      · exact ha.objects e he
      · obtain rfl := List.mem_singleton.1 he
        obtain ⟨o, ho⟩ := Option.ne_none_iff_exists'.1 hq
        obtain ⟨y, hy, hshape⟩ := Analysis.object?_of_findObject ho
        exact ⟨y, List.mem_of_getElem? hy, hshape⟩
    · obtain ⟨o', ho', l, hl, hl'⟩ := ha.allocated o ho
      refine ⟨o', ho', l, ?_, hl'⟩
      obtain ⟨y, hy, rfl⟩ := Option.map_eq_some_iff.1 hl
      refine Option.map_eq_some_iff.2 ⟨y, ?_, rfl⟩
      exact (List.getElem?_append_left (List.getElem?_eq_some_iff.1 hy).1).trans hy

theorem createObjectWithin_peoples (hb : b.Valid p) : ∀ (n : Nat) (path : List ShapeId) (q : ShapeId),
    b.findObject q ≠ none → Moves b.Peoples (createObjectWithin p n path q)
  | 0, _, _, _ => moves_throw _
  | n + 1, path, q, hq => by
    refine moves_get_bind fun a => ?_
    cases a.findObject q with
    | some o => exact id
    | none =>
      dsimp only
      split
      · exact id
      rw [objectScope, bind_assoc]
      unfold Program.demandShape
      cases hd : p.shape? q with
      | none => exact id
      | some d =>
        change b.Peoples a (finalState ((pure d : AnalysisM ShapeDecl) >>= _) a)
        rw [pure_bind]
        cases hproto : d.proto with
        | none => exact addObject_peoples hq _ a
        | some r =>
          -- the other state has the prototype as well
          have hr : b.findObject r ≠ none := by
            obtain ⟨o, ho⟩ := Option.ne_none_iff_exists'.1 hq
            obtain ⟨y, hy, rfl⟩ := Analysis.object?_of_findObject ho
            obtain ⟨d', hd'⟩ := hb.objects y (List.mem_of_getElem? hy)
            obtain rfl := Option.some.inj (hd.symm.trans hd'.decl)
            exact hd'.proto r hproto
          dsimp only
          rw [bind_assoc]
          exact Moves.bind (createObjectWithin_peoples hb n (q :: path) r hr)
            (fun o => moves_get.bind fun c => addObject_peoples hq _) a

theorem createObject?_peoples (hb : b.Valid p) {shape : Option ShapeId} {r : Option ObjRef} (h : b.Provides shape r) :
    Moves b.Peoples (createObject? p shape) := by
  cases shape with
  | none => exact moves_pure _
  | some q =>
    obtain ⟨o, ho, -⟩ := h
    exact (createObjectWithin_peoples hb _ [] q (by simp [ho])).bind fun _ => moves_pure _

theorem createFunction_peoples (hb : b.Valid p) {f : FunctionId} (hf : b.findFunction f ≠ none) (parent : ScopeId) :
    Moves b.Peoples (createFunction p f parent) := by
  obtain ⟨r, hr⟩ := Option.ne_none_iff_exists'.1 hf
  obtain ⟨e, he, rfl⟩ := Analysis.function?_of_findFunction hr
  obtain ⟨d, hd⟩ := hb.functions e (List.mem_of_getElem? he)
  refine moves_get_bind fun a => ?_
  cases a.findFunction e.decl with
  | some r => exact id
  | none =>
    dsimp only
    rw [demandFunction_eq hd.decl, pure_bind]
    refine Moves.bind (createObject?_peoples hb hd.prototype) (fun prototype => ?_) a
    refine (createObject?_peoples hb hd.object).bind fun object c hc => ?_
    obtain ⟨statics, g, hs⟩ : ∃ statics g, GraphM.addScope (.statics e.decl) none c.graph = .ok statics g := ⟨_, _, rfl⟩
    unfold finalState
    rw [introduceFunction_apply hd.decl parent prototype object hs]
    cases GraphM.addBodyScope p e.decl d parent g with
    | error _ h => exact hc.congr rfl rfl rfl
    | ok scope h =>
      refine ⟨fun e' he' => ?_, hc.objects, hc.allocated⟩
      rcases List.mem_append.1 he' with he' | he'
      · exact hc.functions e' he'
      · obtain rfl := List.mem_singleton.1 he'
        exact ⟨e, List.mem_of_getElem? he, rfl⟩

end AnalysisM

end TypeFlow
