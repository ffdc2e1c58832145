import TypeFlow.Proofs.Narrowing

/-!
# Widening

A value of which only the declared type is known is given a concrete type, and on the way objects
are allocated and ambient functions created. A member of a union is widened before the ones that
follow it have done so, but whatever they make present is in what they give themselves. So a
declared type is widened to everything or to just what everything narrows to.

* `Analysis.SamePresent`: creating an object does not make it present.
* `AnalysisM.widen_exact`: what widening gives, in the state that it leads to.
* `AnalysisM.widen_again`: widening once more changes nothing.
* `widen_covers_narrow`: the two readings of a declared type agree.
-/

namespace TypeFlow

variable {p : Program} {env : Setup} {a b c : Analysis} {d : DeclaredType} {ds : List DeclaredType}
  {t u : ConcreteType} {e : Entity}

/-! ## What is present -/

namespace Analysis

/-- The same entities are present. -/
def SamePresent (a b : Analysis) : Prop := b.present = a.present

instance : IsPreorder Analysis SamePresent where
  refl _ := rfl
  trans _ _ _ h k := Eq.trans k h

theorem SamePresent.lengths (h : a.SamePresent b) :
    b.functions.length ≤ a.functions.length ∧ b.allocated.length ≤ a.allocated.length := by
  have hlength := congrArg List.length h
  simp only [present, List.length_append, List.length_map, List.length_range] at hlength
  have hfunctions : b.functions.length ≤ a.functions.length := by
    by_contra hlt
    -- the next function of `a` would be present in `b`, and so in `a`
    have hmem : .function ⟨a.functions.length⟩ ∈ b.present := lists_all.1 (Nat.lt_of_not_le hlt)
    rw [h, ← lists_all] at hmem
    exact Nat.lt_irrefl _ hmem
  have hfunctions' : a.functions.length ≤ b.functions.length := by
    by_contra hlt
    have hmem : .function ⟨b.functions.length⟩ ∈ a.present := lists_all.1 (Nat.lt_of_not_le hlt)
    rw [← h, ← lists_all] at hmem
    exact Nat.lt_irrefl _ hmem
  omega

theorem Grows.mem_present (hab : a.Grows b) (he : e ∈ a.present) : e ∈ b.present := by
  rw [← lists_all] at he ⊢
  cases e with
  | object o => exact hab.allocated.subset he
  | function f => exact Nat.lt_of_lt_of_le he hab.functions.length_le

end Analysis

namespace AnalysisM

theorem onGraph_samePresent {α : Type} (x : GraphM α) : Moves Analysis.SamePresent (onGraph x) := by
  intro a
  cases hx : x a.graph with
  | ok v g => rw [finalState_ok (onGraph_ok hx)]; rfl
  | error e g => rw [finalState_error (onGraph_error hx)]; rfl

theorem demandShape_samePresent (s : ShapeId) :
    Moves Analysis.SamePresent (p.demandShape s : AnalysisM ShapeDecl) := by
  unfold Program.demandShape
  split
  · exact moves_pure _
  · exact moves_throw _

theorem createObjectWithin_samePresent : ∀ (n : Nat) (path : List ShapeId) (s : ShapeId),
    Moves Analysis.SamePresent (createObjectWithin p n path s)
  | 0, _, _ => moves_throw _
  | n + 1, path, s => by
    refine moves_get_bind fun a => ?_
    cases a.findObject s with
    | some o => rfl
    | none =>
      dsimp only
      split
      · rfl
      rw [objectScope, bind_assoc]
      refine Moves.bind (demandShape_samePresent s) (fun d => ?_) a
      have hadd : ∀ scope, Moves Analysis.SamePresent (addObject s scope) := fun _ _ => rfl
      cases d.proto with
      | none => exact (onGraph_samePresent _).bind hadd
      | some q =>
        dsimp only
        rw [bind_assoc]
        refine (createObjectWithin_samePresent n (s :: path) q).bind fun o => ?_
        exact moves_get.bind fun c => (onGraph_samePresent _).bind hadd

/-- **Creating an object does not make it present.** -/
theorem createObject_samePresent (s : ShapeId) : Moves Analysis.SamePresent (createObject p s) :=
  createObjectWithin_samePresent _ _ _

theorem createObject?_samePresent (s : Option ShapeId) :
    Moves Analysis.SamePresent (createObject? p s) := by
  cases s with
  | none => exact moves_pure _
  | some s => exact (createObject_samePresent s).bind fun _ => moves_pure _

/-- Creating a function makes just that function present. -/
theorem createFunction_present {f : FunctionId} {parent : ScopeId} {r : FnRef}
    (h : createFunction p f parent a = .ok r b) (he : e ∈ b.present) :
    e ∈ a.present ∨ e = .function r := by
  unfold createFunction at h
  rw [get_bind_apply] at h
  cases ha : a.findFunction f with
  | some q =>
    rw [ha] at h
    cases h
    exact .inl he
  | none =>
    rw [ha] at h
    obtain ⟨d, a', hdecl, hrest⟩ := bind_ok h
    obtain ⟨rfl, hd⟩ := demandFunction_ok hdecl
    obtain ⟨prototype, c, hc, hrest⟩ := bind_ok hrest
    obtain ⟨object, c', hc', hrest⟩ := bind_ok hrest
    -- the objects of the function are not present
    have hsame : c'.present = a'.present :=
      ((createObject?_samePresent _).ok hc').trans ((createObject?_samePresent _).ok hc)
    obtain ⟨statics, g, hs⟩ : ∃ statics g, GraphM.addScope (.statics f) none c'.graph = .ok statics g :=
      ⟨_, _, rfl⟩
    rw [introduceFunction_apply hd parent prototype object hs] at hrest
    cases hb : GraphM.addBodyScope p f d parent g with
    | error e' g' => rw [hb] at hrest; cases hrest
    | ok body g' =>
      rw [hb] at hrest
      cases hrest
      rw [← hsame, ← Analysis.lists_all]
      rw [← Analysis.lists_all] at he
      cases e with
      | object o => exact .inl he
      | function q =>
        have hlt : q.index < (c'.functions ++ [_]).length := he
        rw [List.length_append, List.length_singleton] at hlt
        by_cases hq : q.index < c'.functions.length
        · exact .inl hq
        · have heq : q.index = c'.functions.length := by omega
          exact .inr (congrArg Entity.function (congrArg FnRef.mk heq))

end AnalysisM

/-! ## Narrowing everything, as the state grows -/

namespace Analysis

/-- Whether an entity fits does not change once it is there. -/
theorem fits_congr (ha : a.Tabled) (hb : b.Tabled) (hab : a.Grows b) (he : a.Has e) :
    b.Fits p d e ↔ a.Fits p d e := by
  by_cases hd : d.Open
  · exact iff_of_true (hd.fits e) (hd.fits e)
  · rw [← admits_ofDeclared hb d hd, ← admits_ofDeclared ha d hd,
      admits_congr he hab.functions hab.objects]

/-- What everything narrows to only grows. -/
theorem narrowed_all_grows (ha : a.Tabled) (hb : b.Tabled) (hv : a.Valid p) (hab : a.Grows b) (hd : ¬ d.Open)
    (he : e ∈ a.narrowed p .all d) : e ∈ b.narrowed p .all d := by
  have hnot : ¬ (ConcreteType.all = .all ∧ d.Open) := fun h => hd h.2
  obtain ⟨-, hmem⟩ := mem_narrowed (p := p) ha hnot
  obtain ⟨-, hmem'⟩ := mem_narrowed (p := p) hb hnot
  obtain ⟨hlists, hfits⟩ := (hmem e).1 he
  rw [lists_all] at hlists
  have hhas := has_of_mem_present hv.allocated hlists
  refine (hmem' e).2 ⟨lists_all.2 (hab.mem_present hlists), (fits_congr ha hb hab hhas).2 hfits⟩

theorem fits_object {s : ShapeId} {o : ObjRef} (h : a.findObject s = some o) :
    a.Fits p (.object s) (.object o) := by
  obtain ⟨i, hi, rfl⟩ := Option.map_eq_some_iff.1 h
  obtain ⟨hlt, hshape, -⟩ := List.findIdx?_eq_some_iff_getElem.1 hi
  have heq : a.objects[i].shape = s := of_decide_eq_true hshape
  exact .object (List.getElem?_eq_getElem hlt) (heq ▸ .refl) .refl

theorem fits_function {f : FunctionId} {signature : Option Signature} :
    a.Fits p (.function (some f) signature) e ↔ ∃ r, e = .function r ∧ a.findFunction f = some r := by
  constructor
  · rintro (_ | _ | _ | ⟨_, hr⟩)
    exact ⟨_, rfl, hr⟩
  · rintro ⟨r, rfl, hr⟩
    exact .function signature hr

theorem narrowed_primitive (ha : a.Tabled) : a.narrowed p .all .primitive = ∅ := by
  obtain ⟨s, hs, hmem⟩ := narrowed_of_not_open (p := p) (t := .all) ha DeclaredType.not_open_primitive
  rw [hs]
  refine congrArg ConcreteType.only (EntitySet.ext fun e => ?_)
  simp [hmem, not_fits_primitive]

/-- Everything narrows to the function that is asked for, if it is there. -/
theorem narrowed_function (ha : a.Tabled) (f : FunctionId) (signature : Option Signature) :
    a.narrowed p .all (.function (some f) signature) =
      ((a.findFunction f).map ConcreteType.function).getD ∅ := by
  have hclosed := DeclaredType.not_open_function (some f) signature
  obtain ⟨s, hs, hmem⟩ := narrowed_of_not_open (p := p) (t := .all) ha hclosed
  rw [hs]
  cases hf : a.findFunction f with
  | none =>
    refine congrArg ConcreteType.only (EntitySet.ext fun e => ?_)
    simp [hmem, fits_function, hf]
  | some r =>
    refine congrArg ConcreteType.only (EntitySet.ext fun e => ?_)
    have hhas : a.Lists .all (.function r) := has_of_findFunction hf
    rw [hmem, fits_function, hf]
    constructor
    · rintro ⟨-, q, rfl, hq⟩
      cases hq
      exact ConcreteType.mem_single.2 rfl
    · intro he
      obtain rfl := ConcreteType.mem_single.1 he
      exact ⟨hhas, r, rfl, rfl⟩

end Analysis

/-! ## What widening gives -/

/-- **Widening was exact**: it gave what everything narrows to where it ended, and whatever it made
present is in what it gave. -/
structure Widened (p : Program) (d : DeclaredType) (a b : Analysis) (t : ConcreteType) : Prop where
  closed : ¬ d.Open
  exact : t = b.narrowed p .all d
  added : ∀ e ∈ b.present, e ∈ a.present ∨ e ∈ t

namespace Widened

/-- The first member of a union misses what the others add, and the others give it. -/
theorem union (hv : b.Valid p) (hb : b.Tabled) (hc : c.Tabled) (hbc : b.Grows c) (h : Widened p d a b t)
    (k : Widened p (.union ds) b c u) : Widened p (.union (d :: ds)) a c (t ∪ u) := by
  have hnot : ¬ (ConcreteType.all = .all ∧ d.Open) := fun hopen => h.closed hopen.2
  obtain ⟨hne, hmem⟩ := Analysis.mem_narrowed (p := p) hb hnot
  obtain ⟨hne', hmem'⟩ := Analysis.mem_narrowed (p := p) hc hnot
  refine ⟨?_, ?_, fun e he => ?_⟩
  · rw [DeclaredType.open_union]
    rintro ⟨d', hd', hopen⟩
    rcases List.mem_cons.1 hd' with rfl | hd'
    · exact h.closed hopen
    · exact k.closed (.union hd' hopen)
  · rw [Analysis.narrowed_union_cons hc, ← k.exact]
    refine ConcreteType.ext_members ?_ fun e => ?_
    · rw [ConcreteType.union_eq_all, ConcreteType.union_eq_all, h.exact]
      exact or_congr_left (iff_of_false hne hne')
    · rw [ConcreteType.mem_union, ConcreteType.mem_union, h.exact]
      constructor
      · rintro (he | he)
        · exact .inl (Analysis.narrowed_all_grows hb hc hv hbc h.closed he)
        · exact .inr he
      · rintro (he | he)
        · -- an entity that is new in `c` was added by the other members
          obtain ⟨hlists, hfits⟩ := (hmem' e).1 he
          rcases k.added e (Analysis.lists_all.1 hlists) with hold | hnew
          · have hhas := Analysis.has_of_mem_present hv.allocated hold
            exact .inl ((hmem e).2 ⟨Analysis.lists_all.2 hold, (Analysis.fits_congr hb hc hbc hhas).1 hfits⟩)
          · exact .inr hnew
        · exact .inr he
  · rw [ConcreteType.mem_union]
    rcases k.added e he with hold | hnew
    · rcases h.added e hold with hold | hnew
      · exact .inl hold
      · exact .inr (.inl hnew)
    · exact .inr (.inr hnew)

/-- Widening to an object type: the object is allocated, and so it is one of those that fit. -/
theorem object {s : ShapeId} {o : ObjRef} (ha : a.Tabled) (hfound : a.findObject s = some o)
    (hb : b = if o ∈ a.allocated then a
      else { a with allocated := a.allocated ++ [o], widened := true, narrowings := [] }) :
    Widened p (.object s) a b (.object o ∪ b.expand p (Admission.ofDeclared p (.object s))) := by
  have hclosed := DeclaredType.not_open_object s
  have hpresent : .object o ∈ b.present ∧ b.Tabled ∧ b.findObject s = some o ∧
      ∀ e ∈ b.present, e ∈ a.present ∨ e = .object o := by
    rw [hb]
    split
    · rename_i ho
      exact ⟨Analysis.lists_all.1 ho, ha, hfound, fun e he => .inl he⟩
    · rename_i ho
      refine ⟨Analysis.lists_all.1 (List.mem_append_right _ (List.mem_singleton_self o)),
        ⟨ha.functions, ha.objects, nodup_append_singleton ha.allocated ho⟩, hfound, fun e he => ?_⟩
      rw [← Analysis.lists_all] at he ⊢
      cases e with
      | function f => exact .inl he
      | object q =>
        rcases List.mem_append.1 he with hq | hq
        · exact .inl hq
        · exact .inr (congrArg Entity.object (List.mem_singleton.1 hq))
  obtain ⟨ho, htabled, hfound', hadded⟩ := hpresent
  obtain ⟨r, hr, hmem⟩ := Analysis.narrowed_of_not_open (p := p) (t := .all) htabled hclosed
  have hin : .object o ∈ r := (hmem _).2 ⟨Analysis.lists_all.2 ho, Analysis.fits_object hfound'⟩
  refine ⟨hclosed, ?_, fun e he => (hadded e he).imp_right fun heq => ?_⟩
  · have hsubset : ConcreteType.object o ≤ b.narrowed p .all (.object s) := by
      rw [hr]
      refine ConcreteType.subset_iff.2 (.inr ⟨nofun, fun e he => ?_⟩)
      obtain rfl := ConcreteType.mem_single.1 he
      exact hin
    exact sup_eq_right.2 hsubset
  · rw [ConcreteType.mem_union, heq]
    exact .inl (ConcreteType.mem_single.2 rfl)

/-- It only matters what was present at the start. -/
theorem of_samePresent (h : Widened p d b c t) (hab : a.SamePresent b) : Widened p d a c t :=
  ⟨h.closed, h.exact, fun e he => hab ▸ h.added e he⟩

/-- Nothing happened. -/
theorem refl (hd : ¬ d.Open) (ht : t = a.narrowed p .all d) : Widened p d a a t :=
  ⟨hd, ht, fun _ he => .inl he⟩

end Widened

namespace AnalysisM

mutual

/-- **What widening gives is everything, or just what everything narrows to.** -/
theorem widen_exact : ∀ (d : DeclaredType) {a b : Analysis} {t : ConcreteType}, a.Valid p → a.Tabled →
    widen p d a = .ok t b → t = .all ∨ Widened p d a b t
  | .unknown, _, _, _, _, _, h => by
    cases h
    exact .inl rfl
  | .anyObject, _, _, _, _, _, h => by
    cases h
    exact .inl rfl
  | .primitive, _, _, _, _, ha, h => by
    cases h
    exact .inr (.refl DeclaredType.not_open_primitive (Analysis.narrowed_primitive ha).symm)
  | .object s, a, b, t, hv, ha, h => by
    rw [widen] at h
    obtain ⟨decl, a', hdecl, hrest⟩ := bind_ok h
    obtain ⟨rfl, -⟩ := demandShape_ok hdecl
    by_cases hk : decl.kind = .interface
    · rw [if_pos hk] at hrest
      cases hrest
      exact .inr (.refl (DeclaredType.not_open_object s) rfl)
    · rw [if_neg hk] at hrest
      obtain ⟨o, c, ho, hrest⟩ := bind_ok hrest
      obtain ⟨hsteps, ⟨hfound, -⟩, -⟩ := (createObject_evaluates (w := true) hv s).proceeds.of_ok ho
      obtain ⟨⟨⟩, c', hc', hrest⟩ := bind_ok hrest
      rw [recordAllocation_apply] at hc'
      cases hc'
      cases hrest
      exact .inr ((Widened.object (hsteps.tabled ha) hfound rfl).of_samePresent
        ((createObject_samePresent s).ok ho))
  | .function (some f) signature, a, b, t, hv, ha, h => by
    have hclosed := DeclaredType.not_open_function (some f) signature
    rw [widen, get_bind_apply] at h
    cases hf : a.findFunction f with
    | some r =>
      rw [hf] at h
      cases h
      refine .inr (.refl hclosed ?_)
      rw [Analysis.narrowed_function ha, hf]
      rfl
    | none =>
      rw [hf] at h
      obtain ⟨decl, a', hdecl, hrest⟩ := bind_ok h
      obtain ⟨rfl, -⟩ := demandFunction_ok hdecl
      by_cases hambient : decl.isAmbient = true
      · rw [if_pos hambient] at hrest
        obtain ⟨r, c, hr, hrest⟩ := bind_ok hrest
        cases hrest
        obtain ⟨hsteps, hfound, -⟩ :=
          (createFunction_evaluates (w := true) hv f hv.root.lt).proceeds.of_ok hr
        refine .inr ⟨hclosed, ?_, fun e he => ?_⟩
        · rw [Analysis.narrowed_function (hsteps.tabled ha), hfound]
          rfl
        · exact (createFunction_present hr he).imp_right ConcreteType.mem_single.2
      · rw [if_neg hambient] at hrest
        cases hrest
        refine .inr (.refl hclosed ?_)
        rw [Analysis.narrowed_function ha, hf]
        rfl
  | .function none _, _, _, _, _, _, h => by
    cases h
    exact .inl rfl
  | .union ds, _, _, _, hv, ha, h => widenAny_exact ds hv ha h
termination_by structural d => d

theorem widenAny_exact : ∀ (ds : List DeclaredType) {a b : Analysis} {t : ConcreteType}, a.Valid p →
    a.Tabled → widenAny p ds a = .ok t b → t = .all ∨ Widened p (.union ds) a b t
  | [], a, _, _, _, ha, h => by
    cases h
    have hclosed : ¬ (DeclaredType.union []).Open := by simp [DeclaredType.open_union]
    exact .inr (.refl hclosed (Analysis.narrowed_union_nil ha).symm)
  | d :: ds, a, c, _, hv, ha, h => by
    rw [widenAny] at h
    obtain ⟨t, b, hb, hrest⟩ := bind_ok h
    obtain ⟨u, c, hc, hrest⟩ := bind_ok hrest
    cases hrest
    obtain ⟨hab, -, -⟩ := (widen_evaluates (w := true) d a hv).proceeds.of_ok hb
    have hvb := hab.valid hv
    obtain ⟨hbc, -, -⟩ := (widenAny_evaluates (w := true) ds b hvb).proceeds.of_ok hc
    rw [ConcreteType.union_eq_all]
    rcases widen_exact d hv ha hb with hall | hhere
    · exact .inl (.inl hall)
    rcases widenAny_exact ds hvb (hab.tabled ha) hc with hall | hrest
    · exact .inl (.inr hall)
    exact .inr (hhere.union hvb (hab.tabled ha) (hbc.tabled (hab.tabled ha)) hbc.grows hrest)
termination_by structural ds => ds

end

/-- A function that is there is all that its type stands for. -/
theorem widen_function {f : FunctionId} {r : FnRef} (h : a.findFunction f = some r)
    (signature : Option Signature) :
    widen p (.function (some f) signature) a = .ok (.function r) a := by
  rw [widen, get_bind_apply, h]
  rfl

/-- A function with a body is not created on the way. -/
theorem widen_function_of_not_ambient {f : FunctionId} {decl : FunctionDecl} (h : a.findFunction f = none)
    (hdecl : p.function? f = some decl) (hambient : ¬ decl.isAmbient = true)
    (signature : Option Signature) : widen p (.function (some f) signature) a = .ok ∅ a := by
  unfold widen Program.demandFunction FunctionRegistry.demand
  rw [get_bind_apply, h, hdecl]
  change (if decl.isAmbient = true then _ else _ : AnalysisM ConcreteType) a = _
  rw [if_neg hambient]
  rfl

/-- An object that is allocated stays as it is. -/
theorem widen_object {s : ShapeId} {decl : ShapeDecl} {o : ObjRef} (hdecl : p.shape? s = some decl)
    (hkind : decl.kind ≠ .interface) (hfound : a.findObject s = some o) (ho : o ∈ a.allocated) :
    widen p (.object s) a = .ok (.object o ∪ a.expand p (Admission.ofDeclared p (.object s))) a := by
  unfold widen Program.demandShape
  rw [hdecl]
  change (if decl.kind = .interface then _ else _ : AnalysisM ConcreteType) a = _
  rw [if_neg hkind, bind_apply, createObject_of_found hfound]
  dsimp only
  rw [bind_apply, recordAllocation_apply, if_pos ho]
  rfl

theorem widen_interface {s : ShapeId} {decl : ShapeDecl} (hdecl : p.shape? s = some decl)
    (hkind : decl.kind = .interface) :
    widen p (.object s) a = .ok (a.expand p (Admission.ofDeclared p (.object s))) a := by
  unfold widen Program.demandShape
  rw [hdecl]
  change (if decl.kind = .interface then _ else _ : AnalysisM ConcreteType) a = _
  rw [if_pos hkind]
  rfl

mutual

/-- **Widening once more, even after the state has grown, changes nothing.** What was to be allocated
or created is there. -/
theorem widen_again : ∀ (d : DeclaredType) {a b c : Analysis} {t : ConcreteType}, a.Valid p →
    widen p d a = .ok t b → b.Grows c → ∃ u, widen p d c = .ok u c ∧ (u = .all ↔ t = .all)
  | .unknown, _, _, _, _, _, h, _ => by
    cases h
    exact ⟨.all, rfl, .rfl⟩
  | .anyObject, _, _, _, _, _, h, _ => by
    cases h
    exact ⟨.all, rfl, .rfl⟩
  | .primitive, _, _, _, _, _, h, _ => by
    cases h
    exact ⟨∅, rfl, .rfl⟩
  | .object s, a, b, c, t, hv, h, hbc => by
    rw [widen] at h
    obtain ⟨decl, a', hdecl, hrest⟩ := bind_ok h
    obtain ⟨rfl, hshape⟩ := demandShape_ok hdecl
    by_cases hk : decl.kind = .interface
    · rw [if_pos hk] at hrest
      cases hrest
      exact ⟨_, widen_interface hshape hk, iff_of_false nofun nofun⟩
    · rw [if_neg hk] at hrest
      obtain ⟨o, q, ho, hrest⟩ := bind_ok hrest
      obtain ⟨-, ⟨hfound, -⟩, -⟩ := (createObject_evaluates (w := true) hv s).proceeds.of_ok ho
      obtain ⟨⟨⟩, q', hq', hrest⟩ := bind_ok hrest
      have hallocated : o ∈ q'.allocated ∧ q'.objects = q.objects := by
        rw [recordAllocation_apply] at hq'
        cases hq'
        split
        · rename_i hin
          exact ⟨hin, rfl⟩
        · exact ⟨List.mem_append_right _ (List.mem_singleton_self o), rfl⟩
      cases hrest
      have hfound' : c.findObject s = some o :=
        Analysis.findObject_of_isPrefix hfound (hallocated.2 ▸ hbc.objects)
      exact ⟨_, widen_object hshape hk hfound' (hbc.allocated.subset hallocated.1), iff_of_false nofun nofun⟩
  | .function (some f) signature, a, b, c, t, hv, h, hbc => by
    have hfound : ∀ r, b.findFunction f = some r → t ≠ .all →
        ∃ u, widen p (.function (some f) signature) c = .ok u c ∧ (u = .all ↔ t = .all) :=
      fun r hr ht => ⟨_, widen_function (Analysis.findFunction_of_isPrefix hr hbc.functions) signature,
        iff_of_false nofun ht⟩
    rw [widen, get_bind_apply] at h
    cases hf : a.findFunction f with
    | some r =>
      rw [hf] at h
      cases h
      exact hfound r hf nofun
    | none =>
      rw [hf] at h
      obtain ⟨decl, a', hdecl, hrest⟩ := bind_ok h
      obtain ⟨rfl, hfunction⟩ := demandFunction_ok hdecl
      by_cases hambient : decl.isAmbient = true
      · rw [if_pos hambient] at hrest
        obtain ⟨r, q, hr, hrest⟩ := bind_ok hrest
        cases hrest
        obtain ⟨-, hnew, -⟩ := (createFunction_evaluates (w := true) hv f hv.root.lt).proceeds.of_ok hr
        exact hfound r hnew nofun
      · rw [if_neg hambient] at hrest
        cases hrest
        -- the function may have been created since by its own declaration
        cases hc : c.findFunction f with
        | some r => exact ⟨_, widen_function hc signature, iff_of_false nofun nofun⟩
        | none => exact ⟨∅, widen_function_of_not_ambient hc hfunction hambient signature, .rfl⟩
  | .function none _, _, _, _, _, _, h, _ => by
    cases h
    exact ⟨.all, rfl, .rfl⟩
  | .union ds, _, _, _, _, hv, h, hbc => widenAny_again ds hv h hbc
termination_by structural d => d

theorem widenAny_again : ∀ (ds : List DeclaredType) {a b c : Analysis} {t : ConcreteType}, a.Valid p →
    widenAny p ds a = .ok t b → b.Grows c → ∃ u, widenAny p ds c = .ok u c ∧ (u = .all ↔ t = .all)
  | [], _, _, _, _, _, h, _ => by
    cases h
    exact ⟨∅, rfl, .rfl⟩
  | d :: ds, a, _, c, _, hv, h, hbc => by
    rw [widenAny] at h ⊢
    obtain ⟨t, b, hb, hrest⟩ := bind_ok h
    obtain ⟨u, b', hb', hrest⟩ := bind_ok hrest
    cases hrest
    obtain ⟨hab, -, -⟩ := (widen_evaluates (w := true) d a hv).proceeds.of_ok hb
    obtain ⟨hbb', -, -⟩ := (widenAny_evaluates (w := true) ds b (hab.valid hv)).proceeds.of_ok hb'
    obtain ⟨t', ht', hall⟩ := widen_again d hv hb (trans_of Analysis.Grows hbb'.grows hbc)
    obtain ⟨u', hu', hall'⟩ := widenAny_again ds (hab.valid hv) hb' hbc
    rw [bind_apply, ht']
    dsimp only
    rw [bind_apply, hu']
    refine ⟨_, rfl, ?_⟩
    rw [ConcreteType.union_eq_all, ConcreteType.union_eq_all, hall, hall']
termination_by structural ds => ds

end

end AnalysisM

/-- **Widening covers narrowing.** What a declared type widens to holds everything that narrows to it,
and narrowing takes nothing from it; its objects are allocated, and widening once more gives the
same and changes nothing. -/
theorem widen_covers_narrow (h : Occurs env a) (d : DeclaredType)
    (hw : AnalysisM.widen env.program d a = .ok t b) :
    (∃ r c, AnalysisM.narrow env .all d b = .ok r c ∧ r ⊆ t) ∧
    (t = .all ∨ ∃ c, AnalysisM.narrow env t d b = .ok t c) ∧
    (∀ o ∈ t.objects, o ∈ b.allocated) ∧
    AnalysisM.widen env.program d b = .ok t b := by
  have hv := h.valid
  obtain ⟨hab, hknown, -⟩ := (AnalysisM.widen_evaluates (w := true) d a hv).proceeds.of_ok hw
  have hvb := hab.valid hv
  have hb := hab.tabled h.tabled
  obtain ⟨c, hc, -⟩ := AnalysisM.narrow_returns hvb (Analysis.knows_all b) d
  obtain ⟨u, hu, hall⟩ := AnalysisM.widen_again d hv hw (refl_of Analysis.Grows b)
  rcases AnalysisM.widen_exact d hv h.tabled hw with rfl | hexact
  · obtain rfl := hall.2 rfl
    refine ⟨⟨_, c, hc, ConcreteType.subset_all _⟩, .inl rfl, ?_, hu⟩
    intro o ho
    cases ho
  · have ht := hexact.exact
    have hnot : ¬ (ConcreteType.all = .all ∧ d.Open) := fun hopen => hexact.closed hopen.2
    obtain ⟨hne, hmem⟩ := Analysis.mem_narrowed (p := env.program) hb hnot
    rw [← ht] at hne hmem hc
    obtain ⟨c', hc', -⟩ := AnalysisM.narrow_returns hvb hknown d
    rw [ht, Analysis.narrowed_narrowed hb, ← ht] at hc'
    refine ⟨⟨t, c, hc, ConcreteType.subset_refl t⟩, .inr ⟨c', hc'⟩, fun o ho => ?_, ?_⟩
    · have hmember := ConcreteType.mem_objects.1 ho
      cases t with
      | all => exact absurd rfl hne
      | only s => exact ((hmem (.object o)).1 hmember).1
    · -- the second result is exact too, in the same state
      rcases AnalysisM.widen_exact d hvb hb hu with rfl | hexact'
      · exact absurd (hall.1 rfl) hne
      · rwa [hexact'.exact, ← ht] at hu

/-- An interface, and an ambient class that implements it. -/
def implementing : Setup where
  program := {
    shapes := [
      { name := "I", kind := .interface, implementors := [⟨0⟩] },
      { name := "C", kind := .constructed }]
    functions := [{ name := "C", objectShape := some ⟨1⟩ }]
    body := [] }

/-- The interface, the class, or its constructor. -/
def implementing.any : DeclaredType := .union [.object ⟨0⟩, .object ⟨1⟩, .function (some ⟨0⟩) none]

/-- When the interface is widened, the object of the class is not there yet; in the end it is in what
the interface narrows to, and in what the union was widened to. -/
theorem implementing_covers : ∃ t b,
    AnalysisM.widen implementing.program implementing.any .fresh = .ok t b ∧
    t = .ofList [.object ⟨0⟩, .function ⟨0⟩] ∧
    b.narrowed implementing.program .all (.object ⟨0⟩) = .object ⟨0⟩ ∧
    (∃ r c, AnalysisM.narrow implementing .all implementing.any b = .ok r c ∧ r ⊆ t) ∧
    (t = .all ∨ ∃ c, AnalysisM.narrow implementing t implementing.any b = .ok t c) ∧
    (∀ o ∈ t.objects, o ∈ b.allocated) ∧
    AnalysisM.widen implementing.program implementing.any b = .ok t b := by
  have hchecks : checks (AnalysisM.widen implementing.program implementing.any) .fresh (fun t b =>
      decide (t = .ofList [.object ⟨0⟩, .function ⟨0⟩] ∧
        b.narrowed implementing.program .all (.object ⟨0⟩) = .object ⟨0⟩)) = true := by
    decide +kernel
  obtain ⟨t, b, hw, hvalue⟩ := exists_ok hchecks
  obtain ⟨ht, hinterface⟩ := of_decide_eq_true hvalue
  exact ⟨t, b, hw, ht, hinterface, widen_covers_narrow Reachable.fresh.occurs implementing.any hw⟩

end TypeFlow
