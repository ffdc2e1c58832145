import TypeFlow.Proofs.FiniteSets
import TypeFlow.Proofs.Hierarchy
import TypeFlow.Proofs.Tables

/-!
# Narrowing

What a declared type lets through, said of one entity at a time and without admissions, searches
or memory. A declared type is **open** if it says nothing about a value; any other one keeps the
entities that **fit** it, and everything stands for the entities that are present.

* `DeclaredType.Open`, `Analysis.Fits`, `Analysis.Lists`: the three notions.
* `Analysis.narrowed_of_open`, `Analysis.narrowed_of_not_open`: what narrowing gives.
* `narrow_selects`: narrowing, with and without memory, is that selection, and it is
  idempotent and distributes over unions.
* `narrow_subset_iff`: when narrowing a larger type gives a larger type.
-/

namespace TypeFlow

open Relation

/-! ## Fitting -/

/-- **A declared type is open** if it says nothing about a value, by itself or through a member of
nested unions. -/
inductive DeclaredType.Open : DeclaredType → Prop
  | unknown : Open .unknown
  | anyObject : Open .anyObject
  | union {d : DeclaredType} {ds : List DeclaredType} : d ∈ ds → Open d → Open (.union ds)

namespace Analysis

/-- **An entity fits a declared type.** Everything fits an open type and nothing a primitive one.
An object fits a shape if it counts, by itself or along the prototypes, as a shape at or below that
one. -/
inductive Fits (p : Program) (a : Analysis) : DeclaredType → Entity → Prop
  | unknown (e : Entity) : Fits p a .unknown e
  | anyObject (e : Entity) : Fits p a .anyObject e
  | object {s q : ShapeId} {o : ObjRef} {x : ObjectEntry} : a.object? o = some x →
      ReflTransGen p.CountsAs x.shape q → ReflTransGen p.Descends s q →
      Fits p a (.object s) (.object o)
  | function {f : FunctionId} {r : FnRef} (signature : Option Signature) :
      a.findFunction f = some r → Fits p a (.function (some f) signature) (.function r)
  | anyFunction (signature : Option Signature) (r : FnRef) :
      Fits p a (.function none signature) (.function r)
  | union {d : DeclaredType} {ds : List DeclaredType} {e : Entity} : d ∈ ds → Fits p a d e →
      Fits p a (.union ds) e

/-- The entities that a type lists, where everything stands for the allocated objects and the
functions. -/
def Lists (a : Analysis) : ConcreteType → Entity → Prop
  | .all, .object o => o ∈ a.allocated
  | .all, .function f => f.index < a.functions.length
  | .only s, e => e ∈ s

end Analysis

variable {p : Program} {env : Setup} {a b : Analysis} {d : DeclaredType} {ds : List DeclaredType}
  {t u : ConcreteType} {e : Entity}

namespace DeclaredType

theorem open_union : (union ds).Open ↔ ∃ d ∈ ds, d.Open := by
  constructor
  · rintro (_ | _ | ⟨hd, hopen⟩)
    exact ⟨_, hd, hopen⟩
  · rintro ⟨d, hd, hopen⟩
    exact .union hd hopen

theorem not_open_primitive : ¬ primitive.Open := by
  intro h
  cases h

theorem not_open_object (s : ShapeId) : ¬ (object s).Open := by
  intro h
  cases h

theorem not_open_function (f : Option FunctionId) (signature : Option Signature) :
    ¬ (function f signature).Open := by
  intro h
  cases h

theorem Open.fits (h : d.Open) (e : Entity) : a.Fits p d e := by
  induction h with
  | unknown => exact .unknown e
  | anyObject => exact .anyObject e
  | union hd _ ih => exact .union hd ih

end DeclaredType

namespace Analysis

theorem fits_union : a.Fits p (.union ds) e ↔ ∃ d ∈ ds, a.Fits p d e := by
  constructor
  · rintro (_ | _ | _ | _ | _ | ⟨hd, hfits⟩)
    exact ⟨_, hd, hfits⟩
  · rintro ⟨d, hd, hfits⟩
    exact .union hd hfits

theorem not_fits_primitive (e : Entity) : ¬ a.Fits p .primitive e := by
  intro h
  cases h

theorem lists_all : a.Lists .all e ↔ e ∈ a.present := by
  unfold present
  rw [List.mem_append, List.mem_map, List.mem_map]
  cases e with
  | object o =>
    constructor
    · exact fun ho => .inl ⟨o, ho, rfl⟩
    · rintro (⟨q, hq, heq⟩ | ⟨i, -, heq⟩)
      · cases heq
        exact hq
      · cases heq
  | function f =>
    constructor
    · exact fun hf => .inr ⟨f.index, List.mem_range.2 hf, rfl⟩
    · rintro (⟨q, -, heq⟩ | ⟨i, hi, heq⟩)
      · cases heq
      · cases heq
        exact List.mem_range.1 hi

end Analysis

/-! ## Admissions say who fits -/

namespace Admission

open DeclaredType

mutual

/-- A declared type that admits everything is open. -/
theorem ofDeclared_everything (p : Program) : ∀ d : DeclaredType,
    (ofDeclared p d).everything = true ↔ d.Open
  | .unknown => iff_of_true rfl .unknown
  | .anyObject => iff_of_true rfl .anyObject
  | .primitive => iff_of_false Bool.false_ne_true not_open_primitive
  | .object s => iff_of_false Bool.false_ne_true (not_open_object s)
  | .function (some f) signature => iff_of_false Bool.false_ne_true (not_open_function (some f) signature)
  | .function none signature => iff_of_false Bool.false_ne_true (not_open_function none signature)
  | .union ds => (ofDeclaredAny_everything p ds).trans open_union.symm
termination_by structural d => d

theorem ofDeclaredAny_everything (p : Program) : ∀ ds : List DeclaredType,
    (ofDeclaredAny p ds).everything = true ↔ ∃ d ∈ ds, d.Open
  | [] => iff_of_false Bool.false_ne_true (by simp)
  | d :: ds => by
    have hhere := ofDeclared_everything p d
    have hrest := ofDeclaredAny_everything p ds
    simp only [ofDeclaredAny, join, Bool.or_eq_true, hhere, hrest, List.mem_cons, exists_eq_or_imp]
termination_by structural ds => ds

end

end Admission

namespace Analysis

theorem admits_join (x y : Admission) :
    a.admits p (x.join y) e = true ↔ a.admits p x e = true ∨ a.admits p y e = true := by
  cases e with
  | function f =>
    simp only [admits, Admission.join]
    cases a.function? f <;> simp [or_assoc, or_left_comm]
  | object o =>
    simp only [admits, Admission.join]
    cases a.object? o <;> simp [and_or_left, exists_or]

theorem not_admits_nothing (e : Entity) : ¬ a.admits p {} e = true := by
  cases e <;> simp [admits, Option.any_eq_true]

theorem function?_of_findFunction {f : FunctionId} {r : FnRef} (h : a.findFunction f = some r) :
    ∃ x, a.function? r = some x ∧ x.decl = f := by
  obtain ⟨i, hi, rfl⟩ := Option.map_eq_some_iff.1 h
  obtain ⟨hlt, hdecl, -⟩ := List.findIdx?_eq_some_iff_getElem.1 hi
  exact ⟨a.functions[i], List.getElem?_eq_getElem hlt, of_decide_eq_true hdecl⟩

/-- A function is admitted by its declaration. -/
theorem admits_function (ha : a.Tabled) (f : FunctionId) :
    a.admits p { functions := [f] } e = true ↔ ∃ r, e = .function r ∧ a.findFunction f = some r := by
  cases e with
  | object o =>
    refine iff_of_false ?_ fun ⟨r, hr, _⟩ => nomatch hr
    simp [admits, Option.any_eq_true]
  | function r =>
    have hadmits : a.admits p { functions := [f] } (.function r) = true ↔
        ∃ x, a.function? r = some x ∧ x.decl = f := by
      simp [admits, Option.any_eq_true]
    rw [hadmits]
    constructor
    · rintro ⟨x, hx, hdecl⟩
      have hfound := ha.findFunction hx
      rw [hdecl] at hfound
      exact ⟨r, rfl, hfound⟩
    · rintro ⟨q, heq, hq⟩
      cases heq
      exact function?_of_findFunction hq

/-- An object is admitted by a shape at or above one that it counts as. -/
theorem admits_object (s : ShapeId) :
    a.admits p { shapes := p.subtypeClosure s } e = true ↔ ∃ o x q, e = .object o ∧
      a.object? o = some x ∧ ReflTransGen p.CountsAs x.shape q ∧ ReflTransGen p.Descends s q := by
  cases e with
  | function r =>
    refine iff_of_false ?_ fun ⟨o, _, _, ho, _⟩ => nomatch ho
    simp [admits]
  | object o =>
    have hadmits : a.admits p { shapes := p.subtypeClosure s } (.object o) = true ↔
        ∃ x, a.object? o = some x ∧ ∃ q ∈ p.admissionPath x.shape, q ∈ p.subtypeClosure s := by
      simp [admits, Option.any_eq_true]
    rw [hadmits]
    simp only [Program.mem_admissionPath, Program.mem_subtypeClosure]
    constructor
    · rintro ⟨x, hx, q, hcounts, hbelow⟩
      exact ⟨o, x, q, rfl, hx, hcounts, hbelow⟩
    · rintro ⟨_, x, q, heq, hx, hcounts, hbelow⟩
      cases heq
      exact ⟨x, hx, q, hcounts, hbelow⟩

mutual

/-- **A declared type that is not open admits exactly what fits it.** -/
theorem admits_ofDeclared (ha : a.Tabled) : ∀ d : DeclaredType, ¬ d.Open →
    (a.admits p (Admission.ofDeclared p d) e = true ↔ a.Fits p d e)
  | .unknown, hd => absurd .unknown hd
  | .anyObject, hd => absurd .anyObject hd
  | .primitive, _ => iff_of_false (not_admits_nothing e) (not_fits_primitive e)
  | .object s, _ => by
    refine (admits_object s).trans ⟨?_, ?_⟩
    · rintro ⟨o, x, q, rfl, hx, hcounts, hbelow⟩
      exact .object hx hcounts hbelow
    · rintro (_ | _ | ⟨hx, hcounts, hbelow⟩)
      exact ⟨_, _, _, rfl, hx, hcounts, hbelow⟩
  | .function (some f) signature, _ => by
    refine (admits_function ha f).trans ⟨?_, ?_⟩
    · rintro ⟨r, rfl, hr⟩
      exact .function signature hr
    · rintro (_ | _ | _ | ⟨_, hr⟩)
      exact ⟨_, rfl, hr⟩
  | .function none signature, _ => by
    cases e with
    | function r => exact iff_of_true rfl (.anyFunction signature r)
    | object o => exact iff_of_false (not_admits_nothing (.object o)) nofun
  | .union ds, hd => by
    have hmembers : ∀ d ∈ ds, ¬ d.Open := fun d hmem hopen => hd (.union hmem hopen)
    exact (admits_ofDeclaredAny ha ds hmembers).trans fits_union.symm
termination_by structural d => d

theorem admits_ofDeclaredAny (ha : a.Tabled) : ∀ ds : List DeclaredType, (∀ d ∈ ds, ¬ d.Open) →
    (a.admits p (Admission.ofDeclaredAny p ds) e = true ↔ ∃ d ∈ ds, a.Fits p d e)
  | [], _ => iff_of_false (not_admits_nothing e) (by simp)
  | d :: ds, hd => by
    obtain ⟨hhead, htail⟩ := List.forall_mem_cons.1 hd
    have hhere := admits_ofDeclared ha d hhead
    have hrest := admits_ofDeclaredAny ha ds htail
    simp only [Admission.ofDeclaredAny, admits_join, hhere, hrest, List.mem_cons, exists_eq_or_imp]
termination_by structural ds => ds

end

/-! ## The narrowed type -/

/-- An open type narrows nothing. -/
theorem narrowed_of_open (hd : d.Open) : a.narrowed p t d = t := by
  have hx := (Admission.ofDeclared_everything p d).2 hd
  simp only [narrowed, hx, if_true]

/-- **Any other declared type keeps the listed entities that fit it.** -/
theorem narrowed_of_not_open (ha : a.Tabled) (hd : ¬ d.Open) :
    ∃ s, a.narrowed p t d = .only s ∧ ∀ e, e ∈ s ↔ a.Lists t e ∧ a.Fits p d e := by
  have hx : (Admission.ofDeclared p d).everything = false := by
    rw [← Bool.not_eq_true]
    exact fun h => hd ((Admission.ofDeclared_everything p d).1 h)
  cases t with
  | all =>
    refine ⟨_, by simp only [narrowed, hx, Bool.false_eq_true, if_false]; rfl, fun e => ?_⟩
    rw [EntitySet.mem_ofList, List.mem_filter, lists_all, admits_ofDeclared ha d hd]
  | only s =>
    refine ⟨_, by simp only [narrowed, hx, Bool.false_eq_true, if_false]; rfl, fun e => ?_⟩
    rw [EntitySet.mem_filter, admits_ofDeclared ha d hd]
    rfl

/-- Unless everything is narrowed by an open type, what is left are the listed entities that
fit. -/
theorem mem_narrowed (ha : a.Tabled) (h : ¬ (t = .all ∧ d.Open)) :
    a.narrowed p t d ≠ .all ∧ ∀ e, e ∈ a.narrowed p t d ↔ a.Lists t e ∧ a.Fits p d e := by
  by_cases hd : d.Open
  · rw [narrowed_of_open hd]
    cases t with
    | all => exact absurd ⟨rfl, hd⟩ h
    | only s => exact ⟨nofun, fun e => (and_iff_left (hd.fits e)).symm⟩
  · obtain ⟨s, hs, hmem⟩ := narrowed_of_not_open (p := p) (t := t) ha hd
    rw [hs]
    exact ⟨nofun, hmem⟩

theorem narrowed_narrowed (ha : a.Tabled) : a.narrowed p (a.narrowed p t d) d = a.narrowed p t d := by
  by_cases hd : d.Open
  · exact narrowed_of_open hd
  · obtain ⟨s, hs, hmem⟩ := narrowed_of_not_open (p := p) (t := t) ha hd
    obtain ⟨r, hr, hmem'⟩ := narrowed_of_not_open (p := p) (t := a.narrowed p t d) ha hd
    rw [hr, hs]
    refine congrArg ConcreteType.only (EntitySet.ext fun e => ?_)
    have hlists : a.Lists (a.narrowed p t d) e ↔ e ∈ s := by
      rw [hs]
      exact .rfl
    rw [hmem', hlists]
    exact and_iff_left_of_imp fun he => ((hmem e).1 he).2

/-- No member of an empty union is there to let anything through. -/
theorem narrowed_union_nil (ha : a.Tabled) : a.narrowed p t (.union []) = ∅ := by
  have hclosed : ¬ (DeclaredType.union []).Open := by simp [DeclaredType.open_union]
  obtain ⟨s, hs, hmem⟩ := narrowed_of_not_open (p := p) (t := t) ha hclosed
  rw [hs]
  refine congrArg ConcreteType.only (EntitySet.ext fun e => ?_)
  simp [hmem, fits_union]

/-- A union lets through what its first member or the others let through. -/
theorem narrowed_union_cons (ha : a.Tabled) :
    a.narrowed p t (.union (d :: ds)) = a.narrowed p t d ∪ a.narrowed p t (.union ds) := by
  have hopen : (DeclaredType.union (d :: ds)).Open ↔ d.Open ∨ (DeclaredType.union ds).Open := by
    simp [DeclaredType.open_union]
  have hfits : ∀ e, a.Fits p (.union (d :: ds)) e ↔ a.Fits p d e ∨ a.Fits p (.union ds) e := by
    intro e
    simp [fits_union]
  by_cases hall : t = .all ∧ (DeclaredType.union (d :: ds)).Open
  · obtain ⟨rfl, hall⟩ := hall
    rw [narrowed_of_open hall]
    rcases hopen.1 hall with h | h
    · rw [narrowed_of_open h, ConcreteType.all_union]
    · rw [narrowed_of_open h, ConcreteType.union_all]
  · have hhead : ¬ (t = .all ∧ d.Open) := fun h => hall ⟨h.1, hopen.2 (.inl h.2)⟩
    have htail : ¬ (t = .all ∧ (DeclaredType.union ds).Open) := fun h => hall ⟨h.1, hopen.2 (.inr h.2)⟩
    obtain ⟨hne, hmem⟩ := mem_narrowed (p := p) ha hall
    obtain ⟨hne₁, hmem₁⟩ := mem_narrowed (p := p) ha hhead
    obtain ⟨hne₂, hmem₂⟩ := mem_narrowed (p := p) ha htail
    refine ConcreteType.ext_members (iff_of_false hne ?_) fun e => ?_
    · rw [ConcreteType.union_eq_all]
      exact fun h => h.elim hne₁ hne₂
    · rw [ConcreteType.mem_union, hmem, hmem₁, hmem₂, hfits, and_or_left]

/-- **Narrowing by a union is the union of the narrowings.** -/
theorem narrowed_union (ha : a.Tabled) (ds : List DeclaredType) :
    a.narrowed p t (.union ds) = .unions (ds.map (a.narrowed p t)) := by
  induction ds with
  | nil => exact narrowed_union_nil ha
  | cons d ds ih => rw [narrowed_union_cons ha, ih, List.map_cons, ConcreteType.unions_cons]

/-- There is nothing to narrow in the empty type. -/
theorem narrowed_empty (d : DeclaredType) : a.narrowed p ∅ d = ∅ := by
  simp only [narrowed]
  by_cases hx : (Admission.ofDeclared p d).everything = true
  · rw [if_pos hx]
  · rw [if_neg hx]
    rfl

/-- **When narrowing follows the order of types.** The only way to lose a member is to forget, by
passing on to everything, an object that fits and was never allocated. -/
theorem narrowed_subset_narrowed (ha : a.Tabled) (ht : a.Knows t) (htu : t ⊆ u) :
    a.narrowed p t d ⊆ a.narrowed p u d ↔ (u = .all → t ≠ .all → ¬ d.Open →
      ∀ o ∈ t.objects, a.Fits p d (.object o) → o ∈ a.allocated) := by
  by_cases hd : d.Open
  · rw [narrowed_of_open hd, narrowed_of_open hd]
    exact iff_of_true htu fun _ _ hclosed => absurd hd hclosed
  obtain ⟨s, hs, hmem⟩ := narrowed_of_not_open (p := p) (t := t) ha hd
  obtain ⟨r, hr, hmem'⟩ := narrowed_of_not_open (p := p) (t := u) ha hd
  have hsubset : a.narrowed p t d ⊆ a.narrowed p u d ↔
      ∀ e, a.Lists t e → a.Fits p d e → a.Lists u e := by
    rw [hs, hr, ConcreteType.only_subset_only]
    refine forall_congr' fun e => ?_
    rw [hmem, hmem']
    tauto
  rw [hsubset]
  cases u with
  | only m =>
    refine iff_of_true (fun e he _ => ?_) nofun
    cases t with
    | all => exact absurd (ConcreteType.all_subset.1 htu) nofun
    | only l => exact htu e he
  | all =>
    cases t with
    | all => exact iff_of_true (fun e he _ => he) fun _ hne => absurd rfl hne
    | only l =>
      constructor
      · intro hlists _ _ _ o ho hfits
        exact hlists (.object o) (ConcreteType.mem_objects.1 ho) hfits
      · intro hallocated e he hfits
        cases e with
        | function f => exact ht (.function f) he
        | object o => exact hallocated rfl nofun hd o (ConcreteType.mem_objects.2 he) hfits

end Analysis

/-! ## Narrowing, with and without memory -/

theorem AnalysisM.narrow_returns (hv : a.Valid env.program) (ht : a.Knows t) (d : DeclaredType) :
    ∃ b, narrow env t d a = .ok (a.narrowed env.program t d) b ∧ Steps env.program false a b ∧
      b.forget = a.forget := by
  by_cases h : d = .unknown ∨ t = ∅
  · have hsame : a.narrowed env.program t d = t := by
      rcases h with rfl | rfl
      · exact Analysis.narrowed_of_open .unknown
      · exact Analysis.narrowed_empty d
    rw [narrow_of_trivial h, hsame]
    exact ⟨a, rfl, .refl, rfl⟩
  · exact narrow_apply hv ht h

/-- What is remembered has no part in what is narrowed. -/
theorem Analysis.narrowed_of_forget (h : b.forget = a.forget) (t : ConcreteType) (d : DeclaredType) :
    b.narrowed p t d = a.narrowed p t d := by
  change b.forget.narrowed p t d = a.forget.narrowed p t d
  rw [h]

/-- **Narrowing selects what fits.** In every state that occurs, with or without memory, narrowing
succeeds and changes nothing but what is remembered. Everything narrowed by an open type stays
everything; otherwise what is left are the listed entities that fit. Narrowing the result
once more gives it again, and narrowing by a union gives the union of what its members give. -/
theorem narrow_selects (h : Occurs env a) (ht : a.Knows t) (d : DeclaredType) :
    ∃ r b, AnalysisM.narrow env t d a = .ok r b ∧ b.forget = a.forget ∧
      (t = .all ∧ d.Open → r = .all) ∧
      (¬ (t = .all ∧ d.Open) → r ≠ .all ∧ ∀ e, e ∈ r ↔ a.Lists t e ∧ a.Fits env.program d e) ∧
      (∃ c, AnalysisM.narrow env r d b = .ok r c) ∧
      ∀ ds, d = .union ds → ∃ rs, r = .unions rs ∧
        List.Forall₂ (fun d' r' => ∃ c, AnalysisM.narrow env t d' a = .ok r' c) ds rs := by
  have hv := h.valid
  have htabled := h.tabled
  obtain ⟨b, hb, hab, hforget⟩ := AnalysisM.narrow_returns hv ht d
  refine ⟨_, b, hb, hforget, ?_, Analysis.mem_narrowed htabled, ?_, ?_⟩
  · rintro ⟨rfl, hopen⟩
    exact Analysis.narrowed_of_open hopen
  · -- the result is known where the second narrowing starts
    have hknown := (hv.knows_narrowed ht d).grows hab.grows
    obtain ⟨c, hc, -⟩ := AnalysisM.narrow_returns (hab.valid hv) hknown d
    rw [Analysis.narrowed_of_forget hforget, Analysis.narrowed_narrowed htabled] at hc
    exact ⟨c, hc⟩
  · rintro ds rfl
    refine ⟨ds.map (a.narrowed env.program t), Analysis.narrowed_union htabled ds, ?_⟩
    rw [List.forall₂_map_right_iff]
    refine List.forall₂_same.2 fun d' _ => ?_
    obtain ⟨c, hc, -⟩ := AnalysisM.narrow_returns hv ht d'
    exact ⟨c, hc⟩

/-- The state after processing a class that inherits from another. -/
def derived.final : Analysis := (Operation.process [] derived.program.body).after derived .fresh

theorem derived.final_reachable : Reachable derived derived.final := .after (.process _ _) .fresh trivial

/-- The prototype of `D`, an object made by `D`, and the function `B`. -/
def derived.mixed : ConcreteType := .ofList [.object ⟨1⟩, .object ⟨2⟩, .function ⟨0⟩]

theorem derived.knows_mixed : derived.final.Knows derived.mixed := by
  have hsizes : derived.final.functions.length = 2 ∧ derived.final.objects.length = 3 := by
    decide +kernel
  refine Analysis.knows_ofList fun e he => ?_
  simp only [List.mem_cons, List.not_mem_nil, or_false] at he
  rcases he with rfl | rfl | rfl <;> simp only [Analysis.Has, hsizes] <;> decide

/-- The prototype of `B`, or the function `B`. -/
def derived.eitherB : DeclaredType := .union [.object ⟨0⟩, .function (some ⟨0⟩) none]

/-- The prototype of `D` counts as that of `B`, and what `D` makes does not; so the prototype and the
function `B` are selected from the three. -/
theorem derived_selects : ∃ r b,
    AnalysisM.narrow derived derived.mixed derived.eitherB derived.final = .ok r b ∧
    r = .ofList [.object ⟨1⟩, .function ⟨0⟩] ∧
    (∃ c, AnalysisM.narrow derived r derived.eitherB b = .ok r c) ∧
    derived.final.Fits derived.program derived.eitherB (.object ⟨1⟩) ∧
    ¬ derived.final.Fits derived.program derived.eitherB (.object ⟨2⟩) := by
  have hvalue : derived.final.narrowed derived.program derived.mixed derived.eitherB =
      .ofList [.object ⟨1⟩, .function ⟨0⟩] := by
    decide +kernel
  obtain ⟨r, b, hr, -, -, hselects, hagain, -⟩ := narrow_selects derived.final_reachable.occurs
    derived.knows_mixed derived.eitherB
  obtain ⟨c, hc, -⟩ := AnalysisM.narrow_returns derived.final_reachable.valid derived.knows_mixed
    derived.eitherB
  rw [hr, hvalue] at hc
  cases hc
  obtain ⟨-, hmem⟩ := hselects fun hall => nomatch hall.1
  refine ⟨_, b, hr, rfl, hagain, ((hmem (.object ⟨1⟩)).1 (by simp)).2, fun hfits => ?_⟩
  have hin := (hmem (.object ⟨2⟩)).2 ⟨ConcreteType.mem_ofList.2 (by simp), hfits⟩
  simp at hin

/-- **Narrowing a larger type gives a larger type, with one exception.** If the larger type is
everything, the smaller is not, and the declared type is not open, then the objects of the
smaller type that fit have to be allocated. -/
theorem narrow_subset_iff (h : Occurs env a) (ht : a.Knows t) (hu : a.Knows u) (htu : t ⊆ u)
    (d : DeclaredType) :
    ∃ r q b c, AnalysisM.narrow env t d a = .ok r b ∧ AnalysisM.narrow env u d a = .ok q c ∧
      (r ⊆ q ↔ (u = .all → t ≠ .all → ¬ d.Open →
        ∀ o ∈ t.objects, a.Fits env.program d (.object o) → o ∈ a.allocated)) := by
  obtain ⟨b, hb, -⟩ := AnalysisM.narrow_returns h.valid ht d
  obtain ⟨c, hc, -⟩ := AnalysisM.narrow_returns h.valid hu d
  exact ⟨_, _, b, c, hb, hc, Analysis.narrowed_subset_narrowed h.tabled ht htu⟩

/-- An object that was allocated is not forgotten. -/
theorem oneObject_subset : ∃ r q b c,
    AnalysisM.narrow oneObject (.object ⟨0⟩) (.object ⟨0⟩) oneObject.processed = .ok r b ∧
    AnalysisM.narrow oneObject .all (.object ⟨0⟩) oneObject.processed = .ok q c ∧ r ⊆ q := by
  have hsizes : oneObject.processed.objects.length = 1 ∧ oneObject.processed.allocated = [⟨0⟩] := by
    decide +kernel
  have hknown : oneObject.processed.Knows (.object ⟨0⟩) := by
    refine Analysis.knows_single ?_
    simp only [Analysis.Has, hsizes]
    decide
  obtain ⟨r, q, b, c, hr, hq, hiff⟩ := narrow_subset_iff oneObject.processed_reachable.occurs hknown
    (Analysis.knows_all _) (ConcreteType.subset_all _) (.object ⟨0⟩)
  refine ⟨r, q, b, c, hr, hq, hiff.2 fun _ _ _ o ho _ => ?_⟩
  rw [hsizes.2]
  exact ho

/-- A function `F` with a prototype, of which no object is ever made. -/
def barePrototype : Setup where
  program := {
    shapes := [{ name := "P", kind := .prototype }]
    functions := [{ name := "F", body := some [], prototypeShape := some ⟨0⟩ }]
    body := [.function ⟨0⟩] }

/-- **Passing on to everything can lose a member.** The prototype of `F` fits its own shape, and
everything narrowed to that shape is empty. -/
theorem barePrototype_not_subset :
    ∃ a ∈ barePrototype.states [] barePrototype.program.body .fresh, ∃ t u d r q b c,
      a.Knows t ∧ a.Knows u ∧ t ⊆ u ∧ AnalysisM.narrow barePrototype t d a = .ok r b ∧
      AnalysisM.narrow barePrototype u d a = .ok q c ∧ ¬ r ⊆ q := by
  let a := (barePrototype.trace [] barePrototype.program.body .fresh).final
  have ha : a ∈ barePrototype.states [] barePrototype.program.body .fresh :=
    List.mem_append_right _ (List.mem_singleton_self a)
  have hv := (occurs_of_mem_states .fresh ha).valid
  have hknown : a.Knows (.object ⟨0⟩) := by
    have hsize : a.objects.length = 1 := by decide +kernel
    refine Analysis.knows_single ?_
    simp only [Analysis.Has, hsize]
    decide
  obtain ⟨b, hb, -⟩ := AnalysisM.narrow_returns hv hknown (.object ⟨0⟩)
  obtain ⟨c, hc, -⟩ := AnalysisM.narrow_returns hv (Analysis.knows_all a) (.object ⟨0⟩)
  refine ⟨a, ha, .object ⟨0⟩, .all, .object ⟨0⟩, _, _, b, c, hknown, Analysis.knows_all a,
    ConcreteType.subset_all _, hb, hc, ?_⟩
  decide +kernel

end TypeFlow
