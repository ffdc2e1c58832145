import Mathlib.Data.Finset.Card
import Mathlib.Data.Finset.Lattice.Lemmas
import Mathlib.Order.WithBot
import TypeFlow.Proofs.Lattice

/-!
# Types as finite sets

A concrete type is a finite set of entities or everything, and it is kept in one form only. So
the map that takes everything to the top and any other type to its set of members is one to
one and onto, the operations on types are those of sets, and their laws are read off there.

* `ConcreteType.denote`: the set that a type stands for.
* `denote_bijective`, `denote_union`, `denote_inter`, `denote_filter`, `denote_le_denote`: types are
  finite sets with a top.
* `ConcreteType` is a distributive lattice, in which filtering respects both operations.
-/

namespace TypeFlow

namespace EntitySet

variable {s t : EntitySet}

/-- The members as a finite set. -/
def toFinset (s : EntitySet) : Finset Entity := s.members.toFinset

@[simp] theorem mem_toFinset {e : Entity} : e ∈ s.toFinset ↔ e ∈ s := List.mem_toFinset

theorem toFinset_injective : Function.Injective toFinset := by
  intro s t h
  refine ext fun e => ?_
  rw [← mem_toFinset, ← mem_toFinset, h]

theorem toFinset_ofList (l : List Entity) : (ofList l).toFinset = l.toFinset := by
  ext e
  simp

theorem toFinset_union (s t : EntitySet) : (s ∪ t).toFinset = s.toFinset ∪ t.toFinset := by
  ext e
  simp

theorem toFinset_inter (s t : EntitySet) : (s ∩ t).toFinset = s.toFinset ∩ t.toFinset := by
  ext e
  simp

theorem toFinset_filter (keep : Entity → Bool) (s : EntitySet) :
    (s.filter keep).toFinset = s.toFinset.filter (keep · = true) := by
  ext e
  simp

theorem toFinset_subset : s.toFinset ⊆ t.toFinset ↔ s ⊆ t := by
  simp only [Finset.subset_iff, mem_toFinset, subset_iff]

end EntitySet

namespace ConcreteType

variable {a b c : ConcreteType}

/-- **The set that a type stands for**: everything is the top, and any other type its set of
members. -/
def denote : ConcreteType → WithTop (Finset Entity)
  | all => ⊤
  | only s => s.toFinset

@[simp] theorem denote_all : denote all = ⊤ := rfl

@[simp] theorem denote_only (s : EntitySet) : denote (only s) = s.toFinset := rfl

/-! ## Types are finite sets with a top -/

theorem denote_ofList (l : List Entity) : (ofList l).denote = l.toFinset :=
  congrArg _ (EntitySet.toFinset_ofList l)

theorem denote_injective : Function.Injective denote := by
  intro a b h
  cases a with
  | all =>
    cases b with
    | all => rfl
    | only t => exact absurd h (WithTop.top_ne_coe)
  | only s =>
    cases b with
    | all => exact absurd h (WithTop.coe_ne_top)
    | only t => exact congrArg only (EntitySet.toFinset_injective (WithTop.coe_injective h))

/-- **Every finite set of entities is a type, and so is the top**, each in one way. -/
theorem denote_bijective : Function.Bijective denote := by
  refine ⟨denote_injective, fun x => ?_⟩
  cases x with
  | top => exact ⟨all, rfl⟩
  | coe s => exact ⟨ofList s.toList, by rw [denote_ofList, Finset.toList_toFinset]⟩

theorem denote_union (a b : ConcreteType) : (a ∪ b).denote = a.denote ⊔ b.denote := by
  cases a with
  | all => rw [all_union, denote_all, top_sup_eq]
  | only s =>
    cases b with
    | all => rw [union_all, denote_all, sup_top_eq]
    | only t => exact congrArg _ (EntitySet.toFinset_union s t)

theorem denote_inter (a b : ConcreteType) : (a ∩ b).denote = a.denote ⊓ b.denote := by
  cases a with
  | all => rw [all_inter, denote_all, top_inf_eq]
  | only s =>
    cases b with
    | all => rw [inter_all, denote_all, inf_top_eq]
    | only t => exact congrArg _ (EntitySet.toFinset_inter s t)

theorem denote_filter (keep : Entity → Bool) (a : ConcreteType) :
    (a.filter keep).denote = a.denote.map (Finset.filter (keep · = true)) := by
  cases a with
  | all => rfl
  | only s => exact congrArg _ (EntitySet.toFinset_filter keep s)

theorem denote_le_denote : a.denote ≤ b.denote ↔ a ⊆ b := by
  cases b with
  | all => exact iff_of_true le_top (subset_all a)
  | only t =>
    cases a with
    | all =>
      exact iff_of_false (fun h => WithTop.coe_ne_top (top_le_iff.1 h)) fun h => nomatch all_subset.1 h
    | only s => exact WithTop.coe_le_coe.trans EntitySet.toFinset_subset

/-! ## The lattice of types -/

instance : Max ConcreteType := ⟨(· ∪ ·)⟩

instance : Min ConcreteType := ⟨(· ∩ ·)⟩

instance : LE ConcreteType := ⟨(· ⊆ ·)⟩

instance : LT ConcreteType := ⟨fun a b => a ⊆ b ∧ ¬ b ⊆ a⟩

/-- Types are a distributive lattice, as finite sets with a top are. -/
instance : DistribLattice ConcreteType :=
  denote_injective.distribLattice denote denote_le_denote
    (lt_iff_le_not_ge.trans (and_congr denote_le_denote (not_congr denote_le_denote))) denote_union
    denote_inter

theorem union_subset {t u v : ConcreteType} (ht : t ⊆ v) (hu : u ⊆ v) : t ∪ u ⊆ v :=
  have htv : t ≤ v := ht
  have huv : u ≤ v := hu
  sup_le htv huv

theorem unions_cons (t : ConcreteType) (ts : List ConcreteType) : unions (t :: ts) = t ∪ unions ts := by
  have hfold : ∀ u v : ConcreteType, ts.foldl (· ∪ ·) (u ∪ v) = u ∪ ts.foldl (· ∪ ·) v := by
    induction ts with
    | nil => exact fun u v => rfl
    | cons w ts ih =>
      intro u v
      rw [List.foldl_cons, List.foldl_cons, show u ∪ v ∪ w = u ∪ (v ∪ w) from sup_assoc u v w, ih]
  have hcomm : (∅ : ConcreteType) ∪ t = t ∪ ∅ := sup_comm ∅ t
  unfold unions
  rw [List.foldl_cons, hcomm, hfold]

theorem unions_subset {u : ConcreteType} : ∀ {ts : List ConcreteType}, (∀ t ∈ ts, t ⊆ u) → unions ts ⊆ u
  | [], _ => empty_subset u
  | t :: ts, h => by
    obtain ⟨ht, hts⟩ := List.forall_mem_cons.1 h
    rw [unions_cons]
    exact union_subset ht (unions_subset hts)

theorem subset_unions {t : ConcreteType} : ∀ {ts : List ConcreteType}, t ∈ ts → t ⊆ unions ts
  | u :: ts, h => by
    rw [unions_cons]
    rcases List.mem_cons.1 h with rfl | h
    · exact subset_union_left t (unions ts)
    · exact subset_trans (subset_unions h) (subset_union_right u (unions ts))

theorem filter_union (keep : Entity → Bool) (a b : ConcreteType) :
    (a ∪ b).filter keep = a.filter keep ∪ b.filter keep := by
  cases a with
  | all => simp only [all_union, filter]
  | only s =>
    cases b with
    | all => simp only [union_all, filter]
    | only t =>
      refine congrArg only (EntitySet.toFinset_injective ?_)
      simp only [EntitySet.toFinset_filter, EntitySet.toFinset_union, Finset.filter_union]

theorem filter_inter (keep : Entity → Bool) (a b : ConcreteType) :
    (a ∩ b).filter keep = a.filter keep ∩ b.filter keep := by
  cases a with
  | all => simp only [all_inter, filter]
  | only s =>
    cases b with
    | all => simp only [inter_all, filter]
    | only t =>
      refine congrArg only (EntitySet.toFinset_injective ?_)
      simp only [EntitySet.toFinset_filter, EntitySet.toFinset_inter, Finset.filter_inter_distrib]

/-! ## The kinds of types -/

/-- A type with one member is that member alone. -/
theorem length_members_eq_one : a.members.length = 1 ↔ ∃ e, a = single e := by
  constructor
  · intro h
    cases a with
    | all => cases h
    | only s =>
      obtain ⟨e, he⟩ := List.length_eq_one_iff.1 h
      refine ⟨e, congrArg only (EntitySet.ext fun x => ?_)⟩
      rw [EntitySet.mem_def, show s.members = [e] from he, EntitySet.mem_ofList]
  · rintro ⟨e, rfl⟩
    rfl

theorem isFunction_iff : a.isFunction = true ↔ ∃ f, a = function f := by
  simp only [isFunction, decide_eq_true_eq, length_members_eq_one]
  constructor
  · rintro ⟨⟨e, rfl⟩, h⟩
    cases e with
    | function f => exact ⟨f, rfl⟩
    | object o => exact absurd rfl h
  · rintro ⟨f, rfl⟩
    exact ⟨⟨_, rfl⟩, List.cons_ne_nil f []⟩

theorem isObject_iff : a.isObject = true ↔ ∃ o, a = object o := by
  simp only [isObject, decide_eq_true_eq, length_members_eq_one]
  constructor
  · rintro ⟨⟨e, rfl⟩, h⟩
    cases e with
    | function f => exact absurd rfl h
    | object o => exact ⟨o, rfl⟩
  · rintro ⟨o, rfl⟩
    exact ⟨⟨_, rfl⟩, List.cons_ne_nil o []⟩

end ConcreteType

end TypeFlow
