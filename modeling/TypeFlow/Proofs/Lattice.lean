import TypeFlow.ConcreteType.Basic

/-!
# The order of concrete types

Joins are upper bounds, and a join that adds nothing is a join with something smaller.

* `ConcreteType.subset_iff`: the order through members.
* `ConcreteType.union_eq_left_iff`: a type absorbs exactly the types below it.
-/

namespace TypeFlow

theorem EntitySet.nodup (s : EntitySet) : s.members.Nodup := by
  refine s.increasing.imp ?_
  rintro e _ hlt rfl
  exact Entity.lt_irrefl e hlt

namespace ConcreteType

variable {a b c : ConcreteType}

@[simp] theorem subset_all (a : ConcreteType) : a ⊆ all := by cases a <;> trivial

@[simp] theorem all_subset : all ⊆ a ↔ a = all := by
  cases a with
  | all => exact iff_of_true trivial rfl
  | only s => exact iff_of_false id nofun

@[simp] theorem only_subset_only {s t : EntitySet} : only s ⊆ only t ↔ ∀ e, e ∈ s → e ∈ t := .rfl

@[simp] theorem all_union (a : ConcreteType) : all ∪ a = all := by cases a <;> rfl

@[simp] theorem union_all (a : ConcreteType) : a ∪ all = all := by cases a <;> rfl

@[simp] theorem all_inter (a : ConcreteType) : all ∩ a = a := by cases a <;> rfl

@[simp] theorem inter_all (a : ConcreteType) : a ∩ all = a := by cases a <;> rfl

theorem only_union_only (s t : EntitySet) : only s ∪ only t = only (s ∪ t) := rfl

theorem union_eq_all : a ∪ b = all ↔ a = all ∨ b = all := by
  cases a with
  | all => simp
  | only s =>
    cases b with
    | all => simp
    | only t => exact iff_of_false nofun (by simp)

/-- A type is below another if that is everything, or if it can be listed and all its
members are there. -/
theorem subset_iff : a ⊆ b ↔ b = all ∨ a ≠ all ∧ ∀ e, e ∈ a.members → e ∈ b := by
  cases a with
  | all => simp
  | only s =>
    cases b with
    | all => simp
    | only t => simp [members, EntitySet.mem_def]

theorem subset_refl (a : ConcreteType) : a ⊆ a := by
  cases a with
  | all => exact subset_all _
  | only s => exact only_subset_only.2 fun _ h => h

theorem subset_trans (hab : a ⊆ b) (hbc : b ⊆ c) : a ⊆ c := by
  cases c with
  | all => exact subset_all a
  | only u =>
    cases b with
    | all => exact absurd (all_subset.1 hbc) nofun
    | only t =>
      cases a with
      | all => exact absurd (all_subset.1 hab) nofun
      | only s => exact fun e he => hbc e (hab e he)

theorem subset_union_left (a b : ConcreteType) : a ⊆ a ∪ b := by
  cases a with
  | all => simp
  | only s =>
    cases b with
    | all => simp
    | only t =>
      rw [only_union_only, only_subset_only]
      exact fun e he => EntitySet.mem_union.2 (.inl he)

theorem subset_union_right (a b : ConcreteType) : b ⊆ a ∪ b := by
  cases a with
  | all => simp
  | only s =>
    cases b with
    | all => simp
    | only t =>
      rw [only_union_only, only_subset_only]
      exact fun e he => EntitySet.mem_union.2 (.inr he)

/-- Types with the same members are equal if neither or both are everything. -/
theorem ext_members (hall : a = all ↔ b = all) (h : ∀ e, e ∈ a ↔ e ∈ b) : a = b := by
  cases a with
  | all => exact (hall.1 rfl).symm
  | only s =>
    cases b with
    | all => exact hall.2 rfl
    | only t => exact congrArg only (EntitySet.ext h)

/-- **A type absorbs exactly the types below it.** -/
theorem union_eq_left_iff : a ∪ b = a ↔ b ⊆ a := by
  constructor
  · intro h
    have := subset_union_right a b
    rwa [h] at this
  · intro h
    cases a with
    | all => exact all_union b
    | only s =>
      cases b with
      | all => exact absurd (all_subset.1 h) nofun
      | only t =>
        rw [only_union_only]
        refine congrArg only (EntitySet.ext fun e => ?_)
        rw [EntitySet.mem_union]
        exact ⟨fun he => he.elim id (h e), .inl⟩

@[simp] theorem empty_subset (a : ConcreteType) : ∅ ⊆ a := by
  cases a with
  | all => exact subset_all _
  | only s => exact only_subset_only.2 fun e he => absurd he (EntitySet.not_mem_empty e)

theorem subset_empty (h : a ⊆ ∅) : a = ∅ := by
  cases a with
  | all => exact absurd (all_subset.1 h) nofun
  | only s =>
    refine congrArg only (EntitySet.ext fun e => ⟨fun he => h e he, fun he => ?_⟩)
    exact absurd he (EntitySet.not_mem_empty e)

theorem mem_functions {f : FnRef} : f ∈ a.functions ↔ .function f ∈ a.members := by
  unfold functions
  rw [List.mem_filterMap]
  constructor
  · rintro ⟨e, he, hf⟩
    cases e with
    | function g =>
      cases hf
      exact he
    | object o => cases hf
  · exact fun h => ⟨_, h, rfl⟩

theorem mem_objects {o : ObjRef} : o ∈ a.objects ↔ .object o ∈ a.members := by
  unfold objects
  rw [List.mem_filterMap]
  constructor
  · rintro ⟨e, he, ho⟩
    cases e with
    | function g => cases ho
    | object q =>
      cases ho
      exact he
  · exact fun h => ⟨_, h, rfl⟩

theorem filter_congr {keep keep' : Entity → Bool} (h : ∀ e ∈ a.members, keep e = keep' e) :
    a.filter keep = a.filter keep' := by
  cases a with
  | all => rfl
  | only s =>
    refine congrArg only (EntitySet.ext fun e => ?_)
    rw [EntitySet.mem_filter, EntitySet.mem_filter]
    exact and_congr_right fun he => by rw [h e he]

end ConcreteType

end TypeFlow
