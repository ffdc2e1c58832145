import Mathlib.Data.Set.Function
import TypeFlow.ConcreteType.Form
import TypeFlow.Proofs.FiniteSets

/-!
# Canonical forms

A concrete type can be stored in five forms, and forms are compared as they stand. What is built from
nothing, from everything and from lists of members by the operations is always canonical: every
shortcut of an operation returns a canonical operand, and everything else is sorted, freed of
repetitions and given the form that goes with the number of its members. Canonical forms are one to one
with finite sets of entities and a top, so the laws of sets are laws of forms; and they are one to one
with types.

* `TypeForm.members_ofMembers`, `TypeForm.canonical_ofMembers`: what the list of members becomes.
* `TypeForm.denote`: the set that a form stands for.
* `TypeForm.denote_injOn`: canonical forms that stand for the same set are the same.
* `TypeForm.Canonical.unionWith`, `TypeForm.Canonical.intersectWith`, `TypeForm.canonical_filter`: canonical forms
  are closed under the operations.
* `ConcreteType.form_union`, `form_inter`, `form_filter`, `isSubsetOf_form`: forms and types do the same.
* `TypeForm.finite_sets_with_top`: the laws that follow.
-/

namespace TypeFlow

/-! ## Lists without repetitions -/

section Repetitions

variable {α : Type}

theorem eraseRepsBy_loop (r : α → α → Bool) (a : α) (l acc : List α) :
    List.eraseRepsBy.loop r a l acc = acc.reverse ++ List.eraseRepsBy.loop r a l [] := by
  induction l generalizing a acc with
  | nil => simp [List.eraseRepsBy.loop]
  | cons b l ih =>
    unfold List.eraseRepsBy.loop
    cases r a b with
    | true => exact ih a acc
    | false =>
      dsimp only
      rw [ih b (a :: acc), ih b [a]]
      simp

variable [BEq α]

theorem eraseReps_cons_cons (a b : α) (l : List α) : (a :: b :: l).eraseReps =
    if a == b then (a :: l).eraseReps else a :: (b :: l).eraseReps := by
  change List.eraseRepsBy.loop _ a (b :: l) [] = _
  unfold List.eraseRepsBy.loop
  cases a == b with
  | true => rfl
  | false => exact eraseRepsBy_loop _ b l [a]

theorem mem_eraseReps [LawfulBEq α] {x : α} {l : List α} : x ∈ l.eraseReps ↔ x ∈ l := by
  cases l with
  | nil => rfl
  | cons a l =>
    induction l generalizing a with
    | nil => rfl
    | cons b l ih =>
      rw [eraseReps_cons_cons]
      by_cases hab : a == b
      · rw [if_pos hab, ih, eq_of_beq hab]
        simp
      · rw [if_neg hab, List.mem_cons, ih, ← List.mem_cons]

end Repetitions

/-- Of a sorted list, what is left without repetitions is increasing. -/
theorem increasing_eraseReps {l : List Entity} (h : l.Pairwise (· ≤ ·)) : l.eraseReps.Pairwise (· < ·) := by
  cases l with
  | nil => exact .nil
  | cons a l =>
    induction l generalizing a with
    | nil => exact List.pairwise_singleton ..
    | cons b l ih =>
      obtain ⟨ha, hb⟩ := List.pairwise_cons.1 h
      obtain ⟨hab, ha⟩ := List.forall_mem_cons.1 ha
      rw [eraseReps_cons_cons]
      by_cases heq : a = b
      · rw [if_pos (beq_iff_eq.2 heq)]
        exact ih a (List.pairwise_cons.2 ⟨ha, (List.pairwise_cons.1 hb).2⟩)
      · rw [if_neg (mt beq_iff_eq.1 heq)]
        refine List.pairwise_cons.2 ⟨fun x hx => ?_, ih b hb⟩
        have hlt : a < b := Entity.lt_of_le_of_ne hab heq
        rcases List.mem_cons.1 (mem_eraseReps.1 hx) with rfl | hx
        · exact hlt
        · exact Entity.lt_of_lt_of_le hlt ((List.pairwise_cons.1 hb).1 x hx)

namespace TypeForm

variable {a b c t : TypeForm} {l m : List Entity} {e : Entity}

/-! ## Lists of members -/

theorem mem_sorted : e ∈ l.mergeSort.eraseReps ↔ e ∈ l := by
  rw [mem_eraseReps, (l.mergeSort_perm _).mem_iff]

theorem increasing_sorted (l : List Entity) : l.mergeSort.eraseReps.Pairwise (· < ·) := by
  refine increasing_eraseReps ?_
  have hsorted : l.mergeSort.Pairwise fun x y => decide (x ≤ y) = true := by
    refine List.pairwise_mergeSort (fun x y z hxy hyz => ?_) (fun x y => ?_) l
    · exact decide_eq_true (Entity.le_trans (of_decide_eq_true hxy) (of_decide_eq_true hyz))
    · simpa using Entity.le_total x y
  exact hsorted.imp of_decide_eq_true

/-- An increasing list is left as it is. -/
theorem sorted_of_increasing (h : l.Pairwise (· < ·)) : l.mergeSort.eraseReps = l :=
  EntitySet.eq_of_increasing (increasing_sorted l) h fun _ => mem_sorted

/-- The form keeps the list, sorted and without repetitions. -/
theorem members_ofMembers (l : List Entity) : (ofMembers l).members = l.mergeSort.eraseReps := by
  unfold ofMembers
  split
  next h => exact h.symm
  next e h =>
    rw [h]
    cases e <;> rfl
  next => rfl

theorem mem_ofMembers : e ∈ (ofMembers l).members ↔ e ∈ l := by
  rw [members_ofMembers, mem_sorted]

theorem canonical_single (e : Entity) : (single e).Canonical := by
  cases e <;> trivial

theorem canonical_ofMembers (l : List Entity) : (ofMembers l).Canonical := by
  have hincreasing := increasing_sorted l
  unfold ofMembers
  split
  next => trivial
  next e _ => exact canonical_single e
  next ms hnil hone =>
    refine ⟨hincreasing, ?_⟩
    cases hms : l.mergeSort.eraseReps with
    | nil => exact absurd hms hnil
    | cons x xs =>
      cases xs with
      | nil => exact absurd hms (hone x)
      | cons y ys => exact Nat.le_add_left ..

theorem ofMembers_ne_all (l : List Entity) : ofMembers l ≠ all := by
  unfold ofMembers
  split
  next => simp
  next e _ => cases e <;> simp [single]
  next => simp

/-- **Neither order nor repetition matters** in the list that a form is made of. -/
theorem ofMembers_eq_ofMembers : ofMembers l = ofMembers m ↔ ∀ e, e ∈ l ↔ e ∈ m := by
  constructor
  · intro h e
    rw [← mem_ofMembers, h, mem_ofMembers]
  · intro h
    have hsorted : l.mergeSort.eraseReps = m.mergeSort.eraseReps :=
      EntitySet.eq_of_increasing (increasing_sorted l) (increasing_sorted m) fun e => by
        rw [mem_sorted, mem_sorted, h]
    unfold ofMembers
    rw [hsorted]

theorem Canonical.increasing (h : t.Canonical) : t.members.Pairwise (· < ·) := by
  cases t with
  | none => exact .nil
  | all => exact .nil
  | function f => exact List.pairwise_singleton ..
  | object o => exact List.pairwise_singleton ..
  | union l => exact h.1

/-- **A canonical form is made again of its members.** -/
theorem Canonical.ofMembers_members (h : t.Canonical) (hall : t ≠ all) : ofMembers t.members = t := by
  unfold ofMembers
  rw [sorted_of_increasing h.increasing]
  cases t with
  | none => rfl
  | all => exact absurd rfl hall
  | function f => rfl
  | object o => rfl
  | union l =>
    match l, h.2 with
    | _ :: _ :: _, _ => rfl

/-! ## The set that a form stands for -/

/-- **The set that a form stands for**: everything is the top, and any other form the set of its
members. -/
def denote : TypeForm → WithTop (Finset Entity)
  | all => ⊤
  | t => t.members.toFinset

@[simp] theorem denote_all : denote all = ⊤ := rfl

@[simp] theorem denote_none : denote none = ⊥ := rfl

theorem denote_of_ne_all (h : t ≠ all) : t.denote = t.members.toFinset := by
  cases t with
  | all => exact absurd rfl h
  | _ => rfl

theorem denote_ofMembers (l : List Entity) : (ofMembers l).denote = l.toFinset := by
  rw [denote_of_ne_all (ofMembers_ne_all l), WithTop.coe_inj]
  ext e
  rw [List.mem_toFinset, List.mem_toFinset, mem_ofMembers]

theorem denote_eq_top : t.denote = ⊤ ↔ t = all := by
  constructor
  · intro h
    by_contra hall
    rw [denote_of_ne_all hall] at h
    exact WithTop.coe_ne_top h
  · rintro rfl
    rfl

/-- **Canonical forms that stand for the same set are the same.** -/
theorem denote_injOn : Set.InjOn denote {t | t.Canonical} := by
  intro a ha b hb h
  by_cases hall : a = all
  · rw [hall, denote_all, eq_comm, denote_eq_top] at h
    rw [hall, h]
  · have hall' : b ≠ all := by
      rintro rfl
      exact hall (denote_eq_top.1 h)
    rw [denote_of_ne_all hall, denote_of_ne_all hall', WithTop.coe_inj, Finset.ext_iff] at h
    simp only [List.mem_toFinset] at h
    rw [← ha.ofMembers_members hall, ← hb.ofMembers_members hall']
    exact ofMembers_eq_ofMembers.2 h

/-- Every finite set has a form, and so has the top. -/
theorem exists_canonical (x : WithTop (Finset Entity)) : ∃ t : TypeForm, t.Canonical ∧ t.denote = x := by
  cases x with
  | top => exact ⟨all, trivial, rfl⟩
  | coe s => exact ⟨ofMembers s.toList, canonical_ofMembers _, by rw [denote_ofMembers, Finset.toList_toFinset]⟩

theorem denote_bijOn : Set.BijOn denote {t | t.Canonical} Set.univ :=
  ⟨Set.mapsTo_univ .., denote_injOn, fun x _ => exists_canonical x⟩

/-! ## The operations, arm by arm

The arms are, in order: everything on the left or on the right, nothing on the left or on the right, equal
operands, and any others. -/

theorem denote_unionWith (a b : TypeForm) : (a.unionWith b).denote = a.denote ⊔ b.denote := by
  fun_cases unionWith a b with
  | case1 => rw [denote_all, top_sup_eq]
  | case2 => rw [denote_all, sup_top_eq]
  | case3 => rw [denote_none, bot_sup_eq]
  | case4 => rw [denote_none, sup_bot_eq]
  | case5 => rw [sup_idem]
  | case6 a b ha hb _ _ _ =>
    rw [denote_ofMembers, denote_of_ne_all ha, denote_of_ne_all hb, List.toFinset_append]
    rfl

theorem denote_intersectWith (a b : TypeForm) : (a.intersectWith b).denote = a.denote ⊓ b.denote := by
  fun_cases intersectWith a b with
  | case1 => rw [denote_all, top_inf_eq]
  | case2 => rw [denote_all, inf_top_eq]
  | case3 => rw [denote_none, bot_inf_eq]
  | case4 => rw [denote_none, inf_bot_eq]
  | case5 => rw [inf_idem]
  | case6 a b ha hb _ _ _ =>
    rw [denote_ofMembers, denote_of_ne_all ha, denote_of_ne_all hb, ← WithTop.coe_inf, WithTop.coe_inj]
    ext e
    simp

theorem denote_filter (keep : Entity → Bool) (a : TypeForm) :
    (a.filter keep).denote = a.denote.map (Finset.filter (keep · = true)) := by
  fun_cases filter keep a with
  | case1 => rfl
  | case2 a ha =>
    rw [denote_ofMembers, denote_of_ne_all ha, List.toFinset_filter]
    rfl

theorem isSubsetOf_iff (a b : TypeForm) : a.isSubsetOf b = true ↔ a.denote ≤ b.denote := by
  fun_cases isSubsetOf a b with
  | case1 => exact iff_of_true rfl bot_le
  | case2 => exact iff_of_true rfl le_top
  | case3 b hb => exact iff_of_false Bool.false_ne_true fun h => hb (denote_eq_top.1 (top_le_iff.1 h))
  | case4 a b _ hb ha =>
    rw [denote_of_ne_all ha, denote_of_ne_all hb, WithTop.coe_le_coe]
    simp [Finset.subset_iff]

/-- A join is canonical: the arms that do not sort return an operand. -/
theorem Canonical.unionWith (ha : a.Canonical) (hb : b.Canonical) : (a.unionWith b).Canonical := by
  fun_cases TypeForm.unionWith a b with
  | case1 => exact ha
  | case2 => exact hb
  | case3 => exact hb
  | case4 => exact ha
  | case5 => exact ha
  | case6 => exact canonical_ofMembers _

theorem Canonical.intersectWith (ha : a.Canonical) (hb : b.Canonical) : (a.intersectWith b).Canonical := by
  fun_cases TypeForm.intersectWith a b with
  | case1 => exact hb
  | case2 => exact ha
  | case3 => exact ha
  | case4 => exact hb
  | case5 => exact ha
  | case6 => exact canonical_ofMembers _

theorem canonical_filter (keep : Entity → Bool) (a : TypeForm) : (a.filter keep).Canonical := by
  fun_cases filter keep a with
  | case1 => trivial
  | case2 => exact canonical_ofMembers _

/-- **What can be built is what is canonical.** -/
theorem built_iff : Built t ↔ t.Canonical := by
  constructor
  · intro h
    induction h with
    | none => trivial
    | all => trivial
    | ofMembers l => exact canonical_ofMembers l
    | unionWith _ _ ha hb => exact ha.unionWith hb
    | intersectWith _ _ ha hb => exact ha.intersectWith hb
    | filter keep _ _ => exact canonical_filter keep _
  · intro h
    by_cases hall : t = all
    · exact hall ▸ .all
    · exact h.ofMembers_members hall ▸ .ofMembers _

/-! ## The type that a form stands for -/

theorem denote_type (t : TypeForm) : t.type.denote = t.denote := by
  by_cases hall : t = all
  · subst hall
    rfl
  · have htype : t.type = .ofList t.members := by
      cases t with
      | all => exact absurd rfl hall
      | _ => rfl
    rw [htype, ConcreteType.denote_ofList, denote_of_ne_all hall]

theorem Canonical.isUnion_iff (h : t.Canonical) : t.isUnion = true ↔ 2 ≤ t.members.length := by
  cases t with
  | union l => exact iff_of_true rfl h.2
  | _ => simp [isUnion, members]

end TypeForm

/-! ## Forms and types -/

namespace ConcreteType

open TypeForm

theorem canonical_form (u : ConcreteType) : u.form.Canonical := by
  cases u with
  | all => trivial
  | only s => exact canonical_ofMembers _

theorem denote_form (u : ConcreteType) : u.form.denote = u.denote := by
  cases u with
  | all => rfl
  | only s => exact denote_ofMembers _

/-- **A form is the form of a type** if it is canonical and stands for the same set. -/
theorem form_eq {u : ConcreteType} {t : TypeForm} (ht : t.Canonical) (h : t.denote = u.denote) : u.form = t :=
  denote_injOn (canonical_form u) ht ((denote_form u).trans h.symm)

theorem form_injective : Function.Injective form := by
  intro u v h
  refine denote_injective ?_
  rw [← denote_form, h, denote_form]

theorem form_ofList (l : List Entity) : (ofList l).form = ofMembers l := by
  refine form_eq (canonical_ofMembers l) ?_
  rw [denote_ofMembers, denote_ofList]

theorem form_empty : (∅ : ConcreteType).form = .none := form_eq trivial rfl

theorem form_single (e : Entity) : (single e).form = .single e := by
  refine form_eq (canonical_single e) ?_
  rw [single, denote_ofList]
  cases e <;> rfl

theorem form_union (u v : ConcreteType) : (u ∪ v).form = u.form.unionWith v.form := by
  refine form_eq ((canonical_form u).unionWith (canonical_form v)) ?_
  rw [denote_unionWith, denote_form, denote_form, denote_union]

theorem form_inter (u v : ConcreteType) : (u ∩ v).form = u.form.intersectWith v.form := by
  refine form_eq ((canonical_form u).intersectWith (canonical_form v)) ?_
  rw [denote_intersectWith, denote_form, denote_form, denote_inter]

theorem form_filter (keep : Entity → Bool) (u : ConcreteType) : (u.filter keep).form = u.form.filter keep := by
  refine form_eq (canonical_filter keep _) ?_
  rw [TypeForm.denote_filter, denote_form, denote_filter]

theorem isSubsetOf_form (u v : ConcreteType) : u.form.isSubsetOf v.form = true ↔ u ⊆ v := by
  rw [isSubsetOf_iff, denote_form, denote_form, denote_le_denote]

theorem members_form (u : ConcreteType) : u.form.members = u.members := by
  cases u with
  | all => rfl
  | only s => exact (members_ofMembers _).trans (sorted_of_increasing s.increasing)

theorem type_form (u : ConcreteType) : u.form.type = u := by
  refine denote_injective ?_
  rw [denote_type, denote_form]

theorem exists_form {t : TypeForm} (h : t.Canonical) : ∃ u : ConcreteType, u.form = t :=
  ⟨t.type, form_eq h (denote_type t).symm⟩

theorem render_form (u : ConcreteType) : u.form.render = u.render := by
  cases u with
  | all => rfl
  | only s =>
    unfold form ofMembers ConcreteType.render renderWith
    dsimp only
    rw [sorted_of_increasing s.increasing]
    generalize s.members = l
    match l with
    | [] => rfl
    | [.function f] => rfl
    | [.object o] => rfl
    | _ :: _ :: _ => rfl

/-- The kinds of a type are those of its form. -/
theorem kinds_form (u : ConcreteType) : u.form.isNone = decide (u = ∅) ∧ u.form.isAll = decide (u = all) ∧
    u.form.isFunction = u.isFunction ∧ u.form.isObject = u.isObject ∧ u.form.isUnion = u.isUnion := by
  refine ⟨?_, ?_, ?_, ?_, ?_⟩ <;> rw [Bool.eq_iff_iff]
  · rw [decide_eq_true_eq, ← form_injective.eq_iff, form_empty]
    cases u.form <;> simp [isNone]
  · rw [decide_eq_true_eq, ← form_injective.eq_iff, form]
    cases u.form <;> simp [isAll]
  · simp only [isFunction_iff, ← form_injective.eq_iff, function, form_single]
    cases u.form <;> simp [TypeForm.isFunction, TypeForm.single]
  · simp only [isObject_iff, ← form_injective.eq_iff, object, form_single]
    cases u.form <;> simp [TypeForm.isObject, TypeForm.single]
  · rw [(canonical_form u).isUnion_iff, members_form, isUnion, decide_eq_true_eq]

end ConcreteType

namespace TypeForm

open ConcreteType (canonical_form denote_form type_form members_form render_form kinds_form exists_form form_eq
  form_injective form_ofList form_union form_inter form_filter isSubsetOf_form filter_union filter_inter)

/-- **Canonical forms are exactly the finite sets of entities with a top.** What can be built is what is
canonical, the map to sets is one to one and onto there, and joining, meeting, filtering and comparing are
done on sets as they are on forms. So canonical forms obey the laws of sets: they are a distributive
lattice in which filtering respects both operations, and neither order nor repetition matters in the
list that a form is made of. They are the forms of the types, one for each, and whatever is done
with types is done with their forms. -/
theorem finite_sets_with_top :
    (∀ t : TypeForm, Built t ↔ t.Canonical) ∧
    (Set.BijOn denote {t | t.Canonical} Set.univ ∧ denote all = ⊤ ∧
      ∀ t : TypeForm, t ≠ all → t.denote = t.members.toFinset) ∧
    (∀ l, (ofMembers l).Canonical ∧ (ofMembers l).denote = l.toFinset) ∧
    (∀ l m, ofMembers l = ofMembers m ↔ ∀ e, e ∈ l ↔ e ∈ m) ∧
    (∀ a b : TypeForm, a.Canonical → b.Canonical →
      (a.unionWith b).Canonical ∧ (a.unionWith b).denote = a.denote ⊔ b.denote ∧
      (a.intersectWith b).Canonical ∧ (a.intersectWith b).denote = a.denote ⊓ b.denote ∧
      (a.isSubsetOf b = true ↔ a.denote ≤ b.denote)) ∧
    (∀ (a : TypeForm) keep, a.Canonical → (a.filter keep).Canonical ∧
      (a.filter keep).denote = a.denote.map (Finset.filter (keep · = true))) ∧
    (∀ a b : TypeForm, a.Canonical → b.Canonical →
      a.unionWith b = b.unionWith a ∧ a.intersectWith b = b.intersectWith a ∧
      a.unionWith a = a ∧ a.intersectWith a = a ∧
      a.unionWith (a.intersectWith b) = a ∧ a.intersectWith (a.unionWith b) = a ∧
      (a.isSubsetOf b = true ↔ a.unionWith b = b) ∧ (a.isSubsetOf b = true ↔ a.intersectWith b = a) ∧
      ∀ keep, (a.unionWith b).filter keep = (a.filter keep).unionWith (b.filter keep) ∧
        (a.intersectWith b).filter keep = (a.filter keep).intersectWith (b.filter keep)) ∧
    (∀ a b c : TypeForm, a.Canonical → b.Canonical → c.Canonical →
      (a.unionWith b).unionWith c = a.unionWith (b.unionWith c) ∧
      (a.intersectWith b).intersectWith c = a.intersectWith (b.intersectWith c) ∧
      a.unionWith (b.intersectWith c) = (a.unionWith b).intersectWith (a.unionWith c) ∧
      a.intersectWith (b.unionWith c) = (a.intersectWith b).unionWith (a.intersectWith c)) ∧
    (∀ u : ConcreteType, u.form.Canonical ∧ u.form.type = u ∧ u.form.denote = u.denote ∧
      u.form.members = u.members ∧ u.form.render = u.render) ∧
    (∀ u : ConcreteType, u.form.isNone = decide (u = ∅) ∧ u.form.isAll = decide (u = .all) ∧
      u.form.isFunction = u.isFunction ∧ u.form.isObject = u.isObject ∧ u.form.isUnion = u.isUnion) ∧
    (∀ t : TypeForm, t.Canonical → t.type.form = t) ∧
    (∀ u v : ConcreteType, (u ∪ v).form = u.form.unionWith v.form ∧
      (u ∩ v).form = u.form.intersectWith v.form ∧ (u ⊆ v ↔ u.form.isSubsetOf v.form = true)) ∧
    (∀ (u : ConcreteType) keep, (u.filter keep).form = u.form.filter keep) ∧
    ∀ l, (ConcreteType.ofList l).form = ofMembers l := by
  refine ⟨fun t => built_iff, ⟨denote_bijOn, rfl, fun t => denote_of_ne_all⟩,
    fun l => ⟨canonical_ofMembers l, denote_ofMembers l⟩, fun l m => ofMembers_eq_ofMembers,
    fun a b ha hb => ⟨ha.unionWith hb, denote_unionWith a b, ha.intersectWith hb, denote_intersectWith a b,
      isSubsetOf_iff a b⟩,
    fun a keep _ => ⟨canonical_filter keep a, denote_filter keep a⟩, fun a b ha hb => ?_,
    fun a b c ha hb hc => ?_,
    fun u => ⟨canonical_form u, type_form u, denote_form u, members_form u, render_form u⟩, kinds_form,
    fun t ht => form_eq ht (denote_type t).symm,
    fun u v => ⟨form_union u v, form_inter u v, (isSubsetOf_form u v).symm⟩,
    fun u keep => form_filter keep u, form_ofList⟩
  -- the laws are those of types
  · obtain ⟨u, rfl⟩ := exists_form ha
    obtain ⟨v, rfl⟩ := exists_form hb
    simp only [← form_union, ← form_inter, ← form_filter, isSubsetOf_form, form_injective.eq_iff]
    exact ⟨sup_comm u v, inf_comm u v, sup_idem u, inf_idem u, sup_inf_self, inf_sup_self,
      (sup_eq_right (a := u)).symm, (inf_eq_left (a := u)).symm,
      fun keep => ⟨filter_union keep u v, filter_inter keep u v⟩⟩
  · obtain ⟨u, rfl⟩ := exists_form ha
    obtain ⟨v, rfl⟩ := exists_form hb
    obtain ⟨w, rfl⟩ := exists_form hc
    simp only [← form_union, ← form_inter, form_injective.eq_iff]
    exact ⟨sup_assoc u v w, inf_assoc u v w, sup_inf_left u v w, inf_sup_left u v w⟩

/-- Two functions and an object, whichever way they are put together: the form is the same and lists them in
order. -/
theorem mixed_forms :
    let a : TypeForm := .union [.function ⟨0⟩, .object ⟨0⟩]
    let b : TypeForm := .function ⟨1⟩
    a.Canonical ∧ b.Canonical ∧ (a.unionWith b).Canonical ∧ a.unionWith b = b.unionWith a ∧
      a.unionWith b = .union [.function ⟨0⟩, .function ⟨1⟩, .object ⟨0⟩] ∧ b.intersectWith (b.unionWith a) = b := by
  intro a b
  have ha : a.Canonical := by decide
  have hb : b.Canonical := trivial
  obtain ⟨-, -, -, hsame, hdenote, -, hlaws, -⟩ := finite_sets_with_top
  have hsorted : (union [.function ⟨0⟩, .function ⟨1⟩, .object ⟨0⟩]).Canonical := by decide
  refine ⟨ha, hb, (hdenote a b ha hb).1, (hlaws a b ha hb).1, ?_, (hlaws b a hb ha).2.2.2.2.2.1⟩
  rw [← hsorted.ofMembers_members (by simp)]
  exact (hsame _ _).2 (by simp [a, b, members, or_comm])

end TypeForm

end TypeFlow
