import Mathlib.Algebra.Order.BigOperators.Group.Finset
import Mathlib.Logic.Relation
import TypeFlow.Program.Hierarchy

/-!
# The shape hierarchy as reachability

The search for the shapes below a shape and the walk along the shapes that a prototype counts
through are both bounded, and the hierarchy may have cycles and name shapes that nobody declared.
The bounds are never felt: a search pushes what stands below a declared shape once, and a walk
that has left every declared shape once has nothing left to find.

* `Program.Descends`, `Program.CountsAs`: one step of either relation.
* `mem_subtypeClosure`: the search finds exactly what can be reached downwards.
* `mem_admissionPath`: the walk meets exactly the shapes that can be reached.
-/

namespace TypeFlow.Program

open Relation

variable {p : Program} {s t : ShapeId}

/-! ## Downwards -/

/-- **One step down** from a declared shape: to a shape that extends it, or to the shape of the
objects that a declared constructor among its implementors makes. -/
inductive Descends (p : Program) (s t : ShapeId) : Prop
  | extended {d : ShapeDecl} (decl : p.shape? s = some d) (listed : t ∈ d.subtypes)
  | implemented {d : ShapeDecl} {c : FunctionId} {e : FunctionDecl} (decl : p.shape? s = some d)
      (listed : c ∈ d.implementors) (constructor : p.function? c = some e)
      (made : e.objectShape = some t)

theorem below_of_undeclared (h : p.shape? s = none) : p.below s = [] := by
  simp [below, subtypes, implementors, h]

theorem mem_below : t ∈ p.below s ↔ p.Descends s t := by
  cases h : p.shape? s with
  | none =>
    rw [below_of_undeclared h]
    refine iff_of_false List.not_mem_nil ?_
    rintro (⟨decl, -⟩ | ⟨decl, -, -, -⟩)
    · rw [h] at decl
      cases decl
    · rw [h] at decl
      cases decl
  | some d =>
    have hbelow : p.below s =
        d.subtypes ++ d.implementors.filterMap fun c => (p.function? c).bind (·.objectShape) := by
      simp [below, subtypes, implementors, h]
    rw [hbelow, List.mem_append, List.mem_filterMap]
    constructor
    · rintro (ht | ⟨c, hc, ht⟩)
      · exact .extended h ht
      · obtain ⟨e, he, ho⟩ := Option.bind_eq_some_iff.1 ht
        exact .implemented h hc he ho
    · rintro (⟨decl, listed⟩ | ⟨decl, listed, constructor, made⟩)
      · rw [h] at decl
        cases decl
        exact .inl listed
      · rw [h] at decl
        cases decl
        exact .inr ⟨_, listed, Option.bind_eq_some_iff.2 ⟨_, constructor, made⟩⟩

/-- How often the shapes that were not yet found are above another one. -/
def unexplored (p : Program) (seen : List ShapeId) : Nat :=
  ∑ i ∈ Finset.range p.shapes.length with (⟨i⟩ : ShapeId) ∉ seen, (p.below ⟨i⟩).length

theorem unexplored_nil (p : Program) : p.unexplored [] = p.belowCount := by
  unfold unexplored belowCount
  rw [Finset.filter_true_of_mem (by simp), List.length_flatMap]
  rfl

/-- A shape that is found pays for what it puts on the stack. -/
theorem unexplored_append {seen : List ShapeId} (hs : s ∉ seen) :
    p.unexplored (seen ++ [s]) + (p.below s).length ≤ p.unexplored seen := by
  have hrest : ((Finset.range p.shapes.length).filter fun i => (⟨i⟩ : ShapeId) ∉ seen ++ [s]) =
      ((Finset.range p.shapes.length).filter fun i => (⟨i⟩ : ShapeId) ∉ seen).erase s.index := by
    ext i
    have hi : (⟨i⟩ : ShapeId) = s ↔ i = s.index := by
      cases s
      simp
    simp only [Finset.mem_filter, Finset.mem_erase, List.mem_append, List.mem_singleton, hi]
    tauto
  unfold unexplored
  rw [hrest]
  by_cases hdecl : s.index < p.shapes.length
  · have hmem : s.index ∈ (Finset.range p.shapes.length).filter fun i => (⟨i⟩ : ShapeId) ∉ seen :=
      Finset.mem_filter.2 ⟨Finset.mem_range.2 hdecl, hs⟩
    have hsum := Finset.sum_erase_add _ (fun i => (p.below ⟨i⟩).length) hmem
    exact hsum.le
  · -- nothing stands below a shape that is not declared
    have hnone : p.shape? s = none := List.getElem?_eq_none (Nat.le_of_not_lt hdecl)
    rw [below_of_undeclared hnone]
    have hsub := Finset.erase_subset s.index
      ((Finset.range p.shapes.length).filter fun i => (⟨i⟩ : ShapeId) ∉ seen)
    exact Finset.sum_le_sum_of_subset hsub

/-- Whatever a search finds was found before or can be reached from the stack. -/
theorem searchBelow_sound : ∀ (n : Nat) (stack seen : List ShapeId), t ∈ p.searchBelow n stack seen →
    t ∈ seen ∨ ∃ s ∈ stack, ReflTransGen p.Descends s t := by
  intro n
  induction n with
  | zero => exact fun stack seen ht => .inl ht
  | succ n ih =>
    intro stack seen ht
    cases stack with
    | nil => exact .inl ht
    | cons s stack =>
      unfold searchBelow at ht
      by_cases hs : s ∈ seen
      · rw [if_pos hs] at ht
        rcases ih _ _ ht with h | ⟨q, hq, hqt⟩
        · exact .inl h
        · exact .inr ⟨q, List.mem_cons_of_mem _ hq, hqt⟩
      · rw [if_neg hs] at ht
        rcases ih _ _ ht with h | ⟨q, hq, hqt⟩
        · rcases List.mem_append.1 h with h | h
          · exact .inl h
          · rw [List.mem_singleton.1 h]
            exact .inr ⟨s, List.mem_cons_self .., .refl⟩
        · rcases List.mem_append.1 hq with hq | hq
          · have hstep := mem_below.1 (List.mem_reverse.1 hq)
            exact .inr ⟨s, List.mem_cons_self .., .head hstep hqt⟩
          · exact .inr ⟨q, List.mem_cons_of_mem _ hq, hqt⟩

/-- A search that has enough steps left keeps what it has found and what is on the stack, and
what it finds in the end is closed downwards. -/
theorem searchBelow_closed : ∀ (n : Nat) (stack seen : List ShapeId),
    p.unexplored seen + stack.length ≤ n →
    (∀ s ∈ seen, ∀ t ∈ p.below s, t ∈ seen ∨ t ∈ stack) →
    (∀ s, s ∈ seen ∨ s ∈ stack → s ∈ p.searchBelow n stack seen) ∧
      ∀ s ∈ p.searchBelow n stack seen, ∀ t ∈ p.below s, t ∈ p.searchBelow n stack seen := by
  intro n
  induction n with
  | zero =>
    intro stack seen hroom hclosed
    have hempty : stack = [] := List.eq_nil_of_length_eq_zero (by omega)
    subst hempty
    simp only [List.not_mem_nil, or_false] at hclosed ⊢
    exact ⟨fun s hs => hs, hclosed⟩
  | succ n ih =>
    intro stack seen hroom hclosed
    cases stack with
    | nil =>
      simp only [List.not_mem_nil, or_false] at hclosed ⊢
      exact ⟨fun s hs => hs, hclosed⟩
    | cons s stack =>
      rw [List.length_cons] at hroom
      unfold searchBelow
      by_cases hs : s ∈ seen
      · rw [if_pos hs]
        obtain ⟨hkeeps, hdown⟩ := ih stack seen (by omega) fun q hq t ht => by
          rcases hclosed q hq t ht with h | h
          · exact .inl h
          · rcases List.mem_cons.1 h with rfl | h
            · exact .inl hs
            · exact .inr h
        refine ⟨fun q hq => hkeeps q ?_, hdown⟩
        rcases hq with hq | hq
        · exact .inl hq
        · rcases List.mem_cons.1 hq with rfl | hq
          · exact .inl hs
          · exact .inr hq
      · rw [if_neg hs]
        have hpaid := unexplored_append (p := p) hs
        obtain ⟨hkeeps, hdown⟩ := ih ((p.below s).reverse ++ stack) (seen ++ [s])
          (by rw [List.length_append, List.length_reverse]; omega) fun q hq t ht => by
          simp only [List.mem_append, List.mem_reverse, List.mem_singleton] at hq ⊢
          rcases hq with hq | rfl
          · rcases hclosed q hq t ht with h | h
            · exact .inl (.inl h)
            · rcases List.mem_cons.1 h with rfl | h
              · exact .inl (.inr rfl)
              · exact .inr (.inr h)
          · exact .inr (.inl ht)
        refine ⟨fun q hq => hkeeps q ?_, hdown⟩
        simp only [List.mem_append, List.mem_singleton]
        rcases hq with hq | hq
        · exact .inl (.inl hq)
        · rcases List.mem_cons.1 hq with rfl | hq
          · exact .inl (.inr rfl)
          · exact .inr (.inr hq)

/-- **The shapes below a shape are those that can be reached downwards.** -/
theorem mem_subtypeClosure : t ∈ p.subtypeClosure s ↔ ReflTransGen p.Descends s t := by
  constructor
  · intro ht
    rcases searchBelow_sound _ _ _ ht with h | ⟨q, hq, hqt⟩
    · cases h
    · rwa [List.mem_singleton.1 hq] at hqt
  · intro hst
    obtain ⟨hkeeps, hdown⟩ := searchBelow_closed (p := p) (p.belowCount + 1) [s] []
      (by rw [unexplored_nil]; simp) (fun _ h => absurd h List.not_mem_nil)
    induction hst with
    | refl => exact hkeeps s (.inr (List.mem_singleton_self s))
    | tail _ hqt ih => exact hdown _ ih _ (mem_below.2 hqt)

/-! ## Along the prototypes -/

/-- **One step along the prototypes**: objects of a declared prototype shape count as what they
inherit from. -/
inductive CountsAs (p : Program) (s t : ShapeId) : Prop
  | inherited {d : ShapeDecl} (decl : p.shape? s = some d) (kind : d.kind = .prototype)
      (proto : d.proto = some t)

theorem admittedThrough?_eq_some : p.admittedThrough? s = some t ↔ p.CountsAs s t := by
  unfold admittedThrough?
  constructor
  · intro h
    cases hd : p.shape? s with
    | none => rw [hd] at h; cases h
    | some d =>
      rw [hd] at h
      dsimp only at h
      by_cases hk : d.kind = .prototype
      · rw [if_pos hk] at h
        exact ⟨hd, hk, h⟩
      · rw [if_neg hk] at h
        cases h
  · rintro ⟨decl, kind, proto⟩
    simp [decl, kind, proto]

/-- A way that ends elsewhere leaves its first point for the last time. -/
theorem last_departure {α : Type} {r : α → α → Prop} {x z : α} (h : ReflTransGen r x z) :
    z = x ∨ ∃ y, r x y ∧ ReflTransGen (fun u v => r u v ∧ u ≠ x) y z := by
  induction h with
  | refl => exact .inl rfl
  | @tail y z _ hyz ih =>
    by_cases hxy : y = x
    · rw [hxy] at hyz
      exact .inr ⟨z, hyz, .refl⟩
    · rcases ih with rfl | ⟨q, hxq, hqy⟩
      · exact absurd rfl hxy
      · exact .inr ⟨q, hxq, hqy.tail ⟨hyz, hxy⟩⟩

/-- A walk that may still leave the shapes in `W`, and has a step for each of them, misses
nothing. -/
theorem mem_admissionWalk (W : Finset Nat) : ∀ (n : Nat) (s : ShapeId), W.card < n →
    ReflTransGen (fun u v => p.CountsAs u v ∧ u.index ∈ W) s t → t ∈ p.admissionWalk n s := by
  intro n
  induction n generalizing W with
  | zero => exact fun s hroom => absurd hroom (Nat.not_lt_zero _)
  | succ n ih =>
    intro s hroom hst
    unfold admissionWalk
    rcases last_departure hst with rfl | ⟨q, ⟨hsq, hs⟩, hqt⟩
    · exact List.mem_cons_self ..
    · -- what comes now does not need `s` any more
      have hcard := Finset.card_erase_lt_of_mem hs
      rw [admittedThrough?_eq_some.2 hsq]
      refine List.mem_cons_of_mem _ (ih (W.erase s.index) q (by omega) (hqt.lift id ?_))
      rintro u v ⟨⟨huv, hu⟩, hne⟩
      refine ⟨huv, Finset.mem_erase.2 ⟨fun hindex => hne ?_, hu⟩⟩
      cases u
      cases s
      exact congrArg ShapeId.mk hindex

theorem reaches_of_mem_admissionWalk : ∀ (n : Nat) (s : ShapeId), t ∈ p.admissionWalk n s →
    ReflTransGen p.CountsAs s t := by
  intro n
  induction n with
  | zero => exact fun s ht => absurd ht List.not_mem_nil
  | succ n ih =>
    intro s ht
    unfold admissionWalk at ht
    rcases List.mem_cons.1 ht with rfl | ht
    · exact .refl
    · cases hq : p.admittedThrough? s with
      | none => rw [hq] at ht; cases ht
      | some q =>
        rw [hq] at ht
        exact .head (admittedThrough?_eq_some.1 hq) (ih q ht)

/-- **The shapes as which an object may pass are those that can be reached along the
prototypes.** -/
theorem mem_admissionPath : t ∈ p.admissionPath s ↔ ReflTransGen p.CountsAs s t := by
  refine ⟨reaches_of_mem_admissionWalk _ s, fun hst => ?_⟩
  have hroom : (Finset.range p.shapes.length).card < p.shapes.length + 1 := by simp
  refine mem_admissionWalk (Finset.range p.shapes.length) _ s hroom (hst.lift id ?_)
  intro u v huv
  refine ⟨huv, ?_⟩
  obtain ⟨decl, -, -⟩ := huv
  exact Finset.mem_range.2 (List.getElem?_eq_some_iff.1 decl).1

end TypeFlow.Program
