import TypeFlow.Fixpoint
import TypeFlow.Proofs.Growth

/-!
# Runs of a constraint system

Two facts about the solver that hold of any constraint system.

* `ConstraintSystem.Mirrors.solve`: if every replay of one system is a replay of another, seen
  through a map of states, then so is every run, pass by pass.
* `ConstraintSystem.solve_ok`: a run that converged ends with a pass in which nothing changed, and
  what every pass preserves holds before that pass.
-/

namespace TypeFlow

section Queue

variable {υ : Type} [DecidableEq υ]

theorem enqueue_cons (queued : List υ) (v : υ) (units : List υ) :
    enqueue queued (v :: units) = enqueue (if v ∈ queued then queued else queued ++ [v]) units := rfl

theorem mem_enqueue {u : υ} : ∀ {units queued : List υ}, u ∈ enqueue queued units ↔ u ∈ queued ∨ u ∈ units
  | [], queued => by simp [enqueue]
  | v :: units, queued => by
    rw [enqueue_cons, mem_enqueue, List.mem_cons]
    split
    · rename_i hv
      constructor
      · rintro (h | h)
        · exact .inl h
        · exact .inr (.inr h)
      · rintro (h | rfl | h)
        · exact .inl h
        · exact .inl hv
        · exact .inr h
    · rw [List.mem_append, List.mem_singleton, or_assoc]

omit [DecidableEq υ] in
theorem mem_arrange {order : ReplayOrder} {queued : List υ} {u : υ} :
    u ∈ order.arrange queued ↔ u ∈ queued := by
  cases order with
  | discovery => rfl
  | reverse => exact List.mem_reverse

end Queue

section Mirror

variable {σ τ υ ε α β : Type}

/-- What a run is when its states are seen through `f`. -/
def Run.map (f : σ → τ) (r : Run σ) : Run τ := ⟨r.result, f r.final, r.passes.map f⟩

/-- From `s`, the computation `y` does through `f` what `x` does, and `I` holds at the end. -/
def Mirrored (f : σ → τ) (I : σ → Prop) (x : EStateM ε σ α) (y : EStateM ε τ α) (s : σ) : Prop :=
  match x s with
  | .ok v t => I t ∧ y (f s) = .ok v (f t)
  | .error e t => I t ∧ y (f s) = .error e (f t)

variable {f : σ → τ} {I : σ → Prop} {s : σ}

theorem Mirrored.of_ok {x : EStateM ε σ α} {y : EStateM ε τ α} (h : Mirrored f I x y s) {v : α} {t : σ}
    (hx : x s = .ok v t) : I t ∧ y (f s) = .ok v (f t) := by
  unfold Mirrored at h
  rwa [hx] at h

theorem Mirrored.of_error {x : EStateM ε σ α} {y : EStateM ε τ α} (h : Mirrored f I x y s) {e : ε}
    {t : σ} (hx : x s = .error e t) : I t ∧ y (f s) = .error e (f t) := by
  unfold Mirrored at h
  rwa [hx] at h

theorem Mirrored.bind {x : EStateM ε σ α} {y : EStateM ε τ α} {k : α → EStateM ε σ β}
    {l : α → EStateM ε τ β} (hx : Mirrored f I x y s) (hk : ∀ v t, I t → Mirrored f I (k v) (l v) t) :
    Mirrored f I (x >>= k) (y >>= l) s := by
  unfold Mirrored
  rw [bind_apply, bind_apply]
  cases hxs : x s with
  | error e t =>
    obtain ⟨ht, hy⟩ := hx.of_error hxs
    rw [hy]
    exact ⟨ht, rfl⟩
  | ok v t =>
    obtain ⟨ht, hy⟩ := hx.of_ok hxs
    rw [hy]
    exact hk v t ht

namespace ConstraintSystem

variable [DecidableEq υ] {sys : ConstraintSystem σ υ} {sys' : ConstraintSystem τ υ}

/-- **`sys'` mirrors `sys`** through `f` on the states with `I`. -/
structure Mirrors (sys : ConstraintSystem σ υ) (sys' : ConstraintSystem τ υ) (f : σ → τ)
    (I : σ → Prop) : Prop where
  roots : ∀ s, sys'.roots (f s) = sys.roots s
  replay : ∀ u s, I s → Mirrored f I (sys.replay u) (sys'.replay u) s
  kept : ∀ s, I s → I (sys.takeDiscovered s).2
  taken : ∀ s, sys'.takeDiscovered (f s) = ((sys.takeDiscovered s).1, f (sys.takeDiscovered s).2)

namespace Mirrors

variable (h : sys.Mirrors sys' f I)
include h

theorem replayUnits : ∀ (us : List υ) (pr : Progress υ) (s : σ), I s →
    Mirrored f I (sys.replayUnits us pr) (sys'.replayUnits us pr) s
  | [], _, _, hs => ⟨hs, rfl⟩
  | u :: us, _, s, hs => (h.replay u s hs).bind fun _ t ht => replayUnits us _ t ht

theorem pass (order : ReplayOrder) (queued : List υ) (actions : UInt64) (hs : I s) :
    Mirrored f I (sys.pass order queued actions) (sys'.pass order queued actions) s := by
  refine (h.replayUnits _ _ s hs).bind fun pr t ht => ?_
  have htake : Mirrored f I (modifyGet sys.takeDiscovered : EStateM Fault σ (List υ))
      (modifyGet sys'.takeDiscovered) t := by
    refine ⟨h.kept t ht, ?_⟩
    change EStateM.Result.ok (sys'.takeDiscovered (f t)).1 (sys'.takeDiscovered (f t)).2 = _
    rw [h.taken]
  exact htake.bind fun found t ht => ⟨ht, rfl⟩

theorem iterate (order : ReplayOrder) (limit : Nat) : ∀ (n done : Nat) (queued : List υ) (actions : UInt64)
    (s : σ), I s →
    sys'.iterate order limit n done queued actions (f s) =
        (sys.iterate order limit n done queued actions s).map f ∧
      I (sys.iterate order limit n done queued actions s).final
  | 0, _, _, _, _, hs => ⟨rfl, hs⟩
  | n + 1, done, queued, actions, s, hs => by
    have hpass := h.pass order queued actions hs
    unfold ConstraintSystem.iterate
    cases hp : sys.pass order queued actions s with
    | error e t =>
      obtain ⟨ht, hy⟩ := hpass.of_error hp
      rw [hy]
      exact ⟨rfl, ht⟩
    | ok pr t =>
      obtain ⟨ht, hy⟩ := hpass.of_ok hp
      rw [hy]
      dsimp only
      split
      · obtain ⟨ih, hfinal⟩ := iterate order limit n (done + 1) pr.queued pr.actions t ht
        rw [ih]
        exact ⟨rfl, hfinal⟩
      · exact ⟨rfl, ht⟩

/-- **A mirrored run** has the same result and goes through the same states, seen through the
map. -/
theorem solve (order : ReplayOrder) (limit : Nat) (hs : I s) :
    sys'.solve order limit (f s) = (sys.solve order limit s).map f ∧
      I (sys.solve order limit s).final := by
  unfold ConstraintSystem.solve
  rw [h.roots, h.taken]
  exact h.iterate order limit limit 0 _ 0 _ (h.kept s hs)

end Mirrors

/-! ## The last pass -/

/-- What is queued stays queued. -/
theorem mem_queued_of_replayUnits {u : υ} : ∀ {us : List υ} {pr pr' : Progress υ} {s t : σ},
    sys.replayUnits us pr s = .ok pr' t → u ∈ pr.queued → u ∈ pr'.queued
  | [], _, _, _, _, h, hu => by
    cases h
    exact hu
  | _ :: _, _, _, _, _, h, hu => by
    obtain ⟨r, c, -, h⟩ := bind_ok h
    exact mem_queued_of_replayUnits h (mem_enqueue.2 (.inl hu))

theorem mem_queued_of_pass {u : υ} {order : ReplayOrder} {q : List υ} {n : UInt64} {pr : Progress υ} {s t : σ}
    (h : sys.pass order q n s = .ok pr t) (hu : u ∈ q) : u ∈ pr.queued := by
  obtain ⟨pr', c, hc, h⟩ := bind_ok h
  cases h
  exact mem_enqueue.2 (.inl (mem_queued_of_replayUnits hc hu))

/-- What every pass preserves holds before the pass in which nothing changed. -/
theorem iterate_ok {J : List υ → σ → Prop} {order : ReplayOrder} {limit : Nat} {c : Converged}
    (hpass : ∀ q n s pr t, J q s → sys.pass order q n s = .ok pr t → J pr.queued t) :
    ∀ (n done : Nat) (queued : List υ) (actions : UInt64) (s : σ), J queued s →
      (sys.iterate order limit n done queued actions s).result = .ok c →
      ∃ q m t pr, J q t ∧ pr.changed = false ∧
        sys.pass order q m t = .ok pr (sys.iterate order limit n done queued actions s).final
  | 0, _, _, _, _, _, hc => by cases hc
  | n + 1, done, queued, actions, s, hs, hc => by
    unfold iterate at hc ⊢
    cases hp : sys.pass order queued actions s with
    | error e t => rw [hp] at hc; cases hc
    | ok pr t =>
      rw [hp] at hc
      dsimp only at hc ⊢
      cases hch : pr.changed with
      | true =>
        rw [hch, if_pos rfl] at hc
        exact iterate_ok hpass n (done + 1) pr.queued pr.actions t (hpass _ _ _ _ _ hs hp) hc
      | false => exact ⟨queued, actions, s, pr, hs, hch, hp⟩

/-- **A run that converged ends with a pass in which nothing changed.** -/
theorem solve_ok {J : List υ → σ → Prop} {order : ReplayOrder} {limit : Nat} {c : Converged}
    (hstart : J (enqueue (enqueue [] (sys.roots s)) (sys.takeDiscovered s).1) (sys.takeDiscovered s).2)
    (hpass : ∀ q n s pr t, J q s → sys.pass order q n s = .ok pr t → J pr.queued t)
    (hc : (sys.solve order limit s).result = .ok c) :
    ∃ q m t pr, J q t ∧ pr.changed = false ∧
      sys.pass order q m t = .ok pr (sys.solve order limit s).final :=
  iterate_ok hpass limit 0 _ 0 _ hstart hc

end ConstraintSystem

end Mirror

end TypeFlow
