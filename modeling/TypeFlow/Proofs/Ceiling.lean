import TypeFlow.Proofs.Likeness
import TypeFlow.Proofs.Passes

/-!
# The ceiling

The number of passes that a run is allowed decides only whether it is cut off. A run that ends by
itself, with a quiet pass or with a replay that fails, ends in the same way under every ceiling
that leaves it its passes, and every lower ceiling cuts it off.

* `ConstraintSystem.iterate_raise`: what a higher or a lower ceiling does to a run.
* `Setup.process_of_prepared`: processing is preparing and then solving.
* `ceiling_irrelevant`: raising the ceiling never changes a result.
-/

namespace TypeFlow

/-- **The pass in which a run ended by itself**, if `limit` passes were allowed: the quiet one, or the
one after the completed passes if a replay failed. A run that was cut off has none. -/
def Run.lastPass? {σ : Type} (limit : Nat) (r : Run σ) : Option Nat :=
  match r.result with
  | .ok _ => some r.passes.length
  | .error _ => if r.passes.length < limit then some (r.passes.length + 1) else none

theorem Run.lastPass?_cons {σ : Type} (n : Nat) (r : Run σ) (t : σ) :
    Run.lastPass? (n + 1) { r with passes := t :: r.passes } = (r.lastPass? n).map (· + 1) := by
  unfold Run.lastPass?
  cases r.result with
  | ok c => rfl
  | error e =>
    dsimp only
    rw [List.length_cons, apply_ite (Option.map (· + 1))]
    simp only [Nat.succ_lt_succ_iff, Option.map_some, Option.map_none]

namespace ConstraintSystem

variable {σ υ : Type} [DecidableEq υ] {sys : ConstraintSystem σ υ} {order : ReplayOrder}
  {limit done : Nat} {actions : UInt64} {queued : List υ} {s t : σ} {pr : Progress υ}

/-! ## One more pass -/

theorem iterate_of_error {e : Fault} (hp : sys.pass order queued actions s = .error e t) (n : Nat) :
    sys.iterate order limit (n + 1) done queued actions s = ⟨.error e, t, []⟩ := by
  rw [iterate, hp]

theorem iterate_of_quiet (hp : sys.pass order queued actions s = .ok pr t) (hquiet : pr.changed = false)
    (n : Nat) : sys.iterate order limit (n + 1) done queued actions s =
      ⟨.ok ⟨done + 1, pr.actions, pr.queued.length⟩, t, [t]⟩ := by
  rw [iterate, hp]
  dsimp only
  rw [hquiet, if_neg Bool.false_ne_true]

theorem iterate_of_progress (hp : sys.pass order queued actions s = .ok pr t)
    (hprogress : pr.changed = true) (n : Nat) :
    sys.iterate order limit (n + 1) done queued actions s =
      { sys.iterate order limit n (done + 1) pr.queued pr.actions t with
        passes := t :: (sys.iterate order limit n (done + 1) pr.queued pr.actions t).passes } := by
  rw [iterate, hp]
  dsimp only
  rw [hprogress, if_pos rfl]

/-! ## Many passes -/

/-- A run that converged counts the passes that it completed. -/
theorem iterate_passes (n done : Nat) (queued : List υ) (actions : UInt64) (s : σ) {c : Converged}
    (hc : (sys.iterate order limit n done queued actions s).result = .ok c) :
    c.passes = done + (sys.iterate order limit n done queued actions s).passes.length := by
  induction n generalizing done queued actions s with
  | zero => cases hc
  | succ n ih =>
    cases hp : sys.pass order queued actions s with
    | error e t =>
      rw [iterate_of_error hp] at hc
      cases hc
    | ok pr t =>
      cases hch : pr.changed with
      | true =>
        rw [iterate_of_progress hp hch] at hc ⊢
        rw [ih _ _ _ _ hc, List.length_cons, Nat.add_assoc, Nat.add_comm 1]
      | false =>
        rw [iterate_of_quiet hp hch] at hc ⊢
        cases hc
        rfl

/-- A run that ends with the next pass needs that pass and no more. -/
theorem raise_of_next {r : Run σ}
    (h : ∀ n limit, sys.iterate order limit (n + 1) done queued actions s = r) (m other : Nat) :
    (1 ≤ m → sys.iterate order other m done queued actions s = r) ∧
    (m < 1 → (sys.iterate order other m done queued actions s).result =
      .error (.noFixedPoint (done + m) other)) := by
  cases m with
  | zero => exact ⟨fun hm => absurd hm (Nat.not_succ_le_zero 0), fun _ => rfl⟩
  | succ m => exact ⟨fun _ => h m other, fun hm => absurd hm (by omega)⟩

/-- **Another ceiling.** Where a run ends by itself in its `k`-th pass from here, it ends in the same
way if it is allowed `k` passes or more, and with fewer it is cut off. -/
theorem iterate_raise (n done : Nat) (queued : List υ) (actions : UInt64) (s : σ) {k : Nat}
    (hk : (sys.iterate order limit n done queued actions s).lastPass? n = some k) (m other : Nat) :
    (k ≤ m → sys.iterate order other m done queued actions s =
      sys.iterate order limit n done queued actions s) ∧
    (m < k → (sys.iterate order other m done queued actions s).result =
      .error (.noFixedPoint (done + m) other)) := by
  induction n generalizing done queued actions s k m with
  | zero => cases hk
  | succ n ih =>
    cases hp : sys.pass order queued actions s with
    | error e t =>
      rw [iterate_of_error hp] at hk ⊢
      cases hk
      exact raise_of_next (fun n limit => iterate_of_error hp n) m other
    | ok pr t =>
      cases hch : pr.changed with
      | false =>
        rw [iterate_of_quiet hp hch] at hk ⊢
        cases hk
        exact raise_of_next (fun n limit => iterate_of_quiet hp hch n) m other
      | true =>
        rw [iterate_of_progress hp hch] at hk ⊢
        rw [Run.lastPass?_cons] at hk
        obtain ⟨k, hrest, rfl⟩ := Option.map_eq_some_iff.1 hk
        cases m with
        | zero => exact ⟨fun hm => absurd hm (Nat.not_succ_le_zero k), fun _ => rfl⟩
        | succ m =>
          obtain ⟨hsame, hcut⟩ := ih (done + 1) pr.queued pr.actions t hrest m
          rw [iterate_of_progress hp hch]
          refine ⟨fun hm => ?_, fun hm => ?_⟩
          · rw [hsame (Nat.le_of_succ_le_succ hm)]
          · rw [hcut (Nat.lt_of_succ_lt_succ hm), Nat.add_assoc, Nat.add_comm 1]

/-- **Another ceiling, for a whole run.** -/
theorem solve_raise {s : σ} {n k : Nat} (hk : (sys.solve order n s).lastPass? n = some k) (m : Nat) :
    (k ≤ m → sys.solve order m s = sys.solve order n s) ∧
    (m < k → (sys.solve order m s).result = .error (.noFixedPoint m m)) := by
  have h := iterate_raise n 0 _ 0 _ hk m m
  rw [Nat.zero_add] at h
  exact h

theorem lastPass?_of_ok {s : σ} {n : Nat} {c : Converged} (hc : (sys.solve order n s).result = .ok c) :
    (sys.solve order n s).lastPass? n = some c.passes := by
  rw [Run.lastPass?, hc, iterate_passes n 0 _ 0 _ hc, Nat.zero_add]
  rfl

/-- What a run is in which a replay fails. -/
theorem Fails.solve {s t : σ} {n : Nat} {ps : List (Pass υ)} {made : List υ} {u : υ} {e : Fault}
    (h : sys.Fails order n (sys.firstQueue s) (sys.takeDiscovered s).2 ps made u e t) :
    (sys.solve order n s).result = .error e ∧ (sys.solve order n s).final = t ∧
      (sys.solve order n s).passes.length = ps.length := by
  rw [solve_eq]
  exact h.iterate

theorem lastPass?_of_fails {s t : σ} {n : Nat} {ps : List (Pass υ)} {made : List υ} {u : υ} {e : Fault}
    (h : sys.Fails order n (sys.firstQueue s) (sys.takeDiscovered s).2 ps made u e t) :
    (sys.solve order n s).lastPass? n = some (ps.length + 1) := by
  obtain ⟨hresult, -, hlength⟩ := h.solve
  rw [Run.lastPass?, hresult]
  dsimp only
  rw [hlength, if_pos h.within]

end ConstraintSystem

/-! ## Processing -/

/-- What processing makes of the solver's run. -/
def Run.outcome (r : Run Analysis) : EStateM.Result Fault Analysis Converged :=
  match r.result with
  | .ok c => .ok c { r.final with converged := some c }
  | .error e => .error e r.final

theorem Run.result_of_outcome {r : Run Analysis} {c : Converged} {t : Analysis}
    (h : r.outcome = .ok c t) : r.result = .ok c := by
  unfold Run.outcome at h
  cases hr : r.result with
  | ok c' =>
    rw [hr] at h
    cases h
    rfl
  | error e =>
    rw [hr] at h
    cases h

theorem Run.outcome_of_error {r : Run Analysis} {e : Fault} (h : r.result = .error e) :
    r.outcome = .error e r.final := by
  rw [Run.outcome, h]

namespace Setup

variable {env : Setup} {ambient body : List Stmt} {a b : Analysis}

/-- The same setup with another ceiling. -/
def within (env : Setup) (n : Nat) : Setup := { env with config := { env.config with maxPasses := n } }

/-- No replay asks for the ceiling. -/
theorem system_within (env : Setup) (n : Nat) : (env.within n).system = env.system :=
  Alike.system_eq ⟨.refl env.program, rfl⟩

theorem process_of_error {e : Fault} (h : AnalysisM.prepare env ambient body a = .error e b) (n : Nat) :
    (env.within n).process ambient body a = .error e b := by
  have hprepare : AnalysisM.prepare (env.within n) ambient body a = .error e b := h
  rw [process, trace, hprepare]

/-- **Processing is preparing and then solving.** -/
theorem process_of_prepared (h : AnalysisM.prepare env ambient body a = .ok () b) (n : Nat) :
    (env.within n).process ambient body a = (env.system.solve env.config.order n b).outcome := by
  have hprepare : AnalysisM.prepare (env.within n) ambient body a = .ok () b := h
  have hsolve : (env.within n).system.solve (env.within n).config.order (env.within n).config.maxPasses b =
      env.system.solve env.config.order n b := by
    rw [system_within]
    rfl
  rw [process, trace, hprepare]
  dsimp only
  rw [hsolve, Run.outcome]
  cases (env.system.solve env.config.order n b).result <;> rfl

/-- Another ceiling, for a run that was prepared. -/
theorem process_raise (h : AnalysisM.prepare env ambient body a = .ok () b) {n k : Nat}
    (hk : (env.system.solve env.config.order n b).lastPass? n = some k) (m : Nat) :
    (k ≤ m → (env.within m).process ambient body a = (env.within n).process ambient body a) ∧
    (m < k → ∃ t, (env.within m).process ambient body a = .error (.noFixedPoint m m) t) := by
  obtain ⟨hsame, hcut⟩ := ConstraintSystem.solve_raise hk m
  rw [process_of_prepared h m, process_of_prepared h n]
  exact ⟨fun hm => by rw [hsame hm], fun hm => ⟨_, Run.outcome_of_error (hcut hm)⟩⟩

end Setup

/-- **Raising the ceiling never changes a result.** A run of a constraint system that converges in
`p` passes, or in whose `p`-th pass a replay fails, is the same under every ceiling of at least
`p`, and every lower ceiling cuts it off. So it is with processing a program; and where a
program cannot be prepared, no ceiling matters. -/
theorem ceiling_irrelevant {σ υ : Type} [DecidableEq υ] (sys : ConstraintSystem σ υ)
    (order : ReplayOrder) (s : σ) (env : Setup) (ambient body : List Stmt) (a : Analysis) (n m : Nat) :
    (∀ c, (sys.solve order n s).result = .ok c →
      (c.passes ≤ m → sys.solve order m s = sys.solve order n s) ∧
      (m < c.passes → (sys.solve order m s).result = .error (.noFixedPoint m m))) ∧
    (∀ ps made u e t, sys.Fails order n (sys.firstQueue s) (sys.takeDiscovered s).2 ps made u e t →
      (sys.solve order n s).result = .error e ∧
      (ps.length + 1 ≤ m → sys.solve order m s = sys.solve order n s) ∧
      (m < ps.length + 1 → (sys.solve order m s).result = .error (.noFixedPoint m m))) ∧
    (∀ c t, (env.within n).process ambient body a = .ok c t →
      (c.passes ≤ m → (env.within m).process ambient body a = .ok c t) ∧
      (m < c.passes → ∃ t', (env.within m).process ambient body a = .error (.noFixedPoint m m) t')) ∧
    (∀ b ps made u e t, AnalysisM.prepare env ambient body a = .ok () b →
      env.system.Fails env.config.order n (env.system.firstQueue b) (env.system.takeDiscovered b).2
        ps made u e t →
      (env.within n).process ambient body a = .error e t ∧
      (ps.length + 1 ≤ m → (env.within m).process ambient body a = .error e t) ∧
      (m < ps.length + 1 →
        ∃ t', (env.within m).process ambient body a = .error (.noFixedPoint m m) t')) ∧
    (∀ b e, AnalysisM.prepare env ambient body a = .error e b →
      (env.within m).process ambient body a = .error e b) := by
  refine ⟨fun c hc => ConstraintSystem.solve_raise (ConstraintSystem.lastPass?_of_ok hc) m,
    fun ps made u e t h => ⟨h.solve.1, ConstraintSystem.solve_raise (ConstraintSystem.lastPass?_of_fails h) m⟩,
    fun c t hc => ?_, fun b ps made u e t hb h => ?_, fun b e hb => Setup.process_of_error hb m⟩
  · cases hb : AnalysisM.prepare env ambient body a with
    | error e b =>
      rw [Setup.process_of_error hb] at hc
      cases hc
    | ok u b =>
      have hrun := hc
      rw [Setup.process_of_prepared hb] at hrun
      obtain ⟨hsame, hcut⟩ := Setup.process_raise hb
        (ConstraintSystem.lastPass?_of_ok (Run.result_of_outcome hrun)) m
      exact ⟨fun hm => (hsame hm).trans hc, hcut⟩
  · obtain ⟨hsame, hcut⟩ := Setup.process_raise hb (ConstraintSystem.lastPass?_of_fails h) m
    obtain ⟨hresult, hfinal, -⟩ := h.solve
    have hend : (env.within n).process ambient body a = .error e t := by
      rw [Setup.process_of_prepared hb, Run.outcome_of_error hresult, hfinal]
    exact ⟨hend, fun hm => (hsame hm).trans hend, hcut⟩

/-- A constructor that turns out to be anything only after it was called. -/
def lateCallee : Setup where
  program.body := [.expr ⟨.construct ⟨.name "g", none⟩ [], none⟩, .var "g" (some ⟨.name "u", none⟩) none]

/-- The call fails in the second pass, and a ceiling of one pass cuts the run off before that. -/
theorem lateCallee_ceiling :
    (∃ t, (lateCallee.within 2).process [] lateCallee.program.body .fresh = .error .unboundedConstructor t) ∧
    (∃ t, (lateCallee.within 1).process [] lateCallee.program.body .fresh = .error (.noFixedPoint 1 1) t) ∧
    ConstraintSystem.countdown.solve .reverse 3 2 = ConstraintSystem.countdown.solve .reverse 9 2 ∧
    (ConstraintSystem.countdown.solve .reverse 2 2).result = .error (.noFixedPoint 2 2) := by
  let b := finalState (AnalysisM.prepare lateCallee [] lateCallee.program.body) .fresh
  have hprepare : AnalysisM.prepare lateCallee [] lateCallee.program.body .fresh = .ok () b := rfl
  have hrun : (lateCallee.system.solve .discovery 9 b).result = .error .unboundedConstructor ∧
      (lateCallee.system.solve .discovery 9 b).passes.length = 1 := by decide +kernel
  rw [ConstraintSystem.solve_eq] at hrun
  obtain ⟨hfault, -⟩ | ⟨ps, made, u, t, hfails⟩ := ConstraintSystem.iterate_error_iff.1 hrun.1
  · cases hfault
  have hlength : ps.length = 1 := hfails.iterate.2.2.symm.trans hrun.2
  have h := ceiling_irrelevant ConstraintSystem.countdown .reverse 2 lateCallee []
    lateCallee.program.body .fresh 9
  have hcountdown : (ConstraintSystem.countdown.solve .reverse 9 2).result = .ok ⟨3, 9, 3⟩ := by decide
  have hlate (m : Nat) := (h m).2.2.2.1 b ps made u .unboundedConstructor t hprepare hfails
  rw [hlength] at hlate
  exact ⟨⟨t, (hlate 2).2.1 (by decide)⟩, (hlate 1).2.2 (by decide),
    ((h 3).1 _ hcountdown).1 (by decide), ((h 2).1 _ hcountdown).2 (by decide)⟩

end TypeFlow
