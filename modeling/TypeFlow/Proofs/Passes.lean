import Mathlib.Algebra.BigOperators.Group.List.Basic
import Mathlib.Algebra.GroupWithZero.Nat
import TypeFlow.Proofs.Runs

/-!
# Passes

What a run of a constraint system does, told without the solver. A **pass** replays the
units queued when it starts, each once; its reports and discoveries say what is queued for
the next one. A run is a sequence of passes, and it ends in one of three ways: with the
first quiet pass, with a replay that fails, or when the passes allowed are used up.

* `Passes`: the passes that lead from one queue and state to another.
* `Converges`, `Exhausts`, `Fails`: the three ways in which a run ends.
* `solve_trace`: the solver returns what the passes say, and makes the replays that they list.

A replay may fail with the very fault that the solver gives when the passes are used up, and actions
are counted in 64 bits. So neither does that fault tell that the passes were used up, nor is the
count the number of actions.
-/

namespace TypeFlow

/-- What happened in one pass. -/
structure Pass (υ : Type) where
  /-- The units queued when the pass starts. -/
  queue : List υ
  /-- What the replays reported, in the order in which they were made. -/
  reports : List (Replay υ)
  /-- The units that turn out to be discovered at the end of the pass. -/
  found : List υ

namespace Pass

variable {υ : Type}

/-- The units reported dirty, in the order of the reports. -/
def dirty (P : Pass υ) : List υ := P.reports.flatMap (·.dirty)

/-- The number of actions evaluated in the pass. -/
def actions (P : Pass υ) : Nat := (P.reports.map (·.actions.toNat)).sum

/-- No replay reported a change, and nothing new was discovered. -/
def Quiet (P : Pass υ) : Prop := (∀ r ∈ P.reports, r.changed = false) ∧ ∀ u ∈ P.found, u ∈ P.queue

/-- The queue for the next pass: what was queued, then the dirty units that were not, then the
discovered units that were not. -/
def next [DecidableEq υ] (P : Pass υ) : List υ :=
  P.queue ++ ((P.dirty ++ P.found).removeAll P.queue).eraseDups

/-- The number of actions evaluated in several passes. -/
def totalActions (ps : List (Pass υ)) : Nat := (ps.map actions).sum

theorem totalActions_cons (P : Pass υ) (ps : List (Pass υ)) :
    totalActions (P :: ps) = P.actions + totalActions ps := by
  rw [totalActions, List.map_cons, List.sum_cons, totalActions]

theorem totalActions_concat (ps : List (Pass υ)) (last : Pass υ) :
    totalActions (ps ++ [last]) = totalActions ps + last.actions := by
  simp [totalActions]

/-- The units replayed in several passes, in order. -/
def replayed (order : ReplayOrder) (ps : List (Pass υ)) : List υ :=
  ps.flatMap fun P => order.arrange P.queue

end Pass

section Queue

variable {υ : Type} [DecidableEq υ]

theorem enqueue_append (q us vs : List υ) : enqueue q (us ++ vs) = enqueue (enqueue q us) vs :=
  List.foldl_append

/-- **Queueing appends what is new**, without repetition and in order. -/
theorem enqueue_eq (q us : List υ) : enqueue q us = q ++ (us.removeAll q).eraseDups := by
  induction us generalizing q with
  | nil => simp [enqueue, List.removeAll]
  | cons u us ih =>
    rw [enqueue_cons, ih]
    by_cases hu : u ∈ q
    · rw [if_pos hu]
      simp [List.removeAll, hu]
    · have hdrop : us.removeAll (q ++ [u]) = (us.removeAll q).filter fun v => !v == u := by
        simp only [List.removeAll, List.filter_filter]
        refine List.filter_congr fun v _ => ?_
        by_cases hv : v = u <;> simp [hv]
      have hkeep : (u :: us).removeAll q = u :: us.removeAll q := by
        simp [List.removeAll, hu]
      rw [if_neg hu, hdrop, hkeep, List.eraseDups_cons, List.append_assoc, List.singleton_append]

theorem enqueue_nil (us : List υ) : enqueue [] us = us.eraseDups := by
  rw [enqueue_eq, List.nil_append, List.removeAll_nil]

theorem nodup_enqueue {q : List υ} (hq : q.Nodup) (us : List υ) : (enqueue q us).Nodup := by
  induction us generalizing q with
  | nil => exact hq
  | cons u us ih =>
    rw [enqueue_cons]
    by_cases hu : u ∈ q
    · rw [if_pos hu]
      exact ih hq
    · rw [if_neg hu]
      refine ih (List.nodup_append.2 ⟨hq, by simp, fun v hv w hw hvw => ?_⟩)
      exact hu (List.mem_singleton.1 hw ▸ hvw ▸ hv)

theorem Pass.next_eq (P : Pass υ) : P.next = enqueue P.queue (P.dirty ++ P.found) :=
  (enqueue_eq ..).symm

theorem Pass.mem_next {P : Pass υ} {u : υ} : u ∈ P.next ↔ u ∈ P.queue ∨ u ∈ P.dirty ∨ u ∈ P.found := by
  rw [next_eq, mem_enqueue, List.mem_append]

/-- In a quiet pass nothing is dirty. -/
theorem Pass.Quiet.dirty_eq_nil {υ : Type} {P : Pass υ} (h : P.Quiet) : P.dirty = [] := by
  refine List.flatMap_eq_nil_iff.2 fun r hr => ?_
  have hr := h.1 r hr
  simp only [Replay.changed, Bool.or_eq_false_iff, Bool.not_eq_false', List.isEmpty_iff] at hr
  exact hr.2

end Queue

namespace ConstraintSystem

variable {σ υ : Type} (sys : ConstraintSystem σ υ)

/-- **Replays that succeed**: the units are replayed one after the other and report `rs`. -/
inductive Replays : List υ → σ → List (Replay υ) → σ → Prop
  | nil (s : σ) : Replays [] s [] s
  | cons {u : υ} {us : List υ} {s t v : σ} {r : Replay υ} {rs : List (Replay υ)}
      (replay : sys.replay u s = .ok r t) (rest : Replays us t rs v) : Replays (u :: us) s (r :: rs) v

variable [DecidableEq υ]

/-- **Passes** that lead from a queue and a state to a queue and a state. -/
inductive Passes (order : ReplayOrder) : List υ → σ → List (Pass υ) → List υ → σ → Prop
  | nil (q : List υ) (s : σ) : Passes order q s [] q s
  | cons {P : Pass υ} {ps : List (Pass υ)} {q q' : List υ} {s t v w : σ} (queue : P.queue = q)
      (replays : sys.Replays (order.arrange q) s P.reports t)
      (taken : sys.takeDiscovered t = (P.found, v)) (rest : Passes order P.next v ps q' w) :
      Passes order q s (P :: ps) q' w

/-- The first queue: the roots, then what is discovered already, without repetition. -/
def firstQueue (s : σ) : List υ := (sys.roots s ++ (sys.takeDiscovered s).1).eraseDups

section Endings

variable (order : ReplayOrder) (limit : Nat) (q : List υ) (s : σ)

/-- **A run converges**: after the passes `ps`, all of which made progress, the pass `last` is
quiet, and it is one of the first `limit`. -/
structure Converges (ps : List (Pass υ)) (last : Pass υ) (q' : List υ) (t : σ) : Prop where
  history : sys.Passes order q s (ps ++ [last]) q' t
  progress : ∀ P ∈ ps, ¬ P.Quiet
  quiet : last.Quiet
  within : ps.length + 1 ≤ limit

/-- **A run is exhausted**: the first `limit` passes all made progress. -/
structure Exhausts (ps : List (Pass υ)) (q' : List υ) (t : σ) : Prop where
  history : sys.Passes order q s ps q' t
  progress : ∀ P ∈ ps, ¬ P.Quiet
  length : ps.length = limit

/-- **A run fails**: after fewer than `limit` passes, all of which made progress, the units `made`
of the next pass are replayed, and the replay of `u`, which comes next, fails. -/
structure Fails (ps : List (Pass υ)) (made : List υ) (u : υ) (e : Fault) (t : σ) : Prop where
  progress : ∀ P ∈ ps, ¬ P.Quiet
  within : ps.length < limit
  failure : ∃ q' v rs w, sys.Passes order q s ps q' v ∧ made ++ [u] <+: order.arrange q' ∧
    sys.Replays made v rs w ∧ sys.replay u w = .error e t

end Endings

/-- The same system, which also writes down the units that are replayed, in order. -/
def logged : ConstraintSystem (σ × List υ) υ where
  roots s := sys.roots s.1
  replay u := fun s =>
    match sys.replay u s.1 with
    | .ok r t => .ok r (t, s.2 ++ [u])
    | .error e t => .error e (t, s.2 ++ [u])
  takeDiscovered s := ((sys.takeDiscovered s.1).1, ((sys.takeDiscovered s.1).2, s.2))

/-- The units that the solver replays, in order. -/
def replayedBy (order : ReplayOrder) (limit : Nat) (s : σ) : List υ :=
  (sys.logged.solve order limit (s, [])).final.2

variable {sys} {order : ReplayOrder} {limit : Nat} {q q' : List υ} {s t : σ}

/-! ## One pass -/

/-- What the solver makes of replays that succeed. -/
theorem replayUnits_of_replays {us : List υ} {rs : List (Replay υ)} (h : sys.Replays us s rs t)
    (pr : Progress υ) : sys.replayUnits us pr s = .ok
      { queued := enqueue pr.queued (rs.flatMap (·.dirty))
        actions := pr.actions + .ofNat (rs.map (·.actions.toNat)).sum
        changed := pr.changed || rs.any (·.changed) } t := by
  induction h generalizing pr with
  | nil s => simp [replayUnits, enqueue, pure, EStateM.pure]
  | cons replay rest ih =>
    rw [replayUnits, bind_apply, replay]
    dsimp only
    rw [ih]
    simp only [List.flatMap_cons, enqueue_append, List.map_cons, List.sum_cons, List.any_cons,
      UInt64.ofNat_add, UInt64.ofNat_toNat, UInt64.add_assoc, Bool.or_assoc]

/-- The solver stops at the first replay that fails. -/
theorem replayUnits_of_failure {made us : List υ} {u : υ} {rs : List (Replay υ)} {w : σ} {e : Fault}
    (h : sys.Replays made s rs w) (hu : sys.replay u w = .error e t) (hus : made ++ [u] <+: us)
    (pr : Progress υ) : sys.replayUnits us pr s = .error e t := by
  induction h generalizing us pr with
  | nil s =>
    obtain ⟨rest, rfl⟩ := hus
    rw [List.nil_append, List.singleton_append, replayUnits, bind_apply, hu]
  | cons replay rest ih =>
    obtain ⟨more, rfl⟩ := hus
    simp only [List.cons_append, replayUnits]
    rw [bind_apply, replay]
    exact ih hu (List.prefix_append ..) _

omit [DecidableEq υ] in
/-- Replaying units one after the other succeeds, or it fails at one of them. -/
theorem replays_or_fails (sys : ConstraintSystem σ υ) (us : List υ) (s : σ) : (∃ rs t, sys.Replays us s rs t) ∨
    ∃ made u rs w e t, made ++ [u] <+: us ∧ sys.Replays made s rs w ∧ sys.replay u w = .error e t := by
  induction us generalizing s with
  | nil => exact .inl ⟨[], s, .nil s⟩
  | cons u us ih =>
    cases hu : sys.replay u s with
    | error e t =>
      exact .inr ⟨[], u, [], s, e, t, ⟨us, rfl⟩, .nil s, hu⟩
    | ok r v =>
      rcases ih v with ⟨rs, t, h⟩ | ⟨made, w, rs, v', e, t, hmade, h, hw⟩
      · exact .inl ⟨r :: rs, t, .cons hu h⟩
      · refine .inr ⟨u :: made, w, r :: rs, v', e, t, ?_, .cons hu h, hw⟩
        exact List.cons_prefix_cons.2 ⟨rfl, hmade⟩

/-- **The solver's pass is a pass**: it queues for the next one what the pass says, and it has
changed something exactly if the pass was not quiet. -/
theorem pass_of_replays {P : Pass υ} {v : σ} (h : sys.Replays (order.arrange P.queue) s P.reports t)
    (htaken : sys.takeDiscovered t = (P.found, v)) (n : UInt64) :
    ∃ pr, sys.pass order P.queue n s = .ok pr v ∧ pr.queued = P.next ∧ pr.actions = n + .ofNat P.actions ∧
      (pr.changed = false ↔ P.Quiet) := by
  have hfound : (modifyGet sys.takeDiscovered : EStateM Fault σ (List υ)) t = .ok P.found v := by
    change EStateM.Result.ok (sys.takeDiscovered t).1 (sys.takeDiscovered t).2 = _
    rw [htaken]
  refine ⟨⟨P.next, n + .ofNat P.actions, P.reports.any (·.changed) ||
    P.found.any (!(enqueue P.queue P.dirty).contains ·)⟩, ?_, rfl, rfl, ?_⟩
  · rw [pass, bind_apply, replayUnits_of_replays h]
    dsimp only
    rw [bind_apply, hfound, Pass.next_eq, enqueue_append]
    rfl
  · constructor
    · intro hpr
      obtain ⟨hreports, hnew⟩ := Bool.or_eq_false_iff.1 hpr
      have hquiet : ∀ r ∈ P.reports, r.changed = false := by simpa using hreports
      refine ⟨hquiet, fun u hu => ?_⟩
      -- as nothing is dirty, what was not new had been queued before the pass
      have hdirty : P.dirty = [] := Pass.Quiet.dirty_eq_nil (P := { P with found := [] }) ⟨hquiet, by simp⟩
      have hmem : u ∈ enqueue P.queue P.dirty := by simpa using List.any_eq_false.1 hnew u hu
      rw [hdirty] at hmem
      exact hmem
    · intro hquiet
      refine Bool.or_eq_false_iff.2 ⟨by simpa using hquiet.1, List.any_eq_false.2 fun u hu => ?_⟩
      simpa using mem_enqueue.2 (.inl (hquiet.2 u hu))

/-! ## Several passes -/

/-- The solver goes on after passes that made progress. -/
theorem iterate_of_passes (limit : Nat) {ps : List (Pass υ)} (h : sys.Passes order q s ps q' t)
    (hps : ∀ P ∈ ps, ¬ P.Quiet) (n done : Nat) (actions : UInt64) :
    let run := sys.iterate order limit (ps.length + n) done q actions s
    let rest := sys.iterate order limit n (done + ps.length) q' (actions + .ofNat (Pass.totalActions ps)) t
    run.result = rest.result ∧ run.final = rest.final ∧
      run.passes.length = ps.length + rest.passes.length := by
  induction h generalizing done actions with
  | nil q s => simp [Pass.totalActions]
  | @cons P ps q q' s t v w queue replays taken rest ih =>
    subst queue
    obtain ⟨pr, hpass, hqueued, hactions, hquiet⟩ := pass_of_replays replays taken actions
    have hchanged : pr.changed = true := by
      rw [← Bool.not_eq_false, hquiet]
      exact hps P (List.mem_cons_self ..)
    have hdone : done + (ps.length + 1) = done + 1 + ps.length := by omega
    obtain ⟨hresult, hfinal, hlength⟩ := ih (fun Q hQ => hps Q (List.mem_cons_of_mem _ hQ)) (done + 1)
      (actions + .ofNat P.actions)
    rw [List.length_cons, hdone, Pass.totalActions_cons, UInt64.ofNat_add, ← UInt64.add_assoc,
      Nat.add_right_comm, iterate, hpass]
    dsimp only
    rw [if_pos hchanged, hqueued, hactions]
    refine ⟨hresult, hfinal, ?_⟩
    rw [List.length_cons, hlength]
    omega

/-- Passes can be cut in two. -/
theorem Passes.split {ps rs : List (Pass υ)} (h : sys.Passes order q s (ps ++ rs) q' t) :
    ∃ q₁ t₁, sys.Passes order q s ps q₁ t₁ ∧ sys.Passes order q₁ t₁ rs q' t := by
  induction ps generalizing q s with
  | nil => exact ⟨q, s, .nil q s, h⟩
  | cons P ps ih =>
    cases h with
    | cons queue replays taken rest =>
      obtain ⟨q₁, t₁, h1, h2⟩ := ih rest
      exact ⟨q₁, t₁, .cons queue replays taken h1, h2⟩

/-- No unit is queued twice. -/
theorem Passes.nodup {ps : List (Pass υ)} (h : sys.Passes order q s ps q' t) (hq : q.Nodup) :
    ∀ P ∈ ps, P.queue.Nodup := by
  induction h with
  | nil => exact fun _ h => absurd h List.not_mem_nil
  | @cons P ps q q' s t v w queue replays taken rest ih =>
    subst queue
    refine List.forall_mem_cons.2 ⟨hq, ih ?_⟩
    rw [Pass.next_eq]
    exact nodup_enqueue hq _

/-- Everything queued at the start or reported in a pass is queued at the end. -/
theorem Passes.mem_queue {ps : List (Pass υ)} (h : sys.Passes order q s ps q' t) {u : υ}
    (hu : u ∈ q ∨ ∃ P ∈ ps, u ∈ P.dirty ∨ u ∈ P.found) : u ∈ q' := by
  induction h with
  | nil => exact hu.resolve_right fun ⟨_, h, _⟩ => absurd h List.not_mem_nil
  | @cons P ps q q' s t v w queue replays taken rest ih =>
    subst queue
    refine ih ?_
    rcases hu with hu | ⟨Q, hQ, hu⟩
    · exact .inl (Pass.mem_next.2 (.inl hu))
    · rcases List.mem_cons.1 hQ with rfl | hQ
      · exact .inl (Pass.mem_next.2 (.inr hu))
      · exact .inr ⟨Q, hQ, hu⟩

omit [DecidableEq υ] in
/-- What a replay preserves, several replays preserve. -/
theorem Replays.preserves {J : σ → Prop} (hreplay : ∀ u s r t, J s → sys.replay u s = .ok r t → J t)
    {us : List υ} {rs : List (Replay υ)} (h : sys.Replays us s rs t) (hs : J s) : J t := by
  induction h with
  | nil => exact hs
  | cons replay rest ih => exact ih (hreplay _ _ _ _ hs replay)

/-- What a replay preserves, and taking what is discovered, passes preserve. -/
theorem Passes.preserves {J : σ → Prop} (hreplay : ∀ u s r t, J s → sys.replay u s = .ok r t → J t)
    (htake : ∀ s, J s → J (sys.takeDiscovered s).2) {ps : List (Pass υ)}
    (h : sys.Passes order q s ps q' t) (hs : J s) : J t := by
  induction h with
  | nil => exact hs
  | cons queue replays taken rest ih =>
    refine ih ?_
    have htaken := htake _ (replays.preserves hreplay hs)
    rw [taken] at htaken
    exact htaken

/-! ## The three endings -/

theorem Converges.iterate {ps : List (Pass υ)} {last : Pass υ}
    (h : sys.Converges order limit q s ps last q' t) :
    let run := sys.iterate order limit limit 0 q 0 s
    run.result = .ok ⟨ps.length + 1, .ofNat (Pass.totalActions (ps ++ [last])), q'.length⟩ ∧
      run.final = t ∧ run.passes.length = ps.length + 1 := by
  obtain ⟨q₁, t₁, hps, hlast⟩ := h.history.split
  obtain ⟨n, hn⟩ : ∃ n, limit = ps.length + (n + 1) := ⟨limit - (ps.length + 1), by have := h.within; omega⟩
  have hgo := iterate_of_passes limit hps h.progress (n + 1) 0 0
  rw [← hn, Nat.zero_add, UInt64.zero_add] at hgo
  cases hlast with
  | cons queue replays taken rest =>
    subst queue
    cases rest
    obtain ⟨pr, hpass, hqueued, hactions, hquiet⟩ :=
      pass_of_replays replays taken (.ofNat (Pass.totalActions ps))
    have hchanged : ¬ pr.changed = true := by
      rw [hquiet.2 h.quiet]
      exact Bool.false_ne_true
    dsimp only at hgo ⊢
    rw [hgo.1, hgo.2.1, hgo.2.2, ConstraintSystem.iterate, hpass]
    dsimp only
    rw [if_neg hchanged, hqueued, hactions, Pass.totalActions_concat, UInt64.ofNat_add]
    exact ⟨rfl, rfl, rfl⟩

theorem Exhausts.iterate {ps : List (Pass υ)} (h : sys.Exhausts order limit q s ps q' t) :
    let run := sys.iterate order limit limit 0 q 0 s
    run.result = .error (.noFixedPoint limit limit) ∧ run.final = t ∧ run.passes.length = limit := by
  have hgo := iterate_of_passes limit h.history h.progress 0 0 0
  rw [Nat.add_zero, Nat.zero_add, h.length] at hgo
  exact hgo

theorem Fails.iterate {ps : List (Pass υ)} {made : List υ} {u : υ} {e : Fault}
    (h : sys.Fails order limit q s ps made u e t) :
    let run := sys.iterate order limit limit 0 q 0 s
    run.result = .error e ∧ run.final = t ∧ run.passes.length = ps.length := by
  obtain ⟨q₁, v, rs, w, hps, hmade, hreplays, hu⟩ := h.failure
  obtain ⟨n, hn⟩ : ∃ n, limit = ps.length + (n + 1) := ⟨limit - (ps.length + 1), by have := h.within; omega⟩
  have hgo := iterate_of_passes limit hps h.progress (n + 1) 0 0
  rw [← hn] at hgo
  have hpass (m : UInt64) : sys.pass order q₁ m v = .error e t := by
    rw [pass, bind_apply, replayUnits_of_failure hreplays hu hmade]
  dsimp only at hgo ⊢
  rw [hgo.1, hgo.2.1, hgo.2.2, ConstraintSystem.iterate, hpass]
  exact ⟨rfl, rfl, rfl⟩

/-- **Every run ends in one of the three ways.** -/
theorem exists_ending (sys : ConstraintSystem σ υ) (order : ReplayOrder) (limit : Nat) (q : List υ)
    (s : σ) : (∃ ps last q' t, sys.Converges order limit q s ps last q' t) ∨
      (∃ ps q' t, sys.Exhausts order limit q s ps q' t) ∨
      ∃ ps made u e t, sys.Fails order limit q s ps made u e t := by
  induction limit generalizing q s with
  | zero => exact .inr (.inl ⟨[], q, s, .nil q s, by simp, rfl⟩)
  | succ n ih =>
    rcases replays_or_fails sys (order.arrange q) s with ⟨rs, t, h⟩ | ⟨made, u, rs, w, e, t, hmade, h, hu⟩
    · -- the first pass succeeds
      let P : Pass υ := ⟨q, rs, (sys.takeDiscovered t).1⟩
      by_cases hquiet : P.Quiet
      · exact .inl ⟨[], P, P.next, (sys.takeDiscovered t).2, .cons (P := P) rfl h rfl (.nil _ _), by simp, hquiet,
          by simp⟩
      · have hcons {ps : List (Pass υ)} (hps : ∀ Q ∈ ps, ¬ Q.Quiet) : ∀ Q ∈ P :: ps, ¬ Q.Quiet :=
          List.forall_mem_cons.2 ⟨hquiet, hps⟩
        rcases ih P.next (sys.takeDiscovered t).2 with ⟨ps, last, q', t', hc⟩ | ⟨ps, q', t', hx⟩ |
          ⟨ps, made, u, e, t', hf⟩
        · exact .inl ⟨P :: ps, last, q', t', .cons (P := P) rfl h rfl hc.history, hcons hc.progress, hc.quiet,
            Nat.succ_le_succ hc.within⟩
        · exact .inr (.inl ⟨P :: ps, q', t', .cons (P := P) rfl h rfl hx.history, hcons hx.progress,
            congrArg (· + 1) hx.length⟩)
        · obtain ⟨q', v, rs', w, hps, hrest⟩ := hf.failure
          exact .inr (.inr ⟨P :: ps, made, u, e, t', hcons hf.progress, Nat.succ_lt_succ hf.within,
            q', v, rs', w, .cons (P := P) rfl h rfl hps, hrest⟩)
    · exact .inr (.inr ⟨[], made, u, e, t, by simp, Nat.succ_pos n, q, s, rs, w, .nil q s, hmade, h, hu⟩)

theorem iterate_ok_iff {c : Converged} : (sys.iterate order limit limit 0 q 0 s).result = .ok c ↔
    ∃ ps last q' t, sys.Converges order limit q s ps last q' t ∧
      c = ⟨ps.length + 1, .ofNat (Pass.totalActions (ps ++ [last])), q'.length⟩ := by
  constructor
  · intro hc
    obtain ⟨ps, last, q', t, h⟩ | ⟨ps, q', t, h⟩ | ⟨ps, made, u, e, t, h⟩ :=
      exists_ending sys order limit q s
    all_goals
      rw [h.iterate.1] at hc
      cases hc
    exact ⟨ps, last, q', t, h, rfl⟩
  · rintro ⟨ps, last, q', t, h, rfl⟩
    exact h.iterate.1

theorem iterate_error_iff {e : Fault} : (sys.iterate order limit limit 0 q 0 s).result = .error e ↔
    (e = .noFixedPoint limit limit ∧ ∃ ps q' t, sys.Exhausts order limit q s ps q' t) ∨
      ∃ ps made u t, sys.Fails order limit q s ps made u e t := by
  constructor
  · intro he
    obtain ⟨ps, last, q', t, h⟩ | ⟨ps, q', t, h⟩ | ⟨ps, made, u, e, t, h⟩ :=
      exists_ending sys order limit q s
    all_goals
      rw [h.iterate.1] at he
      cases he
    · exact .inl ⟨rfl, ps, q', t, h⟩
    · exact .inr ⟨ps, made, u, t, h⟩
  · rintro (⟨rfl, ps, q', t, h⟩ | ⟨ps, made, u, t, h⟩)
    · exact h.iterate.1
    · exact h.iterate.1

/-! ## The replays that are made -/

omit [DecidableEq υ] in
theorem Replays.logged {us : List υ} {rs : List (Replay υ)} (h : sys.Replays us s rs t) (log : List υ) :
    sys.logged.Replays us (s, log) rs (t, log ++ us) := by
  induction h generalizing log with
  | nil s =>
    rw [List.append_nil]
    exact .nil _
  | @cons u us s t v r rs replay rest ih =>
    have hu : sys.logged.replay u (s, log) = .ok r (t, log ++ [u]) := by
      simp only [ConstraintSystem.logged, replay]
    have hrest := ih (log ++ [u])
    rw [List.append_assoc, List.singleton_append] at hrest
    exact .cons hu hrest

theorem Passes.logged {ps : List (Pass υ)} (h : sys.Passes order q s ps q' t) (log : List υ) :
    sys.logged.Passes order q (s, log) ps q' (t, log ++ Pass.replayed order ps) := by
  induction h generalizing log with
  | nil q s =>
    rw [Pass.replayed, List.flatMap_nil, List.append_nil]
    exact .nil q _
  | @cons P ps q q' s t v w queue replays taken rest ih =>
    subst queue
    have htaken : sys.logged.takeDiscovered (t, log ++ order.arrange P.queue) =
        (P.found, (v, log ++ order.arrange P.queue)) := by
      simp only [ConstraintSystem.logged, taken]
    have hrest := ih (log ++ order.arrange P.queue)
    rw [List.append_assoc] at hrest
    exact .cons rfl (replays.logged log) htaken hrest

theorem Converges.logged {ps : List (Pass υ)} {last : Pass υ}
    (h : sys.Converges order limit q s ps last q' t) (log : List υ) :
    sys.logged.Converges order limit q (s, log) ps last q'
      (t, log ++ Pass.replayed order (ps ++ [last])) :=
  ⟨h.history.logged log, h.progress, h.quiet, h.within⟩

theorem Exhausts.logged {ps : List (Pass υ)} (h : sys.Exhausts order limit q s ps q' t)
    (log : List υ) :
    sys.logged.Exhausts order limit q (s, log) ps q' (t, log ++ Pass.replayed order ps) :=
  ⟨h.history.logged log, h.progress, h.length⟩

theorem Fails.logged {ps : List (Pass υ)} {made : List υ} {u : υ} {e : Fault}
    (h : sys.Fails order limit q s ps made u e t) (log : List υ) :
    sys.logged.Fails order limit q (s, log) ps made u e
      (t, log ++ Pass.replayed order ps ++ made ++ [u]) := by
  obtain ⟨q₁, v, rs, w, hps, hmade, hreplays, hu⟩ := h.failure
  refine ⟨h.progress, h.within, q₁, _, rs, _, hps.logged log, hmade, hreplays.logged _, ?_⟩
  simp only [ConstraintSystem.logged, hu]

omit [DecidableEq υ] in
/-- Writing down the replays does not change the run. -/
theorem logged_mirrors (sys : ConstraintSystem σ υ) :
    sys.logged.Mirrors sys Prod.fst fun _ => True where
  roots _ := rfl
  replay u s _ := by
    unfold Mirrored
    simp only [ConstraintSystem.logged]
    cases sys.replay u s.1 with
    | ok r t => exact ⟨trivial, rfl⟩
    | error e t => exact ⟨trivial, rfl⟩
  kept _ _ := trivial
  taken _ := rfl

/-! ## Whole runs -/

theorem solve_eq (sys : ConstraintSystem σ υ) (order : ReplayOrder) (limit : Nat) (s : σ) :
    sys.solve order limit s =
      sys.iterate order limit limit 0 (sys.firstQueue s) 0 (sys.takeDiscovered s).2 := by
  rw [firstQueue, ← enqueue_nil, enqueue_append]
  rfl

theorem solve_logged_eq (sys : ConstraintSystem σ υ) (order : ReplayOrder) (limit : Nat) (s : σ) :
    sys.logged.solve order limit (s, []) =
      sys.logged.iterate order limit limit 0 (sys.firstQueue s) 0 ((sys.takeDiscovered s).2, []) :=
  solve_eq sys.logged order limit (s, [])

theorem nodup_firstQueue (sys : ConstraintSystem σ υ) (s : σ) : (sys.firstQueue s).Nodup := by
  rw [firstQueue, ← enqueue_nil]
  exact nodup_enqueue List.nodup_nil _

theorem mem_firstQueue {u : υ} :
    u ∈ sys.firstQueue s ↔ u ∈ sys.roots s ∨ u ∈ (sys.takeDiscovered s).1 := by
  rw [firstQueue, List.mem_eraseDups, List.mem_append]

/-- After a quiet pass the queue is what it was before. -/
theorem Converges.mem_last {ps : List (Pass υ)} {last : Pass υ}
    (h : sys.Converges order limit q s ps last q' t) {u : υ} (hu : u ∈ q') : u ∈ last.queue := by
  obtain ⟨q₁, t₁, -, hlast⟩ := h.history.split
  cases hlast with
  | cons queue replays taken rest =>
    cases rest
    rcases Pass.mem_next.1 hu with hu | hu | hu
    · exact hu
    · rw [h.quiet.dirty_eq_nil] at hu
      cases hu
    · exact h.quiet.2 u hu

/-- **What the solver does, in passes.** Passes start from the first queue; each replays what is
queued when it starts, every unit once. The solver converges exactly if one of the first `limit`
passes is the first quiet one; then every unit that was ever a root, dirty or discovered was replayed
in that pass, and the actions are counted modulo `2 ^ 64`. It ends with a fault exactly if the
first `limit` passes all made progress, where the fault says so, or if a replay fails with that fault
before that. In each case it has completed the passes and made the replays that the ending lists, in
that order, and no others; so whether the passes were used up is told by their number. -/
theorem solve_trace (sys : ConstraintSystem σ υ) (order : ReplayOrder) (limit : Nat) (s : σ) :
    let q₀ := sys.firstQueue s
    let s₀ := (sys.takeDiscovered s).2
    let run := sys.solve order limit s
    (∀ ps q t, sys.Passes order q₀ s₀ ps q t → ∀ P ∈ ps, P.queue.Nodup) ∧
    (∀ c, run.result = .ok c ↔ ∃ ps last q t, sys.Converges order limit q₀ s₀ ps last q t ∧
      c = ⟨ps.length + 1, .ofNat (Pass.totalActions (ps ++ [last])), q.length⟩) ∧
    (∀ e, run.result = .error e ↔
      (e = .noFixedPoint limit limit ∧ ∃ ps q t, sys.Exhausts order limit q₀ s₀ ps q t) ∨
        ∃ ps made u t, sys.Fails order limit q₀ s₀ ps made u e t) ∧
    (∀ ps last q t, sys.Converges order limit q₀ s₀ ps last q t →
      run.final = t ∧ run.passes.length = ps.length + 1 ∧
      sys.replayedBy order limit s = Pass.replayed order (ps ++ [last]) ∧
      ∀ u, (u ∈ sys.roots s ∨ u ∈ (sys.takeDiscovered s).1 ∨
        ∃ P ∈ ps ++ [last], u ∈ P.dirty ∨ u ∈ P.found) → u ∈ order.arrange last.queue) ∧
    (∀ ps q t, sys.Exhausts order limit q₀ s₀ ps q t →
      run.final = t ∧ run.passes.length = limit ∧
      sys.replayedBy order limit s = Pass.replayed order ps) ∧
    (∀ ps made u e t, sys.Fails order limit q₀ s₀ ps made u e t →
      run.final = t ∧ run.passes.length = ps.length ∧
      sys.replayedBy order limit s = Pass.replayed order ps ++ made ++ [u]) ∧
    (sys.logged.solve order limit (s, [])).map Prod.fst = run := by
  intro q₀ s₀ run
  have hrun : run = sys.iterate order limit limit 0 q₀ 0 s₀ := solve_eq sys order limit s
  have hlog : sys.replayedBy order limit s =
      (sys.logged.iterate order limit limit 0 q₀ 0 (s₀, [])).final.2 := by
    rw [replayedBy, solve_logged_eq]
  rw [hrun, hlog]
  refine ⟨fun ps q t h => h.nodup (nodup_firstQueue sys s), fun c => iterate_ok_iff,
    fun e => iterate_error_iff,
    fun ps last q t h => ⟨h.iterate.2.1, h.iterate.2.2, ?_, fun u hu => ?_⟩,
    fun ps q t h => ⟨h.iterate.2.1, h.iterate.2.2, ?_⟩,
    fun ps made u e t h => ⟨h.iterate.2.1, h.iterate.2.2, ?_⟩, ?_⟩
  · rw [(h.logged []).iterate.2.1, List.nil_append]
  · have hfirst : u ∈ q₀ ∨ ∃ P ∈ ps ++ [last], u ∈ P.dirty ∨ u ∈ P.found := by
      rcases hu with hu | hu | hu
      · exact .inl (mem_firstQueue.2 (.inl hu))
      · exact .inl (mem_firstQueue.2 (.inr hu))
      · exact .inr hu
    exact mem_arrange.2 (h.mem_last (h.history.mem_queue hfirst))
  · rw [(h.logged []).iterate.2.1, List.nil_append]
  · rw [(h.logged []).iterate.2.1, List.nil_append]
  · rw [← hrun]
    exact ((logged_mirrors sys).solve order limit (s := (s, [])) trivial).1.symm

/-- Three units, of which the first lowers the state by one as long as it can. -/
def countdown : ConstraintSystem Nat (Fin 3) where
  roots _ := [0, 1, 2]
  replay u := fun s =>
    if u = 0 ∧ 0 < s then .ok { dirty := [0], actions := 1 } (s - 1) else .ok { actions := 1 } s
  takeDiscovered s := ([], s)

/-- From 2, the third pass is the first quiet one, and all units are replayed in all passes. -/
theorem countdown_trace : (countdown.solve .reverse 5 2).result = .ok ⟨3, 9, 3⟩ ∧
    countdown.replayedBy .reverse 5 2 = [2, 1, 0, 2, 1, 0, 2, 1, 0] ∧
    ∃ ps last q t, countdown.Converges .reverse 5 [0, 1, 2] 2 ps last q t ∧ ps.length = 2 := by
  have hrun : (countdown.solve .reverse 5 2).result = .ok ⟨3, 9, 3⟩ := by decide
  obtain ⟨ps, last, q, t, h, hc⟩ := ((solve_trace countdown .reverse 5 2).2.1 _).1 hrun
  refine ⟨hrun, by decide, ps, last, q, t, h, ?_⟩
  simpa using (congrArg Converged.passes hc).symm

/-- One unit, whose replay fails with the fault `e`. -/
def failing (e : Fault) : ConstraintSystem Unit Unit where
  roots _ := [()]
  replay _ := throw e
  takeDiscovered s := ([], s)

/-- Four units that find nothing to change and report `n` actions each. -/
def tallying (n : UInt64) : ConstraintSystem Unit Nat where
  roots _ := [0, 1, 2, 3]
  replay _ := return { actions := n }
  takeDiscovered s := ([], s)

/-- **The result alone does not tell how the run went.** A replay that fails in the first pass can give
the fault of a run whose one pass made progress; and four replays that evaluate `2 ^ 62` actions each
count as none. -/
theorem ending_not_told :
    (((failing (.noFixedPoint 1 1)).solve .discovery 1 ()).result = .error (.noFixedPoint 1 1) ∧
      ¬ ∃ ps q t, (failing (.noFixedPoint 1 1)).Exhausts .discovery 1 [()] () ps q t) ∧
    ∃ ps last q t, (tallying (.ofNat (2 ^ 62))).Converges .discovery 1 [0, 1, 2, 3] () ps last q t ∧
      ((tallying (.ofNat (2 ^ 62))).solve .discovery 1 ()).result = .ok ⟨1, 0, 4⟩ ∧
      Pass.totalActions (ps ++ [last]) = 2 ^ 64 := by
  refine ⟨⟨by decide, ?_⟩, [], ⟨[0, 1, 2, 3], List.replicate 4 { actions := .ofNat (2 ^ 62) }, []⟩, [0, 1, 2, 3], (),
    ⟨?_, by simp, ⟨by decide, by simp⟩, Nat.le_refl 1⟩, by decide +kernel, by decide +kernel⟩
  · rintro ⟨ps, q, t, h⟩
    -- no pass was completed
    exact absurd h.iterate.2.2 (by decide)
  · exact .cons rfl (.cons rfl (.cons rfl (.cons rfl (.cons rfl (.nil ()))))) rfl (.nil _ _)

end ConstraintSystem

end TypeFlow
