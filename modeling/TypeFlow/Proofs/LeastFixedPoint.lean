import Mathlib.Data.Finset.Insert
import Mathlib.Data.Finset.Lattice.Basic
import Mathlib.Order.Bounds.Basic
import TypeFlow.Proofs.Passes

/-!
# Least fixed points

A constraint system is **monotone** if its units are fixed and replaying the unit `u` joins
`f u s` into the state `s`, for a monotone `f u`. Within a pass each replay sees what the ones
before it added, so the passes are not iterates of one operator. What carries the argument is
that a replay never leaves what lies below a **closed** state, one that no unit adds to.

* `solve_isLeast`: a run of a monotone system that converges ends in the least closed state above
  the one it started from, whatever the order of the units.
-/

namespace TypeFlow

namespace ConstraintSystem

variable {σ υ : Type} [SemilatticeSup σ]

/-- **A monotone system**: nothing is discovered, the dirty units are among the roots, and
replaying a root `u` joins `f u s` into the state, which it reports exactly if the state
changes. -/
structure IsMonotone (sys : ConstraintSystem σ υ) (roots : List υ) (f : υ → σ → σ) : Prop where
  roots_eq : ∀ s, sys.roots s = roots
  nothing_found : ∀ s, sys.takeDiscovered s = ([], s)
  monotone : ∀ u ∈ roots, Monotone (f u)
  joined : ∀ u ∈ roots, ∀ s r t, sys.replay u s = .ok r t → t = s ⊔ f u s
  dirty_roots : ∀ u ∈ roots, ∀ s r t, sys.replay u s = .ok r t → ∀ v ∈ r.dirty, v ∈ roots
  changed_iff : ∀ u ∈ roots, ∀ s r t, sys.replay u s = .ok r t → (r.changed = true ↔ t ≠ s)

/-- **The closed states** above `s`: those to which no root adds anything. -/
def closedAbove (roots : List υ) (f : υ → σ → σ) (s : σ) : Set σ :=
  {t | s ≤ t ∧ ∀ u ∈ roots, f u t ≤ t}

theorem closedAbove_congr {roots roots' : List υ} (h : ∀ u, u ∈ roots' ↔ u ∈ roots) (f : υ → σ → σ)
    (s : σ) : closedAbove roots' f s = closedAbove roots f s := by
  ext t
  simp only [closedAbove, Set.mem_ofPred_eq, h]

variable {sys : ConstraintSystem σ υ} {roots : List υ} {f : υ → σ → σ} {order : ReplayOrder}
  {limit : Nat} {s t : σ}

namespace IsMonotone

/-- Replays raise the state, but not above a closed state. -/
theorem replays_le (h : sys.IsMonotone roots f) {us : List υ} {rs : List (Replay υ)}
    (hr : sys.Replays us s rs t) (hus : ∀ u ∈ us, u ∈ roots) :
    s ≤ t ∧ ∀ b ∈ closedAbove roots f s, t ≤ b := by
  induction hr with
  | nil s => exact ⟨le_refl s, fun b hb => hb.1⟩
  | @cons u us s t v r rs replay rest ih =>
    have hu : u ∈ roots := hus u (List.mem_cons_self ..)
    have ht : t = s ⊔ f u s := h.joined u hu s r t replay
    obtain ⟨htv, hleast⟩ := ih fun v hv => hus v (List.mem_cons_of_mem _ hv)
    have hst : s ≤ t := by
      rw [ht]
      exact le_sup_left
    refine ⟨hst.trans htv, fun b hb => hleast b ⟨?_, hb.2⟩⟩
    -- what `u` adds to `s` it adds to `b` as well, and `b` is closed
    have hadded : f u s ≤ b := (h.monotone u hu hb.1).trans (hb.2 u hu)
    rw [ht]
    exact sup_le hb.1 hadded

/-- Replays that report no change leave the state as it is, and no replayed unit adds to it. -/
theorem replays_quiet (h : sys.IsMonotone roots f) {us : List υ} {rs : List (Replay υ)}
    (hr : sys.Replays us s rs t) (hus : ∀ u ∈ us, u ∈ roots) (hquiet : ∀ r ∈ rs, r.changed = false) :
    t = s ∧ ∀ u ∈ us, f u s ≤ s := by
  induction hr with
  | nil s => exact ⟨rfl, fun u hu => absurd hu List.not_mem_nil⟩
  | @cons u us s t v r rs replay rest ih =>
    have hu : u ∈ roots := hus u (List.mem_cons_self ..)
    have hchanged : r.changed = false := hquiet r (List.mem_cons_self ..)
    have hts : t = s := by
      by_contra hne
      rw [(h.changed_iff u hu s r t replay).2 hne] at hchanged
      cases hchanged
    have hadded : f u s ≤ s := by
      have hjoined := h.joined u hu s r t replay
      rw [hts] at hjoined
      exact sup_eq_left.1 hjoined.symm
    subst hts
    obtain ⟨hv, hrest⟩ := ih (fun v hv => hus v (List.mem_cons_of_mem _ hv))
      fun r hr => hquiet r (List.mem_cons_of_mem _ hr)
    exact ⟨hv, List.forall_mem_cons.2 ⟨hadded, hrest⟩⟩

theorem dirty_subset (h : sys.IsMonotone roots f) {us : List υ} {rs : List (Replay υ)}
    (hr : sys.Replays us s rs t) (hus : ∀ u ∈ us, u ∈ roots) : ∀ r ∈ rs, ∀ v ∈ r.dirty, v ∈ roots := by
  induction hr with
  | nil => exact fun r hr => absurd hr List.not_mem_nil
  | @cons u us s t v r rs replay rest ih =>
    refine List.forall_mem_cons.2 ⟨?_, ih fun v hv => hus v (List.mem_cons_of_mem _ hv)⟩
    exact h.dirty_roots u (hus u (List.mem_cons_self ..)) s r t replay

variable [DecidableEq υ]

/-- The queue of the next pass holds the roots and nothing else. -/
theorem mem_next (h : sys.IsMonotone roots f) {P : Pass υ} {v : σ} (hq : ∀ u, u ∈ P.queue ↔ u ∈ roots)
    (hr : sys.Replays (order.arrange P.queue) s P.reports t)
    (htaken : sys.takeDiscovered t = (P.found, v)) (u : υ) : u ∈ P.next ↔ u ∈ roots := by
  have harranged : ∀ u ∈ order.arrange P.queue, u ∈ roots := fun u hu => (hq u).1 (mem_arrange.1 hu)
  have hfound : P.found = [] := by
    rw [h.nothing_found] at htaken
    exact (congrArg Prod.fst htaken).symm
  rw [Pass.mem_next, hfound]
  constructor
  · rintro (hu | hu | hu)
    · exact (hq u).1 hu
    · obtain ⟨r, hmem, hu⟩ := List.mem_flatMap.1 hu
      exact h.dirty_subset hr harranged r hmem u hu
    · exact absurd hu List.not_mem_nil
  · exact fun hu => .inl ((hq u).2 hu)

/-- **Passes raise the state, but not above a closed state**, and the roots stay queued. -/
theorem passes_le (h : sys.IsMonotone roots f) {ps : List (Pass υ)} {q q' : List υ}
    (hps : sys.Passes order q s ps q' t) (hq : ∀ u, u ∈ q ↔ u ∈ roots) :
    s ≤ t ∧ (∀ b ∈ closedAbove roots f s, t ≤ b) ∧ ∀ u, u ∈ q' ↔ u ∈ roots := by
  induction hps with
  | nil q s => exact ⟨le_refl s, fun b hb => hb.1, hq⟩
  | @cons P ps q q' s t v w queue replays taken rest ih =>
    subst queue
    obtain ⟨hst, hleast⟩ := h.replays_le replays fun u hu => (hq u).1 (mem_arrange.1 hu)
    have htv : v = t := by
      rw [h.nothing_found] at taken
      exact (congrArg Prod.snd taken).symm
    obtain ⟨hvw, hrest, hq'⟩ := ih (h.mem_next hq replays taken)
    rw [htv] at hvw hrest
    exact ⟨hst.trans hvw, fun b hb => hrest b ⟨hleast b hb, hb.2⟩, hq'⟩

/-- After a quiet pass the state is closed. -/
theorem isLeast_of_converges (h : sys.IsMonotone roots f) {ps : List (Pass υ)} {last : Pass υ}
    {q q' : List υ} (hc : sys.Converges order limit q s ps last q' t) (hq : ∀ u, u ∈ q ↔ u ∈ roots) :
    IsLeast (closedAbove roots f s) t := by
  obtain ⟨q₁, t₁, hps, hlast⟩ := hc.history.split
  obtain ⟨hst₁, hleast, hq₁⟩ := h.passes_le hps hq
  cases hlast with
  | @cons _ _ _ _ _ t₂ v _ queue replays taken rest =>
    subst queue
    cases rest
    obtain ⟨ht₂, hclosed⟩ := h.replays_quiet replays (fun u hu => (hq₁ u).1 (mem_arrange.1 hu)) hc.quiet.1
    have ht : t = t₁ := by
      rw [h.nothing_found, ht₂] at taken
      exact (congrArg Prod.snd taken).symm
    subst ht
    exact ⟨⟨hst₁, fun u hu => hclosed u (mem_arrange.2 ((hq₁ u).2 hu))⟩, fun b hb => hleast b hb⟩

theorem isLeast_of_ok (h : sys.IsMonotone roots f) {c : Converged}
    (hc : (sys.solve order limit s).result = .ok c) :
    IsLeast (closedAbove roots f s) (sys.solve order limit s).final := by
  rw [solve_eq, h.nothing_found] at hc ⊢
  obtain ⟨ps, last, q, t, hconverges, -⟩ := iterate_ok_iff.1 hc
  rw [hconverges.iterate.2.1]
  refine h.isLeast_of_converges hconverges fun u => ?_
  rw [mem_firstQueue, h.roots_eq, h.nothing_found]
  exact or_iff_left List.not_mem_nil

end IsMonotone

variable [DecidableEq υ]

/-- **The solver computes least fixed points.** A run of a monotone system that converges ends in
the least closed state above the one it started from. So does a run of any other system with the
same units in any order, with any order of replays: where both converge, they end in the same
state. -/
theorem solve_isLeast {c : Converged} (h : sys.IsMonotone roots f)
    (hc : (sys.solve order limit s).result = .ok c) :
    IsLeast (closedAbove roots f s) (sys.solve order limit s).final ∧
      ∀ (sys' : ConstraintSystem σ υ) (roots' : List υ) (order' : ReplayOrder) (limit' : Nat)
        (c' : Converged), roots'.Perm roots → sys'.IsMonotone roots' f →
        (sys'.solve order' limit' s).result = .ok c' →
        (sys'.solve order' limit' s).final = (sys.solve order limit s).final := by
  have hleast := h.isLeast_of_ok hc
  refine ⟨hleast, fun sys' roots' order' limit' c' hperm h' hc' => ?_⟩
  have hleast' := h'.isLeast_of_ok hc'
  rw [closedAbove_congr fun u => hperm.mem_iff] at hleast'
  exact hleast'.unique hleast

/-! ## Marks that spread along edges -/

/-- What an edge adds: it marks its target if its source is marked. -/
def spread {n : Nat} (e : Fin n × Fin n) (s : Finset (Fin n)) : Finset (Fin n) :=
  if e.1 ∈ s then {e.2} else ∅

/-- The edges of a graph, each of which spreads marks. -/
def spreading {n : Nat} (edges : List (Fin n × Fin n)) :
    ConstraintSystem (Finset (Fin n)) (Fin n × Fin n) where
  roots _ := edges
  replay e := fun s =>
    .ok { dirty := if s ⊔ spread e s = s then [] else [e], actions := 1 } (s ⊔ spread e s)
  takeDiscovered s := ([], s)

theorem spread_monotone {n : Nat} (e : Fin n × Fin n) : Monotone (spread e) := by
  intro s t hst
  by_cases hs : e.1 ∈ s
  · rw [spread, spread, if_pos hs, if_pos (hst hs)]
  · rw [spread, if_neg hs]
    exact Finset.empty_subset _

theorem spreading_isMonotone {n : Nat} (edges : List (Fin n × Fin n)) :
    (spreading edges).IsMonotone edges spread where
  roots_eq _ := rfl
  nothing_found _ := rfl
  monotone e _ := spread_monotone e
  joined e _ s r t h := by
    cases h
    rfl
  dirty_roots e he s r t h := by
    cases h
    intro v hv
    by_cases hs : s ⊔ spread e s = s
    · simp [hs] at hv
    · simp only [if_neg hs, List.mem_singleton] at hv
      rwa [hv]
  changed_iff e _ s r t h := by
    cases h
    by_cases hs : s ⊔ spread e s = s <;> simp [Replay.changed, hs]

/-- An edge from 0 to 1 and one from 1 to 2. -/
def chain : List (Fin 4 × Fin 4) := [(0, 1), (1, 2)]

/-- A mark at 0 spreads along the chain to 1 and 2, and not to 3. With the chain written backwards
the solver takes one pass more to the same state. -/
theorem chain_isLeast : ((spreading chain).solve .discovery 5 {0}).result = .ok ⟨2, 4, 2⟩ ∧
    ((spreading chain.reverse).solve .discovery 5 {0}).result = .ok ⟨3, 6, 2⟩ ∧
    IsLeast (closedAbove chain spread {0}) ((spreading chain).solve .discovery 5 {0}).final ∧
    ((spreading chain).solve .discovery 5 {0}).final = {0, 1, 2} ∧
    ((spreading chain.reverse).solve .discovery 5 {0}).final =
      ((spreading chain).solve .discovery 5 {0}).final := by
  have hforward : ((spreading chain).solve .discovery 5 {0}).result = .ok ⟨2, 4, 2⟩ := by decide
  have hbackward : ((spreading chain.reverse).solve .discovery 5 {0}).result = .ok ⟨3, 6, 2⟩ := by
    decide
  obtain ⟨hleast, hsame⟩ := solve_isLeast (spreading_isMonotone chain) hforward
  refine ⟨hforward, hbackward, hleast, by decide, ?_⟩
  exact hsame _ _ _ _ _ (List.reverse_perm chain) (spreading_isMonotone _) hbackward

end ConstraintSystem

end TypeFlow
