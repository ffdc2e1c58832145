import Mathlib.Data.Finset.Card
import TypeFlow.Proofs.Causes
import TypeFlow.Proofs.Course
import TypeFlow.Proofs.LastPass

/-!
# The units of a run

Functions are created at any point of a pass, and their bodies reach the queue only
through the list of discovered scopes, which is taken between passes. None is lost on the
way: at the end of a pass the queue holds the global scope, the body of every function
there is, the owners of the slots that grew, and nothing else.

* `mem_dirty_iff`: a replay reports the owners of the slots that it made grow.
* `Step.bodies`: a body is discovered when its function enters the table.
* `process_units`: what was replayed in the last pass, and how many units there are.
-/

namespace TypeFlow

open Relation

variable {p : Program} {w : Bool} {env : Setup} {a b : Analysis} {u : ScopeId}

/-! ## Dirty scopes -/

/-- The scope that owns the slot which has grown. -/
def Moment.owner (m : Moment) : Option ScopeId :=
  m.grown.bind fun x => (m.state.graph.slot? x).map (·.owner)

/-- The owners of the slots that grew. -/
def Moment.owners (ms : List Moment) : List ScopeId := ms.filterMap owner

theorem Moment.mem_owners_cons {m : Moment} {ms : List Moment} :
    u ∈ owners (m :: ms) ↔ m.owner = some u ∨ u ∈ owners ms := by
  simp [owners]

theorem Moment.mem_owners_append {ms ns : List Moment} :
    u ∈ owners (ms ++ ns) ↔ u ∈ owners ms ∨ u ∈ owners ns := by
  rw [owners, List.filterMap_append, List.mem_append]
  rfl

/-- Applying assignments makes the owners of the slots that grow dirty. -/
theorem mem_apply_fst_iff : ∀ (zs : List Assignment) (dirty : List ScopeId) (a : Analysis),
    u ∈ (ScopeGraph.apply zs dirty a.graph).1 ↔ u ∈ dirty ∨ u ∈ Moment.owners (a.assigning zs) := by
  intro zs
  induction zs with
  | nil => simp [ScopeGraph.apply, Analysis.assigning, Moment.owners]
  | cons z rest ih =>
    intro dirty a
    obtain ⟨x, t⟩ := z
    rw [ScopeGraph.apply_cons, Analysis.assigning, Moment.mem_owners_cons]
    have hrest := ih (if (a.graph.unionInto x t).1 then enqueue dirty
      (((a.graph.unionInto x t).2.slot? x).map (·.owner)).toList else dirty)
      { a with graph := (a.graph.unionInto x t).2 }
    rw [hrest, ← or_assoc]
    refine or_congr_left ?_
    unfold Moment.owner
    cases (a.graph.unionInto x t).1 with
    | false => simp
    | true => simp [mem_enqueue, eq_comm]

theorem replayActions_dirty {s : ScopeId} : ∀ (actions : List Action) (dirty dirty' : List ScopeId)
    (a b : Analysis), AnalysisM.replayActions env s actions dirty a = .ok dirty' b →
    (u ∈ dirty' ↔ u ∈ dirty ∨ u ∈ Moment.owners (AnalysisM.moments env s actions a)) := by
  intro actions
  induction actions with
  | nil =>
    intro dirty dirty' a b h
    cases h
    simp [AnalysisM.moments, Moment.owners]
  | cons action rest ih =>
    intro dirty dirty' a b h
    rw [AnalysisM.replayActions_cons] at h
    rw [AnalysisM.moments]
    cases he : AnalysisM.evaluate env s action a with
    | error e c => rw [he] at h; cases h
    | ok zs c =>
      rw [he] at h
      have hsame : c.assign zs dirty = c.assign zs [] := by
        unfold Analysis.assign
        rw [ScopeGraph.apply_snd dirty]
      dsimp only at h ⊢
      rw [hsame] at h
      rw [ih _ _ _ _ h, mem_apply_fst_iff, Moment.mem_owners_cons, Moment.mem_owners_append, or_assoc]
      simp [Moment.owner]

/-- **A replay reports the owners of the slots that it made grow**, and no others. -/
theorem mem_dirty_iff {s : ScopeId} {r : Replay ScopeId} (h : AnalysisM.replay env s a = .ok r b) :
    u ∈ r.dirty ↔
      u ∈ Moment.owners (⟨a.begun, none⟩ :: AnalysisM.moments env s (a.graph.actionsOf s) a.begun) := by
  rw [replayActions_dirty _ _ _ _ _ (AnalysisM.replay_ok h).1, Moment.mem_owners_cons]
  simp [Moment.owner]

/-! ## Discovered bodies -/

/-- The bodies of all functions. -/
def Analysis.bodies (a : Analysis) : List ScopeId := a.functions.map (·.body)

/-- **A body is discovered when its function enters the table.** -/
theorem Step.bodies (h : Step p w a b) :
    ∃ l, b.discovered = a.discovered ++ l ∧ b.bodies = a.bodies ++ l := by
  cases h with
  | @function f d parent statics body object prototype g h decl new hp ho older hs hb =>
    exact ⟨[body], rfl, by simp [Analysis.bodies]⟩
  | object | property | allocate | remember => exact ⟨[], by simp, by simp [Analysis.bodies]⟩

theorem Changes.bodies (h : Changes p a b) :
    ∃ l, b.discovered = a.discovered ++ l ∧ b.bodies = a.bodies ++ l := by
  induction h with
  | refl => exact ⟨[], by simp, by simp⟩
  | tail _ hstep ih =>
    obtain ⟨l, hl, hbodies⟩ := ih
    rcases hstep with hstep | ⟨x, t, -, rfl⟩ | rfl
    · obtain ⟨m, hm, hmore⟩ := hstep.bodies
      exact ⟨l ++ m, by rw [hm, hl, List.append_assoc], by rw [hmore, hbodies, List.append_assoc]⟩
    · exact ⟨l, hl, hbodies⟩
    · exact ⟨l, hl, hbodies⟩

/-! ## What the queue holds -/

/-- **The units that a run has to replay**: the global scope, the bodies of the functions and the
owners of the slots that grew. -/
def Analysis.IsUnit (a : Analysis) (ms : List Moment) (u : ScopeId) : Prop :=
  u = .global ∨ u ∈ a.bodies ∨ u ∈ Moment.owners ms

/-- What is queued, reported dirty or discovered is what has to be replayed. -/
structure Complete (env : Setup) (q dirty : List ScopeId) (s : Analysis × List Moment) : Prop where
  valid : s.1.Valid env.program
  units : ∀ u, (u ∈ q ∨ u ∈ dirty ∨ u ∈ s.1.discovered) ↔ s.1.IsUnit s.2 u

variable {q dirty : List ScopeId} {s t : Analysis × List Moment}

theorem Complete.replay (hs : Complete env q dirty s) {v : ScopeId} {r : Replay ScopeId}
    (h : env.recorder.replay v s = .ok r t) : Complete env q (dirty ++ r.dirty) t := by
  obtain ⟨hreplay, hlog⟩ := ConstraintSystem.recorded_replay_ok h
  have hreplay : AnalysisM.replay env v s.1 = .ok r t.1 := hreplay
  have hchanges := ((AnalysisM.replay_advances hs.valid v).of_ok hreplay).1
  obtain ⟨l, hdiscovered, hbodies⟩ := Changes.bodies hchanges
  refine ⟨Changes.valid hchanges hs.valid, fun u => ?_⟩
  have hold := hs.units u
  unfold Analysis.IsUnit at hold ⊢
  rw [hdiscovered, hbodies, hlog, Moment.mem_owners_append, ← mem_dirty_iff hreplay]
  simp only [List.mem_append]
  grind

theorem Complete.replays {us : List ScopeId} {rs : List (Replay ScopeId)}
    (h : env.recorder.Replays us s rs t) (hs : Complete env q dirty s) :
    Complete env q (dirty ++ rs.flatMap (·.dirty)) t := by
  induction h generalizing dirty with
  | nil => simpa using hs
  | @cons v us s t w r rs replay rest ih =>
    have hrest := ih (hs.replay replay)
    rwa [List.append_assoc] at hrest

/-- Between passes, all that has to be replayed is queued. -/
theorem Complete.passes {order : ReplayOrder} {q' : List ScopeId} {ps : List (Pass ScopeId)}
    (h : env.recorder.Passes order q s ps q' t) (hs : Complete env q [] s)
    (hwait : s.1.discovered = []) : Complete env q' [] t ∧ t.1.discovered = [] := by
  induction h with
  | nil => exact ⟨hs, hwait⟩
  | @cons P ps q q' s t v w queue replays taken rest ih =>
    subst queue
    have hend := hs.replays replays
    have hfound : t.1.discovered = P.found := congrArg Prod.fst taken
    have hv : ({ t.1 with discovered := [] }, t.2) = v := congrArg Prod.snd taken
    subst hv
    refine ih ⟨hend.valid.congr rfl rfl rfl rfl rfl, fun u => ?_⟩ rfl
    have hunits := hend.units u
    rw [List.nil_append, hfound] at hunits
    refine Iff.trans (b := u ∈ P.queue ∨ u ∈ P.dirty ∨ u ∈ P.found) ?_ hunits
    rw [Pass.mem_next]
    simp

/-! ## Runs that converged -/

namespace ConstraintSystem

variable {σ τ υ : Type} {sys : ConstraintSystem σ υ} {note : υ → σ → List τ}

theorem Replays.length_eq {s t : σ} {us : List υ} {rs : List (Replay υ)} (h : sys.Replays us s rs t) :
    rs.length = us.length := by
  induction h with
  | nil => rfl
  | cons replay rest ih => exact congrArg (· + 1) ih

theorem Replays.unrecorded {s t : σ × List τ} {us : List υ} {rs : List (Replay υ)}
    (h : (sys.recorded note).Replays us s rs t) : sys.Replays us s.1 rs t.1 := by
  induction h with
  | nil => exact .nil _
  | cons replay rest ih => exact .cons (recorded_replay_ok replay).1 ih

variable [DecidableEq υ] {order : ReplayOrder} {limit : Nat} {q q' : List υ}

/-- No unit is queued twice for the next pass either. -/
theorem Passes.nodup_queue {s t : σ} {ps : List (Pass υ)} (h : sys.Passes order q s ps q' t)
    (hq : q.Nodup) : q'.Nodup := by
  induction h with
  | nil => exact hq
  | @cons P ps q q' s t v w queue replays taken rest ih =>
    subst queue
    refine ih ?_
    rw [Pass.next_eq]
    exact nodup_enqueue hq _

theorem Passes.unrecorded {s t : σ × List τ} {ps : List (Pass υ)}
    (h : (sys.recorded note).Passes order q s ps q' t) : sys.Passes order q s.1 ps q' t.1 := by
  induction h with
  | nil => exact .nil _ _
  | @cons P ps q q' s t v w queue replays taken rest ih =>
    have htaken : sys.takeDiscovered t.1 = (P.found, v.1) := by
      have hfound : (sys.takeDiscovered t.1).1 = P.found := congrArg Prod.fst taken
      have hv : (sys.takeDiscovered t.1).2 = v.1 := congrArg (·.2.1) taken
      rw [← hfound, ← hv]
    exact .cons queue replays.unrecorded htaken ih

/-- A run that was recorded is a run. -/
theorem Converges.unrecorded {s t : σ × List τ} {ps : List (Pass υ)} {last : Pass υ}
    (h : (sys.recorded note).Converges order limit q s ps last q' t) :
    sys.Converges order limit q s.1 ps last q' t.1 :=
  ⟨h.history.unrecorded, h.progress, h.quiet, h.within⟩

/-- Every unit that is queued at the end was replayed in the last pass, and reported no change. -/
theorem Converges.reported {s t : σ} {ps : List (Pass υ)} {last : Pass υ}
    (h : sys.Converges order limit q s ps last q' t) {u : υ} (hu : u ∈ q') :
    ∃ r, (u, r) ∈ (order.arrange last.queue).zip last.reports ∧ r.changed = false := by
  have hmem : u ∈ order.arrange last.queue := mem_arrange.2 (h.mem_last hu)
  obtain ⟨q₁, t₁, -, hlast⟩ := h.history.split
  cases hlast with
  | cons queue replays taken rest =>
    subst queue
    obtain ⟨i, hi, rfl⟩ := List.mem_iff_getElem.1 hmem
    have hi' : i < last.reports.length := by rwa [replays.length_eq]
    refine ⟨last.reports[i], ?_, h.quiet.1 _ (List.getElem_mem hi')⟩
    rw [← List.getElem_zip (h := by rw [List.length_zip]; omega)]
    exact List.getElem_mem _

end ConstraintSystem

/-- Processing that converged was prepared and solved. -/
theorem process_ok {ambient body : List Stmt} {c : Converged} (h : env.process ambient body a = .ok c b) :
    ∃ d, AnalysisM.prepare env ambient body a = .ok ⟨⟩ d ∧
      (env.system.solve env.config.order env.config.maxPasses d).result = .ok c ∧
      b = { (env.system.solve env.config.order env.config.maxPasses d).final with converged := some c } := by
  unfold Setup.process Setup.trace at h
  dsimp only at h
  cases hp : AnalysisM.prepare env ambient body a with
  | error e d => rw [hp] at h; cases h
  | ok u d =>
    rw [hp] at h
    dsimp only at h
    cases hr : (env.system.solve env.config.order env.config.maxPasses d).result with
    | error e => rw [hr] at h; cases h
    | ok c' =>
      rw [hr] at h
      cases h
      exact ⟨d, rfl, hr, rfl⟩

/-- Preparation creates no functions. -/
theorem prepare_fresh {ambient body : List Stmt} {u : Unit}
    (h : AnalysisM.prepare env ambient body .fresh = .ok u b) :
    b.Valid env.program ∧ b.functions = [] ∧ b.discovered = [] := by
  have hvalid := (AnalysisM.prepare_final (Analysis.fresh_valid env.program) ambient body).2
  rw [finalState_ok h] at hvalid
  obtain ⟨g, -, rfl⟩ := prepare_fresh_ok h
  exact ⟨hvalid, rfl, rfl⟩

/-- Before the first pass, the global scope is all that has to be replayed. -/
theorem Complete.start {ambient body : List Stmt} {u : Unit}
    (h : AnalysisM.prepare env ambient body .fresh = .ok u b) :
    Complete env (env.recorder.firstQueue (b, [])) [] (env.recorder.takeDiscovered (b, [])).2 := by
  obtain ⟨hvalid, hfunctions, hdiscovered⟩ := prepare_fresh h
  refine ⟨hvalid.congr rfl rfl rfl rfl rfl, fun u => ?_⟩
  have hroots : u ∈ env.recorder.firstQueue (b, []) ↔ u ∈ [ScopeId.global] ∨ u ∈ b.discovered :=
    ConstraintSystem.mem_firstQueue
  have hbodies : (env.recorder.takeDiscovered (b, [])).2.1.bodies = [] := by
    change b.functions.map _ = []
    rw [hfunctions]
    rfl
  unfold Analysis.IsUnit
  rw [hroots, hdiscovered, hbodies]
  change _ ∨ _ ∨ u ∈ [] ↔ _ ∨ _ ∨ u ∈ []
  simp

/-- Processing that converged did so by passes that were recorded. -/
theorem process_recorded {ambient body : List Stmt} {c : Converged}
    (h : env.process ambient body a = .ok c b) :
    ∃ d ps last q t, AnalysisM.prepare env ambient body a = .ok ⟨⟩ d ∧
      env.recorder.Converges env.config.order env.config.maxPasses (env.recorder.firstQueue (d, []))
        (env.recorder.takeDiscovered (d, [])).2 ps last q t ∧
      c = ⟨ps.length + 1, .ofNat (Pass.totalActions (ps ++ [last])), q.length⟩ ∧
      b = { t.1 with converged := some c } ∧ env.moments ambient body a = ⟨d, none⟩ :: t.2 := by
  obtain ⟨d, hprepare, hresult, rfl⟩ := process_ok h
  have hmirror : env.recorder.Mirrors env.system Prod.fst fun _ => True :=
    ConstraintSystem.recorded_mirrors (fun _ _ _ => trivial) fun _ _ => trivial
  have hrun := (hmirror.solve env.config.order env.config.maxPasses (s := (d, [])) trivial).1
  have hresult : (env.recorder.solve env.config.order env.config.maxPasses (d, [])).result = .ok c := by
    rw [hrun] at hresult
    exact hresult
  rw [ConstraintSystem.solve_eq] at hresult
  obtain ⟨ps, last, q, t, hconverges, hc⟩ := ConstraintSystem.iterate_ok_iff.1 hresult
  have hfinal : (env.recorder.solve env.config.order env.config.maxPasses (d, [])).final = t := by
    rw [ConstraintSystem.solve_eq, hconverges.iterate.2.1]
  refine ⟨d, ps, last, q, t, hprepare, hconverges, hc, ?_, ?_⟩
  · rw [hrun, ← hfinal]
    rfl
  · unfold Setup.moments
    rw [hprepare, ← hfinal]

/-- **No function body is skipped.** When processing has converged, the global scope and the body of
every function in the table were replayed in the last pass and reported no change there; and the
units that are counted are the global scope, the bodies, and the scopes that own a slot which an
assignment made grow. -/
theorem process_units {ambient body : List Stmt} {c : Converged}
    (h : env.process ambient body .fresh = .ok c a) :
    (∃ b ps last q t, AnalysisM.prepare env ambient body .fresh = .ok ⟨⟩ b ∧
      env.system.Converges env.config.order env.config.maxPasses (env.system.firstQueue b)
        (env.system.takeDiscovered b).2 ps last q t ∧
      c.passes = ps.length + 1 ∧ a = { t with converged := some c } ∧
      ∀ u, u = .global ∨ (∃ e ∈ a.functions, e.body = u) →
        ∃ r, (u, r) ∈ (env.config.order.arrange last.queue).zip last.reports ∧ r.changed = false) ∧
    c.units = (.global :: a.functions.map (·.body) ++
      Moment.owners (env.moments ambient body .fresh)).toFinset.card := by
  obtain ⟨b, ps, last, q, t, hprepare, hconverges, rfl, hfinal, hmoments⟩ := process_recorded h
  obtain ⟨hend, hwait⟩ := (Complete.start hprepare).passes hconverges.history rfl
  have hqueue (u : ScopeId) : u ∈ q ↔ u = .global ∨ u ∈ a.functions.map (·.body) ∨
      u ∈ Moment.owners (env.moments ambient body .fresh) := by
    have hunits := hend.units u
    rw [hwait] at hunits
    rw [hmoments, hfinal, Moment.mem_owners_cons]
    simpa [Moment.owner, Analysis.IsUnit, Analysis.bodies] using hunits
  refine ⟨⟨b, ps, last, q, t.1, hprepare, hconverges.unrecorded, rfl, hfinal, fun u hu => ?_⟩, ?_⟩
  · refine hconverges.unrecorded.reported ((hqueue u).2 ?_)
    rcases hu with hu | ⟨e, he, hu⟩
    · exact .inl hu
    · exact .inr (.inl (List.mem_map.2 ⟨e, he, hu⟩))
  · have hnodup := hconverges.history.nodup_queue (ConstraintSystem.nodup_firstQueue _ _)
    have hsame : q.toFinset = (.global :: a.functions.map (·.body) ++
        Moment.owners (env.moments ambient body .fresh)).toFinset := by
      ext u
      rw [List.mem_toFinset, List.mem_toFinset, hqueue u, List.cons_append, List.mem_cons, List.mem_append]
    rw [← hsame, List.toFinset_card_of_nodup hnodup]

/-- A function `f`, in whose body a constructor `G` is declared and used. -/
def lateBody : Setup where
  program := {
    shapes := [{ name := "C", kind := .constructed, properties := ["x"] }]
    functions := [
      { name := "f", body := some [.function ⟨1⟩, .expr ⟨.construct ⟨.name "G", none⟩ [], none⟩] },
      { name := "G", objectShape := some ⟨0⟩,
        body := some [.expr ⟨.assign ⟨.prop ⟨.this, none⟩ "x", none⟩ ⟨.name "f", none⟩, none⟩] }]
    body := [.function ⟨0⟩] }

/-- The body of `G` is found in the second of four passes and replayed in the last. The fourth unit
is the scope of the object. -/
theorem lateBody_units :
    (lateBody.trace [] lateBody.program.body .fresh).result = .ok ⟨4, 12, 4⟩ ∧
    (∃ b ps last q t, lateBody.system.Converges .discovery lateBody.config.maxPasses
      (lateBody.system.firstQueue b) (lateBody.system.takeDiscovered b).2 ps last q t ∧ ps.length = 3 ∧
      ∃ r, (⟨5⟩, r) ∈ last.queue.zip last.reports ∧ r.changed = false) ∧
    4 = (.global :: (lateBody.trace [] lateBody.program.body .fresh).final.functions.map (·.body) ++
      Moment.owners (lateBody.moments [] lateBody.program.body .fresh)).toFinset.card := by
  have hresult : (lateBody.trace [] lateBody.program.body .fresh).result = .ok ⟨4, 12, 4⟩ := by
    decide +kernel
  obtain ⟨⟨b, ps, last, q, t, -, hconverges, hpasses, -, hreplayed⟩, hunits⟩ :=
    process_units (process_of_ok hresult)
  have hbody : ((lateBody.trace [] lateBody.program.body .fresh).final.functions.map (·.body))[1]? =
      some ⟨5⟩ := by decide +kernel
  obtain ⟨e, he, hbody⟩ := List.mem_map.1 (List.mem_of_getElem? hbody)
  exact ⟨hresult, ⟨b, ps, last, q, t, hconverges, (Nat.succ.inj hpasses).symm,
    hreplayed ⟨5⟩ (.inr ⟨e, he, hbody⟩)⟩, hunits⟩

end TypeFlow
