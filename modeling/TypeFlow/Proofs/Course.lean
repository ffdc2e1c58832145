import TypeFlow.Proofs.Operations
import TypeFlow.Proofs.Passes

/-!
# The course of an analysis

Whatever is done with an analysis, its state changes in three ways: by a step, by a join,
or by building on the graph without touching the tables (`Change`). The **course** of a run lists
its states: the state after preparation, those in which replays begin, those after every evaluation of an
action and after every single assignment, and the final one.

* `Evolves`: any number of changes.
* `Setup.moments`: the course of a run, with the slots that assignments made grow.
* `Governs.states`: what every evaluation and every assignment keeps holds along the course.
* `Operation.after_evolves`: every operation evolves the state that it finds.
* `Occurs`: the states that an analysis can be in at any point.
* `memory_transparent`: an analysis that remembers narrowed types goes through the same states as
  one that does not, and all that it ever remembers is up to date.
-/

namespace TypeFlow

open Relation

variable {p : Program} {env : Setup} {a b c : Analysis}

/-! ## Changes -/

/-- **The graph is extended** by scopes, global names and actions, and the tables stay. -/
structure Analysis.Extends (a b : Analysis) : Prop where
  built : ∃ E, a.graph.Builds (· = .global) E b.graph
  functions : b.functions = a.functions
  objects : b.objects = a.objects
  allocated : b.allocated = a.allocated
  narrowings : b.narrowings = a.narrowings

/-- **One change** of the state of an analysis. -/
inductive Change (p : Program) (a b : Analysis) : Prop
  | step (h : Step p true a b)
  | join (h : a.Joins b)
  | extend (h : a.Extends b)

/-- Any number of changes. -/
abbrev Evolves (p : Program) : Analysis → Analysis → Prop := ReflTransGen (Change p)

instance : IsPreorder Analysis (Evolves p) where
  refl _ := .refl
  trans _ _ _ := .trans

theorem Analysis.Leaves.extends (h : a.Leaves b) : a.Extends b := by
  obtain ⟨g, hg, rfl⟩ := h
  exact ⟨⟨_, hg⟩, rfl, rfl, rfl, rfl⟩

/-- What is waiting to be replayed, what is marked and whether the run converged is no part of the graph or
the tables. -/
theorem Analysis.extends_book (a : Analysis) (found : List ScopeId) (widened : Bool) (done : Option Converged) :
    a.Extends { a with discovered := found, widened, converged := done } :=
  ⟨⟨fun _ => False, refl_of _ a.graph⟩, rfl, rfl, rfl, rfl⟩

theorem Analysis.Extends.grows (h : a.Extends b) : a.Grows b := by
  obtain ⟨E, hg⟩ := h.built
  exact ⟨hg.grows, h.functions ▸ List.prefix_rfl, h.objects ▸ List.prefix_rfl,
    h.allocated ▸ List.prefix_rfl⟩

theorem Change.grows (h : Change p a b) : a.Grows b := by
  cases h with
  | step h => exact h.grows
  | join h => exact h.grows
  | extend h => exact h.grows

theorem Change.valid (h : Change p a b) (hv : a.Valid p) : b.Valid p := by
  cases h with
  | step h => exact h.valid hv
  | join h => exact hv.joins h
  | extend h =>
    obtain ⟨E, hg⟩ := h.built
    exact (hv.build hg).congr rfl h.functions h.objects h.allocated h.narrowings

theorem Evolves.grows (h : Evolves p a b) : a.Grows b := by
  induction h with
  | refl => exact refl_of _ a
  | tail _ hbc ih => exact trans_of Analysis.Grows ih hbc.grows

theorem Evolves.valid (h : Evolves p a b) (hv : a.Valid p) : b.Valid p := by
  induction h with
  | refl => exact hv
  | tail _ hbc ih => exact hbc.valid ih

theorem Changes.evolves (h : Changes p a b) : Evolves p a b := by
  induction h with
  | refl => exact .refl
  | tail _ hbc ih =>
    refine ih.tail ?_
    rcases hbc with hstep | hjoin | rfl
    · exact .step hstep
    · exact .join hjoin
    · exact .extend (Analysis.extends_book _ _ false _)

/-- However a computation that advances ends, its state has evolved. -/
theorem Advances.evolves {α : Type} {x y : AnalysisM α} (h : Advances p x y a) :
    Evolves p a (finalState x a) := by
  cases hx : x a with
  | ok v b =>
    rw [finalState_ok hx]
    exact Changes.evolves (h.of_ok hx).1
  | error e b =>
    obtain ⟨⟨c, hac, hcb⟩, -⟩ := h.of_error hx
    rw [finalState_error hx]
    exact (Changes.evolves hac).tail (.extend hcb.extends)

theorem prepare_extends (env : Setup) (ambient body : List Stmt) (a : Analysis) :
    a.Extends (finalState (AnalysisM.prepare env ambient body) a) := by
  have hb := AnalysisM.extract_builds (D := (· = .global)) (E := (· = .global)) rfl rfl env.program
    ambient body a.graph
  unfold finalState at hb ⊢
  rw [AnalysisM.prepare_apply]
  cases hp : a.processed with
  | true => exact ⟨⟨fun _ => False, refl_of _ a.graph⟩, rfl, rfl, rfl, rfl⟩
  | false =>
    rw [if_neg Bool.false_ne_true]
    cases hx : extract env.program ambient body a.graph with
    | ok u g =>
      rw [hx] at hb
      exact ⟨⟨_, hb⟩, rfl, rfl, rfl, rfl⟩
    | error e g =>
      rw [hx] at hb
      exact ⟨⟨_, hb⟩, rfl, rfl, rfl, rfl⟩

/-- A fresh state that was prepared differs from a fresh one in its graph only. -/
theorem prepare_fresh_ok {ambient body : List Stmt} {u : Unit}
    (h : AnalysisM.prepare env ambient body .fresh = .ok u b) :
    ∃ g, extract env.program ambient body Analysis.fresh.graph = .ok ⟨⟩ g ∧
      b = { Analysis.fresh with graph := g, processed := true } := by
  have hnew : ¬ Analysis.fresh.processed = true := Bool.false_ne_true
  rw [AnalysisM.prepare_apply, if_neg hnew] at h
  cases hx : extract env.program ambient body Analysis.fresh.graph with
  | error e g => rw [hx] at h; cases h
  | ok v g =>
    rw [hx] at h
    cases h
    exact ⟨g, rfl, rfl⟩

/-! ## Recording a run -/

section Recording

variable {σ τ υ : Type} [DecidableEq υ]

namespace ConstraintSystem

/-- The same system, which also writes down what `note` says about each replay. -/
def recorded (sys : ConstraintSystem σ υ) (note : υ → σ → List τ) :
    ConstraintSystem (σ × List τ) υ where
  roots s := sys.roots s.1
  replay u := fun s =>
    match sys.replay u s.1 with
    | .ok r t => .ok r (t, s.2 ++ note u s.1)
    | .error e t => .error e (t, s.2 ++ note u s.1)
  takeDiscovered s := ((sys.takeDiscovered s.1).1, ((sys.takeDiscovered s.1).2, s.2))

variable {sys : ConstraintSystem σ υ} {note : υ → σ → List τ} {s t : σ × List τ}

omit [DecidableEq υ] in
theorem recorded_replay_ok {u : υ} {r : Replay υ} (h : (sys.recorded note).replay u s = .ok r t) :
    sys.replay u s.1 = .ok r t.1 ∧ t.2 = s.2 ++ note u s.1 := by
  simp only [recorded] at h
  cases hr : sys.replay u s.1 with
  | ok q v =>
    rw [hr] at h
    cases h
    exact ⟨rfl, rfl⟩
  | error e v => rw [hr] at h; cases h

omit [DecidableEq υ] in
/-- Writing something down does not change a run. -/
theorem recorded_mirrors {J : σ × List τ → Prop}
    (hreplay : ∀ u s, J s → J (finalState (sys.replay u) s.1, s.2 ++ note u s.1))
    (htake : ∀ s, J s → J ((sys.takeDiscovered s.1).2, s.2)) :
    (sys.recorded note).Mirrors sys Prod.fst J where
  roots _ := rfl
  replay u s hs := by
    have hJ := hreplay u s hs
    unfold Mirrored
    simp only [ConstraintSystem.recorded]
    cases hr : sys.replay u s.1 with
    | ok r t =>
      rw [finalState_ok hr] at hJ
      exact ⟨hJ, rfl⟩
    | error e t =>
      rw [finalState_error hr] at hJ
      exact ⟨hJ, rfl⟩
  kept s hs := htake s hs
  taken _ := rfl

end ConstraintSystem

end Recording

/-! ## The moments of a run -/

/-- A moment of a run: a replay has begun, an action has been evaluated, or something assigned. -/
structure Moment where
  state : Analysis
  /-- The slot that the assignment made grow, if it did. -/
  grown : Option SlotId := none

/-- Assignments are applied one by one. -/
def Analysis.assigning : Analysis → List Assignment → List Moment
  | _, [] => []
  | a, ⟨x, t⟩ :: rest =>
    let b : Analysis := { a with graph := (a.graph.unionInto x t).2 }
    ⟨b, if (a.graph.unionInto x t).1 then some x else none⟩ :: b.assigning rest

/-- Actions of a scope are evaluated and what they assign is applied, until one fails. -/
def AnalysisM.moments (env : Setup) (s : ScopeId) : List Action → Analysis → List Moment
  | [], _ => []
  | action :: rest, a =>
    match AnalysisM.evaluate env s action a with
    | .error _ b => [⟨b, none⟩]
    | .ok zs b => ⟨b, none⟩ :: (b.assigning zs ++ moments env s rest (b.assign zs []))

namespace Setup

variable (env : Setup)

/-- The analysis as a constraint system which records its moments. -/
def recorder : ConstraintSystem (Analysis × List Moment) ScopeId :=
  env.system.recorded fun s a => ⟨a.begun, none⟩ :: AnalysisM.moments env s (a.graph.actionsOf s) a.begun

/-- **The moments of a run**, from the first state that is replayed on. There are none if
preparation fails. -/
def moments (ambient body : List Stmt) (a : Analysis) : List Moment :=
  match AnalysisM.prepare env ambient body a with
  | .error _ _ => []
  | .ok _ b =>
    ⟨b, none⟩ :: (env.recorder.solve env.config.order env.config.maxPasses (b, [])).final.2

/-- **The states of a run** from the end of preparation on, up to the final one. -/
def states (ambient body : List Stmt) (a : Analysis) : List Analysis :=
  (env.moments ambient body a).map (·.state) ++ [(env.trace ambient body a).final]

end Setup

/-- Nothing is replayed if preparation fails. -/
theorem Setup.course_of_error {ambient body : List Stmt} {e : Fault}
    (h : AnalysisM.prepare env ambient body a = .error e b) :
    env.moments ambient body a = [] ∧ env.states ambient body a = [b] := by
  simp [Setup.states, Setup.moments, Setup.trace, h]

/-! ## What holds along the course -/

namespace ScopeGraph

/-- What was dirty before makes no difference to the graph. -/
theorem apply_snd (dirty : List ScopeId) : ∀ (zs : List Assignment) (g : ScopeGraph),
    (apply zs dirty g).2 = (apply zs [] g).2 := by
  intro zs
  induction zs generalizing dirty with
  | nil => exact fun g => rfl
  | cons z rest ih =>
    intro g
    rw [apply_cons, apply_cons]
    exact (ih _ _).trans (ih _ _).symm

theorem mem_actionsOf {g : ScopeGraph} {s : ScopeId} {action : Action} :
    action ∈ g.actionsOf s ↔ ∃ c, g.scope? s = some c ∧ action ∈ c.actions := by
  unfold actionsOf
  cases g.scope? s <;> simp

theorem Grows.mem_actionsOf {g h : ScopeGraph} (hgh : g.Grows h) {s : ScopeId} {action : Action}
    (haction : action ∈ g.actionsOf s) : action ∈ h.actionsOf s := by
  obtain ⟨c, hc, hmem⟩ := ScopeGraph.mem_actionsOf.1 haction
  obtain ⟨d, hd, hcd⟩ := hgh.scopes s.index c hc
  exact ScopeGraph.mem_actionsOf.2 ⟨d, hd, hcd.actions.subset hmem⟩

end ScopeGraph

section Governs

variable {I : Analysis → Prop} {Q : Analysis → Assignment → Prop} {R : Analysis → Analysis → Prop}

/-- A way from `a` over the states listed to `b`, on which `I` holds and each state is `R` to the
next. -/
inductive Path (I : Analysis → Prop) (R : Analysis → Analysis → Prop) :
    Analysis → List Analysis → Analysis → Prop
  | nil {a b : Analysis} : I a → I b → R a b → Path I R a [] b
  | cons {a b c : Analysis} {l : List Analysis} : I a → R a b → Path I R b l c → Path I R a (b :: l) c

namespace Path

theorem first {l : List Analysis} (h : Path I R a l b) : I a := by
  cases h with
  | nil ha _ _ => exact ha
  | cons ha _ _ => exact ha

theorem last {l : List Analysis} (h : Path I R a l b) : I b := by
  induction h with
  | nil _ hb _ => exact hb
  | cons _ _ _ ih => exact ih

theorem all {l : List Analysis} (h : Path I R a l b) : ∀ c ∈ a :: (l ++ [b]), I c := by
  induction h with
  | nil ha hb _ => simpa using ⟨ha, hb⟩
  | cons ha _ _ ih => exact List.forall_mem_cons.2 ⟨ha, ih⟩

variable [IsPreorder Analysis R]

/-- A way may start earlier. -/
theorem lead {l : List Analysis} (ha : I a) (hab : R a b) (h : Path I R b l c) : Path I R a l c := by
  cases h with
  | nil _ hc hbc => exact .nil ha hc (trans_of R hab hbc)
  | cons _ hbd hd => exact .cons ha (trans_of R hab hbd) hd

theorem trans {l m : List Analysis} (h : Path I R a l b) (k : Path I R b m c) :
    Path I R a (l ++ m) c := by
  induction h with
  | nil ha _ hab => exact k.lead ha hab
  | cons ha hab _ ih => exact .cons ha hab (ih k)

/-- Every state of a way is `R` to every later one. -/
theorem pairwise {l : List Analysis} (h : Path I R a l b) : (a :: (l ++ [b])).Pairwise R := by
  have hchain : (a :: (l ++ [b])).IsChain R := by
    induction h with
    | nil _ _ hab => exact .cons_cons hab (.singleton _)
    | cons _ hab _ ih => exact .cons_cons hab ih
  exact List.isChain_iff_pairwise.1 hchain

end Path

/-- **Evaluations and assignments keep `I`, and move along `R`.** What an evaluation assigns has `Q`
as long as it is not applied. -/
structure Governs (env : Setup) (I : Analysis → Prop) (Q : Analysis → Assignment → Prop)
    (R : Analysis → Analysis → Prop) : Prop where
  evaluated : ∀ {a b s action zs}, I a → action ∈ a.graph.actionsOf s →
    AnalysisM.evaluate env s action a = .ok zs b → I b ∧ R a b ∧ ∀ z ∈ zs, Q b z
  failed : ∀ {a b s action e}, I a → action ∈ a.graph.actionsOf s →
    AnalysisM.evaluate env s action a = .error e b → I b ∧ R a b
  assigned : ∀ {a x t}, I a → Q a ⟨x, t⟩ → I { a with graph := (a.graph.unionInto x t).2 } ∧
    R a { a with graph := (a.graph.unionInto x t).2 } ∧
    ∀ z, Q a z → Q { a with graph := (a.graph.unionInto x t).2 } z
  actions : ∀ {a b s action}, I a → R a b → action ∈ a.graph.actionsOf s → action ∈ b.graph.actionsOf s
  book : ∀ {a} found widened done, I a → I { a with discovered := found, widened, converged := done } ∧
    R a { a with discovered := found, widened, converged := done }

namespace Governs

variable [IsPreorder Analysis R] (h : Governs env I Q R)
include h

theorem assigning (dirty : List ScopeId) : ∀ (zs : List Assignment) (a : Analysis), I a →
    (∀ z ∈ zs, Q a z) → Path I R a ((a.assigning zs).map (·.state)) (a.assign zs dirty) := by
  intro zs
  induction zs generalizing dirty with
  | nil => exact fun a ha _ => .nil ha ha (refl_of R a)
  | cons z rest ih =>
    intro a ha hz
    obtain ⟨x, t⟩ := z
    obtain ⟨hb, hab, hQ⟩ := h.assigned ha (hz ⟨x, t⟩ (List.mem_cons_self ..))
    exact .cons ha hab (ih _ _ hb fun z hmem => hQ z (hz z (List.mem_cons_of_mem _ hmem)))

/-- The moments of a replay lead from the state before it to the state after it. -/
theorem replaying (s : ScopeId) : ∀ (actions : List Action) (dirty : List ScopeId) (a : Analysis),
    I a → (∀ action ∈ actions, action ∈ a.graph.actionsOf s) →
    Path I R a ((AnalysisM.moments env s actions a).map (·.state))
      (finalState (AnalysisM.replayActions env s actions dirty) a) := by
  intro actions
  induction actions with
  | nil => exact fun dirty a ha _ => .nil ha ha (refl_of R a)
  | cons action rest ih =>
    intro dirty a ha hactions
    have haction := hactions action (List.mem_cons_self ..)
    unfold finalState
    rw [AnalysisM.moments, AnalysisM.replayActions_cons]
    cases he : AnalysisM.evaluate env s action a with
    | error e b =>
      obtain ⟨hb, hab⟩ := h.failed ha haction he
      exact .cons ha hab (.nil hb hb (refl_of R b))
    | ok zs b =>
      obtain ⟨hb, hab, hzs⟩ := h.evaluated ha haction he
      have hassign := h.assigning dirty zs b hb hzs
      have hbc : R b (b.assign zs dirty) := (List.pairwise_cons.1 hassign.pairwise).1 _ (by simp)
      have hsame : b.assign zs [] = b.assign zs dirty := by
        unfold Analysis.assign
        rw [ScopeGraph.apply_snd dirty]
      dsimp only
      rw [List.map_cons, List.map_append, hsame]
      refine .cons ha hab (hassign.trans ?_)
      exact ih _ _ hassign.last fun act hact =>
        h.actions ha (trans_of R hab hbc) (hactions act (List.mem_cons_of_mem _ hact))

/-- **What evaluations and assignments keep holds in all states of a run**, and each state is
related to every later one. -/
theorem states {ambient body : List Stmt} {u : Unit}
    (hp : AnalysisM.prepare env ambient body a = .ok u b) (hb : I b) :
    (env.states ambient body a).Pairwise R ∧ ∀ c ∈ env.states ambient body a, I c := by
  let J (s : Analysis × List Moment) : Prop := Path I R b (s.2.map (·.state)) s.1
  have hmirror : env.recorder.Mirrors env.system Prod.fst J := by
    refine ConstraintSystem.recorded_mirrors (fun s m hm => ?_) fun m hm => ?_
    · have hreplay : finalState (env.system.replay s) m.1 =
          finalState (AnalysisM.replayActions env s (m.1.graph.actionsOf s) []) m.1.begun := by
        change finalState (AnalysisM.replay env s) m.1 = _
        unfold finalState
        rw [AnalysisM.replay_apply]
        cases AnalysisM.replayActions env s (m.1.graph.actionsOf s) [] m.1.begun <;> rfl
      obtain ⟨hbegun, hR⟩ := h.book m.1.discovered false m.1.converged hm.last
      change Path I R b (List.map _ (m.2 ++ _)) (finalState (env.system.replay s) m.1)
      rw [List.map_append, hreplay]
      exact hm.trans (.cons hm.last hR (h.replaying s _ _ _ hbegun fun _ => id))
    · obtain ⟨hc, hR⟩ := h.book [] m.1.widened m.1.converged hm.last
      have hwait := hm.trans (.nil hm.last hc hR)
      rw [List.append_nil] at hwait
      exact hwait
  obtain ⟨hrun, hJ⟩ := hmirror.solve env.config.order env.config.maxPasses (s := (b, []))
    (.nil hb hb (refl_of R b))
  -- the final state is that of the run, marked as converged if it is
  have hfinal : Path I R b ((env.recorder.solve env.config.order env.config.maxPasses
      (b, [])).final.2.map (·.state)) (env.trace ambient body a).final := by
    unfold Setup.trace
    rw [hp]
    dsimp only
    rw [hrun]
    unfold Run.map
    dsimp only
    cases (env.recorder.solve env.config.order env.config.maxPasses (b, [])).result with
    | error e => exact hJ
    | ok d =>
      obtain ⟨hc, hR⟩ := h.book _ _ (some d) hJ.last
      have hend := hJ.trans (.nil hJ.last hc hR)
      rw [List.append_nil] at hend
      exact hend
  have hstates : env.states ambient body a = b :: ((env.recorder.solve env.config.order
      env.config.maxPasses (b, [])).final.2.map (·.state) ++ [(env.trace ambient body a).final]) := by
    unfold Setup.states Setup.moments
    rw [hp]
    rfl
  rw [hstates]
  exact ⟨hfinal.pairwise, hfinal.all⟩

end Governs

end Governs

/-- **A run evolves** from a valid state by changes, and its states are all valid. -/
theorem evolves_governs (env : Setup) :
    Governs env (·.Valid env.program) Analysis.Accepts (Evolves env.program) where
  evaluated {a b s action zs} hv haction he := by
    obtain ⟨c, hc, -⟩ := ScopeGraph.mem_actionsOf.1 haction
    have hp := (AnalysisM.evaluate_evaluates hv (ScopeGraph.scope_lt hc) action
      (AnalysisM.action_slot_lt hv.sound haction)).proceeds
    obtain ⟨hab, hzs, -⟩ := hp.of_ok he
    exact ⟨hab.valid hv, Changes.evolves hab.changes, hzs⟩
  failed {a b s action e} hv haction he := by
    obtain ⟨c, hc, -⟩ := ScopeGraph.mem_actionsOf.1 haction
    have hp := (AnalysisM.evaluate_evaluates hv (ScopeGraph.scope_lt hc) action
      (AnalysisM.action_slot_lt hv.sound haction)).proceeds
    have hab := hp.advances.evolves
    rw [finalState_error he] at hab
    exact ⟨hab.valid hv, hab⟩
  assigned {a x t} hv hz := by
    have hjoin : Change env.program a { a with graph := (a.graph.unionInto x t).2 } :=
      .join ⟨x, t, hz.1, rfl⟩
    exact ⟨hjoin.valid hv, .single hjoin, fun _ h => h.grows hjoin.grows⟩
  actions _ hab haction := hab.grows.graph.mem_actionsOf haction
  book {a} found widened done hv := by
    have hbook : Change env.program a { a with discovered := found, widened, converged := done } :=
      .extend (a.extends_book found widened done)
    exact ⟨hbook.valid hv, .single hbook⟩

/-- The states of a run from a valid state: each evolves from it, and into all later ones. -/
theorem states_evolve (env : Setup) (ambient body : List Stmt) (hv : a.Valid env.program) :
    (a :: env.states ambient body a).Pairwise (Evolves env.program) := by
  have hprepare := prepare_extends env ambient body a
  cases hp : AnalysisM.prepare env ambient body a with
  | error e b =>
    rw [finalState_error hp] at hprepare
    rw [(Setup.course_of_error hp).2]
    exact List.pairwise_pair.2 (.single (.extend hprepare))
  | ok u b =>
    rw [finalState_ok hp] at hprepare
    have hab : Evolves env.program a b := .single (.extend hprepare)
    obtain ⟨hpairs, -⟩ := (evolves_governs env).states hp (hab.valid hv)
    refine List.pairwise_cons.2 ⟨fun c hc => ?_, hpairs⟩
    -- the first of these states is the prepared one
    simp only [Setup.states, Setup.moments, hp, List.map_cons, List.cons_append,
      List.pairwise_cons] at hpairs hc
    rcases List.mem_cons.1 hc with rfl | hc
    · exact hab
    · exact hab.trans (hpairs.1 c hc)

theorem trace_evolves (env : Setup) (ambient body : List Stmt) (hv : a.Valid env.program) :
    Evolves env.program a (env.trace ambient body a).final := by
  refine (List.pairwise_cons.1 (states_evolve env ambient body hv)).1 _ ?_
  simp [Setup.states]

/-- **Every operation evolves** the state that it finds, whether it succeeds or fails. -/
theorem Operation.after_evolves (hv : a.Valid env.program) (op : Operation) (h : op.Admissible a) :
    Evolves env.program a (op.after env a) := by
  cases op with
  | process ambient body =>
    have ht := trace_evolves env ambient body hv
    rwa [← process_final] at ht
  | replay s => exact (AnalysisM.replay_advances hv s).evolves
  | infer s e => exact (AnalysisM.infer_evaluates (w := true) e s a hv h).proceeds.advances.evolves
  | widen d => exact (AnalysisM.widen_evaluates (w := true) d a hv).proceeds.advances.evolves
  | property t name =>
    exact (AnalysisM.propertyType_evaluates (w := true) hv h name).proceeds.advances.evolves
  | createFunction f parent =>
    exact (AnalysisM.createFunction_evaluates (w := true) hv f h).proceeds.advances.evolves
  | createObject s => exact (AnalysisM.createObject_evaluates (w := true) hv s).proceeds.advances.evolves
  | narrow t d => exact (AnalysisM.narrow_evaluates (w := true) hv h d).proceeds.advances.evolves
  | takeDiscovered => exact .single (.extend (Analysis.extends_book a [] a.widened a.converged))

theorem Reachable.evolves (h : Reachable env a) : Evolves env.program .fresh a := by
  induction h with
  | fresh => exact .refl
  | after op hreach hop ih => exact ih.trans (op.after_evolves hreach.valid hop)

/-! ## Wherever an analysis stands -/

/-- **A state occurs** in an analysis if changes lead to it from a reachable state. So do the states
between two operations, at any moment of a run, and in the middle of an evaluation. -/
def Occurs (env : Setup) (a : Analysis) : Prop := ∃ b, Reachable env b ∧ Evolves env.program b a

theorem Reachable.occurs (h : Reachable env a) : Occurs env a := ⟨a, h, .refl⟩

/-- The states of a run occur. -/
theorem occurs_of_mem_states {ambient body : List Stmt} (hb : Reachable env b)
    (ha : a ∈ env.states ambient body b) : Occurs env a := by
  have hrun := states_evolve env ambient body hb.valid
  exact ⟨b, hb, (List.pairwise_cons.1 hrun).1 a ha⟩

namespace Occurs

variable (h : Occurs env a)
include h

theorem evolves : Evolves env.program .fresh a := by
  obtain ⟨b, hb, hba⟩ := h
  exact hb.evolves.trans hba

theorem valid : a.Valid env.program := h.evolves.valid (Analysis.fresh_valid _)

/-- What is in the middle of an evaluation occurs too. -/
theorem steps {w : Bool} (hab : Steps env.program w a b) : Occurs env b := by
  obtain ⟨c, hc, hca⟩ := h
  exact ⟨c, hc, hca.trans hab.changes.evolves⟩

end Occurs

/-- **Remembering narrowed types is transparent.** With and without memory, processing goes
through the same states with the same result, apart from what is remembered; and in every
state that occurs with memory, what is remembered is what narrowing gives there. -/
theorem memory_transparent (env : Setup) (ambient body : List Stmt) :
    { env with config.memoize := false }.trace ambient body .fresh =
        ({ env with config.memoize := true }.trace ambient body .fresh).map Analysis.forget ∧
      ∀ a, Occurs { env with config.memoize := true } a → ∀ n ∈ a.narrowings,
        n.result = a.narrowed env.program n.type n.declared := by
  refine ⟨?_, fun a ha n hn => (ha.valid.fresh n hn).2⟩
  exact trace_forget { env with config.memoize := true } ambient body (Analysis.fresh_valid _)

/-- Anything narrowed to `S` is remembered as the one object. -/
theorem oneObject_remembers :
    ∃ n ∈ ((Operation.narrow .all (.object ⟨0⟩)).after oneObject oneObject.processed).narrowings,
      n.result = .object ⟨0⟩ ∧ n.result = ((Operation.narrow .all (.object ⟨0⟩)).after oneObject
        oneObject.processed).narrowed oneObject.program n.type n.declared := by
  have hreach : Reachable oneObject ((Operation.narrow .all (.object ⟨0⟩)).after oneObject
      oneObject.processed) := .after _ oneObject.processed_reachable fun _ h => absurd h List.not_mem_nil
  have hmem : ∃ n ∈ ((Operation.narrow .all (.object ⟨0⟩)).after oneObject
      oneObject.processed).narrowings, n.result = .object ⟨0⟩ := by decide +kernel
  obtain ⟨n, hn, hr⟩ := hmem
  exact ⟨n, hn, hr, (memory_transparent oneObject [] []).2 _ hreach.occurs n hn⟩

end TypeFlow
