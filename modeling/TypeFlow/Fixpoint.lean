import TypeFlow.Config
import TypeFlow.Fault

/-!
# Fixed points by rounds

A constraint system consists of units that can be replayed. Replaying a unit adds what
follows from the present state and reports which units own something that grew. Once
queued, a unit stays queued for the whole run, and each pass replays every queued unit
once. A pass in which nothing changes ends the run.

* `ConstraintSystem.replayUnits`, `pass`, `iterate`, `solve`: one pass over a list of units, one
  pass with its discoveries, a bounded number of passes, and the whole run.
-/

namespace TypeFlow

/-- What came of replaying one unit. -/
structure Replay (υ : Type) where
  /-- The units that own something that grew. -/
  dirty : List υ := []
  /-- How many actions were evaluated. -/
  actions : UInt64
  /-- Whether something grew that belongs to the system as a whole. -/
  widened : Bool := false
deriving DecidableEq

/-- Whether the replay made any progress. -/
def Replay.changed {υ : Type} (r : Replay υ) : Bool := r.widened || !r.dirty.isEmpty

/-- Units `υ` over states `σ`. A replay may fail with any fault, also with the one that the solver
itself gives at the ceiling. -/
structure ConstraintSystem (σ υ : Type) where
  /-- The units queued before the first pass. -/
  roots : σ → List υ
  /-- Replays a unit on the present state. -/
  replay : υ → EStateM Fault σ (Replay υ)
  /-- Takes the units that came into being since they were last taken. -/
  takeDiscovered : σ → List υ × σ

/-- Statistics of a run that converged. -/
structure Converged where
  /-- The passes, with the last one in which nothing changed. -/
  passes : Nat := 0
  /-- The actions evaluated in all passes. The counter wraps around. -/
  actions : UInt64 := 0
  /-- The units queued at the end. -/
  units : Nat := 0
deriving DecidableEq

/-- A whole run. -/
structure Run (σ : Type) where
  result : Except Fault Converged
  /-- The state in which the run ended. -/
  final : σ
  /-- The state after each completed pass. -/
  passes : List σ

/-- What has been queued and counted so far, and whether the present pass changed
anything. -/
structure Progress (υ : Type) where
  queued : List υ
  actions : UInt64
  changed : Bool

/-- A queue with the units added that are not on it yet. -/
def enqueue {υ : Type} [DecidableEq υ] (queued units : List υ) : List υ :=
  units.foldl (fun q u => if u ∈ q then q else q ++ [u]) queued

namespace ConstraintSystem

variable {σ υ : Type} [DecidableEq υ] (sys : ConstraintSystem σ υ)

/-- Replays units in order. -/
def replayUnits : List υ → Progress υ → EStateM Fault σ (Progress υ)
  | [], pr => return pr
  | u :: us, pr => do
    let r ← sys.replay u
    replayUnits us
      { queued := enqueue pr.queued r.dirty
        actions := pr.actions + r.actions
        changed := pr.changed || r.changed }

/-- One pass over everything queued. A discovered unit that was not queued counts as a
change. -/
def pass (order : ReplayOrder) (queued : List υ) (actions : UInt64) : EStateM Fault σ (Progress υ) := do
  let pr ← sys.replayUnits (order.arrange queued) ⟨queued, actions, false⟩
  let found ← modifyGet sys.takeDiscovered
  return { pr with
    queued := enqueue pr.queued found
    changed := pr.changed || found.any (!pr.queued.contains ·) }

/-- At most `n` further passes after `done` of them. -/
def iterate (order : ReplayOrder) (limit : Nat) :
    (n done : Nat) → (queued : List υ) → (actions : UInt64) → σ → Run σ
  | 0, done, _, _, s => ⟨.error (.noFixedPoint done limit), s, []⟩
  | n + 1, done, queued, actions, s =>
    match sys.pass order queued actions s with
    | .error e t => ⟨.error e, t, []⟩
    | .ok pr t =>
      if pr.changed then
        let rest := iterate order limit n (done + 1) pr.queued pr.actions t
        { rest with passes := t :: rest.passes }
      else ⟨.ok ⟨done + 1, pr.actions, pr.queued.length⟩, t, [t]⟩

/-- Replays the system until a pass changes nothing or the passes are used up. -/
def solve (order : ReplayOrder) (limit : Nat) (s : σ) : Run σ :=
  let roots := sys.roots s
  let (found, s) := sys.takeDiscovered s
  sys.iterate order limit limit 0 (enqueue (enqueue [] roots) found) 0 s

end ConstraintSystem

end TypeFlow
