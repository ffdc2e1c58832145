import TypeFlow.Proofs.LastPass

/-!
# The order of replays

Two analyses of one program differ in the numbers of their entities, so their results are
compared through the declarations that these stand for (`Analysis.Agrees`). In general the
order in which scopes are replayed makes a difference.

* `mixedCallee_not_agrees`: a program whose result depends on the order.
-/

namespace TypeFlow

/-- The declaration that an entity stands for. -/
inductive Label where
  | function (f : FunctionId)
  | object (s : ShapeId)

/-- A type by the declarations of its members. -/
inductive Described where
  | all
  | only (labels : Set Label)

namespace Analysis

variable (a : Analysis)

def label : Entity → Option Label
  | .function f => (a.function? f).map fun e => .function e.decl
  | .object o => (a.object? o).map fun e => .object e.shape

def described : ConcreteType → Described
  | .all => .all
  | .only m => .only { l | ∃ e ∈ m, a.label e = some l }

/-- The scope that belongs to the global code, to a function or to an object. -/
def scopeOf (kind : ScopeKind) : Option ScopeId :=
  (a.graph.scopes.findIdx? (·.kind = kind)).map ScopeId.mk

/-- The type found for a name of a scope. -/
def typeAt (kind : ScopeKind) (name : String) : Option ConcreteType :=
  ((a.scopeOf kind).bind (a.graph.own · name)).map a.graph.typeOf

/-- The shapes of the allocated objects. -/
def allocatedShapes : Set ShapeId := { s | ∃ o ∈ a.allocated, a.label (.object o) = some (.object s) }

/-- **Two analyses agree** if they have the same slots with the same types, up to the numbers of
their entities, and allocated objects of the same shapes. -/
structure Agrees (a b : Analysis) : Prop where
  slots : ∀ kind name, (a.typeAt kind name).map a.described = (b.typeAt kind name).map b.described
  allocated : a.allocatedShapes = b.allocatedShapes

end Analysis

/-! ## A callee that becomes unknown -/

/-- The type found for a name once the program is processed. -/
def Setup.typeAt (env : Setup) (kind : ScopeKind) (name : String) : Option ConcreteType :=
  match env.process env.program.ambient env.program.body .fresh with
  | .ok _ a => a.typeAt kind name
  | .error _ _ => none

theorem typeAt_eq_some {env : Setup} {kind : ScopeKind} {name : String} {t : ConcreteType}
    (h : env.typeAt kind name = some t) :
    ∃ c a, env.process env.program.ambient env.program.body .fresh = .ok c a ∧
      a.typeAt kind name = some t := by
  unfold Setup.typeAt at h
  cases hp : env.process env.program.ambient env.program.body .fresh with
  | error e a => rw [hp] at h; cases h
  | ok c a => rw [hp] at h; exact ⟨c, a, rfl, h⟩

/-- In `f`, the variable `c` holds the function `h` and is called with `k`; in `g` it becomes
unknown. Whether `h` receives `k` depends on which of the two is replayed first. -/
def mixedCallee (order : ReplayOrder) : Setup where
  program := {
    functions := [{ name := "h", params := ["p"], body := some [] },
      { name := "k", body := some [] },
      { name := "f", body := some [.expr ⟨.assign ⟨.name "c", none⟩ ⟨.name "h", none⟩, none⟩,
        .expr ⟨.call ⟨.name "c", none⟩ [⟨.name "k", none⟩], none⟩] },
      { name := "g", body := some [.expr ⟨.assign ⟨.name "c", none⟩ ⟨.name "u", none⟩, none⟩] }]
    body := [.function ⟨0⟩, .function ⟨1⟩, .function ⟨2⟩, .function ⟨3⟩, .var "c" none none] }
  config := { order }

theorem mixedCallee_discovery :
    (mixedCallee .discovery).typeAt (.body ⟨0⟩) "p" = some (.function ⟨1⟩) := by decide +kernel

theorem mixedCallee_reverse : (mixedCallee .reverse).typeAt (.body ⟨0⟩) "p" = some ∅ := by
  decide +kernel

theorem Analysis.Has.exists_label {a : Analysis} {e : Entity} (he : a.Has e) : ∃ l, a.label e = some l := by
  cases e with
  | function f =>
    have hf : a.function? f = some _ := List.getElem?_eq_getElem he
    exact ⟨_, Option.map_eq_some_iff.2 ⟨_, hf, rfl⟩⟩
  | object o =>
    have ho : a.object? o = some _ := List.getElem?_eq_getElem he
    exact ⟨_, Option.map_eq_some_iff.2 ⟨_, ho, rfl⟩⟩

theorem Analysis.Valid.knows_typeAt {p : Program} {a : Analysis} (hv : a.Valid p) {kind : ScopeKind}
    {name : String} {t : ConcreteType} (h : a.typeAt kind name = some t) : a.Knows t := by
  obtain ⟨x, -, rfl⟩ := Option.map_eq_some_iff.1 h
  exact hv.knows_typeOf x

/-- **The order of replays can change the result.** -/
theorem mixedCallee_not_agrees :
    ∃ c a d b, (mixedCallee .discovery).process [] (mixedCallee .discovery).program.body .fresh = .ok c a ∧
      (mixedCallee .reverse).process [] (mixedCallee .reverse).program.body .fresh = .ok d b ∧
      ¬ a.Agrees b := by
  obtain ⟨c, a, hc, ha⟩ := typeAt_eq_some mixedCallee_discovery
  obtain ⟨d, b, hd, hb⟩ := typeAt_eq_some mixedCallee_reverse
  refine ⟨c, a, d, b, hc, hd, fun hagree => ?_⟩
  have hslot := hagree.slots (.body ⟨0⟩) "p"
  rw [ha, hb, Option.map_some, Option.map_some, Option.some_inj] at hslot
  -- one side lists a function and the other nothing
  have hv := (converged_stable hc).1
  have hmem : Entity.function ⟨1⟩ ∈ EntitySet.ofList [.function ⟨1⟩] := by simp
  obtain ⟨l, hl⟩ := (hv.knows_typeAt ha (.function ⟨1⟩) hmem).exists_label
  have hset := Described.only.inj hslot
  have hin : l ∈ { l | ∃ e ∈ EntitySet.ofList [.function ⟨1⟩], a.label e = some l } := ⟨_, hmem, hl⟩
  rw [hset] at hin
  obtain ⟨e, he, -⟩ := hin
  exact EntitySet.not_mem_empty e he

end TypeFlow
