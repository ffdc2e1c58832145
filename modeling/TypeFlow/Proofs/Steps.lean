import Mathlib.Logic.Relation
import TypeFlow.Analysis.Narrowing
import TypeFlow.Proofs.Building

/-!
# What an analysis can do to its state

Whatever an analysis evaluates, it changes its state in five ways only (`Step`): it
creates the object of a shape, creates a function, gives an object or a function a new
property, records an allocation, or remembers a narrowing. Applying what an evaluation
assigns joins types into slots (`Analysis.Joins`), and a replay begins by taking back the mark that
something was allocated (`Analysis.begun`). What holds of all states of an analysis is
proved of one step and of one join, and carried along `Steps` and `Changes`.

* `Step.grows`, `Changes.grows`: nothing is ever taken back.
-/

namespace TypeFlow

open Relation

/-- The graph with `t` joined into the slot that a scope itself declares, if it does. -/
def ScopeGraph.joinOwn (g : ScopeGraph) (s : ScopeId) (name : String) (t : ConcreteType) :
    ScopeGraph :=
  match g.own s name with
  | some x => (g.unionInto x t).2
  | none => g

namespace Analysis

variable (a : Analysis)

/-- The entity has a place in its table. -/
def Has : Entity → Prop
  | .function f => f.index < a.functions.length
  | .object o => o.index < a.objects.length

/-- Everything the type lists exists. -/
def Knows (t : ConcreteType) : Prop := ∀ e ∈ t.members, a.Has e

/-- The scope of the canonical object of a shape. -/
def objectScope (s : ShapeId) : Option ScopeId := ((a.findObject s).bind a.object?).map (·.scope)

/-- `r` is the canonical object of an optional shape, which exists if the shape is given. -/
def Provides (shape : Option ShapeId) (r : Option ObjRef) : Prop :=
  match shape with
  | some s => ∃ o, a.findObject s = some o ∧ r = some o
  | none => r = none

/-- The state without what it remembers. -/
def forget : Analysis := { a with narrowings := [] }

end Analysis

/-- **One change of the state of an analysis** while something is evaluated. Only where
properties are assigned (`w`) are they added. -/
inductive Step (p : Program) (w : Bool) : Analysis → Analysis → Prop
  /-- The object of a shape is created, that of its prototype being there. -/
  | object {a : Analysis} {s : ShapeId} {d : ShapeDecl} {parent : Option ScopeId} {scope : ScopeId}
      {g : ScopeGraph} (decl : p.shape? s = some d) (new : a.findObject s = none)
      (proto : parent = d.proto.bind a.objectScope) (found : ∀ t ∈ d.proto, a.findObject t ≠ none)
      (older : ∀ t ∈ parent, t.index < a.graph.scopes.length)
      (built : GraphM.addObjectScope s parent d.properties a.graph = .ok scope g) :
      Step p w a { a with graph := g, objects := a.objects ++ [⟨s, scope⟩] }
  /-- A function is created, its objects being there. -/
  | function {a : Analysis} {f : FunctionId} {d : FunctionDecl} {parent statics body : ScopeId}
      {object prototype : Option ObjRef} {g h : ScopeGraph} (decl : p.function? f = some d)
      (new : a.findFunction f = none) (hp : a.Provides d.prototypeShape prototype)
      (ho : a.Provides d.objectShape object) (older : parent.index < a.graph.scopes.length)
      (hs : GraphM.addScope (.statics f) none a.graph = .ok statics g)
      (hb : GraphM.addBodyScope p f d parent g = .ok body h) :
      Step p w a { a with
        graph := h.joinOwn body SlotName.callee (.function ⟨a.functions.length⟩)
        functions := a.functions ++ [⟨f, parent, body, statics, object, prototype⟩]
        narrowings := []
        discovered := a.discovered ++ [body] }
  /-- An object that inherits no such property, or a function, gets a new property. -/
  | property {a : Analysis} {s : ScopeId} {name : String} {x : SlotId} {g : ScopeGraph}
      (assigned : w = true)
      (owner : (∃ e ∈ a.objects, e.scope = s ∧ a.graph.lookup s name = none) ∨
        ∃ e ∈ a.functions, e.statics = s)
      (built : GraphM.declare s name a.graph = .ok x g) : Step p w a { a with graph := g }
  /-- An object is allocated for the first time. -/
  | allocate {a : Analysis} {o : ObjRef} (known : a.Has (.object o)) (new : o ∉ a.allocated) :
      Step p w a { a with allocated := a.allocated ++ [o], widened := true, narrowings := [] }
  /-- A narrowing is remembered. -/
  | remember {a : Analysis} {t : ConcreteType} (d : DeclaredType) (known : a.Knows t) :
      Step p w a { a with narrowings := ⟨t, d, a.narrowed p t d⟩ :: a.narrowings }

/-- Any number of steps. -/
abbrev Steps (p : Program) (w : Bool) : Analysis → Analysis → Prop := ReflTransGen (Step p w)

/-- A type is joined into a slot. -/
def Analysis.Joins (a b : Analysis) : Prop :=
  ∃ x t, a.Knows t ∧ b = { a with graph := (a.graph.unionInto x t).2 }

/-- The state in which a replay begins: nothing has been allocated in it. -/
def Analysis.begun (a : Analysis) : Analysis := { a with widened := false }

theorem Analysis.begun_eq {a : Analysis} (h : a.widened = false) : a.begun = a := by
  unfold begun
  rw [← h]

/-- Any number of steps and joins, and of beginnings of a replay. -/
abbrev Changes (p : Program) : Analysis → Analysis → Prop :=
  ReflTransGen fun a b => Step p true a b ∨ a.Joins b ∨ b = a.begun

/-- What a fault leaves behind: scopes and slots that belong to no entity, and perhaps
some global names. -/
def Analysis.Leaves (a b : Analysis) : Prop :=
  ∃ g, a.graph.Builds (· = .global) (a.graph.scopes.length ≤ ·.index) g ∧ b = { a with graph := g }

/-! ## Steps take nothing back -/

namespace ScopeGraph

variable {g : ScopeGraph}

theorem slot?_setType (g : ScopeGraph) (x y : SlotId) (t : ConcreteType) :
    (g.setType x t).slot? y =
      (g.slot? y).map fun c => if x = y then { c with type := t } else c := by
  unfold setType slot?
  rw [List.getElem?_modify]
  cases x; cases y; simp

theorem typeOf_eq {x : SlotId} {c : Slot} (h : g.slot? x = some c) : g.typeOf x = c.type := by
  unfold typeOf
  rw [h]
  rfl

theorem setType_typeOf (g : ScopeGraph) (x : SlotId) : g.setType x (g.typeOf x) = g := by
  have h : (g.setType x (g.typeOf x)).slots = g.slots := by
    refine List.ext_getElem? fun i => ?_
    change (g.setType x (g.typeOf x)).slot? ⟨i⟩ = g.slot? ⟨i⟩
    rw [slot?_setType]
    cases hc : g.slot? ⟨i⟩ with
    | none => rfl
    | some c =>
      rw [Option.map_some]
      by_cases hx : x = ⟨i⟩
      · rw [if_pos hx, hx, typeOf_eq hc]
      · rw [if_neg hx]
  cases g
  exact congrArg _ h

/-- Joining a type into a slot sets the slot to the join, whether it grows or not. -/
theorem unionInto_snd (g : ScopeGraph) (x : SlotId) (t : ConcreteType) :
    (g.unionInto x t).2 = g.setType x (g.typeOf x ∪ t) := by
  simp only [unionInto]
  split
  · rename_i h
    rw [h, setType_typeOf]
  · rfl

theorem setType_grows {x : SlotId} {t : ConcreteType} (h : g.typeOf x ⊆ t) :
    g.Grows (g.setType x t) := by
  refine ⟨refl_of _ g.scopes, fun i c hc => ?_⟩
  change ∃ d, (g.setType x t).slot? ⟨i⟩ = some d ∧ _
  have hc : g.slot? ⟨i⟩ = some c := hc
  rw [slot?_setType, hc, Option.map_some]
  by_cases hx : x = ⟨i⟩
  · rw [if_pos hx]
    rw [hx, typeOf_eq hc] at h
    exact ⟨_, rfl, rfl, rfl, h⟩
  · rw [if_neg hx]
    exact ⟨_, rfl, refl_of _ c⟩

theorem unionInto_grows (g : ScopeGraph) (x : SlotId) (t : ConcreteType) :
    g.Grows (g.unionInto x t).2 := by
  rw [unionInto_snd]
  exact setType_grows (ConcreteType.subset_union_left _ t)

theorem joinOwn_grows (g : ScopeGraph) (s : ScopeId) (name : String) (t : ConcreteType) :
    g.Grows (g.joinOwn s name t) := by
  unfold joinOwn
  split
  · exact unionInto_grows g _ t
  · exact refl_of _ g

end ScopeGraph

/-- What the creation of a function builds, also when it fails half way. -/
theorem function_builds {p : Program} {E : ScopeId → Prop} {f : FunctionId} {d : FunctionDecl}
    {parent statics : ScopeId} {g h k : ScopeGraph} (he : E ⟨g.scopes.length + 1⟩)
    (older : parent.index < g.scopes.length)
    (hs : GraphM.addScope (.statics f) none g = .ok statics h)
    (hk : finalState (GraphM.addBodyScope p f d parent) h = k) : g.Builds (· = .global) E k := by
  have hg : g.Builds (· = .global) E h := GraphM.addScope_builds (by simp) hs
  have hle := Nat.lt_of_lt_of_le older hg.grows.scopes.length_le
  have hlen : h.scopes.length = g.scopes.length + 1 := by
    cases hs
    simp
  have hh := GraphM.addBodyScope_builds (D := (· = .global)) (E := E) rfl (hlen ▸ he) p f d hle
  exact trans_of _ hg (hk ▸ hh)

theorem object_builds {s : ShapeId} {parent : Option ScopeId} {names : List String} {scope : ScopeId}
    {g h : ScopeGraph} (older : ∀ t ∈ parent, t.index < g.scopes.length)
    (built : GraphM.addObjectScope s parent names g = .ok scope h) :
    g.Builds (fun _ => False) (fun _ => False) h := by
  have hg := GraphM.addObjectScope_builds (D := fun _ => False) (E := fun _ => False) s older names
  rwa [finalState_ok built] at hg

theorem Step.grows {p : Program} {w : Bool} {a b : Analysis} (h : Step p w a b) : a.Grows b := by
  cases h with
  | object decl new proto found older built =>
    exact ⟨(object_builds older built).grows, List.prefix_rfl, List.prefix_append .., List.prefix_rfl⟩
  | function decl new hp ho older hs hb =>
    have hgrow := (function_builds (E := fun _ => True) trivial older hs (finalState_ok hb)).grows
    exact ⟨trans_of ScopeGraph.Grows hgrow (ScopeGraph.joinOwn_grows ..), List.prefix_append ..,
      List.prefix_rfl, List.prefix_rfl⟩
  | property _ owner built =>
    have hg := (GraphM.declare_builds (D := fun _ => True) (E := fun _ => False) trivial _).ok built
    exact ⟨hg.grows, List.prefix_rfl, List.prefix_rfl, List.prefix_rfl⟩
  | allocate known new =>
    exact ⟨refl_of _ _, List.prefix_rfl, List.prefix_rfl, List.prefix_append ..⟩
  | remember d known => exact ⟨refl_of _ _, List.prefix_rfl, List.prefix_rfl, List.prefix_rfl⟩

theorem Steps.grows {p : Program} {w : Bool} {a b : Analysis} (h : Steps p w a b) : a.Grows b := by
  induction h with
  | refl => exact refl_of _ a
  | tail _ hstep ih => exact trans_of Analysis.Grows ih hstep.grows

/-- **The mark is set exactly if an object is allocated**, or was before. -/
theorem Step.widened {p : Program} {w : Bool} {a b : Analysis} (h : Step p w a b) :
    b.widened = true ↔ a.widened = true ∨ a.allocated.length < b.allocated.length := by
  cases h with
  | allocate known new => simp
  | object | function | property | remember => simp

theorem Steps.widened {p : Program} {w : Bool} {a b : Analysis} (h : Steps p w a b) :
    b.widened = true ↔ a.widened = true ∨ a.allocated.length < b.allocated.length := by
  induction h with
  | refl => simp
  | @tail b c hab hstep ih =>
    have hle := (Steps.grows hab).allocated.length_le
    have hle' := hstep.grows.allocated.length_le
    rw [hstep.widened, ih, or_assoc]
    refine or_congr_right ?_
    omega

theorem Analysis.Joins.grows {a b : Analysis} (h : a.Joins b) : a.Grows b := by
  obtain ⟨x, t, -, rfl⟩ := h
  exact ⟨ScopeGraph.unionInto_grows .., List.prefix_rfl, List.prefix_rfl, List.prefix_rfl⟩

theorem Analysis.begun_grows (a : Analysis) : a.Grows a.begun :=
  ⟨refl_of _ a.graph, List.prefix_rfl, List.prefix_rfl, List.prefix_rfl⟩

theorem Changes.grows {p : Program} {a b : Analysis} (h : Changes p a b) : a.Grows b := by
  induction h with
  | refl => exact refl_of _ a
  | tail _ hstep ih =>
    refine trans_of Analysis.Grows ih ?_
    rcases hstep with hstep | hjoin | rfl
    · exact hstep.grows
    · exact hjoin.grows
    · exact Analysis.begun_grows _

/-- Where properties are assigned, everything else may happen as well. -/
theorem Step.assigned {p : Program} {w : Bool} {a b : Analysis} (h : Step p w a b) : Step p true a b := by
  cases h with
  | object decl new proto found older built => exact .object decl new proto found older built
  | function decl new hp ho older hs hb => exact .function decl new hp ho older hs hb
  | property _ owner built => exact .property rfl owner built
  | allocate known new => exact .allocate known new
  | remember d known => exact .remember d known

theorem Steps.changes {p : Program} {w : Bool} {a b : Analysis} (h : Steps p w a b) :
    Changes p a b := by
  induction h with
  | refl => exact .refl
  | tail _ hstep ih => exact ih.tail (.inl hstep.assigned)

theorem Analysis.Leaves.grows {a b : Analysis} (h : a.Leaves b) : a.Grows b := by
  obtain ⟨g, hg, rfl⟩ := h
  exact ⟨hg.grows, List.prefix_rfl, List.prefix_rfl, List.prefix_rfl⟩

end TypeFlow
