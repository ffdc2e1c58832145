import Mathlib.Order.Defs.Unbundled
import Mathlib.Tactic.Common
import TypeFlow.Analysis.State
import TypeFlow.Proofs.Lattice

/-!
# Growth

Scopes, slots and table entries are never taken back: each stays at its position, a
scope only gets more slots, parameters and actions, and the type of a slot only gets
more members.

* `Moves`: every way a computation can end is related to where it started.
* `Analysis.Grows`: one state of an analysis continues another.
-/

namespace TypeFlow

section Computations

variable {ε σ α β : Type} {R : σ → σ → Prop}

/-- The state in which a computation ends, by a result or by a fault. -/
def finalState (x : EStateM ε σ α) (s : σ) : σ :=
  match x s with
  | .ok _ t => t
  | .error _ t => t

theorem finalState_ok {x : EStateM ε σ α} {s t : σ} {v : α} (h : x s = .ok v t) :
    finalState x s = t := by
  unfold finalState
  rw [h]

theorem finalState_error {x : EStateM ε σ α} {s t : σ} {e : ε} (h : x s = .error e t) :
    finalState x s = t := by
  unfold finalState
  rw [h]

/-- However the computation ends, `R` leads there. -/
def Moves (R : σ → σ → Prop) (x : EStateM ε σ α) : Prop := ∀ s, R s (finalState x s)

theorem bind_apply (x : EStateM ε σ α) (f : α → EStateM ε σ β) (s : σ) :
    (x >>= f) s = match x s with
      | .ok v t => f v t
      | .error e t => .error e t := rfl

theorem get_bind_apply (f : σ → EStateM ε σ β) (s : σ) : (get >>= f) s = f s s := rfl

/-- Both parts of a computation that succeeds have succeeded. -/
theorem bind_ok {x : EStateM ε σ α} {f : α → EStateM ε σ β} {s t : σ} {v : β}
    (h : (x >>= f) s = .ok v t) : ∃ u r, x s = .ok u r ∧ f u r = .ok v t := by
  rw [bind_apply] at h
  cases hx : x s with
  | ok u r => rw [hx] at h; exact ⟨u, r, rfl, h⟩
  | error e r => rw [hx] at h; cases h

/-- A computation that fails has failed in one of its parts. -/
theorem bind_error {x : EStateM ε σ α} {f : α → EStateM ε σ β} {s t : σ} {e : ε}
    (h : (x >>= f) s = .error e t) :
    x s = .error e t ∨ ∃ u r, x s = .ok u r ∧ f u r = .error e t := by
  rw [bind_apply] at h
  cases hx : x s with
  | ok u r => rw [hx] at h; exact .inr ⟨u, r, rfl, h⟩
  | error e' r => rw [hx] at h; cases h; exact .inl rfl

/-- Whether a computation succeeds with a result that passes a test. -/
def checks (x : EStateM ε σ α) (s : σ) (test : α → σ → Bool) : Bool :=
  match x s with
  | .ok v t => test v t
  | .error _ _ => false

theorem exists_ok {x : EStateM ε σ α} {s : σ} {test : α → σ → Bool} (h : checks x s test = true) :
    ∃ v t, x s = .ok v t ∧ test v t = true := by
  unfold checks at h
  cases hx : x s with
  | ok v t => rw [hx] at h; exact ⟨v, t, rfl, h⟩
  | error e t => rw [hx] at h; cases h

/-- The fault with which a computation ends, if it fails. -/
def fault? (x : EStateM ε σ α) (s : σ) : Option ε :=
  match x s with
  | .ok _ _ => none
  | .error e _ => some e

theorem eq_error_of_fault? {x : EStateM ε σ α} {s : σ} {e : ε} (h : fault? x s = some e) :
    x s = .error e (finalState x s) := by
  unfold fault? at h
  unfold finalState
  cases hx : x s with
  | ok v t => rw [hx] at h; cases h
  | error e t => rw [hx] at h; cases h; rfl

/-- A result that is only passed on leaves the state as it is. -/
theorem finalState_bind_pure (x : EStateM ε σ α) (k : α → β) (s : σ) :
    finalState (x >>= fun v => pure (k v)) s = finalState x s := by
  unfold finalState
  rw [bind_apply]
  cases x s <;> rfl

theorem moves_get_bind {f : σ → EStateM ε σ α} (h : ∀ s, R s (finalState (f s) s)) :
    Moves R (get >>= f) := h

variable [IsPreorder σ R]

theorem moves_pure (v : α) : Moves R (pure v : EStateM ε σ α) := fun s => refl_of R s

theorem moves_throw (e : ε) : Moves R (throw e : EStateM ε σ α) := fun s => refl_of R s

theorem moves_get : Moves R (get : EStateM ε σ σ) := fun s => refl_of R s

theorem moves_set_bind {s t : σ} {f : PUnit → EStateM ε σ α} (hst : R s t) (hf : Moves R (f ⟨⟩)) :
    R s (finalState (set t >>= f) s) := trans_of R hst (hf t)

/-- What comes next may rely on how the first computation ended. -/
theorem Moves.bind_at {x : EStateM ε σ α} {f : α → EStateM ε σ β} {s : σ} (hx : Moves R x)
    (hf : ∀ v t, x s = .ok v t → R t (finalState (f v) t)) : R s (finalState (x >>= f) s) := by
  have h := hx s
  unfold finalState at h ⊢
  rw [bind_apply]
  cases hs : x s with
  | error e t => rw [hs] at h; exact h
  | ok v t => rw [hs] at h; exact trans_of R h (hf v t hs)

theorem Moves.bind {x : EStateM ε σ α} {f : α → EStateM ε σ β} (hx : Moves R x)
    (hf : ∀ v, Moves R (f v)) : Moves R (x >>= f) :=
  fun _ => hx.bind_at fun v t _ => hf v t

omit [IsPreorder σ R] in
theorem Moves.ok {x : EStateM ε σ α} {s t : σ} {v : α} (hx : Moves R x) (h : x s = .ok v t) :
    R s t :=
  finalState_ok h ▸ hx s

omit [IsPreorder σ R] in
theorem Moves.error {x : EStateM ε σ α} {s t : σ} {e : ε} (hx : Moves R x) (h : x s = .error e t) :
    R s t :=
  finalState_error h ▸ hx s

end Computations

section Order

variable {α : Type} {R : α → α → Prop}

/-- `m` keeps every element of `l` at its position, up to `R`. -/
def Continues (R : α → α → Prop) (l m : List α) : Prop :=
  ∀ (i : Nat) (x : α), l[i]? = some x → ∃ y, m[i]? = some y ∧ R x y

instance [IsPreorder α R] : IsPreorder (List α) (Continues R) where
  refl _ _ x h := ⟨x, h, refl_of R x⟩
  trans _ _ _ h k i x hx := by
    obtain ⟨y, hy, hxy⟩ := h i x hx
    obtain ⟨z, hz, hyz⟩ := k i y hy
    exact ⟨z, hz, trans_of R hxy hyz⟩

theorem continues_append [IsPreorder α R] (l m : List α) : Continues R l (l ++ m) := by
  intro i x hx
  have hi : i < l.length := (List.getElem?_eq_some_iff.1 hx).1
  exact ⟨x, by rw [List.getElem?_append_left hi, hx], refl_of R x⟩

theorem continues_modify [IsPreorder α R] {f : α → α} (h : ∀ x, R x (f x)) (l : List α) (i : Nat) :
    Continues R l (l.modify i f) := by
  intro j x hx
  rw [List.getElem?_modify, hx]
  refine ⟨_, rfl, ?_⟩
  split
  · exact h x
  · exact refl_of R x

theorem Continues.length_le {l m : List α} (h : Continues R l m) : l.length ≤ m.length := by
  by_contra hle
  have hlt : m.length < l.length := Nat.lt_of_not_le hle
  obtain ⟨y, hy, -⟩ := h m.length l[m.length] (List.getElem?_eq_getElem hlt)
  exact absurd (List.getElem?_eq_some_iff.1 hy).1 (Nat.lt_irrefl _)

end Order

/-- A scope keeps its kind, its parent and what it holds; more may be added at the end. -/
structure Scope.Grows (c d : Scope) : Prop where
  kind : d.kind = c.kind
  parent : d.parent = c.parent
  slots : c.slots <+: d.slots
  params : c.params <+: d.params
  actions : c.actions <+: d.actions

/-- A slot keeps its name and its owner, and its type gets no smaller. -/
structure Slot.Grows (x y : Slot) : Prop where
  name : y.name = x.name
  owner : y.owner = x.owner
  type : x.type ⊆ y.type

/-- Every scope and every slot stays where it is and only grows. -/
structure ScopeGraph.Grows (g h : ScopeGraph) : Prop where
  scopes : Continues Scope.Grows g.scopes h.scopes
  slots : Continues Slot.Grows g.slots h.slots

/-- **One state of an analysis continues another**: the graph grows, and table entries and
allocated objects keep their positions. -/
structure Analysis.Grows (a b : Analysis) : Prop where
  graph : a.graph.Grows b.graph
  functions : a.functions <+: b.functions
  objects : a.objects <+: b.objects
  allocated : a.allocated <+: b.allocated

instance : IsPreorder Scope Scope.Grows where
  refl _ := ⟨rfl, rfl, List.prefix_rfl, List.prefix_rfl, List.prefix_rfl⟩
  trans _ _ _ h k := ⟨k.kind.trans h.kind, k.parent.trans h.parent, h.slots.trans k.slots,
    h.params.trans k.params, h.actions.trans k.actions⟩

instance : IsPreorder Slot Slot.Grows where
  refl x := ⟨rfl, rfl, ConcreteType.subset_refl x.type⟩
  trans _ _ _ h k := ⟨k.name.trans h.name, k.owner.trans h.owner,
    ConcreteType.subset_trans h.type k.type⟩

instance : IsPreorder ScopeGraph ScopeGraph.Grows where
  refl g := ⟨refl_of _ g.scopes, refl_of _ g.slots⟩
  trans _ _ _ h k := ⟨trans_of _ h.scopes k.scopes, trans_of _ h.slots k.slots⟩

instance : IsPreorder Analysis Analysis.Grows where
  refl a := ⟨refl_of _ a.graph, List.prefix_rfl, List.prefix_rfl, List.prefix_rfl⟩
  trans _ _ _ h k := ⟨trans_of _ h.graph k.graph, h.functions.trans k.functions,
    h.objects.trans k.objects, h.allocated.trans k.allocated⟩

theorem Analysis.Grows.scopes_le {a b : Analysis} (h : a.Grows b) :
    a.graph.scopes.length ≤ b.graph.scopes.length :=
  h.graph.scopes.length_le

theorem Analysis.Grows.slots_le {a b : Analysis} (h : a.Grows b) :
    a.graph.slots.length ≤ b.graph.slots.length :=
  h.graph.slots.length_le

end TypeFlow
