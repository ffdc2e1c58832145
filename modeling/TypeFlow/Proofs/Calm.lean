import TypeFlow.Proofs.Validity

/-!
# Calm stretches

A stretch of an analysis is **calm** if nothing happens in it except that objects are
created, with the properties of their shapes. Types, functions, allocations and the scopes
that were there are then as before, so that an evaluation reads the same again.

* `Steps.calm`: steps that create no function, allocate nothing and add no property are calm.
* `Analysis.Calm.between`: every part of a calm stretch is calm.
* `Analysis.Calm.lookup`, `Analysis.Calm.narrowed`: what is read after a calm stretch is what was
  read before.
-/

namespace TypeFlow

variable {p : Program} {w : Bool} {a b c : Analysis}

namespace Analysis

/-- How many properties the shapes of the objects declare in all. -/
def declared (p : Program) (a : Analysis) : Nat :=
  (a.objects.map fun e => ((p.shape? e.shape).map (·.properties.length)).getD 0).foldr (· + ·) 0

/-- **Only objects are new in `b`**, each with the properties of its shape and no others. -/
structure Calm (p : Program) (a b : Analysis) : Prop where
  functions : b.functions = a.functions
  allocated : b.allocated = a.allocated
  discovered : b.discovered = a.discovered
  objects : a.objects <+: b.objects
  scopes : a.graph.scopes <+: b.graph.scopes
  types : ∀ x, b.graph.typeOf x = a.graph.typeOf x
  counted : b.graph.slots.length + a.declared p = a.graph.slots.length + b.declared p

theorem Calm.refl (a : Analysis) : a.Calm p a :=
  ⟨rfl, rfl, rfl, List.prefix_rfl, List.prefix_rfl, fun _ => rfl, rfl⟩

theorem Calm.trans (h : a.Calm p b) (k : b.Calm p c) : a.Calm p c := by
  refine ⟨k.functions.trans h.functions, k.allocated.trans h.allocated,
    k.discovered.trans h.discovered, h.objects.trans k.objects, h.scopes.trans k.scopes,
    fun x => (k.types x).trans (h.types x), ?_⟩
  have h1 := h.counted
  have h2 := k.counted
  omega

end Analysis

/-! ## Which steps are calm -/

theorem ScopeGraph.Builds.typeOf {D E : ScopeId → Prop} {g h : ScopeGraph} (hb : g.Builds D E h)
    (x : SlotId) : h.typeOf x = g.typeOf x := by
  obtain ⟨new, hn, hnew⟩ := hb.slots
  unfold ScopeGraph.typeOf ScopeGraph.slot?
  rw [hn]
  rcases Nat.lt_or_ge x.index g.slots.length with hx | hx
  · rw [List.getElem?_append_left hx]
  · rw [List.getElem?_append_right hx, List.getElem?_eq_none hx]
    cases hk : new[x.index - g.slots.length]? with
    | none => rfl
    | some k => exact hnew k (List.mem_of_getElem? hk)

/-- Scopes to which nothing is added stay as they are. -/
theorem ScopeGraph.Builds.scopes_isPrefix {g h : ScopeGraph}
    (hb : g.Builds (fun _ => False) (fun _ => False) h) : g.scopes <+: h.scopes := by
  refine List.prefix_iff_getElem?.2 fun i hi => ?_
  have hi' : g.scope? ⟨i⟩ = some g.scopes[i] := List.getElem?_eq_getElem hi
  obtain ⟨d, hd, hcd, h1, h2⟩ := hb.scopes ⟨i⟩ g.scopes[i] hi'
  have hk := hcd.kind
  have hp := hcd.parent
  have hs := h1 id
  have hq := h2 id
  have ha := hb.actions ⟨i⟩ id
  unfold ScopeGraph.actionsOf at ha
  rw [hd, hi'] at ha
  refine Eq.trans hd (congrArg some ?_)
  cases d
  cases hc : g.scopes[i]
  simp only [hc, Option.map_some, Option.getD_some] at hk hp hs hq ha
  subst hk hp hs hq ha
  rfl

theorem Analysis.declared_append (a : Analysis) {s : ShapeId} {scope : ScopeId} {d : ShapeDecl}
    {g : ScopeGraph} (hd : p.shape? s = some d) :
    Analysis.declared p { a with graph := g, objects := a.objects ++ [⟨s, scope⟩] } =
      a.declared p + d.properties.length := by
  unfold Analysis.declared
  induction a.objects with
  | nil => simp [hd]
  | cons e l ih =>
    simp only [List.cons_append, List.map_cons, List.foldr_cons] at ih ⊢
    omega

/-- Slots are counted with the objects that they are declared for. -/
theorem Step.counted (h : Step p w a b) :
    a.graph.slots.length + b.declared p ≤ b.graph.slots.length + a.declared p := by
  have hlen := h.grows.graph.slots.length_le
  cases h with
  | object decl new proto found older built =>
    obtain ⟨-, hs, -⟩ := GraphM.addObjectScope_ok built
    rw [Analysis.declared_append a decl, hs, List.length_append, List.length_map]
    omega
  | function | property | allocate | remember => exact Nat.add_le_add_right hlen _

theorem Steps.counted (h : Steps p w a b) :
    a.graph.slots.length + b.declared p ≤ b.graph.slots.length + a.declared p := by
  induction h with
  | refl => exact Nat.le_refl _
  | tail _ hstep ih =>
    have := hstep.counted
    omega

/-- **Steps are calm** if they create no function, allocate nothing and add no property. -/
theorem Steps.calm (h : Steps p w a b) (hf : b.functions.length ≤ a.functions.length)
    (ha : b.allocated.length ≤ a.allocated.length)
    (hc : b.graph.slots.length + a.declared p ≤ a.graph.slots.length + b.declared p) :
    a.Calm p b := by
  induction h with
  | refl => exact .refl a
  | @tail u b hau hub ih =>
    have hgrow := hub.grows
    have hcount := hub.counted
    have hfl := hgrow.functions.length_le
    have hal := hgrow.allocated.length_le
    have hau' := Steps.grows hau
    have h1 := hau'.functions.length_le
    have h2 := hau'.allocated.length_le
    have hcu := Steps.counted hau
    refine (ih (by omega) (by omega) (by omega)).trans ?_
    cases hub with
    | object decl new proto found older built =>
      have hb := object_builds older built
      obtain ⟨-, hs, -⟩ := GraphM.addObjectScope_ok built
      refine ⟨rfl, rfl, rfl, hgrow.objects, hb.scopes_isPrefix, hb.typeOf, ?_⟩
      rw [Analysis.declared_append u decl, hs, List.length_append, List.length_map]
      omega
    | function =>
      simp only [List.length_append, List.length_singleton] at hf
      omega
    | property _ owner built =>
      obtain ⟨-, -, rfl⟩ := GraphM.declare_ok built
      simp only [ScopeGraph.bindSlot, List.length_append, List.length_singleton] at hc
      change _ ≤ _ + u.declared p at hc
      omega
    | allocate =>
      simp only [List.length_append, List.length_singleton] at ha
      omega
    | remember d known =>
      exact ⟨rfl, rfl, rfl, List.prefix_rfl, List.prefix_rfl, fun _ => rfl, rfl⟩

namespace Analysis

/-- Every part of a calm stretch is calm. -/
theorem Calm.between (h : a.Calm p c) (hab : Steps p w a b) (hbc : Steps p w b c) :
    a.Calm p b ∧ b.Calm p c := by
  have h1 := hab.grows.functions.length_le
  have h2 := hab.grows.allocated.length_le
  have h3 := hab.counted
  have k1 := hbc.grows.functions.length_le
  have k2 := hbc.grows.allocated.length_le
  have k3 := hbc.counted
  have hc := h.counted
  rw [h.functions] at k1
  rw [h.allocated] at k2
  refine ⟨hab.calm k1 k2 (by omega), hbc.calm ?_ ?_ (by omega)⟩
  · rw [h.functions]
    exact h1
  · rw [h.allocated]
    exact h2

end Analysis

/-! ## Reading after a calm stretch -/

namespace ScopeGraph

variable {g h : ScopeGraph}

theorem scope?_of_isPrefix (hp : g.scopes <+: h.scopes) {s : ScopeId} (hs : s.index < g.scopes.length) :
    h.scope? s = g.scope? s :=
  Analysis.getElem?_of_isPrefix hp hs

theorem own_of_isPrefix (hp : g.scopes <+: h.scopes) {s : ScopeId} (hs : s.index < g.scopes.length)
    (n : String) : h.own s n = g.own s n := by
  unfold own
  rw [scope?_of_isPrefix hp hs]

theorem Sound.parent_lt (hg : g.Sound) {s t : ScopeId} (ht : g.parent? s = some t) :
    t.index < s.index ∧ s.index < g.scopes.length := by
  obtain ⟨c, hc, hp⟩ := Option.bind_eq_some_iff.1 ht
  exact ⟨(hg.fits s c hc).parent t hp, scope_lt hc⟩

theorem lookup_of_isPrefix (hg : g.Sound) (hp : g.scopes <+: h.scopes) {s : ScopeId}
    (hs : s.index < g.scopes.length) (n : String) : h.lookup s n = g.lookup s n := by
  refine lookup_congr (P := (·.index < g.scopes.length)) (fun t ht => ?_) (fun t u ht hu => ?_)
    (fun t ht => own_of_isPrefix hp ht n) hs
  · unfold parent?
    rw [scope?_of_isPrefix hp ht]
  · have hlt := hg.parent_lt hu
    omega

end ScopeGraph

namespace Analysis.Calm

variable (h : a.Calm p b)
include h

theorem function? (f : FnRef) : b.function? f = a.function? f := by
  unfold Analysis.function?
  rw [h.functions]

theorem findFunction (f : FunctionId) : b.findFunction f = a.findFunction f := by
  unfold Analysis.findFunction
  rw [h.functions]

theorem object? {o : ObjRef} (ho : a.Has (.object o)) : b.object? o = a.object? o :=
  getElem?_of_isPrefix h.objects ho

theorem own {s : ScopeId} (hs : s.index < a.graph.scopes.length) (n : String) :
    b.graph.own s n = a.graph.own s n :=
  ScopeGraph.own_of_isPrefix h.scopes hs n

theorem lookup (hw : a.Wired p) {s : ScopeId} (hs : s.index < a.graph.scopes.length) (n : String) :
    b.graph.lookup s n = a.graph.lookup s n :=
  ScopeGraph.lookup_of_isPrefix hw.sound h.scopes hs n

theorem paramsOf {s : ScopeId} (hs : s.index < a.graph.scopes.length) :
    b.graph.paramsOf s = a.graph.paramsOf s := by
  unfold ScopeGraph.paramsOf
  rw [ScopeGraph.scope?_of_isPrefix h.scopes hs]

theorem actionsOf {s : ScopeId} (hs : s.index < a.graph.scopes.length) :
    b.graph.actionsOf s = a.graph.actionsOf s := by
  unfold ScopeGraph.actionsOf
  rw [ScopeGraph.scope?_of_isPrefix h.scopes hs]

theorem typeOr (missing : ConcreteType) (x : Option SlotId) :
    b.typeOr missing x = a.typeOr missing x := by
  cases x with
  | none => rfl
  | some x => exact h.types x

theorem expand (hv : a.Valid p) (x : Admission) : b.expand p x = a.expand p x :=
  expand_congr hv.allocated h.functions h.objects h.allocated x

theorem narrowed (hv : a.Valid p) {t : ConcreteType} (ht : a.Knows t) (d : DeclaredType) :
    b.narrowed p t d = a.narrowed p t d :=
  narrowed_congr ht hv.allocated h.functions h.objects h.allocated d

end Analysis.Calm

end TypeFlow
