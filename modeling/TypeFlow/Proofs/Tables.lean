import TypeFlow.Proofs.Course
import TypeFlow.Proofs.PassBound

/-!
# The tables of canonical entities

A position in a table stands for one declaration, and what stands there is wired: a
function has a body scope that knows the function by its position and a scope for its
properties, an object has a scope inside that of its prototype. Positions are handed out
before the entry is made, and a creation may be interrupted by a fault at any point in
between, so this has to be shown of every change.

* `Change.tabled`, `Change.called`: what one change keeps.
* `reachable_tables`: the tables in every reachable state.
-/

namespace TypeFlow

variable {p : Program} {env : Setup} {a b : Analysis}

/-! ## One entry for each declaration -/

theorem Change.tabled (h : Change p a b) (ha : a.Tabled) : b.Tabled := by
  cases h with
  | step h => exact h.tabled ha
  | join h =>
    obtain ⟨x, t, -, rfl⟩ := h
    exact ⟨ha.functions, ha.objects, ha.allocated⟩
  | extend h =>
    refine ⟨?_, ?_, ?_⟩
    · rw [h.functions]
      exact ha.functions
    · rw [h.objects]
      exact ha.objects
    · rw [h.allocated]
      exact ha.allocated

theorem Evolves.tabled (h : Evolves p a b) (ha : a.Tabled) : b.Tabled := by
  induction h with
  | refl => exact ha
  | tail _ hbc ih => exact hbc.tabled ih

/-- Where keys are distinct, searching for the key of an entry finds its position. -/
theorem findIdx?_of_nodup {α β : Type} [DecidableEq β] {key : α → β} {l : List α} {i : Nat} {x : α}
    (hl : (l.map key).Nodup) (hi : l[i]? = some x) : l.findIdx? (key · = key x) = some i := by
  obtain ⟨hlt, hx⟩ := List.getElem?_eq_some_iff.1 hi
  refine List.findIdx?_eq_some_iff_getElem.2 ⟨hlt, by simp [hx], fun j hj hkey => ?_⟩
  have hj' : j < (l.map key).length := by
    rw [List.length_map]
    omega
  have hi' : i < (l.map key).length := by rwa [List.length_map]
  have heq : (l.map key)[j] = (l.map key)[i] := by
    rw [List.getElem_map, List.getElem_map, hx]
    exact of_decide_eq_true hkey
  have := (List.Nodup.getElem_inj_iff hl).1 heq
  omega

namespace Analysis.Tabled

variable (ha : a.Tabled)
include ha

theorem findFunction {i : Nat} {e : FunctionEntry} (hi : a.functions[i]? = some e) :
    a.findFunction e.decl = some ⟨i⟩ := by
  unfold Analysis.findFunction
  rw [findIdx?_of_nodup ha.functions hi]
  rfl

theorem findObject {i : Nat} {e : ObjectEntry} (hi : a.objects[i]? = some e) :
    a.findObject e.shape = some ⟨i⟩ := by
  unfold Analysis.findObject
  rw [findIdx?_of_nodup ha.objects hi]
  rfl

end Analysis.Tabled

/-! ## Bodies know their function -/

/-- The body of the function at position `r` has a slot for its callee, which holds `r`. -/
def ScopeGraph.Calls (g : ScopeGraph) (body : ScopeId) (r : FnRef) : Prop :=
  ∃ x, g.own body SlotName.callee = some x ∧ .function r ⊆ g.typeOf x

/-- Every body knows the function that it belongs to. -/
def Analysis.Called (a : Analysis) : Prop :=
  ∀ i e, a.functions[i]? = some e → a.graph.Calls e.body ⟨i⟩

namespace ScopeGraph

variable {g h : ScopeGraph}

theorem Calls.grows {body : ScopeId} {r : FnRef} (hg : g.Calls body r) (hgh : g.Grows h) :
    h.Calls body r := by
  obtain ⟨x, hx, hr⟩ := hg
  exact ⟨x, hgh.own hx, ConcreteType.subset_trans hr (hgh.typeOf_subset x)⟩

theorem typeOf_unionInto {x : SlotId} (hx : x.index < g.slots.length) (t : ConcreteType) :
    (g.unionInto x t).2.typeOf x = g.typeOf x ∪ t := by
  obtain ⟨k, hk⟩ : ∃ k, g.slot? x = some k := ⟨_, List.getElem?_eq_getElem hx⟩
  rw [unionInto_snd]
  refine typeOf_eq (c := { k with type := g.typeOf x ∪ t }) ?_
  rw [slot?_setType, hk, Option.map_some, if_pos rfl]

theorem typeOf_unionInto_of_ne {x y : SlotId} (hxy : x ≠ y) (t : ConcreteType) :
    (g.unionInto x t).2.typeOf y = g.typeOf y := by
  rw [unionInto_snd]
  unfold typeOf
  rw [slot?_setType]
  cases g.slot? y with
  | none => rfl
  | some k => rw [Option.map_some, if_neg hxy]

/-- Joining a type into a slot that the scope declares makes the slot hold it. -/
theorem joinOwn_holds (hg : g.Sound) {s : ScopeId} {n : String} {x : SlotId} (hx : g.own s n = some x)
    (t : ConcreteType) : (g.joinOwn s n t).own s n = some x ∧ t ⊆ (g.joinOwn s n t).typeOf x := by
  refine ⟨(joinOwn_grows g s n t).own hx, ?_⟩
  have hjoin : g.joinOwn s n t = (g.unionInto x t).2 := by
    unfold joinOwn
    rw [hx]
  rw [hjoin, typeOf_unionInto (hg.own_lt hx)]
  exact ConcreteType.subset_union_right _ t

end ScopeGraph

/-- A new body scope declares the reserved names before anything else. -/
theorem GraphM.addBodyScope_own {f : FunctionId} {d : FunctionDecl} {parent scope : ScopeId}
    {g h : ScopeGraph} {n : String} (hn : n ∈ SlotName.reserved)
    (hx : addBodyScope p f d parent g = .ok scope h) : ∃ x, h.own scope n = some x := by
  have hfill (t : ScopeId) : Moves ScopeGraph.Grows (fillBodyScope p d t) := fun g =>
    (fillBodyScope_builds (D := fun _ => True) (E := fun _ => True) trivial trivial trivial p d g).grows
  obtain ⟨rfl, hok, -⟩ := addScope_fill_ok hfill hx
  obtain ⟨x, k, hcallee, hrest⟩ := bind_ok hok
  obtain ⟨y, k₁, hthis, hrest⟩ := bind_ok hrest
  obtain ⟨ret, k₂, hret, hrest⟩ := bind_ok hrest
  obtain ⟨u, k₃, hparams, hrest⟩ := bind_ok hrest
  have hall (n : String) : Moves (ScopeGraph.Builds (fun _ => True) fun _ => True)
      (declare ⟨g.scopes.length⟩ n) := declare_builds trivial n
  have h₀ := ((hall _).ok hcallee).grows
  have h₁ := ((hall _).ok hthis).grows
  have h₂ := ((hall _).ok hret).grows
  have h₃ := ((declareParams_builds (D := fun _ => True) (E := fun _ => True) trivial trivial _).ok
    hparams).grows
  have h₄ : k₃.Grows h := by
    cases hbody : d.body with
    | some body =>
      rw [hbody] at hrest
      exact ((Extraction.collect_builds (D := fun _ => True) (E := fun _ => True) p trivial trivial
        trivial body).ok hrest).grows
    | none =>
      rw [hbody] at hrest
      cases hrest
      exact ScopeGraph.pushAction_grows ..
  have hlt : g.scopes.length < (g.scopes ++ [({ kind := .body f, parent := some parent } : Scope)]).length := by
    simp
  have hlt₀ := Nat.lt_of_lt_of_le hlt h₀.scopes.length_le
  have hlt₁ := Nat.lt_of_lt_of_le hlt₀ h₁.scopes.length_le
  -- what follows a declaration only adds to the scope
  unfold SlotName.reserved at hn
  simp only [List.mem_cons, List.not_mem_nil, or_false] at hn
  rcases hn with rfl | rfl | rfl
  · exact ⟨x, h₄.own (h₃.own (h₂.own (h₁.own (declare_own hlt hcallee))))⟩
  · exact ⟨y, h₄.own (h₃.own (h₂.own (declare_own hlt₀ hthis)))⟩
  · exact ⟨ret, h₄.own (h₃.own (declare_own hlt₁ hret))⟩

theorem Change.called (h : Change p a b) (hw : a.Wired p) (ha : a.Called) : b.Called := by
  have hab := h.grows
  -- entries that were there keep what they have
  have hold (hf : b.functions = a.functions) : b.Called := fun i e he =>
    (ha i e (hf ▸ he)).grows hab.graph
  cases h with
  | join h =>
    obtain ⟨x, t, -, rfl⟩ := h
    exact hold rfl
  | extend h => exact hold h.functions
  | step h =>
    cases h with
    | object | property | allocate | remember => exact hold rfl
    | @function f d parent statics body object prototype g k decl new hp ho older hs hb =>
      intro i e he
      rcases Nat.lt_or_ge i a.functions.length with hi | hi
      · rw [List.getElem?_append_left hi] at he
        exact (ha i e he).grows hab.graph
      · -- the new entry
        have hlt := (List.getElem?_eq_some_iff.1 he).1
        rw [List.length_append, List.length_singleton] at hlt
        obtain rfl : i = a.functions.length := by omega
        rw [List.getElem?_concat_length] at he
        cases he
        obtain ⟨x, hx⟩ := GraphM.addBodyScope_own (List.mem_cons_self ..) hb
        have hbuild := function_builds (E := fun _ => True) trivial older hs (finalState_ok hb)
        obtain ⟨hown, hheld⟩ := ScopeGraph.joinOwn_holds (hbuild.sound hw.root_lt hw.sound) hx
          (.function ⟨a.functions.length⟩)
        exact ⟨x, hown, hheld⟩

theorem Evolves.called (h : Evolves p a b) (hv : a.Valid p) (ha : a.Called) : b.Called := by
  induction h with
  | refl => exact ha
  | tail hab hbc ih => exact hbc.called (Evolves.valid hab hv).toWired ih

/-! ## Bodies have a slot for every reserved name -/

/-- Every body declares the reserved names. -/
def Analysis.Furnished (a : Analysis) : Prop :=
  ∀ e ∈ a.functions, ∀ n ∈ SlotName.reserved, ∃ x, a.graph.own e.body n = some x

theorem Change.furnished (h : Change p a b) (ha : a.Furnished) : b.Furnished := by
  have hab := h.grows
  have hgrow {e : FunctionEntry} (he : e ∈ a.functions) : ∀ n ∈ SlotName.reserved,
      ∃ x, b.graph.own e.body n = some x := by
    intro n hn
    obtain ⟨x, hx⟩ := ha e he n hn
    exact ⟨x, hab.graph.own hx⟩
  have hold (hf : b.functions = a.functions) : b.Furnished := fun e he => hgrow (hf ▸ he)
  cases h with
  | join h =>
    obtain ⟨x, t, -, rfl⟩ := h
    exact hold rfl
  | extend h => exact hold h.functions
  | step h =>
    cases h with
    | object | property | allocate | remember => exact hold rfl
    | function decl new hp ho older hs hb =>
      intro e he n hn
      rcases List.mem_append.1 he with he | he
      · exact hgrow he n hn
      · obtain rfl := List.mem_singleton.1 he
        obtain ⟨x, hx⟩ := GraphM.addBodyScope_own hn hb
        exact ⟨x, (ScopeGraph.joinOwn_grows ..).own hx⟩

theorem Evolves.furnished (h : Evolves p a b) (ha : a.Furnished) : b.Furnished := by
  induction h with
  | refl => exact ha
  | tail _ hbc ih => exact hbc.furnished ih

/-! ## Reachable states -/

theorem Analysis.fresh_tabled : Analysis.fresh.Tabled := ⟨.nil, .nil, .nil⟩

theorem Analysis.fresh_called : Analysis.fresh.Called := fun _ _ h => by cases h

theorem Occurs.tabled (h : Occurs env a) : a.Tabled := h.evolves.tabled Analysis.fresh_tabled

theorem Occurs.furnished (h : Occurs env a) : a.Furnished :=
  h.evolves.furnished fun _ he => absurd he List.not_mem_nil

/-- **The tables are consistent in every reachable state**, also after operations that failed.
Everything that a slot, an allocation or a function refers to is in its table. A function is found
by its declaration; its body lies in the scope around the declaration and holds the function as its
callee, its properties have a scope of their own, and its objects are the canonical ones of the
shapes that the declaration names. An object is found by its shape, and its scope lies in that of
the canonical object of the prototype. -/
theorem reachable_tables (h : Reachable env a) :
    ((∀ x ∈ a.graph.slots, a.Knows x.type) ∧ (∀ o ∈ a.allocated, a.Has (.object o)) ∧
      ∀ e ∈ a.functions, ∀ o, e.object = some o ∨ e.prototype = some o → a.Has (.object o)) ∧
    (∀ i e, a.functions[i]? = some e → a.findFunction e.decl = some ⟨i⟩ ∧
      (∃ d, e.Placed env.program a d) ∧ a.graph.Calls e.body ⟨i⟩) ∧
    ∀ i e, a.objects[i]? = some e → a.findObject e.shape = some ⟨i⟩ ∧ ∃ d, e.Placed env.program a d := by
  have hv := h.valid
  have htabled := h.evolves.tabled Analysis.fresh_tabled
  have hcalled := h.evolves.called (Analysis.fresh_valid _) Analysis.fresh_called
  refine ⟨⟨hv.slots, hv.allocated, fun e he o ho => hv.entity he ho⟩, fun i e hi => ?_, fun i e hi => ?_⟩
  · exact ⟨htabled.findFunction hi, hv.functions e (List.mem_of_getElem? hi), hcalled i e hi⟩
  · exact ⟨htabled.findObject hi, hv.objects e (List.mem_of_getElem? hi)⟩

/-- A constructor `F` whose objects inherit from its prototype, and a function `g` that cannot be
created because it repeats a parameter. -/
def interrupted : Setup where
  program := {
    shapes := [{ name := "P", kind := .prototype, properties := ["m"] },
      { name := "C", kind := .constructed, properties := ["x"], proto := some ⟨0⟩ }]
    functions := [{ name := "F", body := some [], objectShape := some ⟨1⟩, prototypeShape := some ⟨0⟩ },
      { name := "g", params := ["v", "v"], body := some [] }]
    body := [.function ⟨0⟩, .expr ⟨.construct ⟨.name "F", none⟩ [], none⟩] }

/-- The state after processing it and failing to create `g`. -/
def interrupted.final : Analysis :=
  (Operation.createFunction ⟨1⟩ .global).after interrupted
    ((Operation.process [] interrupted.program.body).after interrupted .fresh)

/-- The scopes of `g` are left over, and the entries of `F` and of its objects are in order. -/
theorem interrupted_tables : interrupted.final.graph.scopes.length = 7 ∧
    interrupted.final.functions.length = 1 ∧ interrupted.final.objects.length = 2 ∧
    (∃ e, interrupted.final.functions[0]? = some e ∧ interrupted.final.graph.Calls e.body ⟨0⟩) ∧
    interrupted.final.findObject ⟨1⟩ = some ⟨1⟩ := by
  have hprocessed : Reachable interrupted
      ((Operation.process [] interrupted.program.body).after interrupted .fresh) :=
    .after (.process _ _) .fresh trivial
  have hreach : Reachable interrupted interrupted.final :=
    .after _ hprocessed (hprocessed.valid.root_lt .global rfl)
  obtain ⟨-, hfunctions, hobjects⟩ := reachable_tables hreach
  have hsizes : interrupted.final.graph.scopes.length = 7 ∧ interrupted.final.functions.length = 1 ∧
      interrupted.final.objects.length = 2 := by decide +kernel
  have hdecl : (interrupted.final.functions[0]?).map (·.decl) = some ⟨0⟩ := by decide +kernel
  have hshape : (interrupted.final.objects[1]?).map (·.shape) = some ⟨1⟩ := by decide +kernel
  obtain ⟨e, he, -⟩ := Option.map_eq_some_iff.1 hdecl
  obtain ⟨o, ho, hs⟩ := Option.map_eq_some_iff.1 hshape
  refine ⟨hsizes.1, hsizes.2.1, hsizes.2.2, ⟨e, he, (hfunctions 0 e he).2.2⟩, ?_⟩
  rw [← hs]
  exact (hobjects 1 o ho).1

end TypeFlow
