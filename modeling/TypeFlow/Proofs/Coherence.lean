import TypeFlow.Proofs.BodyLayout
import TypeFlow.Proofs.CanonicalForms

/-!
# Coherence of the scope graph

A scope graph keeps its slots in one list and its scopes in another. A scope lists its names with their
slots, and beside them its parameters and its actions. All of these are changed one by one, by single
operations and by extraction, and an operation that fails keeps what it did until then. They stay in step
all the same.

Soundness (`ScopeGraph.Sound`) is more than can be had here: an action may be recorded whatever slot it
names. A graph is **coherent** if it is sound without its actions and repeats no parameter.

* `ScopeGraph.Edit`, `ScopeGraph.Built`: what can be done with a scope graph, and where that leads.
* `ScopeGraph.Edit.after_coherent`, `ScopeGraph.Edit.afterAll_coherent`: one operation keeps a graph coherent,
  and so do many.
* `ScopeGraph.climb`: looking a name up without a bound.
* `built_consistent`: what holds of every graph that is built.
-/

namespace TypeFlow

open Relation GraphM

variable {D : ScopeId → Prop} {g h : ScopeGraph} {s t : ScopeId} {n : String} {x : SlotId}

/-! ## Graphs without their actions -/

/-- A scope without its actions. -/
def Scope.silent (c : Scope) : Scope := { c with actions := [] }

namespace ScopeGraph

/-- A graph without its actions. -/
def silent (g : ScopeGraph) : ScopeGraph := { g with scopes := g.scopes.map Scope.silent }

theorem length_silent : g.silent.scopes.length = g.scopes.length := List.length_map ..

theorem scope?_silent : g.silent.scope? s = (g.scope? s).map Scope.silent := List.getElem?_map ..

theorem own_silent : g.silent.own s n = g.own s n := by
  unfold own
  rw [scope?_silent]
  cases g.scope? s <;> rfl

theorem parent?_silent : g.silent.parent? s = g.parent? s := by
  unfold parent?
  rw [scope?_silent]
  cases g.scope? s <;> rfl

/-- A change of a scope that has nothing to do with its actions. -/
theorem silent_modifyScope {f k : Scope → Scope} (hf : ∀ c, (f c).silent = k c.silent) :
    (g.modifyScope s f).silent = g.silent.modifyScope s k := by
  have hscopes : (g.scopes.modify s.index f).map Scope.silent = (g.scopes.map Scope.silent).modify s.index k := by
    refine List.ext_getElem? fun i => ?_
    rw [List.getElem?_map, List.getElem?_modify, List.getElem?_modify, List.getElem?_map]
    cases g.scopes[i]? with
    | none => rfl
    | some c =>
      by_cases hi : s.index = i
      · simp [hi, hf]
      · simp [hi]
  unfold silent modifyScope
  rw [hscopes]

theorem silent_bindSlot : (g.bindSlot s n).silent = g.silent.bindSlot s n := by
  have hscopes := silent_modifyScope (g := g) (s := s)
    (f := fun c => { c with slots := c.slots ++ [(n, ⟨g.slots.length⟩)] })
    (k := fun c => { c with slots := c.slots ++ [(n, ⟨g.slots.length⟩)] }) fun _ => rfl
  exact congrArg (fun k : ScopeGraph => { k with slots := g.slots ++ [Slot.mk n s ∅] }) hscopes

theorem silent_bindParam : (g.bindParam s n).silent = g.silent.bindParam s n := by
  have hparams := silent_modifyScope (g := g.bindSlot s n) (s := s)
    (f := fun c => { c with params := c.params ++ [⟨g.slots.length⟩] })
    (k := fun c => { c with params := c.params ++ [⟨g.slots.length⟩] }) fun _ => rfl
  rw [silent_bindSlot] at hparams
  exact hparams

theorem silent_pushAction {a : Action} : (g.pushAction s a).silent = g.silent := by
  have hscopes := silent_modifyScope (g := g) (s := s)
    (f := fun c => { c with actions := c.actions ++ [a] }) (k := id) fun _ => rfl
  refine hscopes.trans ?_
  rw [modifyScope, List.modify_id]

theorem silent_unionInto {u : ConcreteType} : (g.unionInto x u).2.silent = (g.silent.unionInto x u).2 := by
  rw [unionInto_snd, unionInto_snd]
  rfl

theorem paramsOf_modifyScope {f : Scope → Scope} (hf : s = t → ∀ c, (f c).params = c.params) :
    (g.modifyScope s f).paramsOf t = g.paramsOf t := by
  unfold paramsOf
  rw [scope?_modifyScope]
  cases g.scope? t with
  | none => rfl
  | some c =>
    by_cases hst : s = t
    · simp [hst, hf hst]
    · simp [hst]

theorem Sound.bindParam (hg : g.Sound) (hs : s.index < g.scopes.length) (hn : g.own s n = none) :
    (g.bindParam s n).Sound := by
  have hnew := declareParam_new hs ((own_eq_none_iff hs).1 hn)
  have hbuilds := (declareParam_builds (D := (· = s)) (E := (· = s)) rfl rfl n).ok hnew
  exact hbuilds.sound (fun t ht => ht ▸ hs) hg

/-! ## Coherence -/

/-- The scope lists the slot under the name. -/
def Binds (g : ScopeGraph) (s : ScopeId) (n : String) (x : SlotId) : Prop :=
  ∃ c, g.scope? s = some c ∧ (n, x) ∈ c.slots

theorem mem_namesOf_iff : n ∈ g.namesOf s ↔ ∃ x, g.Binds s n x := by
  unfold namesOf Binds
  cases g.scope? s with
  | none => simp
  | some c => simp

/-- **A graph is coherent** if it is sound without its actions, and lists no parameter twice. -/
structure Coherent (g : ScopeGraph) : Prop where
  sound : g.silent.Sound
  params : ∀ s, (g.paramsOf s).Nodup

namespace Coherent

theorem empty : Coherent {} := ⟨⟨nofun, nofun⟩, fun _ => .nil⟩

theorem fits (hg : g.Coherent) {c : Scope} (hc : g.scope? s = some c) : c.silent.Fits g.silent s := by
  refine hg.sound.fits s c.silent ?_
  rw [scope?_silent, hc, Option.map_some]

/-- A slot that a scope lists is there, with that name and that owner. -/
theorem slot_of_binds (hg : g.Coherent) (hx : g.Binds s n x) :
    ∃ k, g.slot? x = some k ∧ k.name = n ∧ k.owner = s := by
  obtain ⟨c, hc, hmem⟩ := hx
  exact (hg.fits hc).slots n x hmem

/-- **A slot is bound in its owner under its name, and nowhere else.** -/
theorem binds_iff (hg : g.Coherent) {k : Slot} (hk : g.slot? x = some k) :
    g.Binds s n x ↔ s = k.owner ∧ n = k.name := by
  constructor
  · intro hx
    obtain ⟨k', hk', hname, howner⟩ := hg.slot_of_binds hx
    rw [hk] at hk'
    cases hk'
    exact ⟨howner.symm, hname.symm⟩
  · rintro ⟨rfl, rfl⟩
    have hown : g.silent.own k.owner k.name = some x := hg.sound.bound x k hk
    rw [own_silent] at hown
    exact mem_slots_of_own hown

theorem own_eq_some_iff (hg : g.Coherent) : g.own s n = some x ↔ g.Binds s n x := by
  refine ⟨mem_slots_of_own, fun hx => ?_⟩
  -- the slot says where it is bound, and there the name is bound once
  obtain ⟨k, hk, rfl, rfl⟩ := hg.slot_of_binds hx
  rw [← own_silent]
  exact hg.sound.bound x k hk

theorem own_eq_none_iff_binds (hg : g.Coherent) : g.own s n = none ↔ ∀ x, ¬ g.Binds s n x := by
  rw [Option.eq_none_iff_forall_ne_some]
  exact forall_congr' fun x => not_congr hg.own_eq_some_iff

theorem binds_of_param (hg : g.Coherent) (hx : x ∈ g.paramsOf s) : ∃ n, g.Binds s n x := by
  unfold paramsOf at hx
  cases hc : g.scope? s with
  | none =>
    rw [hc] at hx
    cases hx
  | some c =>
    rw [hc] at hx
    obtain ⟨n, hn⟩ := (hg.fits hc).params x hx
    exact ⟨n, c, hc, hn⟩

theorem names (hg : g.Coherent) (s : ScopeId) : (g.namesOf s).Nodup := by
  unfold namesOf
  cases hc : g.scope? s with
  | none => exact .nil
  | some c => exact (hg.fits hc).distinct

theorem ordered (hg : g.Coherent) : g.Ordered := fun s t ht => hg.sound.ordered s t (parent?_silent.trans ht)

/-! ### What keeps a graph coherent -/

theorem addScope (hg : g.Coherent) {kind : ScopeKind} {parent : Option ScopeId}
    (hp : ∀ t ∈ parent, t.index < g.scopes.length) :
    Coherent { g with scopes := g.scopes ++ [{ kind, parent }] } := by
  constructor
  · have hsilent : silent { g with scopes := g.scopes ++ [{ kind, parent }] } =
        { g.silent with scopes := g.silent.scopes ++ [{ kind, parent }] } := by
      simp [silent, Scope.silent]
    -- the parent is there, so it is older than the new scope
    rw [hsilent]
    refine hg.sound.addScope fun t ht => ?_
    rw [length_silent]
    exact hp t ht
  · intro s
    unfold paramsOf
    cases hc : scope? { g with scopes := g.scopes ++ [{ kind, parent }] } s with
    | none => exact .nil
    | some c =>
      rcases scope?_addScope hc with hold | ⟨-, rfl⟩
      · have hparams := hg.params s
        rwa [paramsOf_eq hold] at hparams
      · exact .nil

theorem bindSlot (hg : g.Coherent) (hs : s.index < g.scopes.length) (hn : g.own s n = none) :
    (g.bindSlot s n).Coherent := by
  constructor
  · rw [silent_bindSlot]
    exact hg.sound.bindSlot (by rwa [length_silent]) (by rwa [own_silent])
  · intro t
    rw [paramsOf_bindSlot]
    exact hg.params t

theorem bindParam (hg : g.Coherent) (hs : s.index < g.scopes.length) (hn : g.own s n = none) :
    (g.bindParam s n).Coherent := by
  constructor
  · rw [silent_bindParam]
    exact hg.sound.bindParam (by rwa [length_silent]) (by rwa [own_silent])
  · intro t
    by_cases hst : s = t
    · subst hst
      rw [(bindParam_layout hs ((own_eq_none_iff hs).1 hn)).2.1, ← List.concat_eq_append]
      refine (hg.params s).concat fun hmem => ?_
      -- the parameters so far are slots that are there, and the new slot was not
      obtain ⟨m, hm⟩ := hg.binds_of_param hmem
      obtain ⟨k, hk, -⟩ := hg.slot_of_binds hm
      have hlt := slot_lt hk
      exact Nat.lt_irrefl _ hlt
    · have hother : (g.bindParam s n).paramsOf t = (g.bindSlot s n).paramsOf t :=
        paramsOf_modifyScope fun h => absurd h hst
      rw [hother, paramsOf_bindSlot]
      exact hg.params t

theorem pushAction (hg : g.Coherent) (s : ScopeId) (a : Action) : (g.pushAction s a).Coherent := by
  constructor
  · rw [silent_pushAction]
    exact hg.sound
  · intro t
    have hparams : (g.pushAction s a).paramsOf t = g.paramsOf t := paramsOf_modifyScope fun _ _ => rfl
    rw [hparams]
    exact hg.params t

theorem unionInto (hg : g.Coherent) (x : SlotId) (u : ConcreteType) : (g.unionInto x u).2.Coherent := by
  constructor
  · rw [silent_unionInto]
    exact hg.sound.unionInto x u
  · intro s
    have hparams : (g.unionInto x u).2.paramsOf s = g.paramsOf s := by
      rw [unionInto_snd]
      rfl
    rw [hparams]
    exact hg.params s

end Coherent

/-! ## Operations

Extraction does what declaring names and recording actions do, so it is enough to look at these. -/

/-- From `g` to `h` nothing is taken back, and coherence is kept if the scopes in `D` are there. -/
structure Coheres (D : ScopeId → Prop) (g h : ScopeGraph) : Prop where
  grows : g.Grows h
  coherent : (∀ s, D s → s.index < g.scopes.length) → g.Coherent → h.Coherent

instance : IsPreorder ScopeGraph (Coheres D) where
  refl g := ⟨refl_of _ g, fun _ => id⟩
  trans _ _ _ h k := by
    refine ⟨trans_of _ h.grows k.grows, fun hD hg => k.coherent (fun s hs => ?_) (h.coherent hD hg)⟩
    exact Nat.lt_of_lt_of_le (hD s hs) h.grows.scopes.length_le

/-- An action does not matter, whatever slot it names. -/
theorem pushAction_coheres (s : ScopeId) (a : Action) : g.Coheres D (g.pushAction s a) := by
  have hgrows (c : Scope) : c.Grows { c with actions := c.actions ++ [a] } :=
    ⟨rfl, rfl, List.prefix_rfl, List.prefix_rfl, List.prefix_append ..⟩
  exact ⟨⟨continues_modify hgrows g.scopes s.index, refl_of _ g.slots⟩, fun _ hg => hg.pushAction s a⟩

end ScopeGraph

namespace GraphM

theorem declare_coheres (hs : D s) (n : String) : Moves (ScopeGraph.Coheres D) (declare s n) := by
  intro g
  refine ⟨(declare_builds (D := D) (E := fun _ => True) hs n g).grows, fun hD hg => ?_⟩
  unfold finalState
  rw [declare_apply]
  cases hn : g.own s n with
  | some x => exact hg
  | none => exact hg.bindSlot (hD s hs) hn

/-- A scope that binds a name refuses to declare it, and nothing changes. -/
theorem declare_bound (hs : s.index < g.scopes.length) (hn : n ∈ g.namesOf s) :
    declare s n g = .error (.duplicateSlot n s) g := by
  obtain ⟨x, hx⟩ := Option.ne_none_iff_exists'.1 ((ScopeGraph.own_ne_none_iff hs).2 hn)
  rw [declare_apply, hx]

theorem declareParam_bound (hs : s.index < g.scopes.length) (hn : n ∈ g.namesOf s) :
    declareParam s n g = .error (.duplicateSlot n s) g := by
  rw [declareParam, bind_apply, declare_bound hs hn]

end GraphM

theorem Extraction.Site.keeps_coheres {site : Extraction.Site} (hs : D site.global) :
    site.Keeps (ScopeGraph.Coheres D) where
  grows := ScopeGraph.Coheres.grows
  declare := GraphM.declare_coheres hs
  record _ := ScopeGraph.pushAction_coheres _ _

namespace ScopeGraph

/-- What can be done with a scope graph. -/
inductive Edit where
  | addScope (kind : ScopeKind) (parent : Option ScopeId)
  | declare (s : ScopeId) (n : String)
  | declareParam (s : ScopeId) (n : String)
  /-- Joins a type into a slot. -/
  | join (x : SlotId) (u : ConcreteType)
  | emit (s : ScopeId) (a : Action)
  /-- Extraction of a text, in parts or as a whole. -/
  | hoist (p : Program) (s : ScopeId) (text : List Stmt)
  | declareGlobals (p : Program) (global : ScopeId) (text : List Stmt)
  | visit (p : Program) (site : Extraction.Site) (text : List Stmt)
  | collect (p : Program) (site : Extraction.Site) (text : List Stmt)

namespace Edit

/-- The graph after an operation, whether it succeeded or failed. -/
def after (g : ScopeGraph) : Edit → ScopeGraph
  | addScope kind parent => finalState (GraphM.addScope kind parent) g
  | declare s n => finalState (GraphM.declare s n) g
  | declareParam s n => finalState (GraphM.declareParam s n) g
  | join x u => (g.unionInto x u).2
  | emit s a => finalState (GraphM.emit s a) g
  | hoist p s text => finalState (Extraction.hoist p s text) g
  | declareGlobals p global text => finalState (ImplicitGlobals.declare p global text) g
  | visit p site text => finalState (Extraction.visit p site text) g
  | collect p site text => finalState (Extraction.collect p site text) g

/-- The scopes that an operation is given. -/
def scopes : Edit → List ScopeId
  | addScope _ parent => parent.toList
  | declare s _ | declareParam s _ | emit s _ | hoist _ s _ | declareGlobals _ s _ => [s]
  | join _ _ => []
  | visit _ site _ | collect _ site _ => [site.global, site.scope]

/-- The scopes that an operation is given exist. -/
def Admissible (g : ScopeGraph) (e : Edit) : Prop := ∀ s ∈ e.scopes, s.index < g.scopes.length

instance (g : ScopeGraph) (e : Edit) : Decidable (e.Admissible g) :=
  inferInstanceAs (Decidable (∀ s ∈ e.scopes, s.index < g.scopes.length))

/-- **An operation keeps a graph coherent**, however it ends. -/
theorem after_coherent (hg : g.Coherent) (e : Edit) (he : e.Admissible g) : (e.after g).Coherent := by
  cases e with
  | addScope kind parent => exact hg.addScope fun t ht => he t (Option.mem_toList.2 ht)
  | declare s n => exact (declare_coheres (List.mem_singleton_self s) n g).coherent he hg
  | declareParam s n =>
    have hs := he s (List.mem_singleton_self s)
    -- a parameter is refused before it is listed, so a failure leaves nothing behind
    by_cases hn : n ∈ g.namesOf s
    · have hfails : after g (declareParam s n) = g := finalState_error (declareParam_bound hs hn)
      rwa [hfails]
    · have hbinds : after g (declareParam s n) = g.bindParam s n := finalState_ok (declareParam_new hs hn)
      rw [hbinds]
      exact hg.bindParam hs ((own_eq_none_iff hs).2 hn)
  | join x u => exact hg.unionInto x u
  | emit s a => exact hg.pushAction s a
  | hoist p s text =>
    have hdeclare := declare_coheres (List.mem_singleton_self s)
    exact (Extraction.hoist_moves p hdeclare text g).coherent he hg
  | declareGlobals p s text =>
    have hdeclare := declare_coheres (List.mem_singleton_self s)
    exact (ImplicitGlobals.declare_moves p hdeclare text g).coherent he hg
  | visit p site text =>
    have hsite : site.global ∈ (visit p site text).scopes := List.mem_cons_self ..
    exact (Extraction.visit_moves p (site.keeps_coheres hsite) text g).coherent he hg
  | collect p site text =>
    have hsite : site.global ∈ (collect p site text).scopes := List.mem_cons_self ..
    have hscope : site.scope ∈ (collect p site text).scopes := List.mem_cons_of_mem _ (List.mem_singleton_self _)
    have hcollect := Extraction.collect_moves p (declare_coheres hscope) (site.keeps_coheres hsite) text
    exact (hcollect g).coherent he hg

/-- Operations that follow each other are admissible, each where it is done. -/
def AllAdmissible : ScopeGraph → List Edit → Prop
  | _, [] => True
  | g, e :: es => e.Admissible g ∧ AllAdmissible (e.after g) es

instance decidableAllAdmissible : (g : ScopeGraph) → (es : List Edit) → Decidable (AllAdmissible g es)
  | _, [] => .isTrue trivial
  | g, e :: es =>
    have := decidableAllAdmissible (e.after g) es
    inferInstanceAs (Decidable (e.Admissible g ∧ AllAdmissible (e.after g) es))

/-- The graph after operations that follow each other. -/
def afterAll (g : ScopeGraph) (es : List Edit) : ScopeGraph := es.foldl after g

theorem afterAll_coherent (es : List Edit) : ∀ {g : ScopeGraph}, g.Coherent → AllAdmissible g es →
    (afterAll g es).Coherent := by
  induction es with
  | nil => exact fun hg _ => hg
  | cons e es ih =>
    intro g hg hes
    have hfirst := e.after_coherent hg hes.1
    exact ih hfirst hes.2

end Edit

/-- **A graph is built** if operations lead there from the empty graph. -/
def Built (g : ScopeGraph) : Prop := ∃ es, Edit.AllAdmissible {} es ∧ Edit.afterAll {} es = g

theorem Built.coherent (hg : g.Built) : g.Coherent := by
  obtain ⟨es, hes, rfl⟩ := hg
  exact Edit.afterAll_coherent es .empty hes

/-! ## Looking up -/

/-- **Looks a name up without a bound**, one scope a round, until a scope declares it or no other follows;
there is no result (`none`) if the rounds are used up. -/
def climb (g : ScopeGraph) (n : String) : Nat → Option ScopeId → Option (Option SlotId)
  | 0, _ => none
  | _ + 1, none => some none
  | m + 1, some s =>
    match g.own s n with
    | some x => some (some x)
    | none => g.climb n m (g.parent? s)

/-- The scope stands inside another. -/
def Inside (g : ScopeGraph) (s t : ScopeId) : Prop := g.parent? s = some t

/-- The scope stands inside another, and binds nothing under the name. -/
def Passes (g : ScopeGraph) (n : String) (s t : ScopeId) : Prop := (∀ x, ¬ g.Binds s n x) ∧ g.Inside s t

namespace Ordered

/-- **Looking up ends**: parents are older, so there are no more rounds than scopes before this one. -/
theorem climb_eq (hg : g.Ordered) (n : String) (s : ScopeId) :
    ∀ m, s.index + 1 < m → g.climb n m (some s) = some (g.lookup s n) := by
  induction s using hg.parent_induction with
  | hP s ih =>
    intro m hm
    obtain ⟨m, rfl⟩ : ∃ i, m = i + 1 := ⟨m - 1, by omega⟩
    rw [climb, hg.lookup_eq]
    cases g.own s n with
    | some x => rfl
    | none =>
      cases ht : g.parent? s with
      | none =>
        obtain ⟨m, rfl⟩ : ∃ i, m = i + 1 := ⟨m - 1, by omega⟩
        rfl
      | some t =>
        have hlt := hg s t ht
        exact ih t ht m (by omega)

end Ordered

namespace Coherent

/-- **A name stands for the slot of the nearest scope upwards that binds it.** -/
theorem lookup_some_iff (hg : g.Coherent) :
    g.lookup s n = some x ↔ ∃ t, ReflTransGen (g.Passes n) s t ∧ g.Binds t n x := by
  induction s using hg.ordered.parent_induction with
  | hP s ih =>
    rw [hg.ordered.lookup_eq]
    cases hown : g.own s n with
    | some y =>
      have hy := hg.own_eq_some_iff.1 hown
      rw [Option.some_or]
      constructor
      · rintro ⟨rfl⟩
        exact ⟨s, .refl, hy⟩
      · rintro ⟨t, hst, hx⟩
        rcases hst.cases_head with rfl | ⟨u, hpass, -⟩
        · rw [← hown]
          exact hg.own_eq_some_iff.2 hx
        · -- the way does not pass a scope that binds the name
          exact absurd hy (hpass.1 y)
    | none =>
      have hfree := hg.own_eq_none_iff_binds.1 hown
      rw [Option.none_or, Option.bind_eq_some_iff]
      constructor
      · rintro ⟨u, hu, hx⟩
        obtain ⟨t, hut, ht⟩ := (ih u hu).1 hx
        exact ⟨t, .head ⟨hfree, hu⟩ hut, ht⟩
      · rintro ⟨t, hst, hx⟩
        rcases hst.cases_head with rfl | ⟨u, hpass, hut⟩
        · exact absurd hx (hfree x)
        · exact ⟨u, hpass.2, (ih u hpass.2).2 ⟨t, hut, hx⟩⟩

/-- A name stands for nothing if no scope upwards binds it. -/
theorem lookup_none_iff (hg : g.Coherent) :
    g.lookup s n = none ↔ ∀ t, ReflTransGen g.Inside s t → ∀ x, ¬ g.Binds t n x := by
  induction s using hg.ordered.parent_induction with
  | hP s ih =>
    rw [hg.ordered.lookup_eq, Option.or_eq_none_iff, hg.own_eq_none_iff_binds]
    constructor
    · rintro ⟨hfree, hrest⟩ t hst
      rcases hst.cases_head with rfl | ⟨u, hu, hut⟩
      · exact hfree
      · have hnone : g.lookup u n = none := by
          rw [show g.parent? s = some u from hu] at hrest
          exact hrest
        exact (ih u hu).1 hnone t hut
    · intro hfree
      refine ⟨hfree s .refl, ?_⟩
      cases hu : g.parent? s with
      | none => rfl
      | some u => exact (ih u hu).2 fun t hut => hfree t (.head hu hut)

end Coherent

/-! ## Everything that is built -/

/-- **Scopes, slots and types are in step.** -/
structure Consistent (g : ScopeGraph) : Prop where
  /-- A slot is bound in one scope only, its owner, under its own name. -/
  bound : ∀ x k, g.slot? x = some k → ∀ s n, g.Binds s n x ↔ s = k.owner ∧ n = k.name
  present : ∀ s n x, g.Binds s n x → ∃ k, g.slot? x = some k
  names : ∀ s, (g.namesOf s).Nodup
  params : ∀ s, (g.paramsOf s).Nodup ∧ ∀ x ∈ g.paramsOf s, ∃ n, g.Binds s n x
  parents : ∀ s t, g.parent? s = some t → t.index < s.index
  canonical : ∀ x k, g.slot? x = some k → k.type.form.Canonical

theorem Coherent.consistent (hg : g.Coherent) : g.Consistent where
  bound _ _ hk _ _ := hg.binds_iff hk
  present _ _ _ hx := (hg.slot_of_binds hx).imp fun _ hk => hk.1
  names := hg.names
  params s := ⟨hg.params s, fun _ => hg.binds_of_param⟩
  parents := hg.ordered
  canonical _ k _ := k.type.canonical_form

end ScopeGraph

open ScopeGraph

/-- **What holds of every scope graph.** However operations follow each other from the empty graph on, and whether
they succeed or fail: scopes, slots and types are in step; a name is declared anew exactly if the scope does not
bind it, and is refused otherwise without any change; and looking up a name ends, with the slot of the nearest
scope upwards that binds it or, if there is none, with nothing. -/
theorem built_consistent (hg : g.Built) :
    g.Consistent ∧
    (∀ s n, s.index < g.scopes.length →
      ((∃ x, g.Binds s n x) → declare s n g = .error (.duplicateSlot n s) g ∧
        declareParam s n g = .error (.duplicateSlot n s) g) ∧
      ((∀ x, ¬ g.Binds s n x) → (∃ x h, declare s n g = .ok x h ∧ h.own s n = some x) ∧
        ∃ x h, declareParam s n g = .ok x h ∧ h.own s n = some x ∧ h.paramsOf s = g.paramsOf s ++ [x])) ∧
    ∀ s n, (∀ m, s.index + 1 < m → g.climb n m (some s) = some (g.lookup s n)) ∧
      (∀ x, g.lookup s n = some x ↔ ∃ t, ReflTransGen (g.Passes n) s t ∧ g.Binds t n x) ∧
      (g.lookup s n = none ↔ ∀ t, ReflTransGen g.Inside s t → ∀ x, ¬ g.Binds t n x) := by
  have hcoherent := hg.coherent
  refine ⟨hcoherent.consistent, fun s n hs => ⟨fun hbinds => ?_, fun hfree => ?_⟩, fun s n => ?_⟩
  · have hn := mem_namesOf_iff.2 hbinds
    exact ⟨declare_bound hs hn, declareParam_bound hs hn⟩
  · have hn : n ∉ g.namesOf s := fun hmem => not_exists.2 hfree (mem_namesOf_iff.1 hmem)
    have hnew := declare_new hs hn
    obtain ⟨-, hparams, hown⟩ := bindParam_layout hs hn
    exact ⟨⟨_, _, hnew, declare_own hs hnew⟩, _, _, declareParam_new hs hn, hown, hparams⟩
  · exact ⟨hcoherent.ordered.climb_eq n s, fun x => hcoherent.lookup_some_iff, hcoherent.lookup_none_iff⟩

/-- A global scope and a body inside it. The second parameter `a` is refused, an action names a slot that is not
there, and the text of the body ends at a `return` that has no place to go, after the global `y` was declared. -/
def draft : List Edit :=
  [.addScope .global none, .addScope (.body ⟨0⟩) (some ⟨0⟩), .declare ⟨0⟩ "x", .declareParam ⟨1⟩ "a",
    .declareParam ⟨1⟩ "a", .join ⟨1⟩ (.object ⟨0⟩), .emit ⟨1⟩ (.assign ⟨9⟩ ⟨.this, none⟩),
    .collect {} ⟨⟨0⟩, ⟨1⟩, false⟩
      [.var "x" none none, .expr ⟨.assign ⟨.name "y", none⟩ ⟨.this, none⟩, none⟩, .ret none]]

def draft.graph : ScopeGraph := Edit.afterAll {} draft

theorem draft.built : draft.graph.Built := ⟨draft, by decide +kernel, rfl⟩

/-- The body binds `x` itself, and finds `y` in the global scope. A third `a` is refused again. -/
theorem draft_consistent :
    (∀ s n, draft.graph.Binds s n ⟨3⟩ ↔ s = ⟨0⟩ ∧ n = "y") ∧
    declareParam ⟨1⟩ "a" draft.graph = .error (.duplicateSlot "a" ⟨1⟩) draft.graph ∧
    draft.graph.climb "y" 3 (some ⟨1⟩) = some (some ⟨3⟩) ∧
    ∃ t, ReflTransGen (draft.graph.Passes "y") ⟨1⟩ t ∧ draft.graph.Binds t "y" ⟨3⟩ := by
  have hslot : (draft.graph.slot? ⟨3⟩).map (fun k => (k.owner, k.name)) = some (⟨0⟩, "y") := by decide +kernel
  have ha : "a" ∈ draft.graph.namesOf ⟨1⟩ := by decide +kernel
  have hy : draft.graph.lookup ⟨1⟩ "y" = some ⟨3⟩ := by decide +kernel
  have hs : 1 < draft.graph.scopes.length := by decide +kernel
  obtain ⟨k, hk, hpair⟩ := Option.map_eq_some_iff.1 hslot
  obtain ⟨howner, hname⟩ := Prod.mk.inj hpair
  obtain ⟨hconsistent, hdeclare, hlookup⟩ := built_consistent draft.built
  obtain ⟨hclimb, hfound, -⟩ := hlookup ⟨1⟩ "y"
  refine ⟨fun s n => ?_, ((hdeclare ⟨1⟩ "a" hs).1 (mem_namesOf_iff.1 ha)).2, ?_, (hfound ⟨3⟩).1 hy⟩
  · rw [hconsistent.bound ⟨3⟩ k hk, howner, hname]
  · rw [hclimb 3 (by decide), hy]

end TypeFlow
