import TypeFlow.Analysis.Creation
import TypeFlow.ImplicitGlobals
import TypeFlow.Proofs.Growth

/-!
# Building the scope graph

A computation on the scope graph that does not join types does little to it
(`ScopeGraph.Builds`): the slots it finds stay as they are, those it adds are empty, and
only some scopes change. It keeps the graph **sound**: parents are older than their
children, and every slot that a scope or an action names is there.

* `ScopeGraph.Sound`: scopes, slots and actions fit together.
* `ScopeGraph.Builds`: what extraction can do to a scope graph.
* `Extraction.hoist_moves`, `visit_moves`, `ImplicitGlobals.declare_moves`: what declaring a name and
  recording an action do to a graph, a whole text does.
* `collect_builds`, `declare_builds`: extraction builds, also when it fails half way.
-/

namespace TypeFlow

/-- The slot that an action is known to write to before it is evaluated. -/
def Action.slot? : Action → Option SlotId
  | .assign x _ => some x
  | .ret x _ => some x
  | .declareFunction x _ => some x
  | .declaredFlow x _ => some x
  | .assignProperty .. | .call .. | .construct .. | .allocate _ => none

/-- What a scope at position `s` names is there. -/
structure Scope.Fits (c : Scope) (g : ScopeGraph) (s : ScopeId) : Prop where
  parent : ∀ t ∈ c.parent, t.index < s.index
  slots : ∀ n x, (n, x) ∈ c.slots → ∃ k, g.slot? x = some k ∧ k.name = n ∧ k.owner = s
  distinct : (c.slots.map Prod.fst).Nodup
  params : ∀ x ∈ c.params, ∃ n, (n, x) ∈ c.slots
  actions : ∀ a ∈ c.actions, ∀ x ∈ a.slot?, x.index < g.slots.length

/-- **A graph is sound** if all its scopes fit, and every slot is the one that its owner
declares under its name. -/
structure ScopeGraph.Sound (g : ScopeGraph) : Prop where
  fits : ∀ s c, g.scope? s = some c → c.Fits g s
  bound : ∀ x k, g.slot? x = some k → g.own k.owner k.name = some x

namespace ScopeGraph

variable {D E D' E' : ScopeId → Prop} {g h : ScopeGraph}

theorem mem_slots_of_own {s : ScopeId} {n : String} {x : SlotId} (h1 : g.own s n = some x) :
    ∃ c, g.scope? s = some c ∧ (n, x) ∈ c.slots := by
  obtain ⟨c, hc, hx⟩ := Option.bind_eq_some_iff.1 h1
  obtain ⟨l, m, hl, -⟩ := List.lookup_eq_some_iff.1 hx
  exact ⟨c, hc, hl ▸ List.mem_append_right l (List.mem_cons_self ..)⟩

theorem slot_lt {x : SlotId} {k : Slot} (h1 : g.slot? x = some k) : x.index < g.slots.length :=
  (List.getElem?_eq_some_iff.1 h1).1

theorem scope_lt {s : ScopeId} {c : Scope} (h1 : g.scope? s = some c) :
    s.index < g.scopes.length :=
  (List.getElem?_eq_some_iff.1 h1).1

theorem Sound.own_lt (hg : g.Sound) {s : ScopeId} {n : String} {x : SlotId}
    (h1 : g.own s n = some x) : x.index < g.slots.length := by
  obtain ⟨c, hc, hx⟩ := mem_slots_of_own h1
  obtain ⟨k, hk, -⟩ := (hg.fits s c hc).slots n x hx
  exact slot_lt hk

theorem Sound.owner_lt (hg : g.Sound) {x : SlotId} {k : Slot} (h1 : g.slot? x = some k) :
    k.owner.index < g.scopes.length := by
  obtain ⟨c, hc, -⟩ := mem_slots_of_own (hg.bound x k h1)
  exact scope_lt hc

theorem Sound.lookup_lt (hg : g.Sound) {s : ScopeId} {n : String} {x : SlotId}
    (h1 : g.lookup s n = some x) : x.index < g.slots.length := by
  obtain ⟨t, -, ht⟩ := List.exists_of_findSome?_eq_some h1
  exact hg.own_lt ht

/-- A scope still fits when slots are added to the graph. -/
theorem fits_append {c : Scope} {s : ScopeId} (hc : c.Fits g s) {new : List Slot}
    (hs : h.slots = g.slots ++ new) : c.Fits h s := by
  refine ⟨hc.parent, fun n x hx => ?_, hc.distinct, hc.params, fun a ha x hx => ?_⟩
  · obtain ⟨k, hk, hn, ho⟩ := hc.slots n x hx
    refine ⟨k, ?_, hn, ho⟩
    unfold slot? at hk ⊢
    rw [hs, List.getElem?_append_left (slot_lt hk), hk]
  · have := hc.actions a ha x hx
    rw [hs, List.length_append]
    omega

/-- **Building**: slots are added to the scopes in `D`, and parameters and actions to the
scopes in `E`; all other scopes stay as they are. Slots are added empty, no type changes,
and a sound graph stays sound if the scopes in `D` are there. -/
structure Builds (D E : ScopeId → Prop) (g h : ScopeGraph) : Prop where
  scopes : ∀ t c, g.scope? t = some c → ∃ d, h.scope? t = some d ∧ c.Grows d ∧
    (¬ D t → d.slots = c.slots) ∧ (¬ E t → d.params = c.params)
  actions : ∀ t, ¬ E t → h.actionsOf t = g.actionsOf t
  slots : ∃ new, h.slots = g.slots ++ new ∧ ∀ x ∈ new, x.type = ∅
  sound : (∀ t, D t → t.index < g.scopes.length) → g.Sound → h.Sound

theorem Builds.grows (h1 : g.Builds D E h) : g.Grows h := by
  obtain ⟨new, hn, -⟩ := h1.slots
  refine ⟨fun i c hc => ?_, hn ▸ continues_append g.slots new⟩
  obtain ⟨d, hd, hcd, -⟩ := h1.scopes ⟨i⟩ c hc
  exact ⟨d, hd, hcd⟩

instance : IsPreorder ScopeGraph (Builds D E) where
  refl g := ⟨fun _ c hc => ⟨c, hc, refl_of _ c, fun _ => rfl, fun _ => rfl⟩, fun _ _ => rfl,
    ⟨[], by simp⟩, fun _ => id⟩
  trans _ _ _ h k := by
    refine ⟨fun t c hc => ?_, fun t ht => (k.actions t ht).trans (h.actions t ht), ?_, fun hD hs => ?_⟩
    · obtain ⟨d, hd, hcd, h1, h2⟩ := h.scopes t c hc
      obtain ⟨e, he, hde, k1, k2⟩ := k.scopes t d hd
      exact ⟨e, he, trans_of _ hcd hde, fun ht => (k1 ht).trans (h1 ht),
        fun ht => (k2 ht).trans (h2 ht)⟩
    · obtain ⟨new, hn, hnew⟩ := h.slots
      obtain ⟨more, hm, hmore⟩ := k.slots
      refine ⟨new ++ more, by rw [hm, hn, List.append_assoc], fun x hx => ?_⟩
      exact (List.mem_append.1 hx).elim (hnew x) (hmore x)
    · exact k.sound (fun t ht => Nat.lt_of_lt_of_le (hD t ht) h.grows.scopes.length_le) (h.sound hD hs)

/-- Growing keeps the names that are declared. -/
theorem Grows.own (h1 : g.Grows h) {s : ScopeId} {n : String} {x : SlotId}
    (hx : g.own s n = some x) : h.own s n = some x := by
  obtain ⟨c, hc, hx⟩ := Option.bind_eq_some_iff.1 hx
  obtain ⟨d, hd, hcd⟩ := h1.scopes s.index c hc
  obtain ⟨l, hl⟩ := hcd.slots
  have hd : h.scope? s = some d := hd
  unfold ScopeGraph.own
  rw [hd, Option.bind_some, ← hl, List.lookup_append, hx, Option.some_or]

theorem findSome?_congr {α β : Type} {f f' : α → Option β} {l : List α} (h : ∀ x ∈ l, f x = f' x) :
    l.findSome? f = l.findSome? f' := by
  induction l with
  | nil => rfl
  | cons x l ih =>
    rw [List.findSome?_cons, List.findSome?_cons, h x (List.mem_cons_self ..),
      ih fun y hy => h y (List.mem_cons_of_mem _ hy)]

/-- The way upwards depends on the parents of the scopes on it. -/
theorem chainWithin_congr {P : ScopeId → Prop} (hp : ∀ t, P t → h.parent? t = g.parent? t)
    (hup : ∀ t u, P t → g.parent? t = some u → P u) : ∀ (n : Nat) {s : ScopeId}, P s →
      h.chainWithin n s = g.chainWithin n s ∧ ∀ t ∈ g.chainWithin n s, P t
  | 0, _, _ => ⟨rfl, fun _ h => absurd h List.not_mem_nil⟩
  | n + 1, s, hs => by
    unfold chainWithin
    rw [hp s hs]
    cases ht : g.parent? s with
    | none =>
      refine ⟨rfl, fun t ht => ?_⟩
      rw [List.mem_singleton.1 ht]
      exact hs
    | some t =>
      obtain ⟨h1, h2⟩ := chainWithin_congr hp hup n (hup s t hs ht)
      refine ⟨congrArg _ h1, fun u hu => ?_⟩
      rcases List.mem_cons.1 hu with rfl | hu
      · exact hs
      · exact h2 u hu

/-- What a name stands for depends on the scopes on the way upwards. -/
theorem lookup_congr {P : ScopeId → Prop} (hp : ∀ t, P t → h.parent? t = g.parent? t)
    (hup : ∀ t u, P t → g.parent? t = some u → P u) {n : String}
    (ho : ∀ t, P t → h.own t n = g.own t n) {s : ScopeId} (hs : P s) : h.lookup s n = g.lookup s n := by
  obtain ⟨h1, h2⟩ := chainWithin_congr hp hup (s.index + 1) hs
  unfold lookup chain
  rw [h1]
  exact findSome?_congr fun t ht => ho t (h2 t ht)

theorem own_of_scopes_eq (hs : h.scopes = g.scopes) (s : ScopeId) (n : String) : h.own s n = g.own s n := by
  unfold own scope?
  rw [hs]

theorem lookup_of_scopes_eq (hs : h.scopes = g.scopes) (s : ScopeId) (n : String) :
    h.lookup s n = g.lookup s n := by
  refine lookup_congr (P := fun _ => True) (fun t _ => ?_) (fun _ _ _ _ => trivial)
    (fun t _ => own_of_scopes_eq hs t n) trivial
  unfold parent? scope?
  rw [hs]

theorem scope?_modifyScope (g : ScopeGraph) (s t : ScopeId) (f : Scope → Scope) :
    (g.modifyScope s f).scope? t = (g.scope? t).map fun c => if s = t then f c else c := by
  unfold modifyScope scope?
  rw [List.getElem?_modify]
  cases s; cases t; simp

theorem own_modifyScope (g : ScopeGraph) {s : ScopeId} {f : Scope → Scope}
    (hf : ∀ c, (f c).slots = c.slots) (t : ScopeId) (n : String) :
    (g.modifyScope s f).own t n = g.own t n := by
  unfold own
  rw [scope?_modifyScope]
  cases g.scope? t with
  | none => rfl
  | some c =>
    rw [Option.map_some, Option.bind_some, Option.bind_some]
    split
    · rw [hf]
    · rfl

/-- Changing one scope keeps a graph sound if the scope still fits and has the same slots. -/
theorem Sound.modifyScope (hg : g.Sound) {s : ScopeId} {f : Scope → Scope}
    (hslots : ∀ c, (f c).slots = c.slots) (hf : ∀ c, g.scope? s = some c → (f c).Fits g s) :
    (g.modifyScope s f).Sound := by
  refine ⟨fun t c hc => ?_, fun x k hk => (own_modifyScope g hslots _ _).trans (hg.bound x k hk)⟩
  rw [scope?_modifyScope] at hc
  obtain ⟨d, hd, rfl⟩ := Option.map_eq_some_iff.1 hc
  have happend : (g.modifyScope s f).slots = g.slots ++ [] := (List.append_nil _).symm
  by_cases hst : s = t
  · subst hst
    rw [if_pos rfl]
    exact fits_append (hf d hd) happend
  · rw [if_neg hst]
    exact fits_append (hg.fits t d hd) happend

theorem modifyScope_builds {s : ScopeId} {f : Scope → Scope} (hf : ∀ c : Scope, c.Grows (f c))
    (hslots : ∀ c, (f c).slots = c.slots)
    (hE : E s ∨ ∀ c, (f c).params = c.params ∧ (f c).actions = c.actions)
    (hs : g.Sound → ∀ c, g.scope? s = some c → (f c).Fits g s) :
    g.Builds D E (g.modifyScope s f) := by
  refine ⟨fun t c hc => ?_, fun t ht => ?_, ⟨[], by simp [ScopeGraph.modifyScope]⟩,
    fun _ hg => hg.modifyScope hslots (hs hg)⟩
  · rw [scope?_modifyScope, hc, Option.map_some]
    by_cases hst : s = t
    · subst hst
      rw [if_pos rfl]
      exact ⟨_, rfl, hf c, fun _ => hslots c, fun h => (hE.resolve_left h c).1⟩
    · rw [if_neg hst]
      exact ⟨_, rfl, refl_of _ c, fun _ => rfl, fun _ => rfl⟩
  · unfold actionsOf
    rw [scope?_modifyScope]
    cases g.scope? t with
    | none => rfl
    | some c =>
      rw [Option.map_some, Option.map_some, Option.map_some]
      by_cases hst : s = t
      · rw [if_pos hst, (hE.resolve_left (hst ▸ ht) c).2]
      · rw [if_neg hst]

theorem not_mem_of_own {s : ScopeId} {n : String} {c : Scope} (hc : g.scope? s = some c)
    (hn : g.own s n = none) : n ∉ c.slots.map Prod.fst := by
  unfold own at hn
  rw [hc, Option.bind_some, List.lookup_eq_none_iff] at hn
  intro hmem
  obtain ⟨y, hy, rfl⟩ := List.mem_map.1 hmem
  simpa using hn y hy

theorem scope?_bindSlot (g : ScopeGraph) (s t : ScopeId) (n : String) :
    (g.bindSlot s n).scope? t = (g.scope? t).map fun c =>
      if s = t then { c with slots := c.slots ++ [(n, ⟨g.slots.length⟩)] } else c :=
  scope?_modifyScope g s t _

/-- A new slot is what its name stands for in its scope, and nothing else changes. -/
theorem own_bindSlot {s : ScopeId} {n : String} (hs : s.index < g.scopes.length) (hn : g.own s n = none)
    (t : ScopeId) (m : String) : (g.bindSlot s n).own t m =
      if s = t ∧ n = m then some ⟨g.slots.length⟩ else g.own t m := by
  unfold own at hn ⊢
  rw [scope?_bindSlot]
  by_cases hst : s = t
  · subst hst
    obtain ⟨c, hc⟩ : ∃ c, g.scope? s = some c := ⟨_, List.getElem?_eq_getElem hs⟩
    rw [hc, Option.bind_some] at hn ⊢
    rw [Option.map_some, if_pos rfl, Option.bind_some, List.lookup_append]
    by_cases hnm : n = m
    · subst hnm
      rw [hn, if_pos ⟨rfl, rfl⟩]
      simp
    · rw [if_neg fun h => hnm h.2, List.lookup_cons, beq_false_of_ne (Ne.symm hnm)]
      simp
  · rw [if_neg fun h => hst h.1]
    cases g.scope? t with
    | none => rfl
    | some c => rw [Option.map_some, if_neg hst]

/-- A new slot under a new name keeps a graph sound. -/
theorem Sound.bindSlot (hg : g.Sound) {s : ScopeId} {n : String} (hs : s.index < g.scopes.length)
    (hn : g.own s n = none) : (g.bindSlot s n).Sound := by
  refine ⟨fun t c hc => ?_, fun x k hk => ?_⟩
  · rw [scope?_bindSlot] at hc
    obtain ⟨d, hd, rfl⟩ := Option.map_eq_some_iff.1 hc
    have hd' : d.Fits (g.bindSlot s n) t := fits_append (hg.fits t d hd) rfl
    by_cases hst : s = t
    · subst hst
      rw [if_pos rfl]
      refine ⟨hd'.parent, fun m x hx => ?_, ?_, fun x hx => ?_, hd'.actions⟩
      · rcases List.mem_append.1 hx with h1 | h1
        · exact hd'.slots m x h1
        · obtain ⟨rfl, rfl⟩ := Prod.mk.inj (List.mem_singleton.1 h1)
          exact ⟨⟨m, s, ∅⟩, by simp [slot?, ScopeGraph.bindSlot], rfl, rfl⟩
      · rw [List.map_append, List.nodup_append]
        refine ⟨hd'.distinct, by simp, fun x hx y hy hxy => ?_⟩
        have hxn : x = n := hxy.trans (List.mem_singleton.1 hy)
        exact not_mem_of_own hd hn (hxn ▸ hx)
      · obtain ⟨m, hm⟩ := hd'.params x hx
        exact ⟨m, List.mem_append_left _ hm⟩
    · rw [if_neg hst]
      exact hd'
  · rw [own_bindSlot hs hn]
    have hk : (g.slots ++ [⟨n, s, ∅⟩])[x.index]? = some k := hk
    rcases Nat.lt_or_ge x.index g.slots.length with hx | hx
    · rw [List.getElem?_append_left hx] at hk
      have hb := hg.bound x k hk
      rw [if_neg, hb]
      rintro ⟨hs, hn'⟩
      rw [← hs, ← hn', hn] at hb
      cases hb
    · have hlt := (List.getElem?_eq_some_iff.1 hk).1
      rw [List.length_append, List.length_singleton] at hlt
      have hx : x.index = g.slots.length := by omega
      rw [hx, List.getElem?_concat_length] at hk
      cases hk
      rw [if_pos ⟨rfl, rfl⟩, ← hx]

theorem bindSlot_builds {s : ScopeId} (hs : D s) {n : String} (hn : g.own s n = none) :
    g.Builds D E (g.bindSlot s n) := by
  refine ⟨fun t c hc => ?_, fun t _ => ?_, ⟨[⟨n, s, ∅⟩], rfl, by simp⟩,
    fun hD hg => hg.bindSlot (hD s hs) hn⟩
  · rw [scope?_bindSlot, hc, Option.map_some]
    by_cases hst : s = t
    · subst hst
      rw [if_pos rfl]
      exact ⟨_, rfl, ⟨rfl, rfl, List.prefix_append .., List.prefix_rfl, List.prefix_rfl⟩,
        fun h => absurd hs h, fun _ => rfl⟩
    · rw [if_neg hst]
      exact ⟨_, rfl, refl_of _ c, fun _ => rfl, fun _ => rfl⟩
  · unfold actionsOf
    rw [scope?_bindSlot]
    cases g.scope? t with
    | none => rfl
    | some c =>
      rw [Option.map_some, Option.map_some, Option.map_some]
      split <;> rfl

theorem scope?_addScope {kind : ScopeKind} {parent : Option ScopeId} {s : ScopeId} {c : Scope}
    (hc : scope? { g with scopes := g.scopes ++ [{ kind, parent }] } s = some c) :
    g.scope? s = some c ∨ s.index = g.scopes.length ∧ c = { kind, parent } := by
  unfold scope? at hc ⊢
  rcases Nat.lt_or_ge s.index g.scopes.length with hs | hs
  · rw [List.getElem?_append_left hs] at hc
    exact .inl hc
  · obtain ⟨hlt, -⟩ := List.getElem?_eq_some_iff.1 hc
    rw [List.length_append, List.length_singleton] at hlt
    have hs : s.index = g.scopes.length := by omega
    rw [hs, List.getElem?_concat_length] at hc
    cases hc
    exact .inr ⟨hs, rfl⟩

/-- A new scope has no actions. -/
theorem actionsOf_addScope (g : ScopeGraph) (kind : ScopeKind) (parent : Option ScopeId) (t : ScopeId) :
    actionsOf { g with scopes := g.scopes ++ [{ kind, parent }] } t = g.actionsOf t := by
  unfold actionsOf
  cases hc : scope? { g with scopes := g.scopes ++ [{ kind, parent }] } t with
  | none =>
    have hn := List.getElem?_eq_none_iff.1 hc
    rw [List.length_append] at hn
    rw [show g.scope? t = none from List.getElem?_eq_none_iff.2 (by omega)]
  | some c =>
    rcases scope?_addScope hc with h1 | ⟨ht, rfl⟩
    · rw [h1]
    · rw [show g.scope? t = none from List.getElem?_eq_none_iff.2 (by omega)]
      rfl

theorem Sound.addScope (hg : g.Sound) {kind : ScopeKind} {parent : Option ScopeId}
    (hp : ∀ t ∈ parent, t.index < g.scopes.length) :
    Sound { g with scopes := g.scopes ++ [{ kind, parent }] } := by
  refine ⟨fun s c hc => ?_, fun x k hk => ?_⟩
  · rcases scope?_addScope hc with h1 | ⟨hs, rfl⟩
    · exact fits_append (hg.fits s c h1) (List.append_nil _).symm
    · refine ⟨fun t ht => hs ▸ hp t ht, ?_, .nil, ?_, ?_⟩ <;> simp
  · have hb := hg.bound x k hk
    unfold own scope? at hb ⊢
    rwa [List.getElem?_append_left (hg.owner_lt hk)]

end ScopeGraph

open ScopeGraph

variable {D E : ScopeId → Prop}

namespace GraphM

theorem declare_apply (s : ScopeId) (x : String) (g : ScopeGraph) :
    declare s x g = match g.own s x with
      | some _ => .error (.duplicateSlot x s) g
      | none => .ok ⟨g.slots.length⟩ (g.bindSlot s x) := by
  change (match g.own s x with
      | some _ => throw (.duplicateSlot x s)
      | none => do set (g.bindSlot s x); return ⟨g.slots.length⟩ : GraphM SlotId) g = _
  cases g.own s x <;> rfl

theorem addScope_builds {g h : ScopeGraph} {kind : ScopeKind} {parent : Option ScopeId} {s : ScopeId}
    (hp : ∀ t ∈ parent, t.index < g.scopes.length) (hs : addScope kind parent g = .ok s h) :
    g.Builds D E h := by
  cases hs
  refine ⟨fun t c hc => ⟨c, ?_, refl_of _ c, fun _ => rfl, fun _ => rfl⟩,
    fun t _ => actionsOf_addScope g kind parent t, ⟨[], (List.append_nil _).symm, by simp⟩,
    fun _ hg => hg.addScope hp⟩
  exact (List.getElem?_append_left (scope_lt hc)).trans hc

theorem declare_builds {s : ScopeId} (hs : D s) (x : String) :
    Moves (Builds D E) (declare s x) := by
  intro g
  unfold finalState
  rw [declare_apply]
  cases hx : g.own s x with
  | some y => exact refl_of _ g
  | none => exact bindSlot_builds hs hx

theorem declare_ok {s : ScopeId} {n : String} {g h : ScopeGraph} {x : SlotId}
    (hx : declare s n g = .ok x h) :
    g.own s n = none ∧ x = ⟨g.slots.length⟩ ∧ h = g.bindSlot s n := by
  rw [declare_apply] at hx
  cases hn : g.own s n with
  | some y => rw [hn] at hx; cases hx
  | none =>
    rw [hn] at hx
    cases hx
    exact ⟨rfl, rfl, rfl⟩

/-- A new slot is in the scope that declares it. -/
theorem mem_slots_of_declare {s : ScopeId} {n : String} {g h : ScopeGraph} {x : SlotId} {c : Scope}
    (hx : declare s n g = .ok x h) (hc : h.scope? s = some c) : (n, x) ∈ c.slots := by
  obtain ⟨-, rfl, rfl⟩ := declare_ok hx
  rw [scope?_bindSlot] at hc
  obtain ⟨d, -, rfl⟩ := Option.map_eq_some_iff.1 hc
  rw [if_pos rfl]
  exact List.mem_append_right _ (List.mem_singleton_self _)

theorem declare_lt {s : ScopeId} {n : String} {g h : ScopeGraph} {x : SlotId}
    (hx : declare s n g = .ok x h) : x.index < h.slots.length := by
  obtain ⟨-, rfl, rfl⟩ := declare_ok hx
  simp [bindSlot]

theorem declareParam_builds {s : ScopeId} (hs : D s) (he : E s) (x : String) :
    Moves (Builds D E) (declareParam s x) := by
  intro g
  refine (declare_builds hs x).bind_at fun y h hy => ?_
  refine modifyScope_builds (f := fun c => { c with params := c.params ++ [y] })
    (fun _ => ⟨rfl, rfl, List.prefix_rfl, List.prefix_append .., List.prefix_rfl⟩)
    (fun _ => rfl) (.inl he) fun hg c hc => ?_
  have hf := hg.fits s c hc
  refine ⟨hf.parent, hf.slots, hf.distinct, fun z hz => ?_, hf.actions⟩
  rcases List.mem_append.1 hz with h1 | h1
  · exact hf.params z h1
  · rw [List.mem_singleton.1 h1]
    have hmem : (x, y) ∈ c.slots := mem_slots_of_declare hy hc
    exact ⟨x, hmem⟩

theorem declareOnce_moves {R : ScopeGraph → ScopeGraph → Prop} [IsPreorder ScopeGraph R] {s : ScopeId} {x : String}
    (hs : Moves R (declare s x)) : Moves R (declareOnce s x) := by
  unfold declareOnce
  refine moves_get.bind fun g => ?_
  split
  · exact moves_pure _
  · exact hs.bind fun _ => moves_pure _

theorem pushAction_builds {s : ScopeId} (hs : E s) {a : Action} {g : ScopeGraph}
    (ha : g.Sound → ∀ x ∈ a.slot?, x.index < g.slots.length) : g.Builds D E (g.pushAction s a) := by
  refine modifyScope_builds (f := fun c => { c with actions := c.actions ++ [a] })
    (fun _ => ⟨rfl, rfl, List.prefix_rfl, List.prefix_rfl, List.prefix_append ..⟩)
    (fun _ => rfl) (.inl hs) fun hg c hc => ?_
  have hf := hg.fits s c hc
  refine ⟨hf.parent, hf.slots, hf.distinct, hf.params, fun b hb x hx => ?_⟩
  rcases List.mem_append.1 hb with h1 | h1
  · exact hf.actions b h1 x hx
  · rw [List.mem_singleton.1 h1] at hx
    exact ha hg x hx

end GraphM

open GraphM

theorem demandFunction_moves {σ : Type} {R : σ → σ → Prop} [IsPreorder σ R] (p : Program)
    (f : FunctionId) : Moves R (p.demandFunction f : EStateM Fault σ FunctionDecl) := by
  unfold Program.demandFunction FunctionRegistry.demand
  split
  · exact moves_pure _
  · exact moves_throw _

/-- The slot that an action is known to write to is there, or stands under a name. -/
def ScopeGraph.Offers (g : ScopeGraph) (a : Action) : Prop :=
  ∀ x ∈ a.slot?, x.index < g.slots.length ∨ ∃ s n, g.own s n = some x

theorem ScopeGraph.Sound.offers {g : ScopeGraph} (hg : g.Sound) {a : Action} (ha : g.Offers a) :
    ∀ x ∈ a.slot?, x.index < g.slots.length := by
  intro x hx
  rcases ha x hx with hlt | ⟨s, n, hn⟩
  · exact hlt
  · exact hg.own_lt hn

namespace Extraction

/-! ### What extraction keeps

Extraction declares names and records actions. Whatever these steps do to a graph, a whole
text does. -/

/-- Declaring a global name and recording an action of the body are steps of `R`, which takes nothing back. -/
structure Site.Keeps (site : Site) (R : ScopeGraph → ScopeGraph → Prop) : Prop where
  grows : ∀ {g h}, R g h → g.Grows h
  declare : ∀ x, Moves R (declare site.global x)
  record : ∀ {g a}, g.Offers a → R g (g.pushAction site.scope a)

variable {R : ScopeGraph → ScopeGraph → Prop} [IsPreorder ScopeGraph R] {site : Site} (p : Program)

mutual

theorem hoistStmt_moves {s : ScopeId} (hs : ∀ x, Moves R (declare s x)) : ∀ st, Moves R (hoistStmt p s st)
  | .var x _ _ => declareOnce_moves (hs x)
  | .function f => by
    refine (demandFunction_moves p f).bind fun d => ?_
    split
    · exact declareOnce_moves (hs _)
    · exact moves_pure _
  | .expr _ => moves_pure _
  | .ret _ => moves_pure _
  | .branch _ yes no => (hoist_moves hs yes).bind fun _ => hoist_moves hs no
  | .loop _ body => hoist_moves hs body
  | .block body => hoist_moves hs body
termination_by structural st => st

/-- **Hoisting does what declaring one name after the other does.** -/
theorem hoist_moves {s : ScopeId} (hs : ∀ x, Moves R (declare s x)) : ∀ sts, Moves R (hoist p s sts)
  | [] => moves_pure _
  | st :: rest => (hoistStmt_moves hs st).bind fun _ => hoist_moves hs rest
termination_by structural sts => sts

end

theorem targetSlot_moves (h : site.Keeps R) (x : String) : Moves R (targetSlot site x) := by
  unfold targetSlot
  refine moves_get.bind fun g => ?_
  split
  · exact moves_pure _
  · exact h.declare x

/-- The target of an assignment is found under its name, or is new. -/
theorem targetSlot_offers {x : String} {value : Expr} {g h : ScopeGraph} {y : SlotId}
    (hy : targetSlot site x g = .ok y h) : h.Offers (.assign y value) := by
  intro z hz
  cases hz
  have hy : (match g.lookup site.scope x with
    | some slot => pure slot
    | none => declare site.global x : GraphM SlotId) g = .ok y h := hy
  cases hl : g.lookup site.scope x with
  | some slot =>
    rw [hl] at hy
    cases hy
    obtain ⟨t, -, ht⟩ := List.exists_of_findSome?_eq_some hl
    exact .inr ⟨t, x, ht⟩
  | none =>
    rw [hl] at hy
    exact .inl (declare_lt hy)

omit [IsPreorder ScopeGraph R] in
theorem Site.Keeps.emit (h : site.Keeps R) {a : Action} (ha : a.slot? = none) :
    Moves R (emit site.scope a) :=
  fun _ => h.record fun x hx => by rw [ha] at hx; cases hx

/-- An action may be recorded on a slot that a scope declared before something else was done. -/
theorem Site.Keeps.bind_emit (h : site.Keeps R) {a : Action} {s : ScopeId} {n : String} {y : SlotId}
    {g : ScopeGraph} {x : GraphM Unit} (hx : Moves R x) (hy : g.own s n = some y)
    (ha : ∀ z ∈ a.slot?, z = y) : R g (finalState (x >>= fun _ => GraphM.emit site.scope a) g) := by
  refine hx.bind_at fun _ k hgk => h.record fun z hz => .inr ⟨s, n, ?_⟩
  rw [ha z hz]
  exact (h.grows (hx.ok hgk)).own hy

mutual

theorem visitExpr_moves (h : site.Keeps R) : ∀ e, Moves R (visitExpr site e)
  | ⟨.name _, _⟩ => moves_pure _
  | ⟨.this, _⟩ => moves_pure _
  | ⟨.literal, _⟩ => moves_pure _
  | ⟨.function _, _⟩ => moves_pure _
  | ⟨.assign target value, _⟩ => by
    have ht := visitExpr_moves h target
    unfold visitExpr
    refine (visitExpr_moves h value).bind fun _ => ?_
    split
    · intro g
      exact (targetSlot_moves h _).bind_at fun y k hy => h.record (targetSlot_offers hy)
    · exact ht.bind fun _ => h.emit rfl
    · exact ht
  | ⟨.call callee args, _⟩ => (visitExpr_moves h callee).bind fun _ =>
    (visitExprs_moves h args).bind fun _ => h.emit rfl
  | ⟨.construct callee args, _⟩ => (visitExpr_moves h callee).bind fun _ =>
    (visitExprs_moves h args).bind fun _ => h.emit rfl
  | ⟨.objectLit entries, _⟩ => (h.emit rfl).bind fun _ => visitEntries_moves h _ entries
  | ⟨.arrayLit elements, _⟩ => (h.emit rfl).bind fun _ => visitExprs_moves h elements
  | ⟨.prop receiver _, _⟩ => visitExpr_moves h receiver
  | ⟨.elem receiver index, _⟩ => (visitExpr_moves h receiver).bind fun _ => visitExpr_moves h index
  | ⟨.comma operands, _⟩ => visitExprs_moves h operands
  | ⟨.unknown operands, _⟩ => visitExprs_moves h operands
  | ⟨.and left right, _⟩ => (visitExpr_moves h left).bind fun _ => visitExpr_moves h right
  | ⟨.or left right, _⟩ => (visitExpr_moves h left).bind fun _ => visitExpr_moves h right
  | ⟨.cond test yes no, _⟩ => (visitExpr_moves h test).bind fun _ =>
    (visitExpr_moves h yes).bind fun _ => visitExpr_moves h no
termination_by structural e => e

theorem visitExprs_moves (h : site.Keeps R) : ∀ es, Moves R (visitExprs site es)
  | [] => moves_pure _
  | e :: es => (visitExpr_moves h e).bind fun _ => visitExprs_moves h es
termination_by structural es => es

theorem visitEntries_moves (h : site.Keeps R) (literal : Expr) : ∀ es, Moves R (visitEntries site literal es)
  | [] => moves_pure _
  | ⟨_, value⟩ :: rest => (visitExpr_moves h value).bind fun _ =>
    (h.emit rfl).bind fun _ => visitEntries_moves h literal rest
termination_by structural es => es

end

mutual

theorem visitStmt_moves (h : site.Keeps R) : ∀ st, Moves R (visitStmt p site st)
  | .var x value declared => by
    rw [visitStmt]
    refine moves_get_bind fun g => ?_
    cases hx : g.own site.scope x with
    | none => exact refl_of _ g
    | some slot =>
      match value, declared with
      | some e, _ => exact h.bind_emit (visitExpr_moves h e) hx (by simp [Action.slot?])
      | none, some d =>
        dsimp only
        split
        · exact h.record fun z hz => by cases hz; exact .inr ⟨_, _, hx⟩
        · exact refl_of _ g
      | none, none => exact refl_of _ g
  | .function f => by
    rw [visitStmt]
    refine (demandFunction_moves p f).bind fun d => moves_get_bind fun g => ?_
    cases hx : d.name.bind (g.own site.scope) with
    | none => exact refl_of _ g
    | some slot =>
      obtain ⟨n, -, hn⟩ := Option.bind_eq_some_iff.1 hx
      exact h.record fun z hz => by cases hz; exact .inr ⟨_, _, hn⟩
  | .expr e => visitExpr_moves h e
  | .ret value => by
    rw [visitStmt]
    refine moves_get_bind fun g => ?_
    cases hx : g.own site.scope SlotName.ret with
    | none => exact refl_of _ g
    | some slot =>
      match value with
      | some e => exact h.bind_emit (visitExpr_moves h e) hx (by simp [Action.slot?])
      | none => exact refl_of _ g
  | .branch test yes no => (visitExpr_moves h test).bind fun _ =>
    (visit_moves h yes).bind fun _ => visit_moves h no
  | .loop test body => (visitExpr_moves h test).bind fun _ => visit_moves h body
  | .block body => visit_moves h body
termination_by structural st => st

/-- **Recording the actions of a text** does what its single steps do. -/
theorem visit_moves (h : site.Keeps R) : ∀ sts, Moves R (visit p site sts)
  | [] => moves_pure _
  | st :: rest => (visitStmt_moves h st).bind fun _ => visit_moves h rest
termination_by structural sts => sts

end

theorem collect_moves (hs : ∀ x, Moves R (declare site.scope x)) (h : site.Keeps R) (body : List Stmt) :
    Moves R (collect p site body) :=
  (hoist_moves p hs body).bind fun _ => visit_moves p h body

/-! ### What extraction builds -/

theorem hoist_builds {s : ScopeId} (hs : D s) (sts : List Stmt) : Moves (Builds D E) (hoist p s sts) :=
  hoist_moves p (declare_builds hs) sts

theorem Site.keeps_builds (hg : D site.global) (hs : E site.scope) : site.Keeps (Builds D E) where
  grows := Builds.grows
  declare := declare_builds hg
  record ha := pushAction_builds hs fun hh => hh.offers ha

theorem visit_builds (hg : D site.global) (hs : E site.scope) (sts : List Stmt) :
    Moves (Builds D E) (visit p site sts) :=
  visit_moves p (site.keeps_builds hg hs) sts

/-- Extraction declares names in the scope of the body and in the global scope, and records
actions in the scope of the body. -/
theorem collect_builds (hg : D site.global) (hd : D site.scope) (hs : E site.scope)
    (body : List Stmt) : Moves (Builds D E) (collect p site body) :=
  collect_moves p (declare_builds hd) (site.keeps_builds hg hs) body

end Extraction

namespace ImplicitGlobals

variable {R : ScopeGraph → ScopeGraph → Prop}

/-- A step of the walk moves the graph that it carries. -/
def Carries (R : ScopeGraph → ScopeGraph → Prop) (v w : Walk) : Prop := R v.graph w.graph

variable [IsPreorder ScopeGraph R] (p : Program) {global : ScopeId}

instance : IsPreorder Walk (Carries R) where
  refl w := refl_of R w.graph
  trans _ _ _ h k := trans_of R h k

theorem assigned_moves (hg : ∀ x, Moves R (GraphM.declare global x)) (bound : List String) (x : String) :
    Moves (Carries R) (assigned global bound x) := by
  intro w
  unfold assigned
  by_cases hx : x ∈ bound
  · simp only [finalState, hx, if_true]
    exact refl_of (Carries R) w
  · have h := declareOnce_moves (hg x) w.graph
    simp only [finalState, hx, if_false] at h ⊢
    cases hw : declareOnce global x w.graph with
    | ok u g => rw [hw] at h; exact h
    | error e g => rw [hw] at h; exact h

section Walk

variable {enter : FunctionId → WalkM Unit} {bound : List String}

mutual

theorem walkExpr_moves (hg : ∀ x, Moves R (GraphM.declare global x)) (he : ∀ f, Moves (Carries R) (enter f)) :
    ∀ e, Moves (Carries R) (walkExpr enter global bound e)
  | ⟨.name _, _⟩ => moves_pure _
  | ⟨.this, _⟩ => moves_pure _
  | ⟨.literal, _⟩ => moves_pure _
  | ⟨.function f, _⟩ => he f
  | ⟨.assign target value, _⟩ => by
    have ht := walkExpr_moves hg he target
    unfold walkExpr
    refine (walkExpr_moves hg he value).bind fun _ => ?_
    split
    · exact assigned_moves hg bound _
    · exact ht
  | ⟨.call callee args, _⟩ => (walkExpr_moves hg he callee).bind fun _ => walkExprs_moves hg he args
  | ⟨.construct callee args, _⟩ => (walkExpr_moves hg he callee).bind fun _ =>
    walkExprs_moves hg he args
  | ⟨.objectLit entries, _⟩ => walkEntries_moves hg he entries
  | ⟨.arrayLit elements, _⟩ => walkExprs_moves hg he elements
  | ⟨.prop receiver _, _⟩ => walkExpr_moves hg he receiver
  | ⟨.elem receiver index, _⟩ => (walkExpr_moves hg he receiver).bind fun _ =>
    walkExpr_moves hg he index
  | ⟨.comma operands, _⟩ => walkExprs_moves hg he operands
  | ⟨.unknown operands, _⟩ => walkExprs_moves hg he operands
  | ⟨.and left right, _⟩ => (walkExpr_moves hg he left).bind fun _ => walkExpr_moves hg he right
  | ⟨.or left right, _⟩ => (walkExpr_moves hg he left).bind fun _ => walkExpr_moves hg he right
  | ⟨.cond test yes no, _⟩ => (walkExpr_moves hg he test).bind fun _ =>
    (walkExpr_moves hg he yes).bind fun _ => walkExpr_moves hg he no
termination_by structural e => e

theorem walkExprs_moves (hg : ∀ x, Moves R (GraphM.declare global x)) (he : ∀ f, Moves (Carries R) (enter f)) :
    ∀ es, Moves (Carries R) (walkExprs enter global bound es)
  | [] => moves_pure _
  | e :: es => (walkExpr_moves hg he e).bind fun _ => walkExprs_moves hg he es
termination_by structural es => es

theorem walkEntries_moves (hg : ∀ x, Moves R (GraphM.declare global x)) (he : ∀ f, Moves (Carries R) (enter f)) :
    ∀ es, Moves (Carries R) (walkEntries enter global bound es)
  | [] => moves_pure _
  | ⟨_, value⟩ :: rest => (walkExpr_moves hg he value).bind fun _ => walkEntries_moves hg he rest
termination_by structural es => es

end

mutual

theorem walkStmt_moves (hg : ∀ x, Moves R (GraphM.declare global x)) (he : ∀ f, Moves (Carries R) (enter f)) :
    ∀ st, Moves (Carries R) (walkStmt enter global bound st)
  | .var _ (some e) _ => walkExpr_moves hg he e
  | .var _ none _ => moves_pure _
  | .function f => he f
  | .expr e => walkExpr_moves hg he e
  | .ret (some e) => walkExpr_moves hg he e
  | .ret none => moves_pure _
  | .branch test yes no => (walkExpr_moves hg he test).bind fun _ =>
    (walkStmts_moves hg he yes).bind fun _ => walkStmts_moves hg he no
  | .loop test body => (walkExpr_moves hg he test).bind fun _ => walkStmts_moves hg he body
  | .block body => walkStmts_moves hg he body
termination_by structural st => st

theorem walkStmts_moves (hg : ∀ x, Moves R (GraphM.declare global x)) (he : ∀ f, Moves (Carries R) (enter f)) :
    ∀ sts, Moves (Carries R) (walkStmts enter global bound sts)
  | [] => moves_pure _
  | st :: rest => (walkStmt_moves hg he st).bind fun _ => walkStmts_moves hg he rest
termination_by structural sts => sts

end

end Walk

theorem enterFunction_moves (hg : ∀ x, Moves R (GraphM.declare global x)) :
    ∀ n bound f, Moves (Carries R) (enterFunction p global n bound f)
  | 0, _, _ => moves_pure _
  | n + 1, bound, f => by
    refine moves_get_bind fun w => ?_
    by_cases hf : f ∈ w.entered
    · rw [if_pos hf]
      exact refl_of (Carries R) w
    · rw [if_neg hf]
      refine moves_set_bind (refl_of R w.graph) ?_
      refine (demandFunction_moves p f).bind fun d => ?_
      split
      · exact moves_pure _
      · split
        · exact moves_throw _
        · exact walkStmts_moves hg (enterFunction_moves hg n _) _

/-- **The walk does what declaring one global name after the other does.** -/
theorem declare_moves (hg : ∀ x, Moves R (GraphM.declare global x)) (body : List Stmt) :
    Moves R (declare p global body) := by
  intro g
  have h : Carries R ⟨g, []⟩ (finalState (walkStmts (enterFunction p global (p.functions.length + 1) [])
      global [] body) ⟨g, []⟩) :=
    walkStmts_moves hg (enterFunction_moves p hg (p.functions.length + 1) []) body ⟨g, []⟩
  unfold finalState at h ⊢
  unfold declare
  cases hw : walkStmts (enterFunction p global (p.functions.length + 1) []) global [] body ⟨g, []⟩ with
  | ok u w => rw [hw] at h; exact h
  | error e w => rw [hw] at h; exact h

/-- The walk declares names in the global scope and records nothing. -/
theorem declare_builds (hg : D global) (body : List Stmt) :
    Moves (Builds D E) (declare p global body) :=
  declare_moves p (GraphM.declare_builds hg) body

end ImplicitGlobals

namespace GraphM

theorem declareEach_builds {s : ScopeId} (hs : D s) : ∀ xs, Moves (Builds D E) (declareEach s xs)
  | [] => moves_pure _
  | x :: xs => (declare_builds hs x).bind fun _ => declareEach_builds hs xs

theorem declareParams_builds {s : ScopeId} (hd : D s) (he : E s) :
    ∀ xs, Moves (Builds D E) (declareParams s xs)
  | [] => moves_pure _
  | x :: xs => (declareParam_builds hd he x).bind fun _ => declareParams_builds hd he xs

/-- A new scope, filled in afterwards, leaves every scope alone that `D` and `E` do not
name. -/
theorem addScope_bind_builds {α : Type} {g : ScopeGraph} (kind : ScopeKind) {parent : Option ScopeId}
    (hp : ∀ t ∈ parent, t.index < g.scopes.length) {f : ScopeId → GraphM α}
    (hf : Moves (Builds (fun t => D t ∨ t = ⟨g.scopes.length⟩) E) (f ⟨g.scopes.length⟩)) :
    g.Builds D E (finalState (addScope kind parent >>= f) g) := by
  let s : ScopeId := ⟨g.scopes.length⟩
  let g' : ScopeGraph := { g with scopes := g.scopes ++ [{ kind, parent }] }
  have hadd : addScope kind parent g = .ok s g' := rfl
  have h1 : g.Builds (fun t => D t ∨ t = s) E g' := addScope_builds hp hadd
  have h2 : g'.Builds (fun t => D t ∨ t = s) E (finalState (f s) g') := hf g'
  have h := trans_of _ h1 h2
  refine ⟨fun t c hc => ?_, h.actions, h.slots, fun hD hg => h2.sound ?_ (hg.addScope hp)⟩
  · obtain ⟨d, hd, hcd, k1, k2⟩ := h.scopes t c hc
    refine ⟨d, hd, hcd, fun ht => k1 ?_, k2⟩
    rintro (h3 | rfl)
    · exact ht h3
    · exact absurd (scope_lt hc) (Nat.lt_irrefl _)
  · rintro t (h3 | rfl)
    · exact Nat.lt_of_lt_of_le (hD t h3) h1.grows.scopes.length_le
    · simp [g', s]

theorem addObjectScope_builds {g : ScopeGraph} (s : ShapeId) {parent : Option ScopeId}
    (hp : ∀ t ∈ parent, t.index < g.scopes.length) (xs : List String) :
    g.Builds D E (finalState (addObjectScope s parent xs) g) :=
  addScope_bind_builds _ hp ((declareEach_builds (.inr rfl) xs).bind fun _ => moves_pure _)

theorem fillBodyScope_builds {s : ScopeId} (hg : D .global) (hd : D s) (he : E s) (p : Program)
    (d : FunctionDecl) : Moves (Builds D E) (fillBodyScope p d s) := by
  refine (declare_builds hd _).bind fun _ => (declare_builds hd _).bind fun _ => ?_
  intro g
  refine (declare_builds hd _).bind_at fun ret g1 h1 => ?_
  refine (declareParams_builds hd he _).bind_at fun _ g2 h2 => ?_
  split
  · exact Extraction.collect_builds p hg hd he _ g2
  · refine pushAction_builds he fun hg2 z hz => ?_
    cases hz
    have hlt := declare_lt h1
    obtain ⟨new, hn, -⟩ := ((declareParams_builds hd he d.params).ok h2).slots
    rw [hn, List.length_append]
    omega

theorem addBodyScope_builds {g : ScopeGraph} (hg : D .global) (he : E ⟨g.scopes.length⟩) (p : Program)
    (f : FunctionId) (d : FunctionDecl) {parent : ScopeId} (hp : parent.index < g.scopes.length) :
    g.Builds D E (finalState (addBodyScope p f d parent) g) :=
  addScope_bind_builds _ (by simpa using hp)
    ((fillBodyScope_builds (.inl hg) (.inr rfl) he p d).bind fun _ => moves_pure _)

/-! ### What a new scope is -/

/-- Declaring names one after the other adds one empty slot for each. -/
theorem declareEach_slots {s : ScopeId} : ∀ {xs : List String} {g h : ScopeGraph} {u : Unit},
    declareEach s xs g = .ok u h → h.slots = g.slots ++ xs.map (⟨·, s, ∅⟩)
  | [], g, h, u, hx => by
    cases hx
    simp
  | x :: xs, g, h, u, hx => by
    rw [declareEach, bind_apply] at hx
    cases hd : declare s x g with
    | error e k => rw [hd] at hx; cases hx
    | ok y k =>
      rw [hd] at hx
      obtain ⟨-, -, rfl⟩ := declare_ok hd
      rw [declareEach_slots hx]
      simp [bindSlot]

theorem declare_own {s : ScopeId} {n : String} {g h : ScopeGraph} {x : SlotId}
    (hs : s.index < g.scopes.length) (hx : declare s n g = .ok x h) : h.own s n = some x := by
  obtain ⟨hn, rfl, rfl⟩ := declare_ok hx
  rw [own_bindSlot hs hn, if_pos ⟨rfl, rfl⟩]

theorem declareEach_own {s : ScopeId} : ∀ {xs : List String} {g h : ScopeGraph} {u : Unit},
    s.index < g.scopes.length → declareEach s xs g = .ok u h → ∀ n ∈ xs, ∃ x, h.own s n = some x
  | [], _, _, _, _, _, n, hn => absurd hn List.not_mem_nil
  | x :: xs, g, h, u, hs, hx, n, hn => by
    rw [declareEach, bind_apply] at hx
    cases hd : declare s x g with
    | error e k => rw [hd] at hx; cases hx
    | ok y k =>
      rw [hd] at hx
      have hgk := ((declare_builds (D := fun _ => True) (E := fun _ => True) trivial x).ok hd).grows
      have hkh := ((declareEach_builds (D := fun _ => True) (E := fun _ => True) trivial xs).ok hx).grows
      rcases List.mem_cons.1 hn with rfl | hn
      · exact ⟨y, hkh.own (declare_own hs hd)⟩
      · exact declareEach_own (Nat.lt_of_lt_of_le hs hgk.scopes.length_le) hx n hn

/-- A scope added at the end keeps its kind and its parent while it is filled in. -/
theorem addScope_fill_ok {kind : ScopeKind} {parent : Option ScopeId} {fill : ScopeId → GraphM Unit}
    {g h : ScopeGraph} {scope : ScopeId} (hf : ∀ s, Moves ScopeGraph.Grows (fill s))
    (hx : (do let s ← addScope kind parent; fill s; return s : GraphM ScopeId) g = .ok scope h) :
    scope = ⟨g.scopes.length⟩ ∧
      fill scope { g with scopes := g.scopes ++ [{ kind, parent }] } = .ok ⟨⟩ h ∧
      ∃ c, h.scope? scope = some c ∧ c.kind = kind ∧ c.parent = parent := by
  let g' : ScopeGraph := { g with scopes := g.scopes ++ [{ kind, parent }] }
  have hx : (fill ⟨g.scopes.length⟩ >>= fun _ => pure ⟨g.scopes.length⟩) g' = .ok scope h := hx
  rw [bind_apply] at hx
  cases hd : fill ⟨g.scopes.length⟩ g' with
  | error e k => rw [hd] at hx; cases hx
  | ok u k =>
    rw [hd] at hx
    cases hx
    obtain ⟨c, hc, hk⟩ :=
      ((hf _).ok hd).scopes g.scopes.length { kind, parent } List.getElem?_concat_length
    exact ⟨rfl, hd, c, hc, hk.kind, hk.parent⟩

/-- **The scope of a new object** declares its properties and nothing else. -/
theorem addObjectScope_ok {s : ShapeId} {parent : Option ScopeId} {xs : List String}
    {g h : ScopeGraph} {scope : ScopeId} (hx : addObjectScope s parent xs g = .ok scope h) :
    scope = ⟨g.scopes.length⟩ ∧ h.slots = g.slots ++ xs.map (⟨·, scope, ∅⟩) ∧
      (∀ n ∈ xs, ∃ x, h.own scope n = some x) ∧
      ∃ c, h.scope? scope = some c ∧ c.kind = .object s ∧ c.parent = parent := by
  have hf (t : ScopeId) : Moves ScopeGraph.Grows (declareEach t xs) := fun g =>
    (declareEach_builds (D := fun _ => True) (E := fun _ => True) trivial xs g).grows
  obtain ⟨rfl, hd, hc⟩ := addScope_fill_ok hf hx
  have hslots := declareEach_slots hd
  exact ⟨rfl, hslots, declareEach_own (by simp) hd, hc⟩

theorem addBodyScope_ok {p : Program} {f : FunctionId} {d : FunctionDecl} {parent : ScopeId}
    {g h : ScopeGraph} {scope : ScopeId} (hx : addBodyScope p f d parent g = .ok scope h) :
    scope = ⟨g.scopes.length⟩ ∧
      ∃ c, h.scope? scope = some c ∧ c.kind = .body f ∧ c.parent = some parent := by
  have hf (t : ScopeId) : Moves ScopeGraph.Grows (fillBodyScope p d t) := fun g =>
    (fillBodyScope_builds (D := fun _ => True) (E := fun _ => True) trivial trivial trivial p d g).grows
  obtain ⟨h1, -, hc⟩ := addScope_fill_ok hf hx
  exact ⟨h1, hc⟩

end GraphM

end TypeFlow
