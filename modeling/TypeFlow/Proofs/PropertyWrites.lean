import TypeFlow.Proofs.LastPass
import TypeFlow.Proofs.Narrowing
import TypeFlow.Proofs.Resolution

/-!
# Writing and reading properties

Assigning a property of a value writes to the slots that the property stands for, entity by
entity, and declares those that are missing. A slot that was found for one entity is still what the
property stands for after the others have been looked at, since a name is declared only where it
stood for nothing. So whatever is joined into these slots is read again from every entity, and nothing
else is touched.

* `Analysis.propertySlot`: the slot that a property of an entity stands for.
* `entitySlot_ok`: looking for the slot of one entity, which may declare it.
* `propertySlots_ok`: looking for the slots of a whole value.
* `propertyWrite_seen`: what is written is read.
-/

namespace TypeFlow

open Relation

variable {p : Program} {env : Setup} {a b c : Analysis} {n : String} {m : Entity} {x : SlotId}

/-! ## The properties of an entity -/

namespace Analysis

/-- The scope that holds the properties of an entity. -/
def propertyScope (a : Analysis) : Entity → Option ScopeId
  | .object o => (a.object? o).map (·.scope)
  | .function f => (a.function? f).map (·.statics)

/-- **The slot that a property of an entity stands for**, which an object may inherit. -/
def propertySlot (a : Analysis) (n : String) : Entity → Option SlotId
  | .object o => (a.object? o).bind fun e => a.graph.lookup e.scope n
  | .function f => (a.function? f).bind fun e => a.graph.own e.statics n

theorem propertyScope_grows (hab : a.Grows b) {s : ScopeId} (h : a.propertyScope m = some s) :
    b.propertyScope m = some s := by
  cases m with
  | object o =>
    obtain ⟨e, he, rfl⟩ := Option.map_eq_some_iff.1 h
    have hlt := (List.getElem?_eq_some_iff.1 he).1
    exact Option.map_eq_some_iff.2 ⟨e, (getElem?_of_isPrefix hab.objects hlt).trans he, rfl⟩
  | function f =>
    obtain ⟨e, he, rfl⟩ := Option.map_eq_some_iff.1 h
    have hlt := (List.getElem?_eq_some_iff.1 he).1
    exact Option.map_eq_some_iff.2 ⟨e, (getElem?_of_isPrefix hab.functions hlt).trans he, rfl⟩

/-- The slot stays the same, whatever else is declared. -/
theorem propertySlot_evolves (hv : a.Valid p) (hab : Evolves p a b) (h : a.propertySlot n m = some x) :
    b.propertySlot n m = some x := by
  have hgrows := hab.grows
  cases m with
  | object o =>
    obtain ⟨e, he, hx⟩ := Option.bind_eq_some_iff.1 h
    have hlt := (List.getElem?_eq_some_iff.1 he).1
    exact Option.bind_eq_some_iff.2
      ⟨e, (getElem?_of_isPrefix hgrows.objects hlt).trans he, hab.resolves hv _ _ _ hx⟩
  | function f =>
    obtain ⟨e, he, hx⟩ := Option.bind_eq_some_iff.1 h
    have hlt := (List.getElem?_eq_some_iff.1 he).1
    exact Option.bind_eq_some_iff.2
      ⟨e, (getElem?_of_isPrefix hgrows.functions hlt).trans he, hgrows.graph.own hx⟩

/-- A property that stands for nothing is not declared. -/
theorem own_of_propertySlot_eq_none {s : ScopeId} (hscope : a.propertyScope m = some s)
    (h : a.propertySlot n m = none) : a.graph.own s n = none := by
  cases m with
  | object o =>
    obtain ⟨e, he, rfl⟩ := Option.map_eq_some_iff.1 hscope
    unfold propertySlot at h
    dsimp only at h
    rw [he, Option.bind_some] at h
    by_contra hne
    exact ScopeGraph.lookup_ne_none_of_own hne h
  | function f =>
    obtain ⟨e, he, rfl⟩ := Option.map_eq_some_iff.1 hscope
    unfold propertySlot at h
    dsimp only at h
    rwa [he, Option.bind_some] at h

/-- A slot of the scope of an entity is what the property stands for. -/
theorem propertySlot_of_own (hw : a.Wired p) {s : ScopeId} (hscope : a.propertyScope m = some s)
    (h : a.graph.own s n = some x) : a.propertySlot n m = some x := by
  cases m with
  | object o =>
    obtain ⟨e, he, rfl⟩ := Option.map_eq_some_iff.1 hscope
    refine Option.bind_eq_some_iff.2 ⟨e, he, ?_⟩
    rw [hw.sound.lookup_eq, h, Option.some_or]
  | function f =>
    obtain ⟨e, he, rfl⟩ := Option.map_eq_some_iff.1 hscope
    exact Option.bind_eq_some_iff.2 ⟨e, he, h⟩

theorem propertyScope_lt (hw : a.Wired p) {s : ScopeId} (h : a.propertyScope m = some s) :
    s.index < a.graph.scopes.length := by
  cases m with
  | object o =>
    obtain ⟨e, he, rfl⟩ := Option.map_eq_some_iff.1 h
    obtain ⟨d, hd⟩ := hw.objects e (List.mem_of_getElem? he)
    exact hd.scope.lt
  | function f =>
    obtain ⟨e, he, rfl⟩ := Option.map_eq_some_iff.1 h
    obtain ⟨d, hd⟩ := hw.functions e (List.mem_of_getElem? he)
    exact hd.statics.lt

theorem exists_propertyScope (h : a.Has m) : ∃ s, a.propertyScope m = some s := by
  cases m with
  | object o => exact ⟨_, Option.map_eq_some_iff.2 ⟨_, List.getElem?_eq_getElem h, rfl⟩⟩
  | function f => exact ⟨_, Option.map_eq_some_iff.2 ⟨_, List.getElem?_eq_getElem h, rfl⟩⟩

end Analysis

theorem ScopeGraph.Sound.own_name {g : ScopeGraph} (hg : g.Sound) {s : ScopeId} (h : g.own s n = some x) :
    ∃ k, g.slot? x = some k ∧ k.name = n := by
  obtain ⟨d, hd, hmem⟩ := mem_slots_of_own h
  obtain ⟨k, hk, hname, -⟩ := (hg.fits s d hd).slots n x hmem
  exact ⟨k, hk, hname⟩

/-- The slot of a property has the name of the property. -/
theorem Analysis.Wired.propertySlot_name (hw : a.Wired p) (h : a.propertySlot n m = some x) :
    ∃ k, a.graph.slot? x = some k ∧ k.name = n := by
  cases m with
  | object o =>
    obtain ⟨e, -, hx⟩ := Option.bind_eq_some_iff.1 h
    obtain ⟨t, -, ht⟩ := List.exists_of_findSome?_eq_some hx
    exact hw.sound.own_name ht
  | function f =>
    obtain ⟨e, -, hx⟩ := Option.bind_eq_some_iff.1 h
    exact hw.sound.own_name hx

/-! ## Finding the slots -/

/-- **Properties are added** to entities of a list, and nothing else is changed. -/
structure Analysis.Adds (a b : Analysis) (n : String) (ms : List Entity) : Prop where
  kept : ∀ x k, a.graph.slot? x = some k → b.graph.slot? x = some k
  added : ∀ x k, b.graph.slot? x = some k → a.graph.slot? x = some k ∨
    k.name = n ∧ a.graph.slot? x = none ∧ ∃ m ∈ ms, a.propertyScope m = some k.owner

namespace Analysis.Adds

theorem refl (a : Analysis) (n : String) (ms : List Entity) : a.Adds a n ms :=
  ⟨fun _ _ => id, fun _ _ => .inl⟩

theorem trans {ms ms' : List Entity} (hab : a.Adds b n ms) (hbc : b.Adds c n ms')
    (hscope : ∀ m ∈ ms', b.propertyScope m = a.propertyScope m) : a.Adds c n (ms ++ ms') := by
  refine ⟨fun x k hk => hbc.kept x k (hab.kept x k hk), fun x k hk => ?_⟩
  rcases hbc.added x k hk with hk | ⟨hname, hnone, m, hm, howner⟩
  · refine (hab.added x k hk).imp id ?_
    rintro ⟨hname, hnone, m, hm, howner⟩
    exact ⟨hname, hnone, m, List.mem_append_left _ hm, howner⟩
  · have hnone' : a.graph.slot? x = none := by
      by_contra hne
      obtain ⟨l, hl⟩ := Option.ne_none_iff_exists'.1 hne
      rw [hab.kept x l hl] at hnone
      cases hnone
    exact .inr ⟨hname, hnone', m, List.mem_append_right _ hm, (hscope m hm).symm.trans howner⟩

end Analysis.Adds

/-- A new slot is all that is added by declaring a name. -/
theorem ScopeGraph.slot?_bindSlot {g : ScopeGraph} {s : ScopeId} {k : Slot} :
    (g.bindSlot s n).slot? x = some k ↔ g.slot? x = some k ∨ x.index = g.slots.length ∧ k = ⟨n, s, ∅⟩ := by
  have hslots : (g.bindSlot s n).slot? x = (g.slots ++ [⟨n, s, ∅⟩])[x.index]? := rfl
  have hold : g.slot? x = g.slots[x.index]? := rfl
  rw [hslots, hold]
  rcases Nat.lt_trichotomy x.index g.slots.length with hx | hx | hx
  · rw [List.getElem?_append_left hx]
    constructor
    · exact .inl
    · rintro (hk | ⟨heq, -⟩)
      · exact hk
      · omega
  · rw [hx, List.getElem?_concat_length, List.getElem?_eq_none (Nat.le_refl _)]
    simp [eq_comm]
  · have hlen : (g.slots ++ [(⟨n, s, ∅⟩ : Slot)]).length ≤ x.index := by
      rw [List.length_append, List.length_singleton]
      omega
    rw [List.getElem?_eq_none hlen, List.getElem?_eq_none (Nat.le_of_lt hx)]
    constructor
    · intro hk
      cases hk
    · rintro (hk | ⟨heq, -⟩)
      · cases hk
      · omega

namespace AnalysisM

/-- A property that stands for nothing is declared for its entity. -/
theorem declareProperty_ok {s : ScopeId} (hscope : a.propertyScope m = some s)
    (hnone : a.graph.own s n = none) :
    ∃ b, onGraph (GraphM.declare s n) a = .ok ⟨a.graph.slots.length⟩ b ∧
      b = { a with graph := a.graph.bindSlot s n } ∧ a.Adds b n [m] := by
  have hdeclare : GraphM.declare s n a.graph = .ok ⟨a.graph.slots.length⟩ (a.graph.bindSlot s n) := by
    rw [GraphM.declare_apply, hnone]
  refine ⟨_, onGraph_ok hdeclare, rfl, fun x k hk => ScopeGraph.slot?_bindSlot.2 (.inl hk), fun x k hk => ?_⟩
  rcases ScopeGraph.slot?_bindSlot.1 hk with hk | ⟨hx, rfl⟩
  · exact .inl hk
  · have hfree : a.graph.slot? x = none := List.getElem?_eq_none_iff.2 (Nat.le_of_eq hx.symm)
    exact .inr ⟨rfl, hfree, m, List.mem_singleton_self m, hscope⟩

/-- Looking for the slot of an entity takes the slot that is there, or else declares it. -/
theorem entitySlot_apply {s : ScopeId} (hscope : a.propertyScope m = some s)
    (hname : ∀ f, m = .function f → n ≠ PropertyName.prototype) :
    entitySlot n m a = match a.propertySlot n m with
      | some x => .ok [x] a
      | none => (do let x ← onGraph (GraphM.declare s n); return [x] : AnalysisM (List SlotId)) a := by
  cases m with
  | object o =>
    obtain ⟨e, he, rfl⟩ := Option.map_eq_some_iff.1 hscope
    unfold entitySlot Analysis.propertySlot
    dsimp only
    rw [get_bind_apply, he, Option.bind_some]
    dsimp only
    cases a.graph.lookup e.scope n <;> rfl
  | function f =>
    obtain ⟨e, he, rfl⟩ := Option.map_eq_some_iff.1 hscope
    unfold entitySlot Analysis.propertySlot
    dsimp only
    rw [if_neg (hname f rfl), get_bind_apply, he, Option.bind_some]
    dsimp only
    cases a.graph.own e.statics n <;> rfl

/-- **Looking for the slot of one entity** finds it or declares it. The prototype of a function is
written nowhere. -/
theorem entitySlot_ok (hv : a.Valid p) (hm : a.Has m) (n : String) :
    ∃ l b, entitySlot n m a = .ok l b ∧ Steps p true a b ∧ a.Adds b n [m] ∧
      (∀ x ∈ l, b.propertySlot n m = some x) ∧
      ((∀ f, m = .function f → n ≠ PropertyName.prototype) → l ≠ []) := by
  have hsteps {l : List SlotId} {b : Analysis} (hrun : entitySlot n m a = .ok l b) : Steps p true a b :=
    ((entitySlot_evaluates hv n hm).proceeds.of_ok hrun).1
  obtain ⟨s, hscope⟩ := Analysis.exists_propertyScope hm
  by_cases hname : ∀ f, m = .function f → n ≠ PropertyName.prototype
  · have hrun := entitySlot_apply hscope hname
    cases hslot : a.propertySlot n m with
    | some x =>
      rw [hslot] at hrun
      refine ⟨[x], a, hrun, .refl, .refl a n [m], fun y hy => ?_, fun _ => List.cons_ne_nil _ _⟩
      rw [List.mem_singleton.1 hy, hslot]
    | none =>
      have hnone := Analysis.own_of_propertySlot_eq_none hscope hslot
      obtain ⟨b, hdeclare, hb, hadds⟩ := declareProperty_ok hscope hnone
      rw [hslot] at hrun
      dsimp only at hrun
      rw [bind_apply, hdeclare] at hrun
      have hvb := (hsteps hrun).valid hv
      refine ⟨_, b, hrun, hsteps hrun, hadds, fun y hy => ?_, fun _ => List.cons_ne_nil _ _⟩
      rw [List.mem_singleton.1 hy]
      refine Analysis.propertySlot_of_own hvb.toWired (Analysis.propertyScope_grows (hsteps hrun).grows hscope) ?_
      rw [hb, ScopeGraph.own_bindSlot (Analysis.propertyScope_lt hv.toWired hscope) hnone, if_pos ⟨rfl, rfl⟩]
  · -- a function, of which the prototype is assigned
    have hprototype : entitySlot n m a = .ok [] a := by
      cases m with
      | object o => exact absurd (fun f hf => nomatch hf) hname
      | function f =>
        have hn : n = PropertyName.prototype := by
          by_contra hne
          exact hname fun _ _ => hne
        unfold entitySlot
        dsimp only
        rw [if_pos hn]
        rfl
    exact ⟨[], a, hprototype, .refl, .refl a n [m], fun x hx => absurd hx List.not_mem_nil,
      fun h => absurd h hname⟩

/-- Looking for the slots of several entities. -/
theorem gather_entitySlot_ok (n : String) : ∀ (ms : List Entity) (a : Analysis), a.Valid p →
    (∀ m ∈ ms, a.Has m) → ∃ l b, gather (entitySlot n) ms a = .ok l b ∧ Steps p true a b ∧ a.Adds b n ms ∧
      (∀ x ∈ l, ∃ m ∈ ms, b.propertySlot n m = some x) ∧
      ∀ m ∈ ms, (∀ f, m = .function f → n ≠ PropertyName.prototype) → ∃ x ∈ l, b.propertySlot n m = some x := by
  intro ms
  induction ms with
  | nil =>
    intro a _ _
    exact ⟨[], a, rfl, .refl, .refl a n [], fun x hx => absurd hx List.not_mem_nil,
      fun m hm => absurd hm List.not_mem_nil⟩
  | cons m ms ih =>
    intro a hv hms
    obtain ⟨hm, hrest⟩ := List.forall_mem_cons.1 hms
    obtain ⟨here, b, hhere, hab, hadds, hslots, hfound⟩ := entitySlot_ok hv hm n
    have hvb := hab.valid hv
    obtain ⟨rest, c, hgather, hbc, hadds', hslots', hfound'⟩ :=
      ih b hvb fun q hq => (hrest q hq).grows hab.grows
    -- what was found first is still what the property stands for
    have hkept {x : SlotId} (hx : x ∈ here) : c.propertySlot n m = some x :=
      Analysis.propertySlot_evolves hvb hbc.changes.evolves (hslots x hx)
    have hscope : ∀ q ∈ ms, b.propertyScope q = a.propertyScope q := by
      intro q hq
      obtain ⟨s, hs⟩ := Analysis.exists_propertyScope (hrest q hq)
      rw [hs]
      exact Analysis.propertyScope_grows hab.grows hs
    refine ⟨here ++ rest, c, ?_, hab.trans hbc, hadds.trans hadds' hscope, fun x hx => ?_, ?_⟩
    · rw [gather, bind_apply, hhere]
      dsimp only
      rw [bind_apply, hgather]
      rfl
    · rcases List.mem_append.1 hx with hx | hx
      · exact ⟨m, List.mem_cons_self .., hkept hx⟩
      · obtain ⟨q, hq, hslot⟩ := hslots' x hx
        exact ⟨q, List.mem_cons_of_mem _ hq, hslot⟩
    · refine List.forall_mem_cons.2 ⟨fun hname => ?_, fun q hq hname => ?_⟩
      · obtain ⟨x, hx⟩ := List.exists_mem_of_ne_nil here (hfound hname)
        exact ⟨x, List.mem_append_left _ hx, hkept hx⟩
      · obtain ⟨x, hx, hslot⟩ := hfound' q hq hname
        exact ⟨x, List.mem_append_right _ hx, hslot⟩

/-- What a property of an entity stands for is among the slots that a receiver of any type reaches. -/
theorem mem_allPropertySlots (h : a.propertySlot n m = some x) : x ∈ allPropertySlots a n := by
  cases m with
  | object o =>
    obtain ⟨e, he, hx⟩ := Option.bind_eq_some_iff.1 h
    exact List.mem_append_left _ (List.mem_filterMap.2 ⟨e, List.mem_of_getElem? he, hx⟩)
  | function f =>
    obtain ⟨e, he, hx⟩ := Option.bind_eq_some_iff.1 h
    exact List.mem_append_right _ (List.mem_filterMap.2 ⟨e, List.mem_of_getElem? he, hx⟩)

theorem exists_propertySlot_of_mem (h : x ∈ allPropertySlots a n) : ∃ m, a.propertySlot n m = some x := by
  rcases List.mem_append.1 h with h | h
  · obtain ⟨e, he, hx⟩ := List.mem_filterMap.1 h
    obtain ⟨i, hi⟩ := List.mem_iff_getElem?.1 he
    exact ⟨.object ⟨i⟩, Option.bind_eq_some_iff.2 ⟨e, hi, hx⟩⟩
  · obtain ⟨e, he, hx⟩ := List.mem_filterMap.1 h
    obtain ⟨i, hi⟩ := List.mem_iff_getElem?.1 he
    exact ⟨.function ⟨i⟩, Option.bind_eq_some_iff.2 ⟨e, hi, hx⟩⟩

/-- **The slots that assigning a property writes to**: each once, and for every entity that the
receiver may be, the one that the property stands for afterwards. -/
theorem propertySlots_ok (hv : a.Valid p) {R : ConcreteType} (hR : a.Knows R) (n : String) :
    ∃ slots b, propertySlots R n a = .ok slots b ∧ slots.Nodup ∧ Steps p true a b ∧ a.Adds b n R.members ∧
      (∀ x ∈ slots, ∃ m, b.propertySlot n m = some x) ∧
      ∀ m, m ∈ R.members ∧ (∀ f, m = .function f → n ≠ PropertyName.prototype) ∨
        R = .all ∧ a.propertySlot n m ≠ none → ∃ x ∈ slots, b.propertySlot n m = some x := by
  have hmem {l : List SlotId} {x : SlotId} : x ∈ enqueue [] l ↔ x ∈ l := by
    rw [mem_enqueue]
    exact or_iff_right List.not_mem_nil
  cases R with
  | all =>
    refine ⟨_, a, rfl, nodup_enqueue List.nodup_nil _, .refl, .refl a n [], fun x hx => ?_, ?_⟩
    · exact exists_propertySlot_of_mem (hmem.1 hx)
    · rintro m (⟨hm, -⟩ | ⟨-, hslot⟩)
      · exact absurd hm List.not_mem_nil
      · obtain ⟨x, hx⟩ := Option.ne_none_iff_exists'.1 hslot
        exact ⟨x, hmem.2 (mem_allPropertySlots hx), hx⟩
  | only S =>
    obtain ⟨l, b, hgather, hsteps, hadds, hslots, hfound⟩ := gather_entitySlot_ok n S.members a hv hR
    have hrun : propertySlots (.only S) n a = .ok (enqueue [] l) b := by
      unfold propertySlots
      dsimp only
      rw [bind_apply, hgather]
      rfl
    refine ⟨_, b, hrun, nodup_enqueue List.nodup_nil _, hsteps, hadds, fun x hx => ?_, ?_⟩
    · obtain ⟨m, -, hm⟩ := hslots x (hmem.1 hx)
      exact ⟨m, hm⟩
    · rintro m (⟨hm, hname⟩ | ⟨hall, -⟩)
      · obtain ⟨x, hx, hslot⟩ := hfound m hm hname
        exact ⟨x, hmem.2 hx, hslot⟩
      · cases hall

/-- Assigning a property evaluates the receiver and the value, and then looks for the slots. -/
theorem evaluate_assignProperty {s : ScopeId} {receiver value : Expr} {R t : ConcreteType}
    {slots : List SlotId} {a₀ a₁ : Analysis} (hreceiver : infer env s receiver a₀ = .ok R a₁)
    (hvalue : infer env s value a₁ = .ok t a) (ht : t ≠ ∅) (hslots : propertySlots R n a = .ok slots b) :
    evaluate env s (.assignProperty receiver n value) a₀ = .ok (slots.map (⟨·, t⟩)) b := by
  unfold evaluate
  dsimp only
  rw [bind_apply, hreceiver]
  dsimp only
  rw [bind_apply, hvalue]
  dsimp only
  rw [if_neg ht, bind_apply, hslots]
  rfl

end AnalysisM

/-! ## Writing to them -/

namespace ScopeGraph

theorem scopes_apply : ∀ (zs : List Assignment) (dirty : List ScopeId) (g : ScopeGraph),
    (apply zs dirty g).2.scopes = g.scopes
  | [], _, _ => rfl
  | ⟨x, t⟩ :: rest, dirty, g => by
    rw [apply_cons, scopes_apply rest, scopes_unionInto]

/-- A slot keeps its name and owner, and one that is not assigned to keeps its type. -/
theorem slot?_apply {x : SlotId} {k : Slot} : ∀ (zs : List Assignment) (dirty : List ScopeId) (g : ScopeGraph),
    (apply zs dirty g).2.slot? x = some k →
    ∃ l, g.slot? x = some l ∧ l.name = k.name ∧ l.owner = k.owner ∧ ((∀ z ∈ zs, z.slot ≠ x) → l = k)
  | [], _, _, hk => ⟨k, hk, rfl, rfl, fun _ => rfl⟩
  | ⟨y, t⟩ :: rest, dirty, g, hk => by
    rw [apply_cons] at hk
    obtain ⟨l, hl, hname, howner, hsame⟩ := slot?_apply rest _ _ hk
    rw [unionInto_snd, slot?_setType] at hl
    obtain ⟨l', hl', rfl⟩ := Option.map_eq_some_iff.1 hl
    by_cases hyx : y = x
    · rw [if_pos hyx] at hname howner
      exact ⟨l', hl', hname, howner, fun hz => absurd hyx (hz ⟨y, t⟩ (List.mem_cons_self ..))⟩
    · rw [if_neg hyx] at hname howner hsame
      exact ⟨l', hl', hname, howner, fun hz => hsame fun z hmem => hz z (List.mem_cons_of_mem _ hmem)⟩

/-- Whatever is assigned to a slot is in its type afterwards. -/
theorem subset_typeOf_apply {z : Assignment} : ∀ (zs : List Assignment) (dirty : List ScopeId) (g : ScopeGraph),
    z ∈ zs → z.slot.index < g.slots.length → z.type ⊆ (apply zs dirty g).2.typeOf z.slot
  | ⟨y, t⟩ :: rest, dirty, g, hz, hlt => by
    rw [apply_cons]
    rcases List.mem_cons.1 hz with rfl | hz
    · -- assigned first, and kept by what follows
      have hjoined : t ⊆ (g.unionInto y t).2.typeOf y := by
        rw [typeOf_unionInto hlt]
        exact ConcreteType.subset_union_right _ t
      exact ConcreteType.subset_trans hjoined ((apply_grows rest _ _).typeOf_subset y)
    · exact subset_typeOf_apply rest _ _ hz (Nat.lt_of_lt_of_le hlt (unionInto_grows g y t).slots.length_le)

end ScopeGraph

/-- Assigning moves no property. -/
theorem propertySlot_assign (zs : List Assignment) (dirty : List ScopeId) :
    (a.assign zs dirty).propertySlot n m = a.propertySlot n m := by
  have hscopes := ScopeGraph.scopes_apply zs dirty a.graph
  cases m with
  | object o =>
    refine Option.bind_congr fun e _ => ?_
    exact ScopeGraph.lookup_of_scopes_eq hscopes e.scope n
  | function f =>
    refine Option.bind_congr fun e _ => ?_
    exact ScopeGraph.own_of_scopes_eq hscopes e.statics n

/-! ## Reading -/

/-- The properties of a function that are read in a way of their own. -/
def PropertyName.builtin : List String := [prototype, call, superclass]

/-- A property that stands for a slot is read from there. -/
theorem AnalysisM.propertyType_single (p : Program) (h : a.propertySlot n m = some x)
    (hname : ∀ f, m = .function f → n ∉ PropertyName.builtin) :
    propertyType p (.single m) n a = .ok (a.graph.typeOf x) a := by
  have hentity : entityProperty p n m a = .ok (a.graph.typeOf x) a := by
    cases m with
    | object o =>
      have hread : a.objectProperty o n = a.graph.typeOf x := by
        unfold Analysis.objectProperty Analysis.typeOr
        have hx : ((a.object? o).bind fun e => a.graph.lookup e.scope n) = some x := h
        rw [hx]
        rfl
      unfold entityProperty
      dsimp only
      rw [get_bind_apply, hread]
      rfl
    | function f =>
      obtain ⟨e, he, hx⟩ := Option.bind_eq_some_iff.1 h
      have hn := hname f rfl
      unfold PropertyName.builtin at hn
      simp only [List.mem_cons, List.not_mem_nil, or_false, not_or] at hn
      obtain ⟨hprototype, hcall, hsuperclass⟩ := hn
      unfold entityProperty functionProperty
      dsimp only
      rw [get_bind_apply, he]
      dsimp only
      rw [if_neg hprototype, if_neg hcall, if_neg hsuperclass, hx]
      rfl
  have hmembers : propertyType p (.single m) n = entityProperties p n [m] := rfl
  rw [hmembers]
  unfold entityProperties
  rw [bind_apply, hentity]
  dsimp only
  rw [bind_apply]
  show EStateM.Result.ok (a.graph.typeOf x ∪ ∅) a = _
  rw [ConcreteType.union_eq_left_iff.2 (ConcreteType.empty_subset _)]

/-- **A property write is seen by the read.** Once a type is joined into the slots that assigning a
property writes to, it is read from every entity of the receiver, and from every entity that has the
property if the receiver may be anything. Slots of other names keep their types, and slots are
declared for entities of the receiver only. -/
theorem propertyWrite_seen (h : Occurs env a) {R : ConcreteType} (hR : a.Knows R) (n : String)
    (t : ConcreteType) :
    ∃ slots b, AnalysisM.propertySlots R n a = .ok slots b ∧ slots.Nodup ∧
      (∀ s receiver value a₀ a₁, AnalysisM.infer env s receiver a₀ = .ok R a₁ →
        AnalysisM.infer env s value a₁ = .ok t a → t ≠ ∅ →
        AnalysisM.evaluate env s (.assignProperty receiver n value) a₀ = .ok (slots.map (⟨·, t⟩)) b) ∧
      let c := b.assign (slots.map (⟨·, t⟩)) []
      (∀ m, m ∈ R.members ∨ R = .all ∧ a.propertySlot n m ≠ none →
        (∀ f, m = .function f → n ∉ PropertyName.builtin) →
        ∃ u, AnalysisM.propertyType env.program (.single m) n c = .ok u c ∧ t ⊆ u) ∧
      (∀ x k, c.graph.slot? x = some k → k.name ≠ n → a.graph.slot? x = some k) ∧
      ∀ x k, c.graph.slot? x = some k → a.graph.slot? x = none →
        k.name = n ∧ ∃ m ∈ R.members, a.propertyScope m = some k.owner := by
  have hv := h.valid
  obtain ⟨slots, b, hslots, hnodup, hsteps, hadds, hnamed, hfound⟩ := AnalysisM.propertySlots_ok hv hR n
  have hvb := hsteps.valid hv
  refine ⟨slots, b, hslots, hnodup, fun s receiver value a₀ a₁ hreceiver hvalue ht => ?_, ?_, ?_, ?_⟩
  · exact AnalysisM.evaluate_assignProperty hreceiver hvalue ht hslots
  · intro m hm hname
    have hwritten : m ∈ R.members ∧ (∀ f, m = .function f → n ≠ PropertyName.prototype) ∨
        R = .all ∧ a.propertySlot n m ≠ none := by
      refine hm.imp (fun hm => ⟨hm, fun f hf hn => ?_⟩) id
      exact hname f hf (hn ▸ List.mem_cons_self ..)
    obtain ⟨x, hx, hslot⟩ := hfound m hwritten
    obtain ⟨k, hk, -⟩ := hvb.toWired.propertySlot_name hslot
    have hlt : x.index < b.graph.slots.length := (List.getElem?_eq_some_iff.1 hk).1
    refine ⟨_, AnalysisM.propertyType_single env.program ((propertySlot_assign _ _).trans hslot) hname, ?_⟩
    exact ScopeGraph.subset_typeOf_apply (z := ⟨x, t⟩) _ _ _ (List.mem_map_of_mem hx) hlt
  · intro x k hk hne
    obtain ⟨l, hl, hname, -, hsame⟩ := ScopeGraph.slot?_apply _ _ _ hk
    -- the slots that are written to have the name of the property
    have hkept : l = k := by
      refine hsame fun z hz hzx => hne ?_
      obtain ⟨y, hy, rfl⟩ := List.mem_map.1 hz
      obtain ⟨q, hq⟩ := hnamed y hy
      obtain ⟨l', hl', hn⟩ := hvb.toWired.propertySlot_name hq
      have hyx : y = x := hzx
      rw [hyx, hl] at hl'
      cases hl'
      exact hname.symm.trans hn
    subst hkept
    rcases hadds.added x l hl with hold | ⟨hn, -⟩
    · exact hold
    · exact absurd hn hne
  · intro x k hk hnew
    obtain ⟨l, hl, hname, howner, -⟩ := ScopeGraph.slot?_apply _ _ _ hk
    rcases hadds.added x l hl with hold | ⟨hn, -, hm⟩
    · rw [hnew] at hold
      cases hold
    · exact ⟨hname.symm.trans hn, howner ▸ hm⟩

/-- The class `D` is assigned to the property `m` of three entities. The two objects share the slot
that they inherit, and a slot is declared for the function; `D` is read from all three. -/
theorem derived_propertyWrite : ∃ slots b,
    AnalysisM.propertySlots derived.mixed "m" derived.final = .ok slots b ∧ slots = [⟨12⟩, ⟨3⟩] ∧
    (∀ m ∈ derived.mixed.members, ∃ u, AnalysisM.propertyType derived.program (.single m) "m"
      (b.assign (slots.map (⟨·, .function ⟨1⟩⟩)) []) =
        .ok u (b.assign (slots.map (⟨·, .function ⟨1⟩⟩)) []) ∧ .function ⟨1⟩ ⊆ u) ∧
    ∀ x k, (b.assign (slots.map (⟨·, .function ⟨1⟩⟩)) []).graph.slot? x = some k →
      derived.final.graph.slot? x = none →
      k.name = "m" ∧ ∃ m ∈ derived.mixed.members, derived.final.propertyScope m = some k.owner := by
  obtain ⟨slots, b, hslots, -, -, hread, -, hnew⟩ :=
    propertyWrite_seen derived.final_reachable.occurs derived.knows_mixed "m" (.function ⟨1⟩)
  have hchecks : checks (AnalysisM.propertySlots derived.mixed "m") derived.final
      (fun slots _ => slots = [⟨12⟩, ⟨3⟩]) = true := by
    decide +kernel
  obtain ⟨slots', b', hslots', htest⟩ := exists_ok hchecks
  rw [hslots] at hslots'
  cases hslots'
  have hname : "m" ∉ PropertyName.builtin := by decide
  exact ⟨slots, b, hslots, of_decide_eq_true htest, fun m hm => hread m (.inl hm) fun _ _ => hname, hnew⟩

end TypeFlow
