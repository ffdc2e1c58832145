import TypeFlow.Proofs.Course

/-!
# What a name stands for

A name is looked up from a scope upwards. Names keep being declared while a program is
analysed, also in scopes that other scopes inherit from, and a declaration between a scope
and the slot that it resolves to would redirect it. That never happens, because a name is
declared only where it stands for nothing yet.

* `ScopeGraph.Ordered.lookup_eq`: looking up, one scope at a time.
* `Change.declares`: where one change may declare a name.
* `lookup_persists`: what a name stands for stays the same for the rest of a run.
-/

namespace TypeFlow

variable {p : Program} {env : Setup} {a b c : Analysis}

/-! ## Looking up -/

namespace ScopeGraph

variable {g h k : ScopeGraph} {s t : ScopeId} {n : String}

/-- Parents are older than their children. -/
def Ordered (g : ScopeGraph) : Prop := ∀ s t, g.parent? s = some t → t.index < s.index

theorem Sound.ordered (hg : g.Sound) : g.Ordered := fun _ _ ht => (hg.parent_lt ht).1

/-- What holds of a scope if it holds of its parent holds of every scope. -/
theorem Ordered.parent_induction (hg : g.Ordered) {P : ScopeId → Prop}
    (hP : ∀ s, (∀ t, g.parent? s = some t → P t) → P s) (s : ScopeId) : P s := by
  -- parents are older, so this is induction on the position
  obtain ⟨i⟩ := s
  induction i using Nat.strongRecOn with
  | ind i ih => exact hP ⟨i⟩ fun t ht => ih t.index (hg _ t ht)

/-- The way upwards is as long as it can be. -/
theorem Ordered.chainWithin_eq (hg : g.Ordered) : ∀ {m : Nat} (s : ScopeId), s.index < m →
    g.chainWithin m s = g.chain s := by
  have hstep (s : ScopeId) : ∀ m m', s.index < m → s.index < m' → g.chainWithin m s = g.chainWithin m' s := by
    induction s using hg.parent_induction with
    | hP s ih =>
      intro m m' hm hm'
      obtain ⟨m, rfl⟩ := Nat.exists_eq_succ_of_ne_zero (Nat.ne_zero_of_lt hm)
      obtain ⟨m', rfl⟩ := Nat.exists_eq_succ_of_ne_zero (Nat.ne_zero_of_lt hm')
      unfold chainWithin
      cases ht : g.parent? s with
      | none => rfl
      | some t =>
        have hlt := hg s t ht
        exact congrArg _ (ih t ht m m' (by omega) (by omega))
  intro m s hm
  exact hstep s _ _ hm (Nat.lt_succ_self _)

/-- **Looking up** takes the own slot of a scope, or else goes on with its parent. -/
theorem Ordered.lookup_eq (hg : g.Ordered) (s : ScopeId) (n : String) :
    g.lookup s n = (g.own s n).or ((g.parent? s).bind fun t => g.lookup t n) := by
  unfold lookup
  have hchain : g.chain s = s :: ((g.parent? s).map g.chain).getD [] := by
    conv_lhs => unfold chain chainWithin
    cases ht : g.parent? s with
    | none => rfl
    | some t => exact congrArg _ (hg.chainWithin_eq t (hg s t ht))
  rw [hchain, List.findSome?_cons]
  cases g.own s n with
  | some x => rfl
  | none => cases g.parent? s <;> rfl

theorem Sound.lookup_eq (hg : g.Sound) (s : ScopeId) (n : String) :
    g.lookup s n = (g.own s n).or ((g.parent? s).bind fun t => g.lookup t n) :=
  hg.ordered.lookup_eq s n

/-- Outside every other scope, only own slots are found. -/
theorem Sound.lookup_of_parent_eq_none (hg : g.Sound) (hs : g.parent? s = none) (n : String) :
    g.lookup s n = g.own s n := by
  rw [hg.lookup_eq, hs, Option.bind_none, Option.or_none]

theorem lookup_ne_none_of_own (hn : g.own s n ≠ none) : g.lookup s n ≠ none :=
  fun hnone => hn (List.findSome?_eq_none_iff.1 hnone s (List.mem_cons_self ..))

theorem Sound.lookup_ne_none_of_parent (hg : g.Sound) (ht : g.parent? s = some t) (hn : g.lookup t n ≠ none) :
    g.lookup s n ≠ none := by
  rw [hg.lookup_eq, ht, Option.bind_some]
  exact fun hnone => hn (Option.or_eq_none_iff.1 hnone).2

theorem HasScope.parent?_eq {kind : ScopeKind} {parent : Option ScopeId} (hs : g.HasScope s kind parent) :
    g.parent? s = parent := by
  obtain ⟨c, hc, -, hp⟩ := hs
  unfold parent?
  rw [hc, Option.bind_some, hp]

theorem Grows.parent? (hgh : g.Grows h) (ht : g.parent? s = some t) : h.parent? s = some t := by
  obtain ⟨c, hc, hp⟩ := Option.bind_eq_some_iff.1 ht
  obtain ⟨d, hd, hcd⟩ := hgh.scopes s.index c hc
  exact Option.bind_eq_some_iff.2 ⟨d, hd, hcd.parent.trans hp⟩

/-! ## Resolved names -/

/-- What a name stands for in `g` it stands for in `h`. -/
def Resolves (g h : ScopeGraph) : Prop := ∀ s n x, g.lookup s n = some x → h.lookup s n = some x

/-- Between `g` and `h` a name is declared only where it stood for nothing. -/
def Declares (g h : ScopeGraph) : Prop :=
  ∀ s n, g.own s n = none → h.own s n ≠ none → g.lookup s n = none

/-- **Names that are declared only where they stood for nothing redirect nothing.** -/
theorem Declares.resolves (hgh : g.Declares h) (hgrows : g.Grows h) (hg : g.Sound) (hh : h.Sound) :
    g.Resolves h := by
  intro s n
  induction s using hg.ordered.parent_induction with
  | hP s ih =>
    intro x hx
    have hfound := hx
    rw [hg.lookup_eq] at hfound
    rw [hh.lookup_eq]
    cases hown : g.own s n with
    | some y =>
      rw [hown] at hfound
      rw [hgrows.own hown, ← hfound]
      rfl
    | none =>
      -- as the name is found further up, it is not declared here
      have hstill : h.own s n = none := by
        by_contra hne
        rw [hgh s n hown hne] at hx
        cases hx
      rw [hown, Option.none_or] at hfound
      obtain ⟨t, ht, hxt⟩ := Option.bind_eq_some_iff.1 hfound
      rw [hstill, hgrows.parent? ht]
      exact ih t ht x hxt

theorem declares_of_scopes (hs : h.scopes = g.scopes) : g.Declares h := by
  intro s n hg hh
  refine absurd ?_ hh
  unfold own scope? at hg ⊢
  rw [hs, hg]

/-- A scope that does not exist resolves nothing. -/
theorem Sound.lookup_of_le (hg : g.Sound) (hs : g.scopes.length ≤ s.index) (n : String) :
    g.lookup s n = none := by
  have hnone : g.scope? s = none := List.getElem?_eq_none_iff.2 hs
  have hparent : g.parent? s = none := by
    unfold parent?
    rw [hnone]
    rfl
  rw [hg.lookup_of_parent_eq_none hparent]
  unfold own
  rw [hnone]
  rfl

/-- Building declares names in new scopes and in the scopes of `D`, where it is enough that those
are outside all others. -/
theorem Builds.declares {D E : ScopeId → Prop} (hgh : g.Builds D E h) (hg : g.Sound)
    (hD : ∀ s, D s → g.parent? s = none) : g.Declares h := by
  intro s n hgo hho
  by_cases hs : D s
  · rw [hg.lookup_of_parent_eq_none (hD s hs), hgo]
  · rcases Nat.lt_or_ge s.index g.scopes.length with hlt | hle
    · obtain ⟨c, hc⟩ : ∃ c, g.scope? s = some c := ⟨_, List.getElem?_eq_getElem hlt⟩
      obtain ⟨d, hd, -, hslots, -⟩ := hgh.scopes s c hc
      refine absurd ?_ hho
      unfold own at hgo ⊢
      rw [hc] at hgo
      rw [hd, Option.bind_some, hslots hs]
      exact hgo
    · exact hg.lookup_of_le hle n

end ScopeGraph

/-! ## Changes -/

/-- The global scope is outside all others. -/
theorem Analysis.Wired.root_parent (hw : a.Wired p) (s : ScopeId) (hs : s = .global) :
    a.graph.parent? s = none :=
  hs ▸ hw.root.parent?_eq

/-- **A change declares a name only where it stood for nothing**: in a new scope, in the global
scope, among the properties of a function, or on an object that does not inherit the name. -/
theorem Change.declares (h : Change p a b) (hw : a.Wired p) : a.graph.Declares b.graph := by
  cases h with
  | join h =>
    obtain ⟨x, t, -, rfl⟩ := h
    refine ScopeGraph.declares_of_scopes ?_
    rw [ScopeGraph.unionInto_snd]
    rfl
  | extend h =>
    obtain ⟨E, hb⟩ := h.built
    exact hb.declares hw.sound hw.root_parent
  | step h =>
    cases h with
    | object decl new proto found older built =>
      exact (object_builds older built).declares hw.sound fun _ => False.elim
    | @function f d parent statics body object prototype g h decl new hp ho older hs hb =>
      have hbuild := function_builds (E := fun _ => True) trivial older hs (finalState_ok hb)
      intro s n hgo hho
      refine hbuild.declares hw.sound hw.root_parent s n hgo fun hnone => hho ?_
      -- joining the callee in declares nothing
      unfold ScopeGraph.joinOwn
      split
      · rw [ScopeGraph.unionInto_snd]
        exact hnone
      · exact hnone
    | @property s name x g _ owner built =>
      obtain ⟨hfree, -, rfl⟩ := GraphM.declare_ok built
      have hstood : a.graph.lookup s name = none := by
        rcases owner with ⟨e, -, rfl, hlookup⟩ | ⟨e, he, rfl⟩
        · exact hlookup
        · obtain ⟨d, hd⟩ := hw.functions e he
          rw [hw.sound.lookup_of_parent_eq_none hd.statics.parent?_eq, hfree]
      have hlt : s.index < a.graph.scopes.length := by
        rcases owner with ⟨e, he, rfl, -⟩ | ⟨e, he, rfl⟩
        · obtain ⟨d, hd⟩ := hw.objects e he
          exact hd.scope.lt
        · obtain ⟨d, hd⟩ := hw.functions e he
          exact hd.statics.lt
      intro t n hgo hho
      rw [ScopeGraph.own_bindSlot hlt hfree] at hho
      by_cases hnew : s = t ∧ name = n
      · rw [← hnew.1, ← hnew.2]
        exact hstood
      · rw [if_neg hnew] at hho
        exact absurd hgo hho
    | allocate | remember => exact ScopeGraph.declares_of_scopes rfl

theorem Evolves.resolves (h : Evolves p a b) (hv : a.Valid p) : a.graph.Resolves b.graph := by
  induction h with
  | refl => exact fun _ _ _ => id
  | tail hab hbc ih =>
    have hvb := Evolves.valid hab hv
    have hstep := (hbc.declares hvb.toWired).resolves hbc.grows.graph hvb.sound (hbc.valid hvb).sound
    exact fun s n x hx => hstep s n x (ih s n x hx)

/-! ## Runs -/

/-- **What a name stands for never moves.** Between any two states of a run, the later one has
evolved from the earlier one by single changes; and whatever such changes lead to from a state of
the run, a name that stands for a slot in a scope goes on to stand for that slot. -/
theorem lookup_persists (env : Setup) (ambient body : List Stmt) :
    (Analysis.fresh :: env.states ambient body .fresh).Pairwise
      (fun a b => Evolves env.program a b ∧ a.graph.Resolves b.graph) ∧
    ∀ a ∈ Analysis.fresh :: env.states ambient body .fresh, ∀ b c, Evolves env.program a b →
      Evolves env.program b c → b.graph.Resolves c.graph := by
  have hfresh := Analysis.fresh_valid env.program
  have hrun := states_evolve env ambient body hfresh
  have hvalid : ∀ a ∈ Analysis.fresh :: env.states ambient body .fresh, a.Valid env.program := by
    refine List.forall_mem_cons.2 ⟨hfresh, fun a ha => ?_⟩
    exact Evolves.valid ((List.pairwise_cons.1 hrun).1 a ha) hfresh
  refine ⟨hrun.imp_of_mem fun ha _ hab => ⟨hab, Evolves.resolves hab (hvalid _ ha)⟩, ?_⟩
  intro a ha b c hab hbc
  exact Evolves.resolves hbc (Evolves.valid hab (hvalid a ha))

/-- A property `m` is assigned to the prototype of `F`, and then to an object made by `F`. -/
def inherited : Setup where
  program := {
    shapes := [{ name := "P", kind := .prototype }, { name := "C", kind := .constructed, proto := some ⟨0⟩ }]
    functions := [{ name := "F", body := some [], objectShape := some ⟨1⟩, prototypeShape := some ⟨0⟩ }]
    body := [.function ⟨0⟩,
      .expr ⟨.assign ⟨.prop ⟨.prop ⟨.name "F", none⟩ "prototype", none⟩ "m", none⟩ ⟨.name "F", none⟩, none⟩,
      .expr ⟨.assign ⟨.prop ⟨.construct ⟨.name "F", none⟩ [], none⟩ "m", none⟩ ⟨.name "F", none⟩, none⟩] }

/-- Neither the object nor the prototype declares `m` at first. Once the prototype does, the object
finds it there, and assigning to the object does not change that. -/
theorem inherited_persists : ∃ m ∈ inherited.moments [] inherited.program.body .fresh,
    m.state.graph.own ⟨2⟩ "m" = none ∧ m.state.graph.lookup ⟨2⟩ "m" = some ⟨4⟩ ∧
    (inherited.trace [] inherited.program.body .fresh).final.graph.lookup ⟨2⟩ "m" = some ⟨4⟩ := by
  have hfound : ∃ m ∈ inherited.moments [] inherited.program.body .fresh,
      m.state.graph.own ⟨2⟩ "m" = none ∧ m.state.graph.lookup ⟨2⟩ "m" = some ⟨4⟩ := by decide +kernel
  obtain ⟨m, hm, hown, hlookup⟩ := hfound
  have hrun := (List.pairwise_cons.1 (lookup_persists inherited [] inherited.program.body).1).2
  have hlast := (List.pairwise_append.1 hrun).2.2 m.state (List.mem_map_of_mem hm) _
    (List.mem_singleton_self _)
  exact ⟨m, hm, hown, hlookup, hlast.2 _ _ _ hlookup⟩

end TypeFlow
