import TypeFlow.Proofs.Causes
import TypeFlow.Proofs.Tables

/-!
# The lineage of an object

The object of a shape is created after those of all shapes that it inherits from. So the
chain of prototypes decides how creation ends: the chain may come back to one of its shapes, lead to
a shape that is not declared, or end, and then every shape on it must be free of repeated
properties.

* `Program.Stops.unique`: a chain stops in one way only.
* `Analysis.Founded`: every object stands on the objects of its whole lineage.
* `createObjectWithin_explained`: what a fault says about the chain, while other shapes wait.
* `PendingM.createObject_lift`: the shapes that wait are the same before and after.
* `Occurs.createObject_ok_iff`, `createObject_cyclic_iff`, `createObject_unknown_iff`,
  `createObject_duplicate_iff`: when an object can be created, and which fault there is otherwise.
-/

namespace TypeFlow

open Relation

/-! ## Chains of prototypes -/

/-- Reading a list, the name is the first that has been read before. -/
def FirstRepeated (names : List String) (n : String) : Prop :=
  ∃ l m, names = l ++ n :: m ∧ l.Nodup ∧ n ∈ l

theorem FirstRepeated.not_nodup {names : List String} {n : String} (h : FirstRepeated names n) :
    ¬ names.Nodup := by
  obtain ⟨l, m, rfl, -, hn⟩ := h
  intro hnodup
  exact (List.nodup_append.1 hnodup).2.2 n hn n (List.mem_cons_self ..) rfl

namespace Program

/-- **The prototypes lead** from a shape through the shapes of a list, itself the first, to the
last shape. -/
inductive Climbs (p : Program) : ShapeId → List ShapeId → ShapeId → Prop
  | here (s : ShapeId) : Climbs p s [] s
  | up {s t u : ShapeId} {l : List ShapeId} (next : p.Inherits s t) (rest : Climbs p t l u) :
      Climbs p s (s :: l) u

/-- **The chain of a shape stops** after the shapes of a list, all different, at a shape that was
passed before or that inherits from none. -/
structure Stops (p : Program) (s : ShapeId) (l : List ShapeId) (u : ShapeId) : Prop where
  climbs : p.Climbs s l u
  distinct : l.Nodup
  last : u ∈ l ∨ ∀ t, ¬ p.Inherits u t

/-- The chain comes back to a shape, the first that it repeats. -/
def Cycles (p : Program) (s c : ShapeId) : Prop := ∃ l, p.Climbs s l c ∧ l.Nodup ∧ c ∈ l

/-- The chain leads to a shape that is not declared. -/
def Dangles (p : Program) (s u : ShapeId) : Prop := ∃ l, p.Climbs s l u ∧ p.shape? u = none

/-- The whole chain of a shape, if all its shapes are declared and the last one inherits from none. -/
def Lineage (p : Program) (s : ShapeId) (chain : List ShapeId) : Prop :=
  ∃ l u d, chain = l ++ [u] ∧ p.Climbs s l u ∧ p.shape? u = some d ∧ d.proto = none

/-- The shape is declared and repeats no property. -/
def Plain (p : Program) (s : ShapeId) : Prop := ∃ d, p.shape? s = some d ∧ d.properties.Nodup

/-- The name is the first that the shape repeats. -/
def RepeatsFirst (p : Program) (s : ShapeId) (n : String) : Prop :=
  ∃ d, p.shape? s = some d ∧ FirstRepeated d.properties n

/-- The shape repeats a property, and none does that is nearer to the end of the lineage. -/
def Offends (p : Program) (s q : ShapeId) : Prop :=
  ∃ nearer further, p.Lineage s (nearer ++ q :: further) ∧ ¬ p.Plain q ∧ ∀ r ∈ further, p.Plain r

variable {p : Program} {s t u v : ShapeId} {l m : List ShapeId}

theorem Inherits.unique (h : p.Inherits s t) (k : p.Inherits s u) : t = u := by
  obtain ⟨d, hd, ht⟩ := h
  obtain ⟨e, he, hu⟩ := k
  rw [hd] at he
  cases he
  exact Option.some.inj (ht.symm.trans hu)

theorem not_inherits_of_undeclared (h : p.shape? s = none) (t : ShapeId) : ¬ p.Inherits s t := by
  rintro ⟨d, hd, -⟩
  rw [h] at hd
  cases hd

theorem not_inherits_of_root {d : ShapeDecl} (h : p.shape? s = some d) (hd : d.proto = none)
    (t : ShapeId) : ¬ p.Inherits s t := by
  rintro ⟨e, he, ht⟩
  rw [h] at he
  cases he
  rw [hd] at ht
  cases ht

theorem RepeatsFirst.not_plain {n : String} (h : p.RepeatsFirst s n) : ¬ p.Plain s := by
  obtain ⟨d, hd, hrepeated⟩ := h
  rintro ⟨e, he, hnodup⟩
  rw [hd] at he
  cases he
  exact hrepeated.not_nodup hnodup

namespace Climbs

/-- From each shape on the way, the rest of the way leads on. -/
theorem from_mem (h : p.Climbs s l u) (ht : t ∈ l) : ∃ k m, l = k ++ t :: m ∧ p.Climbs t (t :: m) u := by
  induction h with
  | here s => cases ht
  | @up s q u l next rest ih =>
    rcases List.mem_cons.1 ht with rfl | ht
    · exact ⟨[], l, rfl, .up next rest⟩
    · obtain ⟨k, m, rfl, hm⟩ := ih ht
      exact ⟨s :: k, m, rfl, hm⟩

/-- There is one way up: of two ways from a shape, one continues the other. -/
theorem linear (h : p.Climbs s l u) (k : p.Climbs s m v) :
    (∃ r, m = l ++ r ∧ p.Climbs u r v) ∨ ∃ r, l = m ++ r ∧ p.Climbs v r u := by
  induction h generalizing m with
  | here s => exact .inl ⟨m, rfl, k⟩
  | @up s t u l next rest ih =>
    cases k with
    | here => exact .inr ⟨_, rfl, .up next rest⟩
    | up next' rest' =>
      obtain rfl := next.unique next'
      rcases ih rest' with ⟨r, rfl, hr⟩ | ⟨r, rfl, hr⟩
      · exact .inl ⟨r, rfl, hr⟩
      · exact .inr ⟨r, rfl, hr⟩

theorem inherits_of_mem (h : p.Climbs s l u) (ht : t ∈ l) : ∃ q, p.Inherits t q := by
  obtain ⟨k, m, -, hm⟩ := h.from_mem ht
  cases hm with
  | up next rest => exact ⟨_, next⟩

/-- A way to a shape that inherits from none passes no shape twice. -/
theorem nodup (h : p.Climbs s l u) (hu : ∀ t, ¬ p.Inherits u t) : (l ++ [u]).Nodup := by
  induction h with
  | here s => exact List.nodup_singleton s
  | @up s t u l next rest ih =>
    refine List.nodup_cons.2 ⟨fun hs => ?_, ih hu⟩
    rcases List.mem_append.1 hs with hs | hs
    · -- from `s` the same way would have two lengths
      obtain ⟨k, m, rfl, hm⟩ := rest.from_mem hs
      rcases (up next rest).linear hm with ⟨r, hr, -⟩ | ⟨r, hr, hclimb⟩
      · have hlen := congrArg List.length hr
        simp only [List.length_cons, List.length_append] at hlen
        omega
      · cases hclimb with
        | here =>
          have hlen := congrArg List.length hr
          simp only [List.length_cons, List.length_append, List.length_nil] at hlen
          omega
        | up next' _ => exact hu _ next'
    · rw [List.mem_singleton.1 hs] at next
      exact hu t next

end Climbs

namespace Stops

/-- A way that stops is not continued by another that passes no shape twice. -/
theorem eq_of_append (h : p.Stops s l u) (hm : m.Nodup) {r : List ShapeId} (hr : m = l ++ r)
    (hclimb : p.Climbs u r v) : l = m ∧ u = v := by
  cases hclimb with
  | here => exact ⟨by rw [hr, List.append_nil], rfl⟩
  | up next rest =>
    rcases h.last with hu | hu
    · rw [hr] at hm
      exact absurd rfl ((List.nodup_append.1 hm).2.2 u hu u (List.mem_cons_self ..))
    · exact absurd next (hu _)

/-- **A chain stops in one way only.** -/
theorem unique (h : p.Stops s l u) (k : p.Stops s m v) : l = m ∧ u = v := by
  rcases h.climbs.linear k.climbs with ⟨r, hr, hclimb⟩ | ⟨r, hr, hclimb⟩
  · exact h.eq_of_append k.distinct hr hclimb
  · obtain ⟨h1, h2⟩ := k.eq_of_append h.distinct hr hclimb
    exact ⟨h1.symm, h2.symm⟩

end Stops

theorem Cycles.stops (h : p.Cycles s u) : ∃ l t, p.Stops s l u ∧ p.Inherits u t := by
  obtain ⟨l, hl, hnodup, hu⟩ := h
  obtain ⟨t, ht⟩ := hl.inherits_of_mem hu
  exact ⟨l, t, ⟨hl, hnodup, .inl hu⟩, ht⟩

theorem Climbs.stops (h : p.Climbs s l u) (hu : ∀ t, ¬ p.Inherits u t) : p.Stops s l u :=
  ⟨h, (List.nodup_append.1 (h.nodup hu)).1, .inr hu⟩

theorem Dangles.stops (h : p.Dangles s u) : ∃ l, p.Stops s l u ∧ p.shape? u = none := by
  obtain ⟨l, hl, hu⟩ := h
  exact ⟨l, hl.stops (not_inherits_of_undeclared hu), hu⟩

theorem Cycles.unique (h : p.Cycles s u) (k : p.Cycles s v) : u = v := by
  obtain ⟨l, -, hl, -⟩ := h.stops
  obtain ⟨m, -, hm, -⟩ := k.stops
  exact (hl.unique hm).2

theorem Dangles.unique (h : p.Dangles s u) (k : p.Dangles s v) : u = v := by
  obtain ⟨l, hl, -⟩ := h.stops
  obtain ⟨m, hm, -⟩ := k.stops
  exact (hl.unique hm).2

theorem Cycles.not_dangles (h : p.Cycles s u) : ¬ p.Dangles s v := by
  intro k
  obtain ⟨l, t, hl, ht⟩ := h.stops
  obtain ⟨m, hm, hv⟩ := k.stops
  obtain ⟨-, rfl⟩ := hl.unique hm
  exact not_inherits_of_undeclared hv t ht

namespace Lineage

variable {chain : List ShapeId}

theorem root {d : ShapeDecl} (h : p.shape? s = some d) (hd : d.proto = none) : p.Lineage s [s] :=
  ⟨[], s, d, rfl, .here s, h, hd⟩

theorem up (h : p.Inherits s t) (k : p.Lineage t chain) : p.Lineage s (s :: chain) := by
  obtain ⟨l, u, d, rfl, hl, hu, hd⟩ := k
  exact ⟨s :: l, u, d, rfl, .up h hl, hu, hd⟩

theorem nodup (h : p.Lineage s chain) : chain.Nodup := by
  obtain ⟨l, u, d, rfl, hl, hu, hd⟩ := h
  exact hl.nodup (not_inherits_of_root hu hd)

theorem stops (h : p.Lineage s chain) :
    ∃ l u d, p.Stops s l u ∧ chain = l ++ [u] ∧ p.shape? u = some d ∧ d.proto = none := by
  obtain ⟨l, u, d, rfl, hl, hu, hd⟩ := h
  exact ⟨l, u, d, hl.stops (not_inherits_of_root hu hd), rfl, hu, hd⟩

theorem unique (h : p.Lineage s chain) {other : List ShapeId} (k : p.Lineage s other) : chain = other := by
  obtain ⟨l, u, -, hl, rfl, -⟩ := h.stops
  obtain ⟨m, v, -, hm, rfl, -⟩ := k.stops
  obtain ⟨rfl, rfl⟩ := hl.unique hm
  rfl

theorem not_cycles (h : p.Lineage s chain) : ¬ p.Cycles s v := by
  intro k
  obtain ⟨l, u, d, hl, -, hu, hd⟩ := h.stops
  obtain ⟨m, t, hm, ht⟩ := k.stops
  obtain ⟨-, rfl⟩ := hl.unique hm
  exact not_inherits_of_root hu hd t ht

theorem not_dangles (h : p.Lineage s chain) : ¬ p.Dangles s v := by
  intro k
  obtain ⟨l, u, d, hl, -, hu, -⟩ := h.stops
  obtain ⟨m, hm, hv⟩ := k.stops
  obtain ⟨-, rfl⟩ := hl.unique hm
  rw [hu] at hv
  cases hv

end Lineage

theorem Offends.lineage (h : p.Offends s u) : ∃ chain, p.Lineage s chain := by
  obtain ⟨nearer, further, hchain, -⟩ := h
  exact ⟨_, hchain⟩

theorem Offends.not_plain (h : p.Offends s u) {chain : List ShapeId} (k : p.Lineage s chain) :
    ¬ ∀ q ∈ chain, p.Plain q := by
  obtain ⟨nearer, further, hchain, hu, -⟩ := h
  intro hall
  refine hu (hall u ?_)
  rw [k.unique hchain]
  exact List.mem_append_right _ (List.mem_cons_self ..)

/-- Of two shapes on a lineage that repeat a property, one is nearer to the end. -/
theorem Offends.unique (h : p.Offends s u) (k : p.Offends s v) : u = v := by
  obtain ⟨nearer, further, hchain, hu, hplain⟩ := h
  obtain ⟨nearer', further', hchain', hv, hplain'⟩ := k
  rcases List.append_eq_append_iff.1 (hchain.unique hchain') with ⟨l, -, hl⟩ | ⟨l, -, hl⟩
  · cases l with
    | nil => exact (List.cons.inj hl).1
    | cons q l =>
      obtain ⟨-, rfl⟩ := List.cons.inj hl
      exact absurd (hplain v (List.mem_append_right _ (List.mem_cons_self ..))) hv
  · cases l with
    | nil => exact (List.cons.inj hl).1.symm
    | cons q l =>
      obtain ⟨-, rfl⟩ := List.cons.inj hl
      exact absurd (hplain' u (List.mem_append_right _ (List.mem_cons_self ..))) hu

theorem Offends.up (h : p.Inherits s t) (k : p.Offends t u) : p.Offends s u := by
  obtain ⟨nearer, further, hchain, hrest⟩ := k
  exact ⟨s :: nearer, further, hchain.up h, hrest⟩

theorem Dangles.up (h : p.Inherits s t) (k : p.Dangles t u) : p.Dangles s u := by
  obtain ⟨l, hl, hu⟩ := k
  exact ⟨s :: l, .up h hl, hu⟩

end Program

/-! ## The properties of a new object -/

namespace GraphM

/-- Names are declared one after the other until one is declared already. -/
theorem declareEach_names {s : ScopeId} : ∀ (xs done : List String) (g : ScopeGraph),
    s.index < g.scopes.length → done.Nodup → (∀ n, g.own s n = none ↔ n ∉ done) →
    (∀ u h, declareEach s xs g = .ok u h → (done ++ xs).Nodup) ∧
    ∀ e h, declareEach s xs g = .error e h → ∃ n, FirstRepeated (done ++ xs) n ∧ e = .duplicateSlot n s := by
  intro xs
  induction xs with
  | nil =>
    intro done g _ hdone _
    refine ⟨fun u h _ => by rwa [List.append_nil], fun e h hx => ?_⟩
    cases hx
  | cons x xs ih =>
    intro done g hs hdone hown
    rw [declareEach, bind_apply, declare_apply]
    by_cases hx : x ∈ done
    · obtain ⟨y, hy⟩ := Option.ne_none_iff_exists'.1 fun h => (hown x).1 h hx
      rw [hy]
      refine ⟨fun u h hok => (by cases hok), fun e h herror => ?_⟩
      cases herror
      exact ⟨x, ⟨done, xs, rfl, hdone, hx⟩, rfl⟩
    · have hnone := (hown x).2 hx
      rw [hnone, List.append_cons done x xs]
      refine ih (done ++ [x]) (g.bindSlot s x) ?_ ?_ fun n => ?_
      · simpa [ScopeGraph.bindSlot, ScopeGraph.modifyScope] using hs
      · rw [← List.concat_eq_append]
        exact List.Nodup.concat hx hdone
      · rw [ScopeGraph.own_bindSlot hs hnone]
        by_cases hxn : x = n
        · simp [hxn]
        · rw [if_neg fun h => hxn h.2, hown n]
          simp [Ne.symm hxn]

/-- The scope of an object can be filled in if no property is repeated. Otherwise it is left over. -/
theorem addObjectScope_names (s : ShapeId) (parent : Option ScopeId) (xs : List String)
    (g : ScopeGraph) :
    (∀ scope h, addObjectScope s parent xs g = .ok scope h → xs.Nodup) ∧
    ∀ e h, addObjectScope s parent xs g = .error e h → ∃ n scope, FirstRepeated xs n ∧
      e = .duplicateSlot n scope ∧ h.HasScope scope (.object s) parent := by
  let scope : ScopeId := ⟨g.scopes.length⟩
  let g' : ScopeGraph := { g with scopes := g.scopes ++ [{ kind := .object s, parent }] }
  have hfound : g'.scope? scope = some { kind := .object s, parent } := List.getElem?_concat_length
  have hnames := declareEach_names (s := scope) xs [] g' (ScopeGraph.scope_lt hfound) .nil fun n => by
    unfold ScopeGraph.own
    rw [hfound]
    simp
  have hfill : addObjectScope s parent xs g = (declareEach scope xs >>= fun _ => pure scope) g' := rfl
  rw [hfill, bind_apply]
  cases hx : declareEach scope xs g' with
  | ok u h => exact ⟨fun _ _ _ => hnames.1 u h hx, fun e k herror => by cases herror⟩
  | error e h =>
    refine ⟨fun _ _ hok => (by cases hok), fun e' k herror => ?_⟩
    cases herror
    obtain ⟨n, hn, he⟩ := hnames.2 e h hx
    have hgrows : g'.Grows h :=
      (Moves.error (declareEach_builds (D := fun _ => True) (E := fun _ => True) trivial xs) hx).grows
    have hscope : g'.HasScope scope (.object s) parent := ⟨_, hfound, rfl, rfl⟩
    exact ⟨n, scope, hn, he, hscope.grows hgrows⟩

end GraphM

/-! ## Objects stand on their lineage -/

variable {p : Program} {env : Setup} {a b : Analysis}

/-- **Every object is founded**: its shape has a lineage, on which nothing is repeated, and the
objects of all shapes on it are there. -/
def Analysis.Founded (p : Program) (a : Analysis) : Prop :=
  ∀ s, a.findObject s ≠ none →
    ∃ chain, p.Lineage s chain ∧ ∀ q ∈ chain, p.Plain q ∧ a.findObject q ≠ none

theorem Analysis.findObject_ne_none_of_isPrefix {s : ShapeId} (h : a.findObject s ≠ none)
    (hab : a.objects <+: b.objects) : b.findObject s ≠ none := by
  obtain ⟨o, ho⟩ := Option.ne_none_iff_exists'.1 h
  rw [Analysis.findObject_of_isPrefix ho hab]
  exact Option.some_ne_none o

theorem Analysis.Founded.congr (h : a.Founded p) (hab : b.objects = a.objects) : b.Founded p := by
  have hfind (q : ShapeId) : b.findObject q = a.findObject q := by
    unfold Analysis.findObject
    rw [hab]
  intro s hs
  obtain ⟨chain, hchain, hall⟩ := h s (hfind s ▸ hs)
  exact ⟨chain, hchain, fun q hq => ⟨(hall q hq).1, (hfind q).symm ▸ (hall q hq).2⟩⟩

theorem Step.founded {w : Bool} (h : Step p w a b) (ha : a.Founded p) : b.Founded p := by
  have hab := h.grows
  cases h with
  | function | property | allocate | remember => exact ha.congr rfl
  | @object s d parent scope g decl new proto found older built =>
    have hold {q : ShapeId} (hq : a.findObject q ≠ none) :=
      Analysis.findObject_ne_none_of_isPrefix hq hab.objects
    have hnew : Analysis.findObject { a with graph := g, objects := a.objects ++ [⟨s, scope⟩] } s ≠ none := by
      rw [Analysis.findObject_append new, if_pos rfl]
      exact Option.some_ne_none _
    have hnames := GraphM.addObjectScope_names s parent d.properties a.graph
    have hplain : p.Plain s := ⟨d, decl, hnames.1 scope g built⟩
    intro q hq
    rw [Analysis.findObject_append new] at hq
    by_cases hqs : q = s
    · subst hqs
      -- the lineage of the prototype, one shape longer
      cases hp : d.proto with
      | none => exact ⟨[q], .root decl hp, by simpa using ⟨hplain, hnew⟩⟩
      | some t =>
        obtain ⟨chain, hchain, hall⟩ := ha t (found t hp)
        refine ⟨q :: chain, .up ⟨d, decl, hp⟩ hchain, List.forall_mem_cons.2 ⟨⟨hplain, hnew⟩, fun r hr => ?_⟩⟩
        exact ⟨(hall r hr).1, hold (hall r hr).2⟩
    · rw [if_neg hqs] at hq
      obtain ⟨chain, hchain, hall⟩ := ha q hq
      exact ⟨chain, hchain, fun r hr => ⟨(hall r hr).1, hold (hall r hr).2⟩⟩

theorem Change.founded (h : Change p a b) (ha : a.Founded p) : b.Founded p := by
  cases h with
  | step h => exact h.founded ha
  | join h =>
    obtain ⟨x, t, -, rfl⟩ := h
    exact ha.congr rfl
  | extend h => exact ha.congr h.objects

theorem Evolves.founded (h : Evolves p a b) (ha : a.Founded p) : b.Founded p := by
  induction h with
  | refl => exact ha
  | tail _ hbc ih => exact hbc.founded ih

theorem Occurs.founded (h : Occurs env a) : a.Founded env.program :=
  h.evolves.founded fun _ hs => absurd rfl hs

/-! ## How creation fails -/

/-- **What a fault says about the chain of a shape**, if the shapes on `path` wait for its object. -/
def Program.Explains (p : Program) (path : List ShapeId) (s : ShapeId) (b : Analysis) : Fault → Prop
  | .cyclicPrototype c => ∃ l, p.Climbs s l c ∧ (l ++ path).Nodup ∧ c ∈ l ++ path
  | .unknownShape u => p.Dangles s u
  | .duplicateSlot n scope => ∃ q parent, p.Offends s q ∧ p.RepeatsFirst q n ∧
      b.graph.HasScope scope (.object q) parent
  | _ => False

/-- What is wrong with the chain of its prototype is wrong with the chain of a shape. -/
theorem Program.Explains.up {path : List ShapeId} {s t : ShapeId} {e : Fault} (hs : p.Inherits s t)
    (h : p.Explains (s :: path) t b e) : p.Explains path s b e := by
  cases e with
  | cyclicPrototype c =>
    obtain ⟨l, hl, hnodup, hc⟩ := h
    have hperm : (l ++ s :: path).Perm (s :: l ++ path) := List.perm_middle
    exact ⟨s :: l, .up hs hl, hperm.nodup_iff.1 hnodup, hperm.mem_iff.1 hc⟩
  | unknownShape u => exact Program.Dangles.up hs h
  | duplicateSlot n scope =>
    obtain ⟨q, parent, hq, hrest⟩ := h
    exact ⟨q, parent, hq.up hs, hrest⟩
  | _ => exact h.elim

namespace AnalysisM

open GraphM

/-- The scope of an object fails to be filled in if its shape repeats a property. -/
theorem addObjectScope_explained {s : ShapeId} {d : ShapeDecl} {parent : Option ScopeId} {e : Fault}
    {further path : List ShapeId} (hd : p.shape? s = some d) (hchain : p.Lineage s (s :: further))
    (hplain : ∀ r ∈ further, p.Plain r)
    (h : onGraph (addObjectScope s parent d.properties) a = .error e b) : p.Explains path s b e := by
  cases hg : addObjectScope s parent d.properties a.graph with
  | ok scope g =>
    rw [onGraph_ok hg] at h
    cases h
  | error e' g =>
    rw [onGraph_error hg] at h
    cases h
    obtain ⟨n, scope, hn, rfl, hscope⟩ := (addObjectScope_names s parent d.properties a.graph).2 _ _ hg
    have hrepeats : p.RepeatsFirst s n := ⟨d, hd, hn⟩
    exact ⟨s, parent, ⟨[], further, hchain, hrepeats.not_plain, hplain⟩, hrepeats, hscope⟩

/-- The scope of an object fails because its prototype does, or on its own account. -/
theorem objectScope_explained {create : ShapeId → AnalysisM ObjRef} {s : ShapeId} {path : List ShapeId}
    {e : Fault}
    (hfails : ∀ t, p.Inherits s t → ∀ f c, create t a = .error f c → p.Explains (s :: path) t c f)
    (hstands : ∀ t, p.Inherits s t → ∀ o c, create t a = .ok o c →
      ∃ chain, p.Lineage t chain ∧ ∀ r ∈ chain, p.Plain r)
    (h : objectScope p create s a = .error e b) : p.Explains path s b e := by
  rw [objectScope] at h
  cases hd : p.shape? s with
  | none =>
    rw [Program.demandShape, hd] at h
    cases h
    exact ⟨[], .here s, hd⟩
  | some d =>
    rw [Program.demandShape, hd] at h
    obtain h | ⟨d', a', hpure, h⟩ := bind_error h
    · cases h
    cases hpure
    cases hproto : d.proto with
    | none =>
      rw [hproto] at h
      exact addObjectScope_explained hd (.root hd hproto) (by simp) h
    | some t =>
      have hst : p.Inherits s t := ⟨d, hd, hproto⟩
      rw [hproto] at h
      obtain h | ⟨o, c, hcreate, h⟩ := bind_error h
      · exact .up hst (hfails t hst e b h)
      · obtain ⟨chain, hchain, hplain⟩ := hstands t hst o c hcreate
        rw [get_bind_apply] at h
        exact addObjectScope_explained hd (hchain.up hst) hplain h

/-- **Every fault of creation is explained by the chain of prototypes.** The induction is on
the depth that is left; it is never used up, since the shapes that wait are all different. -/
theorem createObjectWithin_explained : ∀ (n : Nat) (path : List ShapeId) (s : ShapeId) (a b : Analysis)
    (e : Fault), a.Valid p → a.Founded p → n + path.length = p.shapes.length + 1 → path.Nodup →
    (∀ t ∈ path, t.index < p.shapes.length) → createObjectWithin p n path s a = .error e b →
    p.Explains path s b e := by
  intro n
  induction n with
  | zero =>
    intro path s a b e _ _ hlength hnodup hdeclared _
    have hle := length_le_of_nodup shapeIndex_injective hnodup hdeclared
    omega
  | succ n ih =>
    intro path s a b e hv hfounded hlength hnodup hdeclared h
    rw [createObjectWithin, get_bind_apply] at h
    cases hfind : a.findObject s with
    | some o =>
      rw [hfind] at h
      cases h
    | none =>
      rw [hfind] at h
      dsimp only at h
      by_cases hs : s ∈ path
      · rw [if_pos hs] at h
        cases h
        exact ⟨[], .here s, hnodup, hs⟩
      rw [if_neg hs] at h
      obtain h | ⟨scope, c, -, hadd⟩ := bind_error h
      · refine objectScope_explained (fun t hst f c hf => ?_) (fun t hst o c ho => ?_) h
        · obtain ⟨d, hd, -⟩ := hst
          have hdeclared' : ∀ q ∈ s :: path, q.index < p.shapes.length :=
            List.forall_mem_cons.2 ⟨(List.getElem?_eq_some_iff.1 hd).1, hdeclared⟩
          refine ih (s :: path) t a c f hv hfounded ?_ (List.nodup_cons.2 ⟨hs, hnodup⟩) hdeclared' hf
          rw [List.length_cons]
          omega
        · -- the prototype is there, and stands on its own lineage
          obtain ⟨hsteps, ⟨ht, -⟩, -⟩ :=
            (createObjectWithin_proceeds (w := true) n (s :: path) t a hv).of_ok ho
          have hfound : c.findObject t ≠ none := by
            rw [ht]
            exact Option.some_ne_none o
          obtain ⟨chain, hchain, hall⟩ := (hsteps.changes.evolves).founded hfounded t hfound
          exact ⟨chain, hchain, fun r hr => (hall r hr).1⟩
      · -- entering an object does not fail
        cases hadd

theorem createObject_explained {s : ShapeId} {e : Fault} (hv : a.Valid p) (ha : a.Founded p)
    (h : createObject p s a = .error e b) : p.Explains [] s b e :=
  createObjectWithin_explained _ [] s a b e hv ha (by simp) .nil (by simp) h

end AnalysisM

/-! ## The shapes that wait -/

/-- Computations that keep in their state which shapes wait for the object of their prototype, the
last one first. -/
abbrev PendingM := EStateM Fault (Analysis × List ShapeId)

namespace PendingM

variable {α β : Type} {l : List ShapeId}

/-- What does not depend on the shapes that wait. -/
def lift (x : AnalysisM α) : PendingM α := fun (a, pending) =>
  match x a with
  | .ok v b => .ok v (b, pending)
  | .error e b => .error e (b, pending)

/-- The shape waits until something is done or has failed. -/
def waiting (s : ShapeId) (x : PendingM α) : PendingM α := fun (a, pending) =>
  match x (a, s :: pending) with
  | .ok v (b, rest) => .ok v (b, rest.tail)
  | .error e (b, rest) => .error e (b, rest.tail)

/-- The scope of an object of shape `s`, where `create` provides the object of its prototype. -/
def objectScope (p : Program) (create : ShapeId → PendingM ObjRef) (s : ShapeId) : PendingM ScopeId := do
  let d : ShapeDecl ← lift (p.demandShape s)
  match d.proto with
  | none => lift (AnalysisM.onGraph (GraphM.addObjectScope s none d.properties))
  | some t =>
    let o ← create t
    let (a, _) ← get
    lift (AnalysisM.onGraph (GraphM.addObjectScope s ((a.object? o).map (·.scope)) d.properties))

/-- The canonical object of a shape, at most `n` prototypes deep. -/
def createObject (p : Program) : Nat → ShapeId → PendingM ObjRef
  | 0, s => throw (.cyclicPrototype s)
  | n + 1, s => do
    let (a, pending) ← get
    match a.findObject s with
    | some o => return o
    | none =>
      if s ∈ pending then throw (.cyclicPrototype s)
      else
        let scope ← waiting s (objectScope p (createObject p n) s)
        lift (AnalysisM.addObject s scope)

theorem lift_apply (x : AnalysisM α) (a : Analysis) (l : List ShapeId) :
    lift x (a, l) = match x a with
      | .ok v b => .ok v (b, l)
      | .error e b => .error e (b, l) := rfl

theorem bind_lift {x : PendingM α} {y : AnalysisM α} {f : α → PendingM β} {g : α → AnalysisM β}
    (hx : x (a, l) = lift y (a, l)) (hf : ∀ v b, f v (b, l) = lift (g v) (b, l)) :
    (x >>= f) (a, l) = lift (y >>= g) (a, l) := by
  rw [bind_apply, hx, lift_apply, lift_apply, bind_apply]
  cases y a with
  | ok v b => exact hf v b
  | error e b => rfl

theorem waiting_lift {x : PendingM α} {y : AnalysisM α} {s : ShapeId}
    (hx : x (a, s :: l) = lift y (a, s :: l)) : waiting s x (a, l) = lift y (a, l) := by
  unfold waiting
  dsimp only
  rw [hx, lift_apply, lift_apply]
  cases y a <;> rfl

theorem objectScope_lift {create : ShapeId → PendingM ObjRef} {make : ShapeId → AnalysisM ObjRef}
    (h : ∀ t b, create t (b, l) = lift (make t) (b, l)) (s : ShapeId) (a : Analysis) :
    objectScope p create s (a, l) = lift (AnalysisM.objectScope p make s) (a, l) := by
  unfold objectScope AnalysisM.objectScope
  refine bind_lift rfl fun d b => ?_
  cases d.proto with
  | none => rfl
  | some t => exact bind_lift (h t b) fun o c => rfl

/-- **The shapes that wait are the same before and after**, however the creation ends. -/
theorem createObject_lift : ∀ (n : Nat) (l : List ShapeId) (s : ShapeId) (a : Analysis),
    createObject p n s (a, l) = lift (AnalysisM.createObjectWithin p n l s) (a, l) := by
  intro n
  induction n with
  | zero => exact fun l s a => rfl
  | succ n ih =>
    intro l s a
    rw [createObject, AnalysisM.createObjectWithin, get_bind_apply, lift_apply, get_bind_apply]
    dsimp only
    cases a.findObject s with
    | some o => rfl
    | none =>
      dsimp only
      by_cases hs : s ∈ l
      · rw [if_pos hs, if_pos hs]
        rfl
      · rw [if_neg hs, if_neg hs]
        exact bind_lift (waiting_lift (objectScope_lift (fun t b => ih (s :: l) t b) s a)) fun _ _ => rfl

end PendingM

/-! ## When an object can be created -/

section Creation

variable {s : ShapeId}

/-- A fault of creation that no other shape waits for. -/
theorem Program.Explains.cases {e : Fault} (h : p.Explains [] s b e) :
    (∃ c, e = .cyclicPrototype c ∧ p.Cycles s c) ∨ (∃ u, e = .unknownShape u ∧ p.Dangles s u) ∨
      ∃ n scope q parent, e = .duplicateSlot n scope ∧ p.Offends s q ∧ p.RepeatsFirst q n ∧
        b.graph.HasScope scope (.object q) parent := by
  cases e with
  | cyclicPrototype c =>
    obtain ⟨l, hl, hnodup, hc⟩ := h
    rw [List.append_nil] at hnodup hc
    exact .inl ⟨c, rfl, l, hl, hnodup, hc⟩
  | unknownShape u => exact .inr (.inl ⟨u, rfl, h⟩)
  | duplicateSlot n scope =>
    obtain ⟨q, parent, hq⟩ := h
    exact .inr (.inr ⟨n, scope, q, parent, rfl, hq⟩)
  | _ => exact h.elim

/-- Where the chain of a shape is in order, there is nothing to explain. -/
theorem Program.Explains.not_plain {e : Fault} (h : p.Explains [] s b e) {chain : List ShapeId}
    (hchain : p.Lineage s chain) : ¬ ∀ q ∈ chain, p.Plain q := by
  rcases h.cases with ⟨c, -, hc⟩ | ⟨u, -, hu⟩ | ⟨n, scope, q, parent, -, hq, -⟩
  · exact absurd hc hchain.not_cycles
  · exact absurd hu hchain.not_dangles
  · exact hq.not_plain hchain

/-- An object that was created stands on its lineage. -/
theorem Occurs.createObject_ok (h : Occurs env a) {o : ObjRef}
    (hx : AnalysisM.createObject env.program s a = .ok o b) : b.findObject s = some o ∧
      ∃ chain, env.program.Lineage s chain ∧ ∀ q ∈ chain, env.program.Plain q ∧ b.findObject q ≠ none := by
  obtain ⟨hsteps, ⟨ho, -⟩, -⟩ :=
    (AnalysisM.createObject_evaluates (w := true) h.valid s).proceeds.of_ok hx
  have hfound : b.findObject s ≠ none := by
    rw [ho]
    exact Option.some_ne_none o
  exact ⟨ho, (h.steps hsteps).founded s hfound⟩

/-- A creation that failed has left complete objects only, and not the one that was asked for. -/
theorem Occurs.createObject_error (h : Occurs env a) {e : Fault}
    (hx : AnalysisM.createObject env.program s a = .error e b) :
    env.program.Explains [] s b e ∧ b.findObject s = none ∧
      ∃ new, b.objects = a.objects ++ new ∧ ∀ o ∈ new, ∃ d, o.Placed env.program b d := by
  have hexplains := AnalysisM.createObject_explained h.valid h.founded hx
  have hevolves : Evolves env.program a b := by
    have hfinal := (AnalysisM.createObject_evaluates (w := true) h.valid s).proceeds.advances.evolves
    rwa [finalState_error hx] at hfinal
  refine ⟨hexplains, ?_, ?_⟩
  · by_contra hfound
    obtain ⟨chain, hchain, hall⟩ := hevolves.founded h.founded s hfound
    exact hexplains.not_plain hchain fun q hq => (hall q hq).1
  · obtain ⟨new, hnew⟩ := hevolves.grows.objects
    refine ⟨new, hnew.symm, fun o ho => (hevolves.valid h.valid).objects o ?_⟩
    rw [← hnew]
    exact List.mem_append_right _ ho

/-- The four ways in which creation ends. -/
theorem Occurs.createObject_cases (h : Occurs env a) (s : ShapeId) :
    (∃ o b chain, AnalysisM.createObject env.program s a = .ok o b ∧ env.program.Lineage s chain ∧
      ∀ q ∈ chain, env.program.Plain q) ∨
    (∃ c b, AnalysisM.createObject env.program s a = .error (.cyclicPrototype c) b ∧
      env.program.Cycles s c) ∨
    (∃ u b, AnalysisM.createObject env.program s a = .error (.unknownShape u) b ∧
      env.program.Dangles s u) ∨
    ∃ n scope q parent b, AnalysisM.createObject env.program s a = .error (.duplicateSlot n scope) b ∧
      env.program.Offends s q ∧ env.program.RepeatsFirst q n ∧ b.graph.HasScope scope (.object q) parent := by
  cases hx : AnalysisM.createObject env.program s a with
  | ok o b =>
    obtain ⟨-, chain, hchain, hall⟩ := h.createObject_ok hx
    exact .inl ⟨o, b, chain, rfl, hchain, fun q hq => (hall q hq).1⟩
  | error e b =>
    obtain ⟨hexplains, -⟩ := h.createObject_error hx
    rcases hexplains.cases with ⟨c, rfl, hc⟩ | ⟨u, rfl, hu⟩ | ⟨n, scope, q, parent, rfl, hq⟩
    · exact .inr (.inl ⟨c, b, rfl, hc⟩)
    · exact .inr (.inr (.inl ⟨u, b, rfl, hu⟩))
    · exact .inr (.inr (.inr ⟨n, scope, q, parent, b, rfl, hq⟩))

theorem Occurs.createObject_ok_iff (h : Occurs env a) (s : ShapeId) :
    (∃ o b, AnalysisM.createObject env.program s a = .ok o b) ↔
      ∃ chain, env.program.Lineage s chain ∧ chain.Nodup ∧ ∀ q ∈ chain, env.program.Plain q := by
  constructor
  · rintro ⟨o, b, hx⟩
    obtain ⟨-, chain, hchain, hall⟩ := h.createObject_ok hx
    exact ⟨chain, hchain, hchain.nodup, fun q hq => (hall q hq).1⟩
  · rintro ⟨chain, hchain, -, hplain⟩
    cases hx : AnalysisM.createObject env.program s a with
    | ok o b => exact ⟨o, b, rfl⟩
    | error e b => exact absurd hplain ((h.createObject_error hx).1.not_plain hchain)

theorem Occurs.createObject_cyclic_iff (h : Occurs env a) (s c : ShapeId) :
    (∃ b, AnalysisM.createObject env.program s a = .error (.cyclicPrototype c) b) ↔
      env.program.Cycles s c := by
  constructor
  · rintro ⟨b, hx⟩
    rcases (h.createObject_error hx).1.cases with ⟨d, heq, hd⟩ | ⟨u, heq, -⟩ | ⟨n, scope, q, parent, heq, -⟩
    · cases heq
      exact hd
    · cases heq
    · cases heq
  · intro hc
    rcases h.createObject_cases s with ⟨o, b, chain, -, hchain, -⟩ | ⟨d, b, hx, hd⟩ | ⟨u, b, -, hu⟩ |
      ⟨n, scope, q, parent, b, -, hq, -⟩
    · exact absurd hc hchain.not_cycles
    · exact ⟨b, hc.unique hd ▸ hx⟩
    · exact absurd hu hc.not_dangles
    · obtain ⟨chain, hchain⟩ := hq.lineage
      exact absurd hc hchain.not_cycles

theorem Occurs.createObject_unknown_iff (h : Occurs env a) (s u : ShapeId) :
    (∃ b, AnalysisM.createObject env.program s a = .error (.unknownShape u) b) ↔
      env.program.Dangles s u := by
  constructor
  · rintro ⟨b, hx⟩
    rcases (h.createObject_error hx).1.cases with ⟨c, heq, -⟩ | ⟨v, heq, hv⟩ | ⟨n, scope, q, parent, heq, -⟩
    · cases heq
    · cases heq
      exact hv
    · cases heq
  · intro hu
    rcases h.createObject_cases s with ⟨o, b, chain, -, hchain, -⟩ | ⟨c, b, -, hc⟩ | ⟨v, b, hx, hv⟩ |
      ⟨n, scope, q, parent, b, -, hq, -⟩
    · exact absurd hu hchain.not_dangles
    · exact absurd hu hc.not_dangles
    · exact ⟨b, hu.unique hv ▸ hx⟩
    · obtain ⟨chain, hchain⟩ := hq.lineage
      exact absurd hu hchain.not_dangles

theorem Occurs.createObject_duplicate_iff (h : Occurs env a) (s q : ShapeId) :
    (∃ n scope parent b, AnalysisM.createObject env.program s a = .error (.duplicateSlot n scope) b ∧
      env.program.RepeatsFirst q n ∧ b.graph.HasScope scope (.object q) parent) ↔
      env.program.Offends s q := by
  constructor
  · rintro ⟨n, scope, parent, b, hx, -, c, hc, hkind, -⟩
    rcases (h.createObject_error hx).1.cases with ⟨d, heq, -⟩ | ⟨u, heq, -⟩ |
      ⟨m, t, r, parent', heq, hr, -, hscope⟩
    · cases heq
    · cases heq
    · -- the scope belongs to one shape only
      cases heq
      obtain ⟨c', hc', hkind', -⟩ := hscope
      rw [hc] at hc'
      cases hc'
      rw [hkind] at hkind'
      cases hkind'
      exact hr
  · intro hq
    obtain ⟨chain, hchain⟩ := hq.lineage
    rcases h.createObject_cases s with ⟨o, b, chain, -, hchain', hplain⟩ | ⟨c, b, -, hc⟩ | ⟨u, b, -, hu⟩ |
      ⟨n, scope, r, parent, b, hx, hr, hrest⟩
    · exact absurd hplain (hq.not_plain hchain')
    · exact absurd hc hchain.not_cycles
    · exact absurd hu hchain.not_dangles
    · obtain rfl := hq.unique hr
      exact ⟨n, scope, parent, b, hx, hrest⟩

end Creation

end TypeFlow
