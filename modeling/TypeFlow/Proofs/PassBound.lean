import Mathlib.Algebra.Order.BigOperators.Group.Finset
import Mathlib.Data.Finset.Prod
import TypeFlow.Proofs.Causes
import TypeFlow.Proofs.LastPass

/-!
# Enough passes

A program has finitely many functions, shapes and names, so an analysis has finitely much to find
out. The **weight** of a state counts the functions, the allocated objects and what the slots
hold. It never falls, every pass that is not quiet raises it, and it is bounded: there is one
function for each declaration and one object for each shape, so scopes are not too many; the
names of their slots are words of the program; and a slot holds at most everything.

* `Analysis.weight`: what a state has found out so far.
* `Analysis.Tidy.weight_le`: how much there is to find out.
* `passes_weight`: every pass that is not quiet finds something out.
* `process_not_exhausted`: with as many passes as that, a run does not run out of them.
-/

namespace TypeFlow

open Relation

variable {p : Program} {w : Bool} {env : Setup} {a b c : Analysis}

/-! ## How much a type lists -/

namespace ConcreteType

/-- How much a type lists, where everything is more than `m` entities. -/
def rank (m : Nat) : ConcreteType → Nat
  | .all => m + 1
  | .only s => s.members.length

theorem rank_le {m : Nat} {t : ConcreteType} (ht : t.members.length ≤ m) : t.rank m ≤ m + 1 := by
  cases t with
  | all => exact Nat.le_refl _
  | only s => exact Nat.le_succ_of_le ht

theorem subset_antisymm {t u : ConcreteType} (htu : t ⊆ u) (hut : u ⊆ t) : t = u := by
  cases t with
  | all => exact (all_subset.1 htu).symm
  | only s =>
    cases u with
    | all => exact absurd (all_subset.1 hut) nofun
    | only r => exact congrArg only (EntitySet.ext fun e => ⟨htu e, hut e⟩)

/-- A larger type has a larger rank. -/
theorem rank_lt {m : Nat} {t u : ConcreteType} (htu : t ⊆ u) (hne : t ≠ u) (ht : t.members.length ≤ m) :
    t.rank m < u.rank m := by
  cases t with
  | all => exact absurd (all_subset.1 htu).symm hne
  | only s =>
    cases u with
    | all => exact Nat.lt_succ_of_le ht
    | only r =>
      have hsub : s.members.Subperm r.members := List.subperm_of_subset s.nodup htu
      refine Nat.lt_of_le_of_ne hsub.length_le fun hlength => hne ?_
      have hperm : s.members.Perm r.members := hsub.perm_of_length_le hlength.ge
      exact subset_antisymm htu fun e he => hperm.mem_iff.2 he

theorem rank_mono {m : Nat} {t u : ConcreteType} (htu : t ⊆ u) (ht : t.members.length ≤ m) :
    t.rank m ≤ u.rank m := by
  by_cases hne : t = u
  · rw [hne]
  · exact Nat.le_of_lt (rank_lt htu hne ht)

end ConcreteType

/-- A known type lists at most all entities. -/
theorem Analysis.Knows.length_le {t : ConcreteType} (ht : a.Knows t) :
    t.members.length ≤ a.functions.length + a.objects.length := by
  let entities : List Entity := (List.range a.functions.length).map (fun i => .function ⟨i⟩) ++
    (List.range a.objects.length).map fun i => .object ⟨i⟩
  have hnodup : t.members.Nodup := by
    cases t with
    | all => exact .nil
    | only s => exact s.nodup
  have hsub : t.members ⊆ entities := by
    intro e he
    have hhas := ht e he
    cases e with
    | function f => exact List.mem_append_left _ (List.mem_map.2 ⟨f.index, List.mem_range.2 hhas, rfl⟩)
    | object o => exact List.mem_append_right _ (List.mem_map.2 ⟨o.index, List.mem_range.2 hhas, rfl⟩)
  have hle := (List.subperm_of_subset hnodup hsub).length_le
  simpa [entities] using hle

/-! ## Tables -/

/-- **No declaration has two entities**, and no object is allocated twice. -/
structure Analysis.Tabled (a : Analysis) : Prop where
  functions : (a.functions.map (·.decl)).Nodup
  objects : (a.objects.map (·.shape)).Nodup
  allocated : a.allocated.Nodup

theorem nodup_append_singleton {α : Type} {l : List α} {x : α} (hl : l.Nodup) (hx : x ∉ l) :
    (l ++ [x]).Nodup := by
  rw [← List.concat_eq_append]
  exact hl.concat hx

theorem Step.tabled (h : Step p w a b) (ha : a.Tabled) : b.Tabled := by
  cases h with
  | @object s d parent scope g decl new proto found older built =>
    have hnew : s ∉ a.objects.map (·.shape) := by
      simpa [Analysis.findObject, List.findIdx?_eq_none_iff] using new
    refine ⟨ha.functions, ?_, ha.allocated⟩
    rw [List.map_append]
    exact nodup_append_singleton ha.objects hnew
  | @function f d parent statics body object prototype g h decl new hp ho older hs hb =>
    have hnew : f ∉ a.functions.map (·.decl) := by
      simpa [Analysis.findFunction, List.findIdx?_eq_none_iff] using new
    refine ⟨?_, ha.objects, ha.allocated⟩
    rw [List.map_append]
    exact nodup_append_singleton ha.functions hnew
  | allocate known new => exact ⟨ha.functions, ha.objects, nodup_append_singleton ha.allocated new⟩
  | property | remember => exact ⟨ha.functions, ha.objects, ha.allocated⟩

theorem Changes.tabled (h : Changes p a b) (ha : a.Tabled) : b.Tabled := by
  induction h with
  | refl => exact ha
  | tail _ hstep ih =>
    rcases hstep with hstep | ⟨x, t, -, rfl⟩ | rfl
    · exact hstep.tabled ih
    · exact ⟨ih.functions, ih.objects, ih.allocated⟩
    · exact ⟨ih.functions, ih.objects, ih.allocated⟩

theorem Steps.tabled {w : Bool} (h : Steps p w a b) (ha : a.Tabled) : b.Tabled :=
  h.changes.tabled ha

/-- As many scopes are discovered as functions are created. -/
theorem Changes.discovered (h : Changes p a b) :
    b.discovered.length + a.functions.length = a.discovered.length + b.functions.length := by
  induction h with
  | refl => rfl
  | tail _ hstep ih =>
    rcases hstep with hstep | ⟨x, t, -, rfl⟩ | rfl
    · obtain ⟨l, hl, hlength, -⟩ := hstep.discovered
      rw [hl, List.length_append]
      omega
    · exact ih
    · exact ih

/-! ## How much there is to find out -/

/-- The distinct names in the text of a program. -/
def Program.names (p : Program) : Finset String := (p.words.filterMap Word.name?).toFinset

/-- **A state in good order**: it is valid, follows the text and has no entity twice. -/
structure Analysis.Tidy (p : Program) (a : Analysis) : Prop where
  valid : a.Valid p
  text : a.Textual p 0
  tabled : a.Tabled

theorem Analysis.Tidy.take (ha : a.Tidy p) : Tidy p { a with discovered := [] } :=
  ⟨ha.valid.congr rfl rfl rfl rfl rfl, ⟨ha.text.graph, ha.text.declared⟩,
    ha.tabled.functions, ha.tabled.objects, ha.tabled.allocated⟩

/-- What a slot is known by: its owner and its name. -/
def Slot.key (k : Slot) : Nat × String := (k.owner.index, k.name)

/-- No two slots of a sound graph are known by the same owner and name. -/
theorem ScopeGraph.Sound.nodup_keys {g : ScopeGraph} (hg : g.Sound) : (g.slots.map Slot.key).Nodup := by
  rw [List.nodup_iff_getElem?_ne_getElem?]
  intro i j hij hj heq
  rw [List.length_map] at hj
  obtain ⟨k, hk⟩ : ∃ k, g.slot? ⟨i⟩ = some k := ⟨_, List.getElem?_eq_getElem (Nat.lt_trans hij hj)⟩
  obtain ⟨l, hl⟩ : ∃ l, g.slot? ⟨j⟩ = some l := ⟨_, List.getElem?_eq_getElem hj⟩
  have hkey : k.key = l.key := by
    unfold slot? at hk hl
    rw [List.getElem?_map, List.getElem?_map, hk, hl] at heq
    exact Option.some.inj heq
  obtain ⟨howner, hname⟩ := Prod.mk.inj hkey
  have howner : k.owner = l.owner := congrArg ScopeId.mk howner
  -- the owner finds both slots under the one name
  have hi := hg.bound _ k hk
  rw [howner, hname, hg.bound _ l hl] at hi
  have hindex : j = i := congrArg SlotId.index (Option.some.inj hi)
  omega

/-- The names that slots can have: those of the program and the reserved ones. -/
def Program.labels (p : Program) : Finset String := p.names ∪ SlotName.reserved.toFinset

theorem Program.card_labels_le (p : Program) : p.labels.card ≤ p.names.card + 3 := by
  have hle := Finset.card_union_le p.names SlotName.reserved.toFinset
  have hthree : SlotName.reserved.toFinset.card ≤ 3 := List.toFinset_card_le _
  exact Nat.le_trans hle (Nat.add_le_add_left hthree _)

/-- **A graph that follows the text has few slots**: in every scope at most one for each name. -/
theorem ScopeGraph.Sound.slots_le {g : ScopeGraph} {n : Nat} (hg : g.Sound) (htext : g.Textual p n) :
    g.slots.length ≤ n * (p.names.card + 3) := by
  have hsub : (g.slots.map Slot.key).toFinset ⊆ Finset.range n ×ˢ p.labels := by
    intro q hq
    obtain ⟨k, hk, rfl⟩ := List.mem_map.1 (List.mem_toFinset.1 hq)
    obtain ⟨i, hi⟩ := List.getElem?_of_mem hk
    have howner := hg.owner_lt (x := ⟨i⟩) hi
    rw [htext.count] at howner
    refine Finset.mem_product.2 ⟨Finset.mem_range.2 howner, Finset.mem_union.2 ?_⟩
    refine (htext.names k hk).imp (fun hword => ?_) List.mem_toFinset.2
    exact List.mem_toFinset.2 (List.mem_filterMap.2 ⟨_, hword, rfl⟩)
  calc g.slots.length = (g.slots.map Slot.key).toFinset.card := by
        rw [List.toFinset_card_of_nodup hg.nodup_keys, List.length_map]
    _ ≤ (Finset.range n ×ˢ p.labels).card := Finset.card_le_card hsub
    _ = n * p.labels.card := by rw [Finset.card_product, Finset.card_range]
    _ ≤ n * (p.names.card + 3) := Nat.mul_le_mul_left n p.card_labels_le

namespace Analysis

variable {m : Nat}

theorem Tidy.functions_le (ha : a.Tidy p) : a.functions.length ≤ p.functions.length := by
  rw [← List.length_map (·.decl)]
  refine AnalysisM.length_le_of_nodup (f := FunctionId.index) ?_ ha.tabled.functions ?_
  · exact fun ⟨_⟩ ⟨_⟩ h => congrArg FunctionId.mk h
  · refine List.forall_mem_map.2 fun e he => ?_
    obtain ⟨d, hd⟩ := ha.valid.functions e he
    exact (List.getElem?_eq_some_iff.1 hd.decl).1

theorem Tidy.objects_le (ha : a.Tidy p) : a.objects.length ≤ p.shapes.length := by
  rw [← List.length_map (·.shape)]
  refine AnalysisM.length_le_of_nodup AnalysisM.shapeIndex_injective ha.tabled.objects ?_
  refine List.forall_mem_map.2 fun e he => ?_
  obtain ⟨d, hd⟩ := ha.valid.objects e he
  exact (List.getElem?_eq_some_iff.1 hd.decl).1

theorem Tidy.allocated_le (ha : a.Tidy p) : a.allocated.length ≤ a.objects.length := by
  refine AnalysisM.length_le_of_nodup (f := ObjRef.index) ?_ ha.tabled.allocated ha.valid.allocated
  exact fun ⟨_⟩ ⟨_⟩ h => congrArg ObjRef.mk h

/-- What the slots hold, where everything is more than `m` entities. -/
def held (m : Nat) (a : Analysis) : Nat :=
  ∑ i ∈ Finset.range a.graph.slots.length, (a.graph.typeOf ⟨i⟩).rank m

/-- **What a state has found out**: functions, allocated objects and what the slots hold. -/
def weight (p : Program) (a : Analysis) : Nat :=
  a.functions.length + a.allocated.length + a.held (p.functions.length + p.shapes.length)

/-- No slot lists more than the functions and shapes of the program. -/
theorem Tidy.members_le (ha : a.Tidy p) (x : SlotId) :
    (a.graph.typeOf x).members.length ≤ p.functions.length + p.shapes.length :=
  Nat.le_trans (ha.valid.knows_typeOf x).length_le (Nat.add_le_add ha.functions_le ha.objects_le)

/-- **How much there is to find out.** -/
theorem Tidy.weight_le (ha : a.Tidy p) : a.weight p ≤
    p.functions.length + p.shapes.length + (1 + 2 * p.functions.length + p.shapes.length) *
      (p.names.card + 3) * (p.functions.length + p.shapes.length + 1) := by
  have hfunctions := ha.functions_le
  have hobjects := ha.objects_le
  have hallocated := ha.allocated_le
  have hscopes : 1 + 2 * a.functions.length + a.objects.length + 0 ≤
      1 + 2 * p.functions.length + p.shapes.length := by omega
  have hslots := Nat.le_trans (ha.valid.sound.slots_le ha.text.graph)
    (Nat.mul_le_mul_right (p.names.card + 3) hscopes)
  have hheld : a.held (p.functions.length + p.shapes.length) ≤
      a.graph.slots.length * (p.functions.length + p.shapes.length + 1) := by
    refine Nat.le_trans (Finset.sum_le_sum fun i _ => ConcreteType.rank_le (ha.members_le ⟨i⟩)) ?_
    rw [Finset.sum_const_nat fun _ _ => rfl, Finset.card_range]
  have hall := Nat.le_trans hheld (Nat.mul_le_mul_right _ hslots)
  unfold weight
  omega

end Analysis

/-! ## Growing weighs more -/

namespace ScopeGraph

variable {g h : ScopeGraph}

theorem typeOf_eq_empty {x : SlotId} (hx : g.slots.length ≤ x.index) : g.typeOf x = ∅ := by
  unfold typeOf slot?
  rw [List.getElem?_eq_none_iff.2 hx]
  rfl

theorem Grows.typeOf_subset (hgh : g.Grows h) (x : SlotId) : g.typeOf x ⊆ h.typeOf x := by
  cases hx : g.slot? x with
  | none =>
    rw [typeOf_eq_empty (List.getElem?_eq_none_iff.1 hx)]
    exact ConcreteType.empty_subset _
  | some k =>
    obtain ⟨l, hl, hkl⟩ := hgh.slots x.index k hx
    rw [typeOf_eq hx, typeOf_eq hl]
    exact hkl.type

/-- Some slot holds more in `h` than in `g`. -/
def Swells (g h : ScopeGraph) : Prop := ∃ x, ¬ h.typeOf x ⊆ g.typeOf x

theorem Swells.of_grows {g' h' : ScopeGraph} (hgh : g.Swells h) (hg : g'.Grows g) (hh : h.Grows h') :
    g'.Swells h' := by
  obtain ⟨x, hx⟩ := hgh
  refine ⟨x, fun hsub => hx ?_⟩
  exact ConcreteType.subset_trans (hh.typeOf_subset x) (ConcreteType.subset_trans hsub (hg.typeOf_subset x))

theorem unionInto_swells {x : SlotId} {t : ConcreteType} {k : Slot} (hgrew : (g.unionInto x t).1 = true)
    (hk : (g.unionInto x t).2.slot? x = some k) : g.Swells (g.unionInto x t).2 := by
  have hne : ¬ g.typeOf x ∪ t = g.typeOf x := by
    intro heq
    simp [unionInto, heq] at hgrew
  have htype : (g.unionInto x t).2.typeOf x = g.typeOf x ∪ t := by
    rw [typeOf_eq hk]
    rw [unionInto_snd, slot?_setType] at hk
    obtain ⟨l, -, rfl⟩ := Option.map_eq_some_iff.1 hk
    rw [if_pos rfl]
  refine ⟨x, fun hsub => hne ?_⟩
  rw [htype] at hsub
  exact ConcreteType.subset_antisymm hsub (ConcreteType.subset_union_left _ t)

theorem apply_grows : ∀ (zs : List Assignment) (dirty : List ScopeId) (g : ScopeGraph),
    g.Grows (apply zs dirty g).2
  | [], _, g => refl_of _ g
  | ⟨x, t⟩ :: rest, _, g => trans_of Grows (unionInto_grows g x t) (apply_grows rest _ _)

/-- **If assignments make a scope dirty, then a slot has grown.** -/
theorem apply_fst_eq_or_swells : ∀ (zs : List Assignment) (dirty : List ScopeId) (g : ScopeGraph),
    (apply zs dirty g).1 = dirty ∨ g.Swells (apply zs dirty g).2
  | [], _, _ => .inl rfl
  | ⟨x, t⟩ :: rest, dirty, g => by
    rw [apply_cons]
    have hgrow := unionInto_grows g x t
    have hrest := apply_fst_eq_or_swells rest (if (g.unionInto x t).1 then
      enqueue dirty (((g.unionInto x t).2.slot? x).map (·.owner)).toList else dirty) (g.unionInto x t).2
    by_cases hgrew : (g.unionInto x t).1 = true
    · cases hk : (g.unionInto x t).2.slot? x with
      | some k =>
        exact .inr ((unionInto_swells hgrew hk).of_grows (refl_of _ g) (apply_grows rest _ _))
      | none =>
        -- a slot that is not there has no owner
        rw [hk, if_pos hgrew] at hrest
        rw [if_pos hgrew]
        exact hrest.imp id fun hs => hs.of_grows hgrow (refl_of _ _)
    · rw [if_neg hgrew] at hrest ⊢
      exact hrest.imp id fun hs => hs.of_grows hgrow (refl_of _ _)

end ScopeGraph

namespace Analysis

variable {m : Nat}

/-- Slots that are not there yet hold nothing, so they may be counted. -/
theorem held_eq {n : Nat} (hn : a.graph.slots.length ≤ n) :
    a.held m = ∑ i ∈ Finset.range n, (a.graph.typeOf ⟨i⟩).rank m := by
  refine Finset.sum_subset (Finset.range_subset_range.2 hn) fun i _ hi => ?_
  rw [ScopeGraph.typeOf_eq_empty (Nat.le_of_not_lt fun hlt => hi (Finset.mem_range.2 hlt))]
  rfl

theorem held_mono (hab : a.Grows b) (hm : ∀ x, (a.graph.typeOf x).members.length ≤ m) :
    a.held m ≤ b.held m := by
  rw [held_eq hab.slots_le]
  exact Finset.sum_le_sum fun i _ => ConcreteType.rank_mono (hab.graph.typeOf_subset ⟨i⟩) (hm ⟨i⟩)

theorem held_lt (hab : a.Grows b) (hm : ∀ x, (a.graph.typeOf x).members.length ≤ m)
    (h : a.graph.Swells b.graph) : a.held m < b.held m := by
  obtain ⟨x, hx⟩ := h
  have hne : a.graph.typeOf x ≠ b.graph.typeOf x := fun heq => hx (heq ▸ ConcreteType.subset_refl _)
  have hlt : x.index < b.graph.slots.length := by
    by_contra hle
    rw [ScopeGraph.typeOf_eq_empty (Nat.le_of_not_lt hle)] at hx
    exact hx (ConcreteType.empty_subset _)
  rw [held_eq hab.slots_le]
  refine Finset.sum_lt_sum (fun i _ => ConcreteType.rank_mono (hab.graph.typeOf_subset ⟨i⟩) (hm ⟨i⟩)) ?_
  exact ⟨x.index, Finset.mem_range.2 hlt, ConcreteType.rank_lt (hab.graph.typeOf_subset x) hne (hm x)⟩

/-- **Nothing found out is lost.** -/
theorem Tidy.weight_mono (ha : a.Tidy p) (hab : a.Grows b) : a.weight p ≤ b.weight p :=
  Nat.add_le_add (Nat.add_le_add hab.functions.length_le hab.allocated.length_le)
    (held_mono hab ha.members_le)

/-- **A new function, a new allocation or a slot that grew** adds to the weight. -/
theorem Tidy.weight_lt (ha : a.Tidy p) (hab : a.Grows b)
    (h : a.functions.length < b.functions.length ∨ a.allocated.length < b.allocated.length ∨
      a.graph.Swells b.graph) : a.weight p < b.weight p := by
  have hfunctions := hab.functions.length_le
  have hallocated := hab.allocated.length_le
  have hheld := held_mono hab ha.members_le
  unfold weight
  rcases h with h | h | h
  · omega
  · omega
  · have hlt := held_lt hab ha.members_le h
    omega

end Analysis

/-! ## Replays -/

namespace AnalysisM

/-- If the replay of some actions makes a scope dirty, then a slot has grown. -/
theorem replayActions_eq_or_swells {s : ScopeId} : ∀ (actions : List Action) (dirty dirty' : List ScopeId)
    (a b : Analysis), a.Textual env.program 0 →
    (∀ action ∈ actions, env.program.Says action.words ∧ a.graph.Lexical s) →
    replayActions env s actions dirty a = .ok dirty' b → dirty' = dirty ∨ a.graph.Swells b.graph
  | [], _, _, _, _, _, _, h => by
    cases h
    exact .inl rfl
  | action :: rest, dirty, dirty', a, b, ha, hactions, h => by
    obtain ⟨⟨haction, hs⟩, hrest⟩ := List.forall_mem_cons.1 hactions
    rw [replayActions_cons] at h
    cases he : evaluate env s action a with
    | error e c => rw [he] at h; cases h
    | ok zs c =>
      rw [he] at h
      have hac := (evaluate_tells hs haction a ha.told).of_ok he
      have had := hac.assign zs dirty
      have hlater : ∀ action ∈ rest, env.program.Says action.words ∧
          (c.assign zs dirty).graph.Lexical s := fun action haction =>
        ⟨(hrest action haction).1, had.lexical (hrest action haction).2⟩
      have hdb := ((replayActions_tells rest _ hlater _ had.text.told).of_ok h).grows
      rcases replayActions_eq_or_swells rest _ dirty' _ b had.text hlater h with hsame | hgrew
      · rcases ScopeGraph.apply_fst_eq_or_swells zs dirty c.graph with hkept | happly
        · exact .inl (hsame.trans hkept)
        · exact .inr (happly.of_grows hac.grows.graph hdb.graph)
      · exact .inr (hgrew.of_grows had.grows.graph (refl_of _ _))

end AnalysisM

/-- **What a replay does to a state in good order.** It stays so, and a replay that reports a
change has found something out. -/
theorem replay_tidy {u : ScopeId} {r : Replay ScopeId} (ha : a.Tidy env.program)
    (h : AnalysisM.replay env u a = .ok r b) : b.Tidy env.program ∧ Changes env.program a b ∧
      (r.changed = true → a.allocated.length < b.allocated.length ∨ a.graph.Swells b.graph) := by
  have hchanges := ((AnalysisM.replay_advances ha.valid u).of_ok h).1
  refine ⟨⟨Changes.valid hchanges ha.valid, (AnalysisM.replay_ends ha.text u).of_ok h,
    hchanges.tabled ha.tabled⟩, hchanges, fun hr => ?_⟩
  have hbegun : a.begun.Textual env.program 0 := ⟨ha.text.graph, ha.text.declared⟩
  rcases AnalysisM.replayActions_eq_or_swells _ _ _ _ _ hbegun (ha.text.graph.actions u)
    (AnalysisM.replay_ok h).1 with hnone | hgrew
  · refine .inl ((AnalysisM.replay_widened ha.valid h).1 ?_)
    simpa [Replay.changed, hnone] using hr
  · exact .inr hgrew

/-- Several replays keep a state in good order, and weigh more if one of them reports a change. -/
theorem replays_weight {us : List ScopeId} {rs : List (Replay ScopeId)}
    (h : env.system.Replays us a rs b) (ha : a.Tidy env.program) : b.Tidy env.program ∧
      Changes env.program a b ∧
      ((∃ r ∈ rs, r.changed = true) → a.weight env.program < b.weight env.program) := by
  induction h with
  | nil s => exact ⟨ha, .refl, fun ⟨_, hr, _⟩ => absurd hr List.not_mem_nil⟩
  | @cons u us s t v r rs replay rest ih =>
    obtain ⟨ht, hst, hgain⟩ := replay_tidy ha replay
    obtain ⟨hv, htv, hmore⟩ := ih ht
    refine ⟨hv, hst.trans htv, ?_⟩
    rintro ⟨q, hq, hchanged⟩
    have hle := ht.weight_mono (Changes.grows htv)
    rcases List.mem_cons.1 hq with rfl | hq
    · have hlt := ha.weight_lt (Changes.grows hst) (.inr (hgain hchanged))
      exact Nat.lt_of_lt_of_le hlt hle
    · exact Nat.lt_of_le_of_lt (ha.weight_mono (Changes.grows hst)) (hmore ⟨q, hq, hchanged⟩)

/-! ## Passes -/

/-- **Every pass that is not quiet finds something out.** A replay reported a change, or a function
was created whose scope is discovered now. -/
theorem passes_weight {order : ReplayOrder} {q q' : List ScopeId} {ps : List (Pass ScopeId)}
    (h : env.system.Passes order q a ps q' b) (ha : a.Tidy env.program) (hnone : a.discovered = [])
    (hps : ∀ P ∈ ps, ¬ P.Quiet) :
    b.Tidy env.program ∧ a.weight env.program + ps.length ≤ b.weight env.program := by
  induction h with
  | nil q s => exact ⟨ha, Nat.le_refl _⟩
  | @cons P ps q q' s t v w queue replays taken rest ih =>
    obtain ⟨ht, hst, hreports⟩ := replays_weight replays ha
    obtain ⟨hfound, rfl⟩ : t.discovered = P.found ∧ { t with discovered := [] } = v :=
      Prod.mk.inj taken
    obtain ⟨hP, hrest⟩ := List.forall_mem_cons.1 hps
    have hlt : s.weight env.program < t.weight env.program := by
      by_cases hchanged : ∃ r ∈ P.reports, r.changed = true
      · exact hreports hchanged
      · -- nothing was reported, so something was discovered
        have hnew : t.discovered ≠ [] := by
          intro hnil
          refine hP ⟨fun r hr => ?_, fun u hu => ?_⟩
          · exact Bool.eq_false_iff.2 fun hr' => hchanged ⟨r, hr, hr'⟩
          · rw [← hfound, hnil] at hu
            exact absurd hu List.not_mem_nil
        have hcount := hst.discovered
        have hpos := List.length_pos_iff.2 hnew
        rw [hnone, List.length_nil] at hcount
        exact ha.weight_lt (Changes.grows hst) (.inl (by omega))
    obtain ⟨hw, hle⟩ := ih ht.take rfl hrest
    refine ⟨hw, ?_⟩
    rw [List.length_cons]
    -- taking what is discovered weighs nothing
    change t.weight env.program + ps.length ≤ w.weight env.program at hle
    omega

/-- Before the first pass the state is in good order. -/
theorem prepare_tidy (h : AnalysisM.prepare env env.program.ambient env.program.body .fresh = .ok ⟨⟩ b) :
    b.Tidy env.program := by
  have hvalid := (AnalysisM.prepare_final (Analysis.fresh_valid env.program) env.program.ambient
    env.program.body).2
  rw [finalState_ok h] at hvalid
  have htext := (prepare_ends env).of_ok h
  rw [AnalysisM.prepare_apply, if_neg (by decide)] at h
  cases hx : extract env.program env.program.ambient env.program.body Analysis.fresh.graph with
  | error e g => rw [hx] at h; cases h
  | ok u g =>
    rw [hx] at h
    cases h
    exact ⟨hvalid, htext, .nil, .nil, .nil⟩

/-- **Enough passes for a program**, from the numbers of its functions, its shapes and its distinct
names. -/
def Program.enoughPasses (p : Program) : Nat :=
  1 + p.functions.length + p.shapes.length + (1 + 2 * p.functions.length + p.shapes.length) *
    (p.names.card + 3) * (p.functions.length + p.shapes.length + 1)

/-- **With enough passes allowed, a run does not run out of them.** -/
theorem process_not_exhausted (env : Setup) (h : env.program.enoughPasses ≤ env.config.maxPasses)
    (n l : Nat) (a : Analysis) :
    env.process env.program.ambient env.program.body .fresh ≠ .error (.noFixedPoint n l) a := by
  intro hprocess
  rcases trace_result env with ⟨e, he, hresult⟩ | ⟨b, hb, -, ⟨c, -, hresult⟩ | ⟨⟨ps, q, t, hrun⟩, -⟩⟩
  · rw [process_of_error hresult] at hprocess
    cases hprocess
    exact he
  · rw [process_of_ok hresult] at hprocess
    cases hprocess
  · have hb := prepare_tidy hb
    obtain ⟨ht, hle⟩ := passes_weight hrun.history hb.take rfl hrun.progress
    have hmax := ht.weight_le
    have hlength := hrun.length
    unfold Program.enoughPasses at h
    omega

/-- The derived class, with just enough passes. -/
theorem derived_not_exhausted : derived.program.enoughPasses = 438 ∧
    ∀ n l a, Setup.process { derived with config.maxPasses := 438 } derived.program.ambient
      derived.program.body .fresh ≠ .error (.noFixedPoint n l) a :=
  ⟨by decide +kernel, process_not_exhausted { derived with config.maxPasses := 438 } (by decide +kernel)⟩

end TypeFlow
