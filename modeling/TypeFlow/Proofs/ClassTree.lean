import TypeFlow.Program.Builder
import TypeFlow.Proofs.Lineage
import TypeFlow.Proofs.Narrowing

/-!
# Trees of classes

A class is declared after its superclass, and each declaration links two families of shapes at once: the
prototype of the class inherits from that of the superclass, and the shape of its objects is added below the
shape that was declared with the superclass before. However many classes are declared, and in whatever order
the tree branches, the links stay those of the tree.

* `Classes`: the programs that arise by declaring classes, with a record of what was declared.
* `Aligned`: where the declarations of each class stand, and what they are linked to.
* `Aligned.addClass`: declaring one more class keeps that.
* `Aligned.descends_iff`, `Aligned.lineage`: the steps down and the prototypes follow the tree.
* `classes_consistent`: subtypes, prototypes and admission agree with the tree.
-/

namespace TypeFlow

open Relation

/-! ## Declaring classes -/

/-- A class that was declared: what makes it up, and its superclass. -/
structure ClassNode where
  ids : ClassIds
  base : Option ClassIds

/-- **Programs made of classes**: one class is declared after the other, and a superclass was declared
before. -/
inductive Classes : Program → List ClassNode → Prop
  | empty : Classes {} []
  | declare {p q : Program} {nodes : List ClassNode} {base : Option ClassIds} {new : ClassIds} {name : String}
      {params : List String} {body : List Stmt} {properties : List String} (h : Classes p nodes)
      (known : ∀ b ∈ base, b ∈ nodes.map (·.ids))
      (added : p.addClass name (base.map (·.constructor)) params body properties = (new, q)) :
      Classes q (nodes ++ [⟨new, base⟩])

/-- One class was declared as a direct subclass of another. -/
def Extends (nodes : List ClassNode) (d c : ClassIds) : Prop := ⟨d, some c⟩ ∈ nodes

/-- **A class with its superclasses in order**, up to one that has none. -/
inductive Ancestry (nodes : List ClassNode) : ClassIds → List ClassIds → Prop
  | root {c : ClassIds} (declared : ⟨c, none⟩ ∈ nodes) : Ancestry nodes c [c]
  | derived {c b : ClassIds} {chain : List ClassIds} (declared : Extends nodes c b) (rest : Ancestry nodes b chain) :
      Ancestry nodes c (c :: chain)

variable {p q : Program} {nodes : List ClassNode} {n : ClassNode} {c d new : ClassIds} {s t : ShapeId} {name : String}
  {params : List String} {body : List Stmt} {properties : List String}

/-! ## What one declaration does -/

namespace Program

section AddClass

variable {superclass : Option FunctionId} (added : p.addClass name superclass params body properties = (new, q))
include added

/-- The declarations of a new class come after all others. -/
theorem addClass_ids : new = ⟨⟨p.functions.length⟩, ⟨p.shapes.length + 1⟩, ⟨p.shapes.length⟩⟩ ∧
    q.shapes.length = p.shapes.length + 2 ∧ q.functions.length = p.functions.length + 1 := by
  unfold addClass at added
  cases hparent : (superclass.bind p.function?).bind (·.objectShape) with
  | none =>
    simp only [addShape, addFunction, hparent, Prod.mk.injEq] at added
    obtain ⟨rfl, rfl⟩ := added
    simp
  | some s =>
    simp only [addShape, addFunction, modifyShape, hparent, Prod.mk.injEq] at added
    obtain ⟨rfl, rfl⟩ := added
    simp

/-- **The shapes of a new class** come last, and the shape of the superclass gets one more subtype. -/
theorem shape?_addClass (t : ShapeId) : q.shape? t =
    ((p.shapes ++ [
        { name := name ++ ".prototype", kind := .prototype
          proto := (superclass.bind p.function?).bind (·.prototypeShape) },
        { name, kind := .constructed, properties, proto := some ⟨p.shapes.length⟩ }])[t.index]?).map fun d =>
      if (superclass.bind p.function?).bind (·.objectShape) = some t then
        { d with subtypes := d.subtypes ++ [⟨p.shapes.length + 1⟩] }
      else d := by
  unfold addClass at added
  cases hparent : (superclass.bind p.function?).bind (·.objectShape) with
  | none =>
    simp only [addShape, addFunction, hparent, Prod.mk.injEq] at added
    obtain ⟨-, rfl⟩ := added
    simp [shape?]
  | some s =>
    have hst : s.index = t.index ↔ s = t := by
      cases s
      cases t
      simp
    simp only [addShape, addFunction, modifyShape, hparent, Prod.mk.injEq] at added
    obtain ⟨-, rfl⟩ := added
    simp [shape?, List.getElem?_modify, hst]

/-- The constructor of a new class comes last. -/
theorem function?_addClass : (∀ f : FunctionId, f.index < p.functions.length → q.function? f = p.function? f) ∧
    ∃ k, q.function? ⟨p.functions.length⟩ = some k ∧ k.objectShape = some ⟨p.shapes.length + 1⟩ ∧
      k.prototypeShape = some ⟨p.shapes.length⟩ := by
  have hfunctions : ∃ k, q.functions = p.functions ++ [k] ∧ k.objectShape = some ⟨p.shapes.length + 1⟩ ∧
      k.prototypeShape = some ⟨p.shapes.length⟩ := by
    unfold addClass at added
    cases hparent : (superclass.bind p.function?).bind (·.objectShape) with
    | none =>
      simp only [addShape, addFunction, hparent, Prod.mk.injEq] at added
      obtain ⟨-, rfl⟩ := added
      exact ⟨_, rfl, by simp, by simp⟩
    | some s =>
      simp only [addShape, addFunction, modifyShape, hparent, Prod.mk.injEq] at added
      obtain ⟨-, rfl⟩ := added
      exact ⟨_, rfl, by simp, by simp⟩
  obtain ⟨k, hk, hshapes⟩ := hfunctions
  unfold function?
  rw [hk]
  exact ⟨fun f hf => List.getElem?_append_left hf, k, List.getElem?_concat_length, hshapes⟩

end AddClass

end Program

/-! ## Where the declarations stand -/

/-- **The declarations of the class at position `i`.** Two shapes and a constructor stand at positions that `i`
determines. The prototype inherits from that of the superclass, and the shape of the objects has just the direct
subclasses below it, in the order of their declarations. -/
structure ClassNode.Stands (n : ClassNode) (i : Nat) (p : Program) (nodes : List ClassNode) : Prop where
  ids : n.ids = ⟨⟨i⟩, ⟨2 * i + 1⟩, ⟨2 * i⟩⟩
  older : ∀ b ∈ n.base, ∃ j m, j < i ∧ nodes[j]? = some m ∧ m.ids = b
  constructor : ∃ k, p.function? n.ids.constructor = some k ∧ k.objectShape = some n.ids.object ∧
    k.prototypeShape = some n.ids.prototype
  prototype : ∃ k, p.shape? n.ids.prototype = some k ∧ k.kind = .prototype ∧ k.proto = n.base.map (·.prototype)
  object : ∃ k, p.shape? n.ids.object = some k ∧ k.kind = .constructed ∧ k.proto = some n.ids.prototype ∧
    k.implementors = [] ∧ k.subtypes = (nodes.filter (·.base = some n.ids)).map (·.ids.object)

/-- **A program is aligned** with the classes that were declared if it has their declarations and no others. -/
structure Aligned (p : Program) (nodes : List ClassNode) : Prop where
  shapes : p.shapes.length = 2 * nodes.length
  functions : p.functions.length = nodes.length
  stands : ∀ (i : Nat) (n : ClassNode), nodes[i]? = some n → n.Stands i p nodes

namespace Aligned

variable (h : Aligned p nodes)
include h

/-- What a class is made of says where it was declared. -/
theorem index_eq {i : Nat} (hi : nodes[i]? = some n) : n.ids.constructor.index = i ∧
    n.ids.object.index = 2 * i + 1 ∧ n.ids.prototype.index = 2 * i ∧ i < nodes.length := by
  have hlt : i < nodes.length := (List.getElem?_eq_some_iff.1 hi).1
  rw [(h.stands i n hi).ids]
  exact ⟨rfl, rfl, rfl, hlt⟩

/-- A class was declared at some position. -/
theorem position (hc : c ∈ nodes.map (·.ids)) :
    ∃ (i : Nat) (n : ClassNode), nodes[i]? = some n ∧ n.ids = c ∧ n.Stands i p nodes := by
  obtain ⟨n, hn, rfl⟩ := List.mem_map.1 hc
  obtain ⟨i, hi⟩ := List.getElem?_of_mem hn
  exact ⟨i, n, hi, rfl, h.stands i n hi⟩

/-- Different classes make objects of different shapes. -/
theorem object_injective (hc : c ∈ nodes.map (·.ids)) (hd : d ∈ nodes.map (·.ids)) (hcd : c.object = d.object) :
    c = d := by
  obtain ⟨i, n, hi, rfl, -⟩ := h.position hc
  obtain ⟨j, m, hj, rfl, -⟩ := h.position hd
  have hn := h.index_eq hi
  have hm := h.index_eq hj
  have hindex : n.ids.object.index = m.ids.object.index := by rw [hcd]
  have hij : i = j := by omega
  subst hij
  rw [hi] at hj
  cases hj
  rfl

/-- The constructor of a superclass leads to its shapes. -/
theorem superclass_shapes {base : Option ClassIds} (known : ∀ b ∈ base, b ∈ nodes.map (·.ids)) :
    ((base.map (·.constructor)).bind p.function?).bind (·.objectShape) = base.map (·.object) ∧
    ((base.map (·.constructor)).bind p.function?).bind (·.prototypeShape) = base.map (·.prototype) := by
  cases base with
  | none => exact ⟨rfl, rfl⟩
  | some b =>
    obtain ⟨i, n, -, rfl, hn⟩ := h.position (known b rfl)
    obtain ⟨k, hk, hobject, hprototype⟩ := hn.constructor
    simp [hk, hobject, hprototype]

end Aligned

/-! ## One more class -/

namespace Aligned

section Step

variable {base : Option ClassIds} (h : Aligned p nodes) (known : ∀ b ∈ base, b ∈ nodes.map (·.ids))
  (added : p.addClass name (base.map (·.constructor)) params body properties = (new, q))
include h known

/-- The shape of the superclass is older than the new ones. -/
theorem superclass_lt (ht : p.shapes.length ≤ t.index) : base.map (·.object) ≠ some t := by
  intro hbase
  obtain ⟨b, hb, rfl⟩ := Option.map_eq_some_iff.1 hbase
  obtain ⟨i, n, hi, rfl, -⟩ := h.position (known b hb)
  have hindex := h.index_eq hi
  have hlength := h.shapes
  omega

include added

/-- A shape that was declared before stays as it is, unless it is the shape of the superclass. -/
theorem shape?_old (ht : t.index < p.shapes.length) : q.shape? t = (p.shape? t).map fun k =>
    if base.map (·.object) = some t then { k with subtypes := k.subtypes ++ [⟨p.shapes.length + 1⟩] } else k := by
  obtain ⟨hobject, -⟩ := h.superclass_shapes known
  rw [Program.shape?_addClass added, hobject, List.getElem?_append_left ht]
  rfl

/-- The prototype of the new class inherits from that of the superclass. -/
theorem shape?_prototype : q.shape? ⟨p.shapes.length⟩ =
    some { name := name ++ ".prototype", kind := .prototype, proto := base.map (·.prototype) } := by
  obtain ⟨hobject, hprototype⟩ := h.superclass_shapes known
  have hold := h.superclass_lt known (t := ⟨p.shapes.length⟩) (Nat.le_refl _)
  rw [Program.shape?_addClass added, hobject, hprototype]
  simp [hold]

/-- The objects of the new class inherit from its prototype. -/
theorem shape?_object : q.shape? ⟨p.shapes.length + 1⟩ =
    some { name, kind := .constructed, properties, proto := some ⟨p.shapes.length⟩ } := by
  obtain ⟨hobject, -⟩ := h.superclass_shapes known
  have hold := h.superclass_lt known (t := ⟨p.shapes.length + 1⟩) (Nat.le_succ _)
  rw [Program.shape?_addClass added, hobject]
  simp [hold]

/-- **A class that was declared before** gets one more direct subclass if it is the superclass, and nothing
else changes. -/
theorem stands_old {i : Nat} (hi : nodes[i]? = some n) : n.Stands i q (nodes ++ [⟨new, base⟩]) := by
  have hn := h.stands i n hi
  have hlength := h.shapes
  have hcount := h.functions
  obtain ⟨hconstructor, hobject, hprototype, hlt⟩ := h.index_eq hi
  have hmem : n.ids ∈ nodes.map (·.ids) := List.mem_map_of_mem (List.mem_of_getElem? hi)
  refine ⟨hn.ids, ?_, ?_, ?_, ?_⟩
  · intro b hb
    obtain ⟨j, m, hj, hm, hids⟩ := hn.older b hb
    exact ⟨j, m, hj, by rw [List.getElem?_append_left (by omega), hm], hids⟩
  · rw [(Program.function?_addClass added).1 _ (by omega)]
    exact hn.constructor
  · obtain ⟨k, hk, hrest⟩ := hn.prototype
    -- prototypes and objects stand at even and odd positions
    have hother : base.map (·.object) ≠ some n.ids.prototype := by
      intro hbase
      obtain ⟨b, hb, hsame⟩ := Option.map_eq_some_iff.1 hbase
      obtain ⟨j, m, hj, rfl, -⟩ := h.position (known b hb)
      have hindex : m.ids.object.index = n.ids.prototype.index := by rw [hsame]
      have hm := h.index_eq hj
      omega
    refine ⟨k, ?_, hrest⟩
    rw [h.shape?_old known added (by omega), hk, Option.map_some, if_neg hother]
  · obtain ⟨k, hk, hkind, hproto, himplementors, hsubtypes⟩ := hn.object
    have hsuper : base.map (·.object) = some n.ids.object ↔ base = some n.ids := by
      constructor
      · intro hbase
        obtain ⟨b, hb, hsame⟩ := Option.map_eq_some_iff.1 hbase
        rw [hb, h.object_injective (known b hb) hmem hsame]
      · rintro rfl
        rfl
    have hshape := h.shape?_old known added (t := n.ids.object) (by omega)
    rw [hk, Option.map_some] at hshape
    refine ⟨_, hshape, ?_⟩
    by_cases hbase : base = some n.ids
    · obtain ⟨hids, -⟩ := Program.addClass_ids added
      rw [if_pos (hsuper.2 hbase), List.filter_append, List.map_append, ← hsubtypes]
      simp [hbase, hkind, hproto, himplementors, hids]
    · rw [if_neg fun hsame => hbase (hsuper.1 hsame), List.filter_append, List.map_append, ← hsubtypes]
      simp [hbase, hkind, hproto, himplementors]

/-- No class was declared with a superclass that comes after it. -/
theorem base_ne_new {m : ClassNode} (hm : m ∈ nodes ++ [⟨new, base⟩]) : m.base ≠ some new := by
  have holder : ∀ b ∈ nodes.map (·.ids), b ≠ new := by
    rintro b hb rfl
    obtain ⟨j, k, hj, rfl, -⟩ := h.position hb
    obtain ⟨hindex, -, -, hlt⟩ := h.index_eq hj
    obtain ⟨hids, -⟩ := Program.addClass_ids added
    rw [hids, h.functions] at hindex
    have hlast : nodes.length = j := hindex
    omega
  intro hbase
  rcases List.mem_append.1 hm with hm | hm
  · obtain ⟨j, hj⟩ := List.getElem?_of_mem hm
    obtain ⟨i, k, -, hk, hids⟩ := (h.stands j m hj).older new hbase
    exact holder _ (List.mem_map_of_mem (List.mem_of_getElem? hk)) hids
  · rw [List.mem_singleton.1 hm] at hbase
    exact holder new (known new hbase) rfl

/-- **The new class** stands after all others and has no subclass yet. -/
theorem stands_new : ClassNode.Stands ⟨new, base⟩ nodes.length q (nodes ++ [⟨new, base⟩]) := by
  have hlength := h.shapes
  have hcount := h.functions
  have hnone : (nodes ++ [ClassNode.mk new base]).filter (·.base = some new) = [] := by
    refine List.filter_eq_nil_iff.2 fun m hm => ?_
    simpa using h.base_ne_new known added hm
  obtain ⟨hids, -⟩ := Program.addClass_ids added
  refine ⟨?_, ?_, ?_, ?_, ?_⟩
  · rw [hids, hlength, hcount]
  · intro b hb
    obtain ⟨j, m, hj, rfl, -⟩ := h.position (known b hb)
    have hm := h.index_eq hj
    exact ⟨j, m, by omega, by rw [List.getElem?_append_left (by omega), hj], rfl⟩
  · rw [hids]
    exact (Program.function?_addClass added).2
  · rw [hids]
    exact ⟨_, h.shape?_prototype known added, rfl, rfl⟩
  · dsimp only
    rw [hnone, hids]
    exact ⟨_, h.shape?_object known added, rfl, rfl, rfl, rfl⟩

/-- **Declaring a class keeps a program aligned.** -/
theorem addClass : Aligned q (nodes ++ [⟨new, base⟩]) := by
  obtain ⟨-, hshapes, hfunctions⟩ := Program.addClass_ids added
  have hlength := h.shapes
  have hcount := h.functions
  refine ⟨?_, ?_, fun i n hi => ?_⟩
  · rw [hshapes, List.length_append, List.length_singleton]
    omega
  · rw [hfunctions, List.length_append, List.length_singleton]
    omega
  · rcases Nat.lt_or_ge i nodes.length with hlt | hge
    · rw [List.getElem?_append_left hlt] at hi
      exact h.stands_old known added hi
    · have hlast := (List.getElem?_eq_some_iff.1 hi).1
      rw [List.length_append, List.length_singleton] at hlast
      obtain rfl : i = nodes.length := by omega
      rw [List.getElem?_concat_length] at hi
      cases hi
      exact h.stands_new known added

end Step

end Aligned

theorem Classes.aligned (h : Classes p nodes) : Aligned p nodes := by
  induction h with
  | empty =>
    refine ⟨rfl, rfl, fun i n hi => ?_⟩
    cases hi
  | declare _ known added ih => exact ih.addClass known added

/-! ## The links follow the tree -/

namespace Aligned

variable (h : Aligned p nodes)
include h

/-- A subclass and its superclass were both declared. -/
theorem declared_of_extends (hdc : Extends nodes d c) : d ∈ nodes.map (·.ids) ∧ c ∈ nodes.map (·.ids) := by
  obtain ⟨i, hi⟩ := List.getElem?_of_mem hdc
  obtain ⟨j, m, -, hj, hm⟩ := (h.stands i _ hi).older c rfl
  have hc : m.ids ∈ nodes.map (·.ids) := List.mem_map_of_mem (List.mem_of_getElem? hj)
  exact ⟨List.mem_map_of_mem hdc, hm ▸ hc⟩

/-- What reaches a class by going up was declared too. -/
theorem declared_of_reaches (hc : c ∈ nodes.map (·.ids)) (hdc : ReflTransGen (Extends nodes) d c) :
    d ∈ nodes.map (·.ids) := by
  rcases hdc.cases_head with rfl | ⟨b, hdb, -⟩
  · exact hc
  · exact (h.declared_of_extends hdb).1

/-- **One step down** from the objects of a class leads to those of a direct subclass. -/
theorem descends_iff (hc : c ∈ nodes.map (·.ids)) :
    p.Descends c.object t ↔ ∃ d, Extends nodes d c ∧ d.object = t := by
  obtain ⟨i, n, -, rfl, hn⟩ := h.position hc
  obtain ⟨k, hk, -, -, himplementors, hsubtypes⟩ := hn.object
  constructor
  · rintro (⟨decl, listed⟩ | ⟨decl, listed, -, -⟩)
    · rw [hk] at decl
      cases decl
      rw [hsubtypes] at listed
      obtain ⟨m, hm, rfl⟩ := List.mem_map.1 listed
      obtain ⟨hmem, hbase⟩ := List.mem_filter.1 hm
      have hextends : Extends nodes m.ids n.ids := by
        unfold Extends
        rw [← of_decide_eq_true hbase]
        exact hmem
      exact ⟨m.ids, hextends, rfl⟩
    · -- nothing implements the shape of a class
      rw [hk] at decl
      cases decl
      rw [himplementors] at listed
      cases listed
  · rintro ⟨d, hdc, rfl⟩
    refine .extended hk ?_
    rw [hsubtypes]
    exact List.mem_map.2 ⟨⟨d, some n.ids⟩, List.mem_filter.2 ⟨hdc, decide_eq_true rfl⟩, rfl⟩

/-- **All steps down** from the objects of a class lead to those of its subclasses. -/
theorem reaches_iff (hc : c ∈ nodes.map (·.ids)) :
    ReflTransGen p.Descends c.object t ↔ ∃ d, ReflTransGen (Extends nodes) d c ∧ d.object = t := by
  constructor
  · intro hct
    induction hct with
    | refl => exact ⟨c, .refl, rfl⟩
    | tail _ hstep ih =>
      obtain ⟨d, hdc, rfl⟩ := ih
      obtain ⟨e, hed, rfl⟩ := (h.descends_iff (h.declared_of_reaches hc hdc)).1 hstep
      exact ⟨e, .head hed hdc, rfl⟩
  · rintro ⟨d, hdc, rfl⟩
    induction hdc using ReflTransGen.head_induction_on with
    | refl => exact .refl
    | @head e d hed _ ih =>
      have hd := (h.declared_of_extends hed).2
      exact ih.tail ((h.descends_iff hd).2 ⟨e, hed, rfl⟩)

/-- **The prototypes of a class** are its own and those of its superclasses. -/
theorem lineage : ∀ (i : Nat) (n : ClassNode), nodes[i]? = some n →
    ∃ chain, Ancestry nodes n.ids chain ∧ p.Lineage n.ids.prototype (chain.map (·.prototype)) := by
  intro i
  -- superclasses stand at earlier positions
  induction i using Nat.strongRecOn with
  | ind i ih =>
    intro n hi
    have hn := h.stands i n hi
    have hmem : n ∈ nodes := List.mem_of_getElem? hi
    obtain ⟨k, hk, -, hproto⟩ := hn.prototype
    cases hbase : n.base with
    | none =>
      rw [hbase] at hproto
      have hdeclared : ⟨n.ids, none⟩ ∈ nodes := by rwa [← hbase]
      exact ⟨[n.ids], .root hdeclared, .root hk hproto⟩
    | some b =>
      rw [hbase] at hproto
      have hdeclared : Extends nodes n.ids b := by
        unfold Extends
        rwa [← hbase]
      obtain ⟨j, m, hj, hm, rfl⟩ := hn.older b hbase
      obtain ⟨chain, hchain, hlineage⟩ := ih j hj m hm
      exact ⟨n.ids :: chain, .derived hdeclared hchain, hlineage.up ⟨k, hk, hproto⟩⟩

/-- An object of a class counts as the shape of that class only. -/
theorem countsAs_iff (hd : d ∈ nodes.map (·.ids)) : ReflTransGen p.CountsAs d.object t ↔ d.object = t := by
  constructor
  · intro hcounts
    rcases hcounts.cases_head with rfl | ⟨s, ⟨decl, kind, -⟩, -⟩
    · rfl
    · obtain ⟨i, n, -, rfl, hn⟩ := h.position hd
      obtain ⟨k, hk, hkind, -⟩ := hn.object
      rw [hk] at decl
      cases decl
      rw [hkind] at kind
      cases kind
  · rintro rfl
    exact .refl

/-- **An object of a class is admitted** by that class and its superclasses. -/
theorem admits_iff (hc : c ∈ nodes.map (·.ids)) (hd : d ∈ nodes.map (·.ids)) {a : Analysis} {o : ObjRef}
    {e : ObjectEntry} (ho : a.object? o = some e) (he : e.shape = d.object) :
    a.admits p (Admission.ofDeclared p (.object c.object)) (.object o) = true ↔ ReflTransGen (Extends nodes) d c := by
  refine (Analysis.admits_object c.object).trans ⟨?_, fun hdc => ?_⟩
  · rintro ⟨o', x, s, heq, hx, hcounts, hbelow⟩
    cases heq
    rw [ho] at hx
    cases hx
    rw [he, h.countsAs_iff hd] at hcounts
    obtain ⟨d', hdc, hsame⟩ := (h.reaches_iff hc).1 hbelow
    have hd' := h.declared_of_reaches hc hdc
    rwa [← h.object_injective hd' hd (hsame.trans hcounts.symm)]
  · exact ⟨o, e, d.object, rfl, ho, by rw [he], (h.reaches_iff hc).2 ⟨d, hdc, rfl⟩⟩

end Aligned

/-- **Declaring classes gives a consistent hierarchy.** Whatever classes a program is made of, the shapes below
that of a class's objects are those of the class and its subclasses; the prototypes of its objects are its own,
followed by those of its superclasses in order, and none is met twice; and in any state an object of a
class is admitted by just the class itself and its superclasses. So narrowing to a class keeps, of the
allocated objects of a class, those of its subclasses and its own. -/
theorem classes_consistent (h : Classes p nodes) (hc : c ∈ nodes.map (·.ids)) :
    (∀ t, t ∈ p.subtypeClosure c.object ↔ ∃ d, ReflTransGen (Extends nodes) d c ∧ d.object = t) ∧
    (∃ chain, Ancestry nodes c chain ∧ p.Lineage c.object (c.object :: chain.map (·.prototype)) ∧
      (c.object :: chain.map (·.prototype)).Nodup) ∧
    ∀ d ∈ nodes.map (·.ids), ∀ (a : Analysis) (o : ObjRef) (e : ObjectEntry), a.object? o = some e →
      e.shape = d.object →
      (a.admits p (Admission.ofDeclared p (.object c.object)) (.object o) = true ↔
        ReflTransGen (Extends nodes) d c) ∧
      ∀ config, Occurs ⟨p, config⟩ a → o ∈ a.allocated → ∃ r b,
        AnalysisM.narrow ⟨p, config⟩ .all (.object c.object) a = .ok r b ∧
        (.object o ∈ r ↔ ReflTransGen (Extends nodes) d c) := by
  have haligned := h.aligned
  refine ⟨fun t => ?_, ?_, fun d hd a o e ho he => ?_⟩
  · rw [Program.mem_subtypeClosure, haligned.reaches_iff hc]
  · obtain ⟨i, n, hi, rfl, hn⟩ := haligned.position hc
    obtain ⟨k, hk, -, hproto, -⟩ := hn.object
    obtain ⟨chain, hchain, hlineage⟩ := haligned.lineage i n hi
    have hwhole := hlineage.up ⟨k, hk, hproto⟩
    exact ⟨chain, hchain, hwhole, hwhole.nodup⟩
  · have hadmits := haligned.admits_iff hc hd ho he
    refine ⟨hadmits, fun config hoccurs hallocated => ?_⟩
    have hclosed := DeclaredType.not_open_object c.object
    obtain ⟨b, hb, -⟩ := AnalysisM.narrow_returns hoccurs.valid (Analysis.knows_all a) (.object c.object)
    obtain ⟨-, hmem⟩ := Analysis.mem_narrowed (p := p) (t := .all) hoccurs.tabled fun hall => hclosed hall.2
    have hfits := Analysis.admits_ofDeclared (p := p) (e := .object o) hoccurs.tabled (.object c.object) hclosed
    refine ⟨_, b, hb, ?_⟩
    rw [hmem, ← hfits, hadmits]
    exact and_iff_right hallocated

/-- The declarations of the class at position `i`. -/
def family.ids (i : Nat) : ClassIds := ⟨⟨i⟩, ⟨2 * i + 1⟩, ⟨2 * i⟩⟩

/-- A class `A` without a superclass. -/
def family.withA : Program := (Program.addClass {} "A" none [] [] ["x"]).2

/-- Next, `B` below `A`. -/
def family.withB : Program := (withA.addClass "B" (some ⟨0⟩) [] [] []).2

/-- Next, `C` below `A`, so that the tree branches. -/
def family.withC : Program := (withB.addClass "C" (some ⟨0⟩) [] [] ["y"]).2

/-- Last, `D` below `B`. -/
def family : Setup where
  program := (family.withC.addClass "D" (some ⟨1⟩) [] [] ["x"]).2

def family.declared : List ClassNode :=
  [⟨ids 0, none⟩, ⟨ids 1, some (ids 0)⟩, ⟨ids 2, some (ids 0)⟩, ⟨ids 3, some (ids 1)⟩]

theorem family.classes : Classes family.program family.declared := by
  have hA : Classes family.withA [⟨ids 0, none⟩] :=
    .declare .empty nofun (rfl : Program.addClass {} "A" none [] [] ["x"] = (ids 0, withA))
  have hB : Classes family.withB [⟨ids 0, none⟩, ⟨ids 1, some (ids 0)⟩] := by
    refine .declare hA ?_ (rfl : withA.addClass "B" (some ⟨0⟩) [] [] [] = (ids 1, withB))
    simp
  have hC : Classes family.withC [⟨ids 0, none⟩, ⟨ids 1, some (ids 0)⟩, ⟨ids 2, some (ids 0)⟩] := by
    refine .declare hB ?_ (rfl : withB.addClass "C" (some ⟨0⟩) [] [] ["y"] = (ids 2, withC))
    simp
  refine .declare hC ?_ (rfl : withC.addClass "D" (some ⟨1⟩) [] [] ["x"] = (ids 3, family.program))
  simp

/-- The state after declaring `D` and making an object of it. -/
def family.final : Analysis :=
  (Operation.process [] [.function ⟨3⟩, .expr ⟨.construct ⟨.name "D", none⟩ [], none⟩]).after family .fresh

/-- An object of `D` is admitted by `A`, two steps above, and not by `C`. Its prototypes are those of `D`, `B`
and `A`. -/
theorem family_consistent :
    (∃ r b, AnalysisM.narrow family .all (.object ⟨1⟩) family.final = .ok r b ∧ .object ⟨3⟩ ∈ r) ∧
    (∃ r b, AnalysisM.narrow family .all (.object ⟨5⟩) family.final = .ok r b ∧ .object ⟨3⟩ ∉ r) ∧
    ⟨7⟩ ∈ family.program.subtypeClosure ⟨1⟩ ∧
    ∃ chain, Ancestry family.declared (family.ids 3) chain ∧
      family.program.Lineage ⟨7⟩ (⟨7⟩ :: chain.map (·.prototype)) := by
  have hreach : Reachable family family.final := .after (.process _ _) .fresh trivial
  have hstate : (family.final.objects[3]?).map (·.shape) = some ⟨7⟩ ∧ family.final.allocated = [⟨3⟩] := by
    decide +kernel
  obtain ⟨e, he, hshape⟩ := Option.map_eq_some_iff.1 hstate.1
  have hallocated : (⟨3⟩ : ObjRef) ∈ family.final.allocated := by simp [hstate.2]
  have hDB : Extends family.declared (family.ids 3) (family.ids 1) := by simp [Extends, family.declared]
  have hBA : Extends family.declared (family.ids 1) (family.ids 0) := by simp [Extends, family.declared]
  have hDA : ReflTransGen (Extends family.declared) (family.ids 3) (family.ids 0) := .head hDB (.single hBA)
  have hmem : ∀ i < 4, family.ids i ∈ family.declared.map (·.ids) := by decide
  obtain ⟨hclosure, -, hA⟩ := classes_consistent family.classes (hmem 0 (by omega))
  obtain ⟨-, -, hC⟩ := classes_consistent family.classes (hmem 2 (by omega))
  obtain ⟨-, ⟨chain, hchain, hlineage, -⟩, -⟩ := classes_consistent family.classes (hmem 3 (by omega))
  obtain ⟨-, hnarrowA⟩ := hA _ (hmem 3 (by omega)) family.final ⟨3⟩ e he hshape
  obtain ⟨hadmitsC, hnarrowC⟩ := hC _ (hmem 3 (by omega)) family.final ⟨3⟩ e he hshape
  obtain ⟨r, b, hr, hinA⟩ := hnarrowA family.config hreach.occurs hallocated
  obtain ⟨r', b', hr', hinC⟩ := hnarrowC family.config hreach.occurs hallocated
  have hrefused : family.final.admits family.program (Admission.ofDeclared family.program (.object ⟨5⟩))
      (.object ⟨3⟩) = false := by
    decide +kernel
  refine ⟨⟨r, b, hr, hinA.2 hDA⟩, ⟨r', b', hr', fun hin => ?_⟩, (hclosure _).2 ⟨_, hDA, rfl⟩,
    chain, hchain, hlineage⟩
  -- if it were kept, it would be admitted
  have hadmitted := hadmitsC.2 (hinC.1 hin)
  rw [show (family.ids 2).object = ⟨5⟩ from rfl, hrefused] at hadmitted
  cases hadmitted

end TypeFlow
