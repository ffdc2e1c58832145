import TypeFlow.Proofs.BodyLayout

/-!
# Recording a body

Once the names of a body are hoisted, a walk over its text records actions in the scope of the body. A
place in the text is the list of numbers that lead to it, each saying which part to go into. The
walk writes a **log**: actions with the places that they come from.

* `Part.parts`, `Part.at?`: what a text is made of, and the part at a place. Nested functions are not
  entered.
* `Part.Gives`: the action that a part calls for.
* `Part.Logs`: a log has each part through which values flow once, and nothing of the operands of
  a part after it, unless that is a literal.
* `collect_records`: what extracting a body records is such a log.
-/

namespace TypeFlow

/-! ## Places in a text -/

/-- A part of a text: a statement, an expression, or an entry of an object literal. -/
inductive Part where
  | stmt (st : Stmt)
  | expr (e : Expr)
  | entry (literal : Expr) (entry : Entry)

namespace Part

/-- The parts that a part is made of, in the order in which they are visited: the value of an assignment
comes before its target. -/
def parts : Part → List Part
  | stmt (.var _ value _) => value.toList.map expr
  | stmt (.function _) => []
  | stmt (.expr e) => [expr e]
  | stmt (.ret value) => value.toList.map expr
  | stmt (.branch test yes no) => expr test :: (yes.map stmt ++ no.map stmt)
  | stmt (.loop test body) => expr test :: body.map stmt
  | stmt (.block body) => body.map stmt
  | expr ⟨.name _, _⟩ => []
  | expr ⟨.this, _⟩ => []
  | expr ⟨.literal, _⟩ => []
  | expr ⟨.function _, _⟩ => []
  | expr ⟨.assign target value, _⟩ => [expr value, expr target]
  | expr ⟨.call callee args, _⟩ => expr callee :: args.map expr
  | expr ⟨.construct callee args, _⟩ => expr callee :: args.map expr
  | expr ⟨.objectLit entries, declared⟩ => entries.map (entry ⟨.objectLit entries, declared⟩)
  | expr ⟨.arrayLit elements, _⟩ => elements.map expr
  | expr ⟨.prop receiver _, _⟩ => [expr receiver]
  | expr ⟨.elem receiver index, _⟩ => [expr receiver, expr index]
  | expr ⟨.comma operands, _⟩ => operands.map expr
  | expr ⟨.unknown operands, _⟩ => operands.map expr
  | expr ⟨.and left right, _⟩ => [expr left, expr right]
  | expr ⟨.or left right, _⟩ => [expr left, expr right]
  | expr ⟨.cond test yes no, _⟩ => [expr test, expr yes, expr no]
  | entry _ ⟨_, value⟩ => [expr value]

/-- The part at a place. -/
def at? : Part → List Nat → Option Part
  | q, [] => some q
  | q, i :: place => (q.parts[i]?).bind fun r => r.at? place

/-- Values flow through the part, so that it calls for an action. -/
def flows (p : Program) : Part → Bool
  | stmt (.var _ value _) => value.isSome
  | stmt (.ret value) => value.isSome
  | stmt (.function f) => ((p.function? f).bind (·.name)).isSome
  | stmt _ => false
  | expr ⟨.assign ⟨.name _, _⟩ _, _⟩ => true
  | expr ⟨.assign ⟨.prop _ _, _⟩ _, _⟩ => true
  | expr ⟨.call _ _, _⟩ => true
  | expr ⟨.construct _ _, _⟩ => true
  | expr ⟨.objectLit _, _⟩ => true
  | expr ⟨.arrayLit _, _⟩ => true
  | expr _ => false
  | entry _ _ => true

/-- The part is an object or array literal. -/
def isLiteral : Part → Bool
  | expr ⟨.objectLit _, _⟩ => true
  | expr ⟨.arrayLit _, _⟩ => true
  | _ => false

end Part

/-- The slot belongs to the nearest scope on the way upwards that declares the name. -/
def ScopeGraph.Nearest (g : ScopeGraph) (s : ScopeId) (x : String) (slot : SlotId) : Prop :=
  ∃ nearer t further, g.chain s = nearer ++ t :: further ∧ g.own t x = some slot ∧
    ∀ u ∈ nearer, g.own u x = none

variable (p : Program) (s : ScopeId) (early late : ScopeGraph)

/-- **What an assigned name stands for**, if the scopes were as in `early` when the walk began: the nearest
slot, or a global one if there is none. -/
def Aims (x : String) (slot : SlotId) : Prop :=
  early.Nearest s x slot ∨
    (∀ t ∈ early.chain s, early.own t x = none) ∧ late.own .global x = some slot

namespace Part

/-- **The action that a part calls for.** -/
inductive Gives : Part → Action → Prop
  | call {callee : Expr} {args : List Expr} {declared : Option DeclaredType} :
      Gives (expr ⟨.call callee args, declared⟩) (.call callee args)
  | construct {callee : Expr} {args : List Expr} {declared : Option DeclaredType} :
      Gives (expr ⟨.construct callee args, declared⟩) (.construct callee args)
  | object {entries : List Entry} {declared : Option DeclaredType} :
      Gives (expr ⟨.objectLit entries, declared⟩) (.allocate ⟨.objectLit entries, declared⟩)
  | array {elements : List Expr} {declared : Option DeclaredType} :
      Gives (expr ⟨.arrayLit elements, declared⟩) (.allocate ⟨.arrayLit elements, declared⟩)
  | entry {literal value : Expr} {key : String} :
      Gives (entry literal ⟨key, value⟩) (.assignProperty literal key value)
  | name {x : String} {value : Expr} {known declared : Option DeclaredType} {slot : SlotId}
      (aims : Aims s early late x slot) :
      Gives (expr ⟨.assign ⟨.name x, known⟩ value, declared⟩) (.assign slot value)
  | property {receiver value : Expr} {property : String} {known declared : Option DeclaredType} :
      Gives (expr ⟨.assign ⟨.prop receiver property, known⟩ value, declared⟩)
        (.assignProperty receiver property value)
  | var {x : String} {value : Expr} {declared : Option DeclaredType} {slot : SlotId}
      (own : early.own s x = some slot) : Gives (stmt (.var x (some value) declared)) (.assign slot value)
  | ret {value : Expr} {slot : SlotId} (own : early.own s SlotName.ret = some slot) :
      Gives (stmt (.ret (some value))) (.ret slot value)
  | function {f : FunctionId} {d : FunctionDecl} {x : String} {slot : SlotId}
      (decl : p.function? f = some d) (name : d.name = some x) (own : early.own s x = some slot) :
      Gives (stmt (.function f)) (.declareFunction slot f)

end Part

/-- Actions, each with the place that it comes from. -/
abbrev Log := List (List Nat × Action)

namespace Part

/-- **A log of the places of a part that are in `D`**: it has exactly the places there through which values
flow, each once and with its action; what stands inside a part is not after it, unless that is a
literal. -/
structure LogsWithin (q : Part) (D : List Nat → Prop) (log : Log) : Prop where
  once : (log.map Prod.fst).Nodup
  places : ∀ place, place ∈ log.map Prod.fst ↔ D place ∧ ∃ r, q.at? place = some r ∧ r.flows p = true
  right : ∀ x ∈ log, ∃ r, q.at? x.1 = some r ∧ r.Gives p s early late x.2
  ordered : log.Pairwise fun x y => x.1 <+: y.1 → ∃ r, q.at? x.1 = some r ∧ r.isLiteral = true

/-- **A log of a part.** -/
abbrev Logs (q : Part) (log : Log) : Prop := q.LogsWithin p s early late (fun _ => True) log

end Part

variable {p s early late}

namespace Part

variable {q r : Part} {D E : List Nat → Prop} {l m : Log} {a : Action} {i n : Nat}

theorem LogsWithin.mem (h : q.LogsWithin p s early late D l) {x : List Nat × Action} (hx : x ∈ l) : D x.1 :=
  ((h.places x.1).1 (List.mem_map_of_mem hx)).1

theorem LogsWithin.congr (h : q.LogsWithin p s early late D l)
    (hDE : ∀ place r, q.at? place = some r → (D place ↔ E place)) : q.LogsWithin p s early late E l := by
  refine ⟨h.once, fun place => (h.places place).trans ?_, h.right, h.ordered⟩
  constructor
  · rintro ⟨hD, r, hr, hflows⟩
    exact ⟨(hDE place r hr).1 hD, r, hr, hflows⟩
  · rintro ⟨hE, r, hr, hflows⟩
    exact ⟨(hDE place r hr).2 hE, r, hr, hflows⟩

theorem logsWithin_nil : q.LogsWithin p s early late (fun _ => False) [] := by
  refine ⟨.nil, fun place => ?_, fun x hx => absurd hx List.not_mem_nil, .nil⟩
  simp

/-- One log after another, if nothing in the second has its place in the first or stands inside a part
of the first that is no literal. -/
theorem LogsWithin.append (hl : q.LogsWithin p s early late D l) (hm : q.LogsWithin p s early late E m)
    (hdisjoint : ∀ x, D x → ¬ E x)
    (hinside : ∀ x y, D x → E y → x <+: y → ∃ r, q.at? x = some r ∧ r.isLiteral = true) :
    q.LogsWithin p s early late (fun x => D x ∨ E x) (l ++ m) := by
  refine ⟨?_, fun place => ?_, fun x hx => ?_, ?_⟩
  · rw [List.map_append, List.nodup_append]
    refine ⟨hl.once, hm.once, fun x hx y hy hxy => ?_⟩
    exact hdisjoint x ((hl.places x).1 hx).1 (hxy ▸ ((hm.places y).1 hy).1)
  · rw [List.map_append, List.mem_append, hl.places, hm.places, or_and_right]
  · exact (List.mem_append.1 hx).elim (hl.right x) (hm.right x)
  · refine List.pairwise_append.2 ⟨hl.ordered, hm.ordered, fun x hx y hy => ?_⟩
    exact hinside x.1 y.1 (hl.mem hx) (hm.mem hy)

/-- The part itself, through which values flow. -/
theorem logsWithin_root (hflows : q.flows p = true) (ha : q.Gives p s early late a) :
    q.LogsWithin p s early late (· = []) [([], a)] := by
  refine ⟨List.nodup_singleton _, fun place => ?_, fun x hx => ?_, List.pairwise_singleton _ _⟩
  · rw [List.map_singleton, List.mem_singleton]
    constructor
    · rintro rfl
      exact ⟨rfl, q, rfl, hflows⟩
    · exact And.left
  · rw [List.mem_singleton.1 hx]
    exact ⟨q, rfl, ha⟩

/-- The part itself, through which no values flow. -/
theorem logsWithin_silent (hflows : q.flows p = false) : q.LogsWithin p s early late (· = []) [] := by
  refine ⟨.nil, fun place => ?_, fun x hx => absurd hx List.not_mem_nil, .nil⟩
  rw [List.map_nil]
  refine iff_of_false List.not_mem_nil ?_
  rintro ⟨rfl, r, hr, hr'⟩
  cases hr
  rw [hflows] at hr'
  cases hr'

/-- An action of a part seen from the part around it. -/
def inside (i : Nat) (x : List Nat × Action) : List Nat × Action := (i :: x.1, x.2)

theorem at?_cons (hr : q.parts[i]? = some r) (place : List Nat) : q.at? (i :: place) = r.at? place := by
  rw [at?, hr, Option.bind_some]

/-- The log of a part seen from the part around it. -/
theorem Logs.child (hr : q.parts[i]? = some r) (h : r.Logs p s early late l) :
    q.LogsWithin p s early late (fun place => place.head? = some i) (l.map (inside i)) := by
  have hmap : (l.map (inside i)).map Prod.fst = (l.map Prod.fst).map (i :: ·) := by
    simp only [List.map_map]
    rfl
  refine ⟨?_, fun place => ?_, fun x hx => ?_, ?_⟩
  · rw [hmap]
    exact h.once.map fun x y hxy => (List.cons.inj hxy).2
  · rw [hmap, List.mem_map]
    constructor
    · rintro ⟨rest, hrest, rfl⟩
      obtain ⟨-, t, ht, hflows⟩ := (h.places rest).1 hrest
      exact ⟨rfl, t, (at?_cons hr rest).trans ht, hflows⟩
    · rintro ⟨hhead, t, ht, hflows⟩
      cases place with
      | nil => cases hhead
      | cons j rest =>
        cases hhead
        rw [at?_cons hr] at ht
        exact ⟨rest, (h.places rest).2 ⟨trivial, t, ht, hflows⟩, rfl⟩
  · obtain ⟨y, hy, rfl⟩ := List.mem_map.1 hx
    obtain ⟨t, ht, hgives⟩ := h.right y hy
    exact ⟨t, (at?_cons hr y.1).trans ht, hgives⟩
  · rw [List.pairwise_map]
    refine h.ordered.imp fun {x y} hxy hprefix => ?_
    obtain ⟨t, ht, hliteral⟩ := hxy (List.cons_prefix_cons.1 hprefix).2
    exact ⟨t, (at?_cons hr x.1).trans ht, hliteral⟩

/-! ## Part after part -/

/-- A log of the first `n` parts of a part. -/
def Covers (p : Program) (s : ScopeId) (early late : ScopeGraph) (q : Part) (n : Nat) (log : Log) : Prop :=
  q.LogsWithin p s early late (fun place => ∃ i, place.head? = some i ∧ i < n) log

/-- What is added to a log of the first `n` parts for one of the first `m`. -/
def Adds (p : Program) (s : ScopeId) (early : ScopeGraph) (q : Part) (n m : Nat) (late : ScopeGraph) (new : Log) :
    Prop :=
  ∀ log, q.Covers p s early late n log → q.Covers p s early late m (log ++ new)

/-- What is added to a log of the first `n` parts for one of the whole. -/
def Completes (p : Program) (s : ScopeId) (early : ScopeGraph) (q : Part) (n : Nat) (late : ScopeGraph)
    (new : Log) : Prop :=
  ∀ log, q.Covers p s early late n log → q.Logs p s early late (log ++ new)

theorem covers_nil : q.Covers p s early late 0 [] := by
  refine logsWithin_nil.congr fun place r _ => ⟨False.elim, ?_⟩
  rintro ⟨i, -, hi⟩
  exact absurd hi (Nat.not_lt_zero i)

theorem Adds.refl : q.Adds p s early n n late [] := by
  intro log hlog
  rwa [List.append_nil]

theorem Adds.trans {k : Nat} (hl : q.Adds p s early n i late l) (hm : q.Adds p s early i k late m) :
    q.Adds p s early n k late (l ++ m) := by
  intro log hlog
  rw [← List.append_assoc]
  exact hm _ (hl log hlog)

theorem Adds.completes (hl : q.Adds p s early n i late l) (hm : q.Completes p s early i late m) :
    q.Completes p s early n late (l ++ m) := by
  intro log hlog
  rw [← List.append_assoc]
  exact hm _ (hl log hlog)

/-- The next part. -/
theorem Logs.adds (hr : q.parts[n]? = some r) (h : r.Logs p s early late l) :
    q.Adds p s early n (n + 1) late (l.map (inside n)) := by
  intro log hlog
  refine (hlog.append (h.child hr) ?_ ?_).congr fun place r _ => ?_
  · rintro x ⟨i, hi, hlt⟩ hn
    rw [hi] at hn
    cases hn
    omega
  · -- a place in an earlier part is not around one in this part
    rintro x y ⟨i, hi, hlt⟩ hn ⟨rest, rfl⟩
    cases x with
    | nil => cases hi
    | cons j x =>
      cases hi
      cases hn
      omega
  · constructor
    · rintro (⟨i, hi, hlt⟩ | hn)
      · exact ⟨i, hi, by omega⟩
      · exact ⟨n, hn, by omega⟩
    · rintro ⟨i, hi, hlt⟩
      by_cases hin : i = n
      · exact .inr (hin ▸ hi)
      · exact .inl ⟨i, hi, by omega⟩

/-- A place is the whole or in one of the parts. -/
theorem place_cases {place : List Nat} (hplace : q.at? place = some r) :
    (∃ i, place.head? = some i ∧ i < q.parts.length) ∨ place = [] := by
  cases place with
  | nil => exact .inr rfl
  | cons i place =>
    obtain ⟨t, ht, -⟩ := Option.bind_eq_some_iff.1 hplace
    exact .inl ⟨i, rfl, (List.getElem?_eq_some_iff.1 ht).1⟩

/-- After all parts comes the part itself. -/
theorem LogsWithin.completes (h : q.LogsWithin p s early late (· = []) l) :
    q.Completes p s early q.parts.length late l := by
  intro log hlog
  refine (hlog.append h ?_ ?_).congr fun place r hplace => iff_of_true (place_cases hplace) trivial
  · rintro x ⟨i, hi, -⟩ rfl
    cases hi
  · rintro x y ⟨i, hi, -⟩ rfl hprefix
    rw [List.prefix_nil.1 hprefix] at hi
    cases hi

/-- A literal comes before its parts. -/
theorem LogsWithin.before (h : q.LogsWithin p s early late (· = []) l) (hq : q.isLiteral = true)
    (hm : q.Adds p s early 0 q.parts.length late m) : q.Logs p s early late (l ++ m) := by
  have hparts : q.Covers p s early late q.parts.length m := hm [] covers_nil
  refine (h.append hparts ?_ ?_).congr fun place r hplace => iff_of_true (place_cases hplace).symm trivial
  · rintro x rfl ⟨i, hi, -⟩
    cases hi
  · rintro x y rfl - -
    exact ⟨q, rfl, hq⟩

theorem Completes.logs (h : q.Completes p s early 0 late l) : q.Logs p s early late l := h [] covers_nil

end Part

/-! ## What the walk does -/

namespace ScopeGraph

variable {g h k : ScopeGraph} {x : String} {slot : SlotId}

theorem lookup_eq_some_iff : g.lookup s x = some slot ↔ g.Nearest s x slot := List.findSome?_eq_some_iff

theorem lookup_eq_none_iff : g.lookup s x = none ↔ ∀ t ∈ g.chain s, g.own t x = none := List.findSome?_eq_none_iff

theorem parent?_modifyScope {f : Scope → Scope} (hf : ∀ c, (f c).parent = c.parent) (t : ScopeId) :
    (g.modifyScope s f).parent? t = g.parent? t := by
  unfold parent?
  rw [scope?_modifyScope]
  cases g.scope? t with
  | none => rfl
  | some c =>
    by_cases hst : s = t
    · simp [hst, hf]
    · simp [hst]

/-- The slots and the parameters of a scope. -/
def layoutOf (g : ScopeGraph) (t : ScopeId) : Option (List (String × SlotId) × List SlotId) :=
  (g.scope? t).map fun c => (c.slots, c.params)

/-- **While the actions of the scope `s` are recorded**, no scope but the global one gets new names, and those
stood for nothing. -/
structure Attends (s : ScopeId) (early g : ScopeGraph) : Prop where
  there : s.index < g.scopes.length
  parents : ∀ t, g.parent? t = early.parent? t
  layout : ∀ t, t ≠ .global → g.layoutOf t = early.layoutOf t
  fresh : ∀ x, g.own .global x ≠ early.own .global x → early.lookup s x = none
  actions : ∀ t, t ≠ s → g.actionsOf t = early.actionsOf t

theorem own_of_layoutOf {t : ScopeId} (hlayout : g.layoutOf t = h.layoutOf t) : g.own t x = h.own t x := by
  have hown (k : ScopeGraph) : k.own t x = (k.layoutOf t).bind fun c => c.1.lookup x := by
    unfold own layoutOf
    cases k.scope? t <;> rfl
  rw [hown, hown, hlayout]

namespace Attends

variable (hg : early.Attends s g)
include hg

theorem own {t : ScopeId} (ht : t ≠ .global) : g.own t x = early.own t x := own_of_layoutOf (hg.layout t ht)

theorem chain : g.chain s = early.chain s :=
  (chainWithin_congr (P := fun _ => True) (fun t _ => hg.parents t) (fun _ _ _ _ => trivial) _ trivial).1

/-- A name that stood for something stands for the same. -/
theorem lookup (hx : early.lookup s x ≠ none) : g.lookup s x = early.lookup s x := by
  refine lookup_congr (P := fun _ => True) (fun t _ => hg.parents t) (fun _ _ _ _ => trivial) (fun t _ => ?_) trivial
  by_cases ht : t = .global
  · rw [ht]
    by_contra hne
    exact hx (hg.fresh x hne)
  · exact hg.own ht

/-- A name that stands for something now is aimed at. -/
theorem aims (hx : g.lookup s x = some slot) (hgk : g.Grows k) : Aims s early k x slot := by
  by_cases hearly : early.lookup s x = none
  · -- the scope that declares the name now did not declare it before, so it is the global one
    obtain ⟨nearer, t, further, hchain, hown, -⟩ := lookup_eq_some_iff.1 hx
    have hnone := lookup_eq_none_iff.1 hearly
    have ht : t ∈ early.chain s := by
      rw [← hg.chain, hchain]
      exact List.mem_append_right _ (List.mem_cons_self ..)
    have hroot : t = .global := by
      by_contra hne
      rw [hg.own hne, hnone t ht] at hown
      cases hown
    rw [hroot] at hown
    exact .inr ⟨hnone, hgk.own hown⟩
  · rw [hg.lookup hearly] at hx
    exact .inl (lookup_eq_some_iff.1 hx)

theorem pushAction (a : Action) : early.Attends s (g.pushAction s a) := by
  refine ⟨?_, fun t => ?_, fun t ht => ?_, fun x hx => hg.fresh x ?_, fun t ht => ?_⟩
  · exact (List.length_modify ..).symm ▸ hg.there
  · rw [← hg.parents t]
    exact parent?_modifyScope (f := fun c => { c with actions := c.actions ++ [a] }) (fun _ => rfl) t
  · rw [← hg.layout t ht]
    unfold layoutOf ScopeGraph.pushAction
    rw [scope?_modifyScope]
    cases g.scope? t with
    | none => rfl
    | some c =>
      by_cases hst : s = t
      · simp [hst]
      · simp [hst]
  · rwa [← own_modifyScope g (s := s) (f := fun c => { c with actions := c.actions ++ [a] }) fun _ => rfl]
  · have hfills : g.Fills s (g.recording s [a]) := recording_fills
    have hother : (g.pushAction s a).scope? t = g.scope? t := hfills.others t ht
    rw [← hg.actions t ht]
    unfold actionsOf
    rw [hother]

theorem lookup_early (hx : g.lookup s x = none) : early.lookup s x = none := by
  by_contra hne
  exact hne ((hg.lookup hne).symm.trans hx)

/-- A name that stands for nothing becomes a global one. -/
theorem bindSlot (hx : g.lookup s x = none) (hroot : g.own .global x = none) :
    early.Attends s (g.bindSlot .global x) := by
  have hthere : ScopeId.global.index < g.scopes.length := Nat.lt_of_le_of_lt (Nat.zero_le _) hg.there
  refine ⟨?_, fun t => ?_, fun t ht => ?_, fun y hy => ?_, fun t ht => ?_⟩
  · rw [length_bindSlot]
    exact hg.there
  · rw [← hg.parents t]
    exact parent?_modifyScope (f := fun c => { c with slots := c.slots ++ [(x, ⟨g.slots.length⟩)] }) (fun _ => rfl) t
  · rw [← hg.layout t ht]
    unfold layoutOf
    rw [scope?_bindSlot]
    cases g.scope? t with
    | none => rfl
    | some c => rw [Option.map_some, if_neg (Ne.symm ht)]
  · rw [own_bindSlot hthere hroot] at hy
    by_cases hxy : x = y
    · rw [← hxy]
      exact hg.lookup_early hx
    · rw [if_neg fun h => hxy h.2] at hy
      exact hg.fresh y hy
  · rw [← hg.actions t ht]
    exact (bindSlot_builds (D := (· = .global)) (E := fun _ => False) rfl hroot).actions t id

end Attends

theorem actionsOf_pushAction (hs : s.index < g.scopes.length) (a : Action) :
    (g.pushAction s a).actionsOf s = g.actionsOf s ++ [a] := by
  obtain ⟨c, hc⟩ := exists_scope hs
  unfold actionsOf ScopeGraph.pushAction
  rw [scope?_modifyScope, hc]
  simp

end ScopeGraph

namespace Extraction

variable {g : ScopeGraph} {x : String} {slot : SlotId}

theorem targetSlot_found (hx : g.lookup s x = some slot) : targetSlot ⟨.global, s, false⟩ x g = .ok slot g := by
  rw [targetSlot, get_bind_apply]
  dsimp only
  rw [hx]
  rfl

theorem targetSlot_missing (hx : g.lookup s x = none) :
    targetSlot ⟨.global, s, false⟩ x g = GraphM.declare .global x g := by
  rw [targetSlot, get_bind_apply]
  dsimp only
  rw [hx]

end Extraction

/-! ## Computations that write a log -/

section Writing

variable {Bad : Prop} {P Q R : ScopeGraph → Log → Prop} {x y : GraphM Unit} {g : ScopeGraph}

/-- From `g`, the computation adds the actions of a log with `P` to the scope `s`, or `Bad` is the case. -/
def WritesAt (s : ScopeId) (early : ScopeGraph) (Bad : Prop) (P : ScopeGraph → Log → Prop) (x : GraphM Unit)
    (g : ScopeGraph) : Prop :=
  Ends (fun h => early.Attends s h ∧ g.Grows h ∧
    ∃ log : Log, h.actionsOf s = g.actionsOf s ++ log.map Prod.snd ∧ ∀ late, h.Grows late → P late log)
    (fun _ => Bad) x g

/-- **The computation writes a log** with `P`, which is said of any later graph, or `Bad` is the case. -/
def Writes (s : ScopeId) (early : ScopeGraph) (Bad : Prop) (P : ScopeGraph → Log → Prop) (x : GraphM Unit) : Prop :=
  ∀ g, early.Attends s g → WritesAt s early Bad P x g

theorem writes_pure (hP : ∀ late, P late []) : Writes s early Bad P (pure ⟨⟩) := by
  intro g hg
  exact ⟨hg, refl_of _ g, [], (List.append_nil _).symm, fun late _ => hP late⟩

theorem writes_get {f : ScopeGraph → GraphM Unit} (hf : ∀ g, early.Attends s g → WritesAt s early Bad P (f g) g) :
    Writes s early Bad P (get >>= f) := hf

theorem Writes.bind (hx : Writes s early Bad P x) (hy : Writes s early Bad Q y)
    (hPQ : ∀ late l m, P late l → Q late m → R late (l ++ m)) : Writes s early Bad R (x >>= fun _ => y) := by
  intro g hg
  refine Ends.bind (hx g hg) ?_
  rintro _ h ⟨hh, hgh, l, hl, hP⟩
  refine Ends.mono (hy h hh) ?_
  rintro k ⟨hk, hhk, m, hm, hQ⟩
  refine ⟨hk, trans_of ScopeGraph.Grows hgh hhk, l ++ m, ?_, fun late hlate => ?_⟩
  · rw [hm, hl, List.map_append, List.append_assoc]
  · exact hPQ late l m (hP late (trans_of ScopeGraph.Grows hhk hlate)) (hQ late hlate)

theorem Writes.imp (hx : Writes s early Bad P x) (hPQ : ∀ late l, P late l → Q late l) : Writes s early Bad Q x := by
  intro g hg
  refine Ends.mono (hx g hg) ?_
  rintro h ⟨hh, hgh, l, hl, hP⟩
  exact ⟨hh, hgh, l, hl, fun late hlate => hPQ late l (hP late hlate)⟩

/-- The places may be seen from elsewhere. -/
theorem Writes.map (hx : Writes s early Bad P x) {f : List Nat × Action → List Nat × Action}
    (hf : ∀ a, (f a).2 = a.2) (hPQ : ∀ late l, P late l → Q late (l.map f)) : Writes s early Bad Q x := by
  intro g hg
  refine Ends.mono (hx g hg) ?_
  rintro h ⟨hh, hgh, l, hl, hP⟩
  refine ⟨hh, hgh, l.map f, ?_, fun late hlate => hPQ late l (hP late hlate)⟩
  have hsame : (l.map f).map Prod.snd = l.map Prod.snd := by
    rw [List.map_map]
    exact List.map_congr_left fun a _ => hf a
  rw [hsame]
  exact hl

theorem writesAt_emit {a : Action} (hg : early.Attends s g) (hP : ∀ late, g.Grows late → P late [([], a)]) :
    WritesAt s early Bad P (GraphM.emit s a) g := by
  have hgrows : g.Grows (g.pushAction s a) := ScopeGraph.pushAction_grows g s a
  refine ⟨hg.pushAction a, hgrows, [([], a)], ScopeGraph.actionsOf_pushAction hg.there a, fun late hlate => ?_⟩
  exact hP late (trans_of ScopeGraph.Grows hgrows hlate)

theorem writes_emit {a : Action} (hP : ∀ late, P late [([], a)]) : Writes s early Bad P (GraphM.emit s a) :=
  fun _ hg => writesAt_emit hg fun late _ => hP late

/-- What comes first may add names, but no actions. -/
theorem writesAt_bind {α : Type} {z : GraphM α} {f : α → GraphM Unit} {v : α} {h : ScopeGraph} (hz : z g = .ok v h)
    (hgh : g.Grows h) (hactions : h.actionsOf s = g.actionsOf s) (hf : WritesAt s early Bad P (f v) h) :
    WritesAt s early Bad P (z >>= f) g := by
  have hbind : (z >>= f) g = f v h := by rw [bind_apply, hz]
  unfold WritesAt Ends at hf ⊢
  rw [hbind]
  cases hv : f v h with
  | error e k =>
    rw [hv] at hf
    exact hf
  | ok u k =>
    rw [hv] at hf
    obtain ⟨hk, hhk, log, hlog, hP⟩ := hf
    exact ⟨hk, trans_of ScopeGraph.Grows hgh hhk, log, hactions ▸ hlog, hP⟩

/-- **Assigning to a name** records the slot that is aimed at. It goes wrong only if the global scope is
not on the way upwards. -/
theorem writes_assign {name : String} {value : Expr} (hroot : .global ∉ early.chain s → Bad)
    (hP : ∀ late slot, Aims s early late name slot → P late [([], .assign slot value)]) :
    Writes s early Bad P (Extraction.targetSlot ⟨.global, s, false⟩ name >>= fun slot =>
      GraphM.emit s (.assign slot value)) := by
  intro g hg
  cases hlookup : g.lookup s name with
  | some slot =>
    refine writesAt_bind (Extraction.targetSlot_found hlookup) (refl_of _ g) rfl ?_
    exact writesAt_emit hg fun late hlate => hP late slot (hg.aims hlookup hlate)
  | none =>
    have htarget := Extraction.targetSlot_missing hlookup
    rw [GraphM.declare_apply] at htarget
    cases hown : g.own .global name with
    | some slot =>
      -- a global name that cannot be found from here
      rw [hown] at htarget
      unfold WritesAt Ends
      rw [bind_apply, htarget]
      refine hroot fun hchain => ?_
      have hnone := ScopeGraph.lookup_eq_none_iff.1 hlookup .global (hg.chain ▸ hchain)
      rw [hown] at hnone
      cases hnone
    | none =>
      rw [hown] at htarget
      have hbuilds : g.Builds (fun t => t = .global) (fun _ => False) (g.bindSlot .global name) :=
        ScopeGraph.bindSlot_builds (D := fun t => t = .global) rfl hown
      have hthere : ScopeId.global.index < g.scopes.length := Nat.lt_of_le_of_lt (Nat.zero_le _) hg.there
      have hnew : (g.bindSlot .global name).own .global name = some ⟨g.slots.length⟩ := by
        rw [ScopeGraph.own_bindSlot hthere hown, if_pos ⟨rfl, rfl⟩]
      have hnone := ScopeGraph.lookup_eq_none_iff.1 (hg.lookup_early hlookup)
      refine writesAt_bind htarget hbuilds.grows (hbuilds.actions s id) ?_
      exact writesAt_emit (hg.bindSlot hlookup hown) fun late hlate => hP late _ (.inr ⟨hnone, hlate.own hnew⟩)

variable {q r : Part} {n m k : Nat} {a : Action}

theorem Writes.child (hx : Writes s early Bad (fun late => r.Logs p s early late) x) (hr : q.parts[n]? = some r) :
    Writes s early Bad (q.Adds p s early n (n + 1)) x :=
  hx.map (f := Part.inside n) (fun _ => rfl) fun _ _ hl => hl.adds hr

theorem Writes.adding (hx : Writes s early Bad (q.Adds p s early n m) x)
    (hy : Writes s early Bad (q.Adds p s early m k) y) :
    Writes s early Bad (q.Adds p s early n k) (x >>= fun _ => y) :=
  hx.bind hy fun _ _ _ hl hm => hl.trans hm

theorem Writes.completing (hx : Writes s early Bad (q.Adds p s early n m) x)
    (hy : Writes s early Bad (q.Completes p s early m) y) :
    Writes s early Bad (q.Completes p s early n) (x >>= fun _ => y) :=
  hx.bind hy fun _ _ _ hl hm => hl.completes hm

theorem Writes.logs (hx : Writes s early Bad (q.Completes p s early 0) x) :
    Writes s early Bad (fun late => q.Logs p s early late) x :=
  hx.imp fun _ _ hl => hl.logs

/-- A part through which no values flow is done after its last part. -/
theorem Writes.silent (hx : Writes s early Bad (q.Adds p s early 0 q.parts.length) x) (hq : q.flows p = false) :
    Writes s early Bad (fun late => q.Logs p s early late) x := by
  refine hx.imp fun late l hl => ?_
  have hlogs := (hl.completes (Part.logsWithin_silent hq).completes).logs
  rwa [List.append_nil] at hlogs

theorem writes_leaf (hq : q.flows p = false) (hparts : q.parts = []) :
    Writes s early Bad (fun late => q.Logs p s early late) (pure ⟨⟩) := by
  refine Writes.silent (writes_pure fun late => ?_) hq
  rw [hparts]
  exact .refl

/-- The action of a part comes after its last part. -/
theorem writes_last (hq : q.flows p = true) (ha : ∀ late, q.Gives p s early late a) :
    Writes s early Bad (q.Completes p s early q.parts.length) (GraphM.emit s a) :=
  writes_emit fun late => (Part.logsWithin_root hq (ha late)).completes

/-- The action of a literal comes before its parts. -/
theorem Writes.literal (hx : Writes s early Bad (q.Adds p s early 0 q.parts.length) x) (hliteral : q.isLiteral = true)
    (hq : q.flows p = true) (ha : ∀ late, q.Gives p s early late a) :
    Writes s early Bad (fun late => q.Logs p s early late) (GraphM.emit s a >>= fun _ => x) := by
  refine Writes.bind (writes_emit (P := fun late l => q.LogsWithin p s early late (· = []) l) fun late => ?_) hx ?_
  · exact Part.logsWithin_root hq (ha late)
  · exact fun late l m hl hm => hl.before hliteral hm

end Writing

/-! ## The walk -/

/-- The parts from the `n`th on begin with `a`. -/
theorem drop_eq_cons {α : Type} {l m : List α} {n : Nat} {a : α} (h : l.drop n = a :: m) :
    l[n]? = some a ∧ l.drop (n + 1) = m := by
  have hhead : l[n]? = (l.drop n)[0]? := by simp
  have htail : l.drop (n + 1) = (l.drop n).drop 1 := by simp
  rw [hhead, htail, h]
  exact ⟨rfl, rfl⟩

/-- What is visited from the `n`th part on is all the rest. -/
theorem Writes.to_end {Bad : Prop} {q : Part} {n k : Nat} {x : GraphM Unit}
    (hx : Writes s early Bad (q.Adds p s early n (n + k)) x) (hk : q.parts.length = n + k) :
    Writes s early Bad (q.Adds p s early n q.parts.length) x := by
  rw [hk]
  exact hx

namespace Extraction

open GraphM

variable {Bad : Prop}

mutual

/-- **Visiting an expression writes a log of it.** -/
theorem visitExpr_writes (hroot : .global ∉ early.chain s → Bad) : ∀ e : Expr,
    Writes s early Bad (fun late => (Part.expr e).Logs p s early late) (visitExpr ⟨.global, s, false⟩ e)
  | ⟨.name _, _⟩ => writes_leaf rfl rfl
  | ⟨.this, _⟩ => writes_leaf rfl rfl
  | ⟨.literal, _⟩ => writes_leaf rfl rfl
  | ⟨.function _, _⟩ => writes_leaf rfl rfl
  | ⟨.assign target value, declared⟩ => by
    have htarget := visitExpr_writes hroot target
    have hvalue := (visitExpr_writes hroot value).child (q := .expr ⟨.assign target value, declared⟩) (n := 0) rfl
    unfold visitExpr
    obtain ⟨form, known⟩ := target
    cases form with
    | name x =>
      refine (hvalue.completing (writes_assign hroot fun late slot haims => ?_)).logs
      -- the target is a part too, but nothing flows through a name
      have hname : (Part.expr ⟨.name x, known⟩).Logs p s early late [] :=
        Part.Completes.logs (Part.logsWithin_silent (q := .expr ⟨.name x, known⟩) rfl).completes
      exact (hname.adds rfl).completes (Part.logsWithin_root rfl (.name haims)).completes
    | prop receiver property =>
      exact (hvalue.completing ((htarget.child rfl).completing (writes_last rfl fun _ => .property))).logs
    | _ => exact (hvalue.adding (htarget.child rfl)).silent rfl
  | ⟨.call callee args, declared⟩ => by
    have hcallee := (visitExpr_writes hroot callee).child (q := .expr ⟨.call callee args, declared⟩) (n := 0) rfl
    have hargs := visitExprs_writes hroot args (.expr ⟨.call callee args, declared⟩) 1 [] (List.append_nil _).symm
    have hrest := (hargs.to_end (by simp [Part.parts, Nat.add_comm])).completing (writes_last rfl fun _ => .call)
    exact (hcallee.completing hrest).logs
  | ⟨.construct callee args, declared⟩ => by
    have hcallee := (visitExpr_writes hroot callee).child (q := .expr ⟨.construct callee args, declared⟩) (n := 0) rfl
    have hargs := visitExprs_writes hroot args (.expr ⟨.construct callee args, declared⟩) 1 []
      (List.append_nil _).symm
    have hrest := (hargs.to_end (by simp [Part.parts, Nat.add_comm])).completing (writes_last rfl fun _ => .construct)
    exact (hcallee.completing hrest).logs
  | ⟨.objectLit entries, declared⟩ => by
    have hentries := visitEntries_writes hroot ⟨.objectLit entries, declared⟩ entries
      (.expr ⟨.objectLit entries, declared⟩) 0 [] (List.append_nil _).symm
    exact (hentries.to_end (by simp [Part.parts])).literal rfl rfl fun _ => .object
  | ⟨.arrayLit elements, declared⟩ => by
    have helements := visitExprs_writes hroot elements (.expr ⟨.arrayLit elements, declared⟩) 0 []
      (List.append_nil _).symm
    exact (helements.to_end (by simp [Part.parts])).literal rfl rfl fun _ => .array
  | ⟨.prop receiver _, _⟩ => ((visitExpr_writes hroot receiver).child rfl).silent rfl
  | ⟨.elem receiver index, _⟩ =>
    (((visitExpr_writes hroot receiver).child rfl).adding ((visitExpr_writes hroot index).child rfl)).silent rfl
  | ⟨.comma operands, declared⟩ => by
    have hoperands := visitExprs_writes hroot operands (.expr ⟨.comma operands, declared⟩) 0 []
      (List.append_nil _).symm
    exact (hoperands.to_end (by simp [Part.parts])).silent rfl
  | ⟨.unknown operands, declared⟩ => by
    have hoperands := visitExprs_writes hroot operands (.expr ⟨.unknown operands, declared⟩) 0 []
      (List.append_nil _).symm
    exact (hoperands.to_end (by simp [Part.parts])).silent rfl
  | ⟨.and left right, _⟩ =>
    (((visitExpr_writes hroot left).child rfl).adding ((visitExpr_writes hroot right).child rfl)).silent rfl
  | ⟨.or left right, _⟩ =>
    (((visitExpr_writes hroot left).child rfl).adding ((visitExpr_writes hroot right).child rfl)).silent rfl
  | ⟨.cond test yes no, _⟩ =>
    (((visitExpr_writes hroot test).child rfl).adding
      (((visitExpr_writes hroot yes).child rfl).adding ((visitExpr_writes hroot no).child rfl))).silent rfl
termination_by structural e => e

theorem visitExprs_writes (hroot : .global ∉ early.chain s → Bad) :
    ∀ (es : List Expr) (q : Part) (n : Nat) (back : List Part), q.parts.drop n = es.map .expr ++ back →
      Writes s early Bad (q.Adds p s early n (n + es.length)) (visitExprs ⟨.global, s, false⟩ es)
  | [], q, n, back, _ => writes_pure fun _ => .refl
  | e :: es, q, n, back, h => by
    obtain ⟨hfirst, hrest⟩ := drop_eq_cons h
    have hes := visitExprs_writes hroot es q (n + 1) back hrest
    rw [Nat.add_assoc, Nat.add_comm 1] at hes
    exact ((visitExpr_writes hroot e).child hfirst).adding hes
termination_by structural es => es

theorem visitEntries_writes (hroot : .global ∉ early.chain s → Bad) (literal : Expr) :
    ∀ (es : List Entry) (q : Part) (n : Nat) (back : List Part), q.parts.drop n = es.map (.entry literal) ++ back →
      Writes s early Bad (q.Adds p s early n (n + es.length)) (visitEntries ⟨.global, s, false⟩ literal es)
  | [], q, n, back, _ => writes_pure fun _ => .refl
  | ⟨key, value⟩ :: es, q, n, back, h => by
    obtain ⟨hfirst, hrest⟩ := drop_eq_cons h
    have hes := visitEntries_writes hroot literal es q (n + 1) back hrest
    have hentry : Writes s early Bad (fun late => (Part.entry literal ⟨key, value⟩).Logs p s early late)
        (visitExpr ⟨.global, s, false⟩ value >>= fun _ => emit s (.assignProperty literal key value)) :=
      (((visitExpr_writes hroot value).child rfl).completing (writes_last rfl fun _ => .entry)).logs
    rw [Nat.add_assoc, Nat.add_comm 1] at hes
    rw [visitEntries, ← bind_assoc]
    exact (hentry.child hfirst).adding hes
termination_by structural es => es

end

/-- A declaration is known, and its name is one of the scope. -/
def Placed (p : Program) (s : ScopeId) (early : ScopeGraph) (d : Declaration) : Prop :=
  d.Known p ∧ ∀ x, d.name? p = some x → ∃ slot, early.own s x = some slot

mutual

/-- **Visiting a statement whose names are hoisted writes a log of it.** It goes wrong only if the scope does
not lie in the global one, or if there is a return but no slot for it. -/
theorem visitStmt_writes (hs : s ≠ .global) (hroot : .global ∉ early.chain s → Bad)
    (hret : early.own s SlotName.ret = none → Bad) : ∀ st : Stmt, (∀ d ∈ st.declarations, Placed p s early d) →
    Writes s early Bad (fun late => (Part.stmt st).Logs p s early late) (visitStmt p ⟨.global, s, false⟩ st)
  | .var x value declared, h => by
    obtain ⟨slot, hslot⟩ := (h (.var x) (List.mem_singleton_self _)).2 x rfl
    rw [visitStmt]
    refine writes_get fun g hg => ?_
    have hown : g.own s x = some slot := (hg.own hs).trans hslot
    dsimp only
    rw [hown]
    dsimp only
    cases value with
    | some e =>
      exact (((visitExpr_writes hroot e).child rfl).completing (writes_last rfl fun _ => .var hslot)).logs g hg
    | none =>
      cases declared with
      | some d => exact writes_leaf rfl rfl g hg
      | none => exact writes_leaf rfl rfl g hg
  | .function f, h => by
    obtain ⟨⟨d, hd⟩, hname⟩ := h (.function f) (List.mem_singleton_self _)
    rw [Declaration.name?, hd, Option.bind_some] at hname
    rw [visitStmt, FunctionRegistry.demand, hd, pure_bind]
    refine writes_get fun g hg => ?_
    cases hx : d.name with
    | none =>
      have hflows : (Part.stmt (.function f)).flows p = false := by rw [Part.flows, hd, Option.bind_some, hx]; rfl
      exact writes_leaf hflows rfl g hg
    | some x =>
      obtain ⟨slot, hslot⟩ := hname x hx
      have hown : g.own s x = some slot := (hg.own hs).trans hslot
      have hflows : (Part.stmt (.function f)).flows p = true := by rw [Part.flows, hd, Option.bind_some, hx]; rfl
      dsimp only [Option.bind_some]
      rw [hown]
      exact Writes.logs (q := .stmt (.function f)) (writes_last hflows fun _ => .function hd hx hslot) g hg
  | .expr e, _ => ((visitExpr_writes hroot e).child rfl).silent rfl
  | .ret value, _ => by
    rw [visitStmt]
    refine writes_get fun g hg => ?_
    have hown : g.own s SlotName.ret = early.own s SlotName.ret := hg.own hs
    dsimp only
    rw [hown]
    cases hslot : early.own s SlotName.ret with
    | none => exact hret hslot
    | some slot =>
      cases value with
      | some e =>
        exact (((visitExpr_writes hroot e).child rfl).completing (writes_last rfl fun _ => .ret hslot)).logs g hg
      | none => exact writes_leaf rfl rfl g hg
  | .branch test yes no, h => by
    have hyes := visit_writes hs hroot hret yes (.stmt (.branch test yes no)) 1 (no.map .stmt)
      (fun d hd => h d (List.mem_append_left _ hd)) rfl
    have hno := visit_writes hs hroot hret no (.stmt (.branch test yes no)) (1 + yes.length) []
      (fun d hd => h d (List.mem_append_right _ hd)) (by simp [Part.parts, Nat.add_comm 1])
    have hlength : (Part.stmt (.branch test yes no)).parts.length = 1 + yes.length + no.length := by
      simp [Part.parts]
      omega
    exact (((visitExpr_writes hroot test).child rfl).adding (hyes.adding (hno.to_end hlength))).silent rfl
  | .loop test body, h => by
    have hbody := visit_writes hs hroot hret body (.stmt (.loop test body)) 1 [] h (List.append_nil _).symm
    have hlength : (Part.stmt (.loop test body)).parts.length = 1 + body.length := by simp [Part.parts, Nat.add_comm]
    exact (((visitExpr_writes hroot test).child rfl).adding (hbody.to_end hlength)).silent rfl
  | .block body, h => by
    have hbody := visit_writes hs hroot hret body (.stmt (.block body)) 0 [] h (List.append_nil _).symm
    exact (hbody.to_end (by simp [Part.parts])).silent rfl
termination_by structural st => st

theorem visit_writes (hs : s ≠ .global) (hroot : .global ∉ early.chain s → Bad)
    (hret : early.own s SlotName.ret = none → Bad) :
    ∀ (sts : List Stmt) (q : Part) (n : Nat) (back : List Part),
      (∀ d ∈ Stmt.declarationsAll sts, Placed p s early d) → q.parts.drop n = sts.map .stmt ++ back →
      Writes s early Bad (q.Adds p s early n (n + sts.length)) (visit p ⟨.global, s, false⟩ sts)
  | [], q, n, back, _, _ => writes_pure fun _ => .refl
  | st :: sts, q, n, back, h, hparts => by
    obtain ⟨hfirst, hrest⟩ := drop_eq_cons hparts
    have hst := visitStmt_writes hs hroot hret st fun d hd => h d (List.mem_append_left _ hd)
    have hsts := visit_writes hs hroot hret sts q (n + 1) back (fun d hd => h d (List.mem_append_right _ hd)) hrest
    rw [Nat.add_assoc, Nat.add_comm 1] at hsts
    exact (hst.child hfirst).adding hsts
termination_by structural sts => sts

end

end Extraction

theorem ScopeGraph.Attends.refl {g : ScopeGraph} (hs : s.index < g.scopes.length) : g.Attends s g :=
  ⟨hs, fun _ => rfl, fun _ _ => rfl, fun _ hne => absurd rfl hne, fun _ _ => rfl⟩

/-- After hoisting, everything that a text declares has its place. -/
theorem Extraction.hoist_placed {g h : ScopeGraph} {text : List Stmt} {u : Unit} (hs : s.index < g.scopes.length)
    (hok : hoist p s text g = .ok u h) :
    s.index < h.scopes.length ∧ ∀ d ∈ Stmt.declarationsAll text, Placed p s h d := by
  obtain ⟨hknown, rfl⟩ := hoist_ok hok
  have hgrows := ((hoist_furnishes text).ok hok).builds.grows
  have hthere := Nat.lt_of_lt_of_le hs hgrows.scopes.length_le
  refine ⟨hthere, fun d hd => ⟨hknown d hd, fun x hx => ?_⟩⟩
  have hmem : x ∈ Stmt.hoisted p text := List.mem_filterMap.2 ⟨d, hd, hx⟩
  exact Option.ne_none_iff_exists'.1 ((ScopeGraph.own_ne_none_iff hthere).2 (ScopeGraph.mem_namesOf_bindAll hs hmem))

/-- **What extracting a body records.** If it ends well, then the scope of the body gets exactly one action
for each place in the text, at any depth but not inside nested functions, at which there is a call, an
allocation, a literal, an entry of an object literal, an assignment, a variable with a value, a return with a
value or a function with a name. It is the action that the part there calls for, and whatever comes from
inside the part is recorded before it, unless the part is a literal. No other scope gets an action. -/
theorem collect_records {g k : ScopeGraph} {body : List Stmt} (hs : s.index < g.scopes.length) (hroot : s ≠ .global)
    (h : Extraction.collect p { global := .global, scope := s } body g = .ok ⟨⟩ k) :
    ∃ hoisted log, Extraction.hoist p s body g = .ok ⟨⟩ hoisted ∧
      k.actionsOf s = g.actionsOf s ++ log.map Prod.snd ∧ (∀ t, t ≠ s → k.actionsOf t = g.actionsOf t) ∧
      (Part.stmt (.block body)).Logs p s hoisted k log := by
  obtain ⟨_, hoisted, hhoist, hvisit⟩ := bind_ok h
  obtain ⟨hthere, hplaced⟩ := Extraction.hoist_placed hs hhoist
  have hactions : ∀ t, hoisted.actionsOf t = g.actionsOf t := ((Extraction.hoist_furnishes body).ok hhoist).actions
  have hwrites : WritesAt s hoisted True (fun late => (Part.stmt (.block body)).Logs p s hoisted late)
      (Extraction.visit p ⟨.global, s, false⟩ body) hoisted :=
    Extraction.visitStmt_writes hroot (fun _ => trivial) (fun _ => trivial) (.block body) hplaced hoisted
      (.refl hthere)
  obtain ⟨hattends, -, log, hlog, hlogs⟩ := hwrites.of_ok hvisit
  refine ⟨hoisted, log, hhoist, ?_, fun t ht => ?_, hlogs k (refl_of _ k)⟩
  · rw [hlog, hactions]
  · rw [hattends.actions t ht, hactions]

/-- A function `f`, and a text that calls it for a variable, declares it, assigns an object whose entry is an
allocation to a name that nothing declares, and returns. -/
def errand : Setup where
  program := {
    functions := [{ name := "f", body := some [] }]
    body := [.var "v" (some ⟨.call ⟨.name "f", none⟩ [⟨.name "w", none⟩], none⟩) none, .function ⟨0⟩,
      .expr ⟨.assign ⟨.name "w", none⟩ ⟨.objectLit [⟨"a", ⟨.construct ⟨.name "f", none⟩ [], none⟩⟩], none⟩, none⟩,
      .ret (some ⟨.name "v", none⟩)] }

/-- A global scope, and in it the scope of a body. -/
def errand.graph : ScopeGraph where
  scopes := [{ kind := .global, parent := none },
    { kind := .body ⟨0⟩, parent := some .global, slots := [(SlotName.ret, ⟨0⟩)] }]
  slots := [⟨SlotName.ret, ⟨1⟩, ∅⟩]

/-- The allocation deep inside the assignment is recorded too. -/
theorem errand_records : ∃ k hoisted log,
    Extraction.collect errand.program { global := .global, scope := ⟨1⟩ } errand.program.body errand.graph = .ok ⟨⟩ k ∧
    k.actionsOf ⟨1⟩ = errand.graph.actionsOf ⟨1⟩ ++ log.map Prod.snd ∧
    (Part.stmt (.block errand.program.body)).Logs errand.program ⟨1⟩ hoisted k log ∧
    [2, 0, 0, 0, 0] ∈ log.map Prod.fst := by
  have hchecked : checks (Extraction.collect errand.program { global := .global, scope := ⟨1⟩ } errand.program.body)
      errand.graph (fun _ _ => true) = true := by decide +kernel
  obtain ⟨_, k, hk, -⟩ := exists_ok hchecked
  obtain ⟨hoisted, log, -, hactions, -, hlogs⟩ := collect_records (by decide) (by decide) hk
  exact ⟨k, hoisted, log, hk, hactions, hlogs, (hlogs.places _).2 ⟨trivial, _, rfl, rfl⟩⟩

end TypeFlow
