import TypeFlow.Proofs.Lineage
import TypeFlow.Proofs.Narrowing

/-!
# Loops without a bound

Three loops of an analysis follow links that a program may draw as it likes: the search for the
shapes below a shape, the walk along the prototypes of an object, and the creation of an object
after those that it inherits from. Their definitions are bounded by numbers read off the program. Here
the loops are written without such a bound: they are given rounds, and have no result (`none`) if those
are used up. A loop ends if it has the same result whenever the rounds are enough.

The search and the creation remember where they have been, so they end for every program. The
walk remembers nothing and goes round a cycle of prototypes forever. It is only asked about objects,
and an object is created after all that it inherits from, so its prototypes form no cycle.

* `Program.rounds`: a number of rounds that is enough for all of them.
* `Program.search_eq_closure`, `subtypeClosure_exact`: the search ends, and what it finds.
* `Program.Lineage.seek`: the walk ends from a shape whose prototypes do.
* `LoopM.EndsAs`: within its rounds, a loop ends as a bounded computation does.
* `createObject_iff_lineage`: when an object can be created, and what happens otherwise; creation ends.
* `admission_ends`: narrowing and widening end wherever an analysis stands.
-/

namespace TypeFlow

open Relation

variable {p : Program} {env : Setup} {a b : Analysis} {s t : ShapeId}

/-! ## Searching downwards -/

namespace Program

/-- The number of rounds that every loop ends in. -/
def rounds (p : Program) : Nat := p.belowCount + p.shapes.length + 2

/-- **Searches downwards** for a number of rounds: `stack` is still to be visited and `seen` is what was
found. -/
def search (p : Program) : Nat → List ShapeId → List ShapeId → Option (List ShapeId)
  | 0, _, _ => none
  | _ + 1, [], seen => some seen
  | n + 1, s :: stack, seen =>
    if s ∈ seen then p.search n stack seen
    else p.search n ((p.below s).reverse ++ stack) (seen ++ [s])

/-- The unexplored shapes and the stack pay for the rounds: each round uses up one of what they hold. -/
theorem search_eq : ∀ (k n : Nat) (stack seen : List ShapeId), p.unexplored seen + stack.length ≤ k →
    k < n → p.search n stack seen = some (p.searchBelow k stack seen) := by
  intro k
  induction k with
  | zero =>
    intro n stack seen hroom hn
    obtain ⟨n, rfl⟩ : ∃ i, n = i + 1 := ⟨n - 1, by omega⟩
    have hempty : stack = [] := List.eq_nil_of_length_eq_zero (by omega)
    rw [hempty, search, searchBelow]
  | succ k ih =>
    intro n stack seen hroom hn
    obtain ⟨n, rfl⟩ : ∃ i, n = i + 1 := ⟨n - 1, by omega⟩
    cases stack with
    | nil => rfl
    | cons s stack =>
      rw [List.length_cons] at hroom
      rw [search, searchBelow]
      by_cases hs : s ∈ seen
      · rw [if_pos hs, if_pos hs]
        exact ih n stack seen (by omega) (by omega)
      · have hpaid := unexplored_append (p := p) hs
        rw [if_neg hs, if_neg hs]
        refine ih n _ _ ?_ (by omega)
        rw [List.length_append, List.length_reverse]
        omega

/-- **The search ends**, however the program links its shapes. -/
theorem search_eq_closure {n : Nat} (hn : p.rounds ≤ n) (root : ShapeId) :
    p.search n [root] [] = some (p.subtypeClosure root) := by
  unfold rounds at hn
  refine search_eq (p.belowCount + 1) n [root] [] ?_ (by omega)
  rw [unexplored_nil, List.length_singleton]

/-- What was found stays in front. -/
theorem isPrefix_searchBelow : ∀ (n : Nat) (stack seen : List ShapeId), seen <+: p.searchBelow n stack seen := by
  intro n
  induction n with
  | zero => exact fun stack seen => List.prefix_rfl
  | succ n ih =>
    intro stack seen
    cases stack with
    | nil => exact List.prefix_rfl
    | cons s rest =>
      unfold searchBelow
      by_cases hs : s ∈ seen
      · rw [if_pos hs]
        exact ih rest seen
      · rw [if_neg hs]
        exact (List.prefix_append seen [s]).trans (ih _ _)

theorem nodup_searchBelow : ∀ (n : Nat) (stack seen : List ShapeId), seen.Nodup →
    (p.searchBelow n stack seen).Nodup := by
  intro n
  induction n with
  | zero => exact fun stack seen hseen => hseen
  | succ n ih =>
    intro stack seen hseen
    cases stack with
    | nil => exact hseen
    | cons s rest =>
      unfold searchBelow
      by_cases hs : s ∈ seen
      · rw [if_pos hs]
        exact ih rest seen hseen
      · rw [if_neg hs]
        refine ih _ _ ?_
        rw [← List.concat_eq_append]
        exact hseen.concat hs

end Program

/-- **The shapes below a shape.** The search for them ends, however the program links its shapes; it
finds the shape itself first, no shape twice, and just those that steps down lead to. -/
theorem subtypeClosure_exact (p : Program) (root : ShapeId) :
    (∀ n, p.rounds ≤ n → p.search n [root] [] = some (p.subtypeClosure root)) ∧
      (p.subtypeClosure root).Nodup ∧
      (p.subtypeClosure root).head? = some root ∧
      ∀ t, t ∈ p.subtypeClosure root ↔ ReflTransGen p.Descends root t := by
  refine ⟨fun n hn => Program.search_eq_closure hn root, Program.nodup_searchBelow _ _ _ .nil, ?_, fun t => Program.mem_subtypeClosure⟩
  -- the first step puts the root in front of everything that follows
  have hfirst : p.subtypeClosure root = p.searchBelow p.belowCount ((p.below root).reverse ++ []) [root] := rfl
  obtain ⟨rest, hrest⟩ := Program.isPrefix_searchBelow (p := p) p.belowCount ((p.below root).reverse ++ []) [root]
  rw [hfirst, ← hrest]
  rfl

/-! ## Walking along the prototypes -/

namespace Program

/-- **Walks along the prototypes** for a number of rounds, until a shape is wanted or no other follows:
the shapes that were visited, and whether one is wanted. -/
def seek (p : Program) (wanted : List ShapeId) : Nat → ShapeId → Option (List ShapeId × Bool)
  | 0, _ => none
  | n + 1, s =>
    if s ∈ wanted then some ([s], true)
    else
      match p.admittedThrough? s with
      | none => some ([s], false)
      | some t => (p.seek wanted n t).map fun (visited, answer) => (s :: visited, answer)

variable {wanted : List ShapeId}

theorem CountsAs.inherits (h : p.CountsAs s t) : p.Inherits s t := by
  obtain ⟨decl, -, proto⟩ := h
  exact ⟨_, decl, proto⟩

/-- The prototypes lead from a shape to a wanted one. -/
def Leads (p : Program) (wanted : List ShapeId) (s : ShapeId) : Prop :=
  ∃ t ∈ wanted, ReflTransGen p.CountsAs s t

theorem leads_iff : p.Leads wanted s ↔ s ∈ wanted ∨ ∃ t, p.CountsAs s t ∧ p.Leads wanted t := by
  constructor
  · rintro ⟨u, hu, hsu⟩
    rcases hsu.cases_head with rfl | ⟨t, hst, htu⟩
    · exact .inl hu
    · exact .inr ⟨t, hst, u, hu, htu⟩
  · rintro (hs | ⟨t, hst, u, hu, htu⟩)
    · exact ⟨s, hs, .refl⟩
    · exact ⟨u, hu, .head hst htu⟩

theorem leads_of_last (hlast : p.admittedThrough? s = none) : p.Leads wanted s ↔ s ∈ wanted := by
  rw [leads_iff]
  refine or_iff_left ?_
  rintro ⟨t, hst, -⟩
  rw [admittedThrough?_eq_some.2 hst] at hlast
  cases hlast

theorem leads_of_next (hs : s ∉ wanted) (hnext : p.admittedThrough? s = some t) :
    p.Leads wanted s ↔ p.Leads wanted t := by
  rw [leads_iff, or_iff_right hs]
  constructor
  · rintro ⟨u, hsu, hu⟩
    have hut := admittedThrough?_eq_some.2 hsu
    rw [hnext] at hut
    cases hut
    exact hu
  · exact fun ht => ⟨t, admittedThrough?_eq_some.1 hnext, ht⟩

/-- The walk ends on a chain, within its length, and has the right answer. -/
def SeeksAlong (p : Program) (wanted : List ShapeId) (s : ShapeId) (chain : List ShapeId) : Prop :=
  ∃ visited answer, (∀ n, chain.length ≤ n → p.seek wanted n s = some (visited, answer)) ∧
    visited <+: chain ∧ (answer = true ↔ p.Leads wanted s)

theorem seeksAlong_wanted (hs : s ∈ wanted) (rest : List ShapeId) : p.SeeksAlong wanted s (s :: rest) := by
  refine ⟨[s], true, fun n hn => ?_, List.prefix_append [s] rest, iff_of_true rfl (leads_iff.2 (.inl hs))⟩
  rw [List.length_cons] at hn
  obtain ⟨n, rfl⟩ : ∃ i, n = i + 1 := ⟨n - 1, by omega⟩
  rw [seek, if_pos hs]

theorem seeksAlong_last (hs : s ∉ wanted) (hlast : p.admittedThrough? s = none) (rest : List ShapeId) :
    p.SeeksAlong wanted s (s :: rest) := by
  refine ⟨[s], false, fun n hn => ?_, List.prefix_append [s] rest, ?_⟩
  · rw [List.length_cons] at hn
    obtain ⟨n, rfl⟩ : ∃ i, n = i + 1 := ⟨n - 1, by omega⟩
    rw [seek, if_neg hs, hlast]
  · rw [leads_of_last hlast]
    exact iff_of_false Bool.false_ne_true hs

theorem seeksAlong_next (hs : s ∉ wanted) (hnext : p.admittedThrough? s = some t) {chain : List ShapeId}
    (h : p.SeeksAlong wanted t chain) : p.SeeksAlong wanted s (s :: chain) := by
  obtain ⟨visited, answer, hseek, hvisited, hanswer⟩ := h
  refine ⟨s :: visited, answer, fun n hn => ?_, ?_, hanswer.trans (leads_of_next hs hnext).symm⟩
  · rw [List.length_cons] at hn
    obtain ⟨n, rfl⟩ : ∃ i, n = i + 1 := ⟨n - 1, by omega⟩
    have hrest : p.seek wanted n t = some (visited, answer) := hseek n (by omega)
    rw [seek, if_neg hs, hnext]
    dsimp only
    rw [hrest, Option.map_some]
  · rw [List.prefix_cons_inj]
    exact hvisited

/-- **The walk ends from a shape that has a lineage**, and stays on it. -/
theorem Lineage.seek {chain : List ShapeId} (h : p.Lineage s chain) (wanted : List ShapeId) :
    p.SeeksAlong wanted s chain := by
  obtain ⟨l, u, d, rfl, hl, hu, hd⟩ := h
  -- along the climb; objects may stop counting through their prototypes before its end
  induction hl with
  | here s =>
    by_cases hs : s ∈ wanted
    · exact seeksAlong_wanted hs []
    · refine seeksAlong_last hs ?_ []
      cases hnext : p.admittedThrough? s with
      | none => rfl
      | some t => exact absurd (admittedThrough?_eq_some.1 hnext).inherits (not_inherits_of_root hu hd t)
  | @up s t u l next rest ih =>
    by_cases hs : s ∈ wanted
    · exact seeksAlong_wanted hs _
    · cases hnext : p.admittedThrough? s with
      | none => exact seeksAlong_last hs hnext _
      | some q =>
        have hq : q = t := (admittedThrough?_eq_some.1 hnext).inherits.unique next
        rw [hq] at hnext
        exact seeksAlong_next hs hnext (ih hu)

/-- No number of rounds is enough where no shape is wanted and another one always follows. -/
theorem seek_eq_none (hs : ∀ t, ReflTransGen p.CountsAs s t → t ∉ wanted ∧ ∃ u, p.CountsAs t u) (n : Nat) :
    p.seek wanted n s = none := by
  induction n generalizing s with
  | zero => rfl
  | succ n ih =>
    obtain ⟨hwanted, t, ht⟩ := hs s .refl
    have hrest : p.seek wanted n t = none := ih fun u hu => hs u (.head ht hu)
    rw [seek, if_neg hwanted, admittedThrough?_eq_some.2 ht]
    dsimp only
    rw [hrest, Option.map_none]

/-- The bounded walk asks the same question. -/
theorem any_admissionPath : ((p.admissionPath s).any fun t => decide (t ∈ wanted)) = true ↔ p.Leads wanted s := by
  simp only [List.any_eq_true, decide_eq_true_eq, mem_admissionPath, Leads]
  exact exists_congr fun t => and_comm

end Program

/-! ## Analyses that may not end -/

/-- Computations on an analysis that have a number of rounds for each loop. They may fail, and also use
up the rounds. -/
abbrev LoopM := ReaderT Nat (ExceptT Fault (StateT Analysis Option))

namespace LoopM

variable {α β : Type} {n : Nat}

/-- No round is left. -/
def exhausted : LoopM α := fun _ _ => none

/-- What ends in any case. -/
def lift (x : AnalysisM α) : LoopM α := fun _ a =>
  match x a with
  | .ok v b => some (.ok v, b)
  | .error e b => some (.error e, b)

/-- Waits for the value of a loop. -/
def await (loop : Nat → Option α) : LoopM α := fun n a => (loop n).map fun v => (.ok v, a)

/-- **Within `n` rounds a computation ends as another one does**, with its result or its fault, and in
its state. -/
def EndsAs (n : Nat) (x : LoopM α) (y : AnalysisM α) (a : Analysis) : Prop := x n a = lift y n a

theorem lift_ok {x : AnalysisM α} {v : α} (h : x a = .ok v b) : lift x n a = some (.ok v, b) := by
  unfold lift
  rw [h]

theorem lift_error {x : AnalysisM α} {e : Fault} (h : x a = .error e b) : lift x n a = some (.error e, b) := by
  unfold lift
  rw [h]

theorem bind_of_ok {x : LoopM α} {v : α} (h : x n a = some (.ok v, b)) (f : α → LoopM β) :
    (x >>= f) n a = f v n b := by
  change (x n a).bind _ = f v n b
  rw [h]
  rfl

theorem bind_of_error {x : LoopM α} {e : Fault} (h : x n a = some (.error e, b)) (f : α → LoopM β) :
    (x >>= f) n a = some (.error e, b) := by
  change (x n a).bind _ = _
  rw [h]
  rfl

theorem endsAs_lift (x : AnalysisM α) : EndsAs n (lift x) x a := rfl

theorem endsAs_pure (v : α) : EndsAs n (pure v) (pure v) a := rfl

theorem endsAs_throw (e : Fault) : EndsAs n (throw e : LoopM α) (throw e) a := rfl

theorem await_apply {loop : Nat → Option α} {v : α} (h : loop n = some v) :
    await loop n a = some (.ok v, a) := by
  unfold await
  rw [h]
  rfl

theorem endsAs_await {loop : Nat → Option α} {v : α} (h : loop n = some v) : EndsAs n (await loop) (pure v) a :=
  await_apply h

theorem endsAs_await_bind {loop : Nat → Option α} {v : α} {f : α → LoopM β} {y : AnalysisM β}
    (h : loop n = some v) (hf : EndsAs n (f v) y a) : EndsAs n (await loop >>= f) y a := by
  unfold EndsAs
  rw [bind_of_ok (await_apply h)]
  exact hf

theorem endsAs_get {f : Analysis → LoopM β} {g : Analysis → AnalysisM β} (h : EndsAs n (f a) (g a) a) :
    EndsAs n (get >>= f) (get >>= g) a := h

theorem EndsAs.bind {x : LoopM α} {y : AnalysisM α} {f : α → LoopM β} {g : α → AnalysisM β}
    (hx : EndsAs n x y a) (hf : ∀ v b, y a = .ok v b → EndsAs n (f v) (g v) b) :
    EndsAs n (x >>= f) (y >>= g) a := by
  unfold EndsAs at hx ⊢
  cases hy : y a with
  | ok v b =>
    have hbind : (y >>= g) a = g v b := by rw [bind_apply, hy]
    rw [lift_ok hy] at hx
    rw [bind_of_ok hx, hf v b hy]
    unfold lift
    rw [hbind]
  | error e b =>
    have hbind : (y >>= g) a = .error e b := by rw [bind_apply, hy]
    rw [lift_error hy] at hx
    rw [bind_of_error hx, lift_error hbind]

theorem endsAs_demandShape (s : ShapeId) : EndsAs n (p.demandShape s) (p.demandShape s) a := by
  unfold Program.demandShape
  cases p.shape? s with
  | none => exact endsAs_throw _
  | some d => exact endsAs_pure d

theorem endsAs_demandFunction (f : FunctionId) : EndsAs n (p.demandFunction f) (p.demandFunction f) a := by
  unfold Program.demandFunction FunctionRegistry.demand
  cases p.function? f with
  | none => exact endsAs_throw _
  | some d => exact endsAs_pure d

end LoopM

/-! ## Creation -/

namespace Unbounded

open LoopM

/-- The scope of an object of shape `s`, where `create` provides the object of its prototype. -/
def objectScope (p : Program) (create : ShapeId → LoopM ObjRef) (s : ShapeId) : LoopM ScopeId := do
  let d : ShapeDecl ← p.demandShape s
  match d.proto with
  | none => lift (AnalysisM.onGraph (GraphM.addObjectScope s none d.properties))
  | some t =>
    let o ← create t
    let a ← get
    lift (AnalysisM.onGraph (GraphM.addObjectScope s ((a.object? o).map (·.scope)) d.properties))

/-- The canonical object of a shape, while the objects of the shapes on `path` wait for it. -/
def createObjectFor (p : Program) : Nat → List ShapeId → ShapeId → LoopM ObjRef
  | 0, _, _ => exhausted
  | n + 1, path, s => do
    let a ← get
    match a.findObject s with
    | some o => return o
    | none =>
      if s ∈ path then throw (.cyclicPrototype s)
      else
        let scope ← objectScope p (createObjectFor p n (s :: path)) s
        lift (AnalysisM.addObject s scope)

/-- The canonical object of a shape. -/
def createObject (p : Program) (s : ShapeId) : LoopM ObjRef := fun n => createObjectFor p n [] s n

/-- The canonical object of an optional shape. -/
def createObject? (p : Program) : Option ShapeId → LoopM (Option ObjRef)
  | some s => do
    let o ← createObject p s
    return some o
  | none => return none

/-- The canonical function of a declaration. -/
def createFunction (p : Program) (f : FunctionId) (parent : ScopeId) : LoopM FnRef := do
  let a ← get
  match a.findFunction f with
  | some r => return r
  | none =>
    let d : FunctionDecl ← p.demandFunction f
    let prototype ← createObject? p d.prototypeShape
    let object ← createObject? p d.objectShape
    lift (AnalysisM.introduceFunction p f parent prototype object)

section Enough

variable {n : Nat}

theorem objectScope_endsAs {create : ShapeId → LoopM ObjRef} {make : ShapeId → AnalysisM ObjRef} {s : ShapeId}
    (h : ∀ t, p.Inherits s t → EndsAs n (create t) (make t) a) :
    EndsAs n (objectScope p create s) (AnalysisM.objectScope p make s) a := by
  refine .bind (endsAs_demandShape s) fun d b hd => ?_
  obtain ⟨rfl, hs⟩ := AnalysisM.demandShape_ok hd
  cases hproto : d.proto with
  | none => exact endsAs_lift _
  | some t => exact .bind (h t ⟨d, hs, hproto⟩) fun o c _ => endsAs_get (endsAs_lift _)

/-- **Creation ends**: the shapes that wait are different and declared, so there are not too many. -/
theorem createObjectFor_endsAs : ∀ (k m : Nat) (path : List ShapeId) (s : ShapeId) (a : Analysis), k ≤ m →
    k + path.length = p.shapes.length + 1 → path.Nodup → (∀ t ∈ path, t.index < p.shapes.length) →
    EndsAs n (createObjectFor p m path s) (AnalysisM.createObjectWithin p k path s) a := by
  intro k
  induction k with
  | zero =>
    intro m path s a _ hlength hnodup hdeclared
    have hle := AnalysisM.length_le_of_nodup AnalysisM.shapeIndex_injective hnodup hdeclared
    omega
  | succ k ih =>
    intro m path s a hm hlength hnodup hdeclared
    obtain ⟨m, rfl⟩ : ∃ i, m = i + 1 := ⟨m - 1, by omega⟩
    rw [createObjectFor, AnalysisM.createObjectWithin]
    refine endsAs_get ?_
    cases a.findObject s with
    | some o => exact endsAs_pure o
    | none =>
      dsimp only
      by_cases hs : s ∈ path
      · rw [if_pos hs, if_pos hs]
        exact endsAs_throw _
      rw [if_neg hs, if_neg hs]
      refine .bind (objectScope_endsAs fun t hst => ?_) fun scope c _ => endsAs_lift _
      obtain ⟨d, hd, -⟩ := hst
      have hdeclared' : ∀ q ∈ s :: path, q.index < p.shapes.length :=
        List.forall_mem_cons.2 ⟨(List.getElem?_eq_some_iff.1 hd).1, hdeclared⟩
      refine ih m (s :: path) t a (by omega) ?_ (List.nodup_cons.2 ⟨hs, hnodup⟩) hdeclared'
      rw [List.length_cons]
      omega

variable (hn : p.rounds ≤ n)
include hn

theorem createObject_endsAs (s : ShapeId) (a : Analysis) :
    EndsAs n (createObject p s) (AnalysisM.createObject p s) a := by
  unfold Program.rounds at hn
  exact createObjectFor_endsAs (p.shapes.length + 1) n [] s a (by omega) rfl .nil (by simp)

theorem createObject?_endsAs (shape : Option ShapeId) (a : Analysis) :
    EndsAs n (createObject? p shape) (AnalysisM.createObject? p shape) a := by
  cases shape with
  | none => exact endsAs_pure none
  | some s => exact .bind (createObject_endsAs hn s a) fun o b _ => endsAs_pure (some o)

theorem createFunction_endsAs (f : FunctionId) (parent : ScopeId) (a : Analysis) :
    EndsAs n (createFunction p f parent) (AnalysisM.createFunction p f parent) a := by
  refine endsAs_get ?_
  cases a.findFunction f with
  | some r => exact endsAs_pure r
  | none =>
    refine .bind (endsAs_demandFunction f) fun d b _ => ?_
    refine .bind (createObject?_endsAs hn d.prototypeShape b) fun prototype c _ => ?_
    exact .bind (createObject?_endsAs hn d.objectShape c) fun object k _ => endsAs_lift _

end Enough

end Unbounded

/-- **The object of a shape can be created exactly if its chain of prototypes is in order**: the chain
ends, through declared shapes and without repeating one, and no shape on it repeats a property.
Otherwise the fault says what is wrong: it names the first shape that the chain repeats, or
the undeclared shape that it leads to, or the first repeated property, and the scope, of the shape
nearest to the end that has one. If creation succeeds, the objects of the whole chain are there. If it
fails, the object is not, no shape waits any more, and what was entered in the table on the way is
complete. And creation ends in any case: it needs no bound. -/
theorem createObject_iff_lineage (h : Occurs env a) (s : ShapeId) :
    ((∃ o b, AnalysisM.createObject env.program s a = .ok o b) ↔
      ∃ chain, env.program.Lineage s chain ∧ chain.Nodup ∧ ∀ q ∈ chain, env.program.Plain q) ∧
    (∀ c, (∃ b, AnalysisM.createObject env.program s a = .error (.cyclicPrototype c) b) ↔
      env.program.Cycles s c) ∧
    (∀ u, (∃ b, AnalysisM.createObject env.program s a = .error (.unknownShape u) b) ↔
      env.program.Dangles s u) ∧
    (∀ q, (∃ n scope parent b, AnalysisM.createObject env.program s a = .error (.duplicateSlot n scope) b ∧
      env.program.RepeatsFirst q n ∧ b.graph.HasScope scope (.object q) parent) ↔
      env.program.Offends s q) ∧
    (∀ o b, AnalysisM.createObject env.program s a = .ok o b → b.findObject s = some o ∧
      ∀ chain, env.program.Lineage s chain → ∀ q ∈ chain, b.findObject q ≠ none) ∧
    (∀ e b, AnalysisM.createObject env.program s a = .error e b →
      ((∃ c, e = .cyclicPrototype c) ∨ (∃ u, e = .unknownShape u) ∨ ∃ n scope, e = .duplicateSlot n scope) ∧
      b.findObject s = none ∧
      PendingM.createObject env.program (env.program.shapes.length + 1) s (a, []) = .error e (b, []) ∧
      ∃ new, b.objects = a.objects ++ new ∧ ∀ o ∈ new, ∃ d, o.Placed env.program b d) ∧
    ∀ n, env.program.rounds ≤ n →
      LoopM.EndsAs n (Unbounded.createObject env.program s) (AnalysisM.createObject env.program s) a := by
  refine ⟨h.createObject_ok_iff s, h.createObject_cyclic_iff s, h.createObject_unknown_iff s,
    h.createObject_duplicate_iff s, fun o b hx => ?_, fun e b hx => ?_,
    fun n hn => Unbounded.createObject_endsAs hn s a⟩
  · obtain ⟨ho, chain, hchain, hall⟩ := h.createObject_ok hx
    refine ⟨ho, fun other hother q hq => ?_⟩
    obtain rfl := hother.unique hchain
    exact (hall q hq).2
  · obtain ⟨hexplains, hnone, hnew⟩ := h.createObject_error hx
    refine ⟨?_, hnone, ?_, hnew⟩
    · rcases hexplains.cases with ⟨c, rfl, -⟩ | ⟨u, rfl, -⟩ | ⟨n, scope, q, parent, rfl, -⟩
      · exact .inl ⟨c, rfl⟩
      · exact .inr (.inl ⟨u, rfl⟩)
      · exact .inr (.inr ⟨n, scope, rfl⟩)
    · have hlift := PendingM.createObject_lift (p := env.program) (env.program.shapes.length + 1) [] s a
      rw [PendingM.lift_apply] at hlift
      unfold AnalysisM.createObject at hx
      rw [hx] at hlift
      exact hlift

/-- Shapes with every kind of chain: `B` and `C` repeat a property each, `D` and `E` inherit from each
other, and `G` inherits from a shape that is not declared. -/
def tangled : Setup where
  program := {
    shapes := [{ name := "A", kind := .record, properties := ["x"] },
      { name := "B", kind := .record, properties := ["y", "x", "y"], proto := some ⟨0⟩ },
      { name := "C", kind := .record, properties := ["z", "z"], proto := some ⟨1⟩ },
      { name := "D", kind := .record, proto := some ⟨4⟩ },
      { name := "E", kind := .record, proto := some ⟨3⟩ },
      { name := "F", kind := .record, proto := some ⟨3⟩ },
      { name := "G", kind := .record, proto := some ⟨9⟩ },
      { name := "H", kind := .record, properties := ["x"], proto := some ⟨0⟩ }] }

theorem tangled.lineage : tangled.program.Lineage ⟨2⟩ ([⟨2⟩] ++ ⟨1⟩ :: [⟨0⟩]) :=
  .up ⟨_, rfl, rfl⟩ (.up ⟨_, rfl, rfl⟩ (.root rfl rfl))

/-- `C` fails on the property of `B`, which is nearer to the end, `F` on the cycle that starts with
`D`, and `G` on the undeclared shape; `H` can be created. The cycle does not keep creation from ending. -/
theorem tangled_chains :
    (∃ n scope parent b, AnalysisM.createObject tangled.program ⟨2⟩ .fresh = .error (.duplicateSlot n scope) b ∧
      tangled.program.RepeatsFirst ⟨1⟩ n ∧ b.graph.HasScope scope (.object ⟨1⟩) parent ∧
      b.findObject ⟨2⟩ = none) ∧
    (∃ b, AnalysisM.createObject tangled.program ⟨5⟩ .fresh = .error (.cyclicPrototype ⟨3⟩) b) ∧
    (∃ b, AnalysisM.createObject tangled.program ⟨6⟩ .fresh = .error (.unknownShape ⟨9⟩) b) ∧
    (∃ o b, AnalysisM.createObject tangled.program ⟨7⟩ .fresh = .ok o b ∧ b.findObject ⟨0⟩ ≠ none) ∧
    LoopM.EndsAs tangled.program.rounds (Unbounded.createObject tangled.program ⟨5⟩)
      (AnalysisM.createObject tangled.program ⟨5⟩) .fresh := by
  have hfresh : Occurs tangled .fresh := Reachable.fresh.occurs
  obtain ⟨-, -, -, hduplicate, -, herror, -⟩ := createObject_iff_lineage hfresh ⟨2⟩
  obtain ⟨-, hcyclic, -, -, -, -, hends⟩ := createObject_iff_lineage hfresh ⟨5⟩
  obtain ⟨-, -, hunknown, -⟩ := createObject_iff_lineage hfresh ⟨6⟩
  obtain ⟨hcreated, -, -, -, hok, -⟩ := createObject_iff_lineage hfresh ⟨7⟩
  have hplain : tangled.program.Plain ⟨0⟩ := ⟨_, rfl, by decide⟩
  refine ⟨?_, (hcyclic ⟨3⟩).2 ⟨[⟨5⟩, ⟨3⟩, ⟨4⟩], ?_, by decide, by decide⟩, (hunknown ⟨9⟩).2 ⟨[⟨6⟩], ?_, rfl⟩, ?_,
    hends _ (Nat.le_refl _)⟩
  · have hoffends : tangled.program.Offends ⟨2⟩ ⟨1⟩ := by
      refine ⟨[⟨2⟩], [⟨0⟩], tangled.lineage, ?_, by simpa using hplain⟩
      rintro ⟨d, hd, hnodup⟩
      cases hd
      exact absurd hnodup (by decide)
    obtain ⟨n, scope, parent, b, hx, hn, hscope⟩ := (hduplicate ⟨1⟩).2 hoffends
    exact ⟨n, scope, parent, b, hx, hn, hscope, (herror _ b hx).2.1⟩
  · exact .up ⟨_, rfl, rfl⟩ (.up ⟨_, rfl, rfl⟩ (.up ⟨_, rfl, rfl⟩ (.here _)))
  · exact .up ⟨_, rfl, rfl⟩ (.here _)
  · have hchain : tangled.program.Lineage ⟨7⟩ [⟨7⟩, ⟨0⟩] := .up ⟨_, rfl, rfl⟩ (.root rfl rfl)
    have hall : ∀ q ∈ [(⟨7⟩ : ShapeId), ⟨0⟩], tangled.program.Plain q := by
      have hlast : tangled.program.Plain ⟨7⟩ := ⟨_, rfl, by decide⟩
      simpa using ⟨hlast, hplain⟩
    obtain ⟨o, b, hx⟩ := hcreated.2 ⟨_, hchain, by decide, hall⟩
    exact ⟨o, b, hx, (hok o b hx).2 _ hchain ⟨0⟩ (by simp)⟩

/-! ## Narrowing and widening -/

namespace Unbounded

open LoopM

mutual

/-- What a declared type admits. -/
def admission (p : Program) (n : Nat) : DeclaredType → Option Admission
  | .unknown => some { everything := true }
  | .anyObject => some { everything := true }
  | .primitive => some {}
  | .object s => do
    let found ← p.search n [s] []
    return { shapes := found }
  | .function (some f) _ => some { functions := [f] }
  | .function none _ => some { anyFunction := true }
  | .union ds => admissionAny p n ds
termination_by structural d => d

/-- What some declared type on a list admits. -/
def admissionAny (p : Program) (n : Nat) : List DeclaredType → Option Admission
  | [] => some {}
  | d :: ds => do
    let x ← admission p n d
    let y ← admissionAny p n ds
    return x.join y
termination_by structural ds => ds

end

/-- Whether an entity is admitted. -/
def admits (p : Program) (a : Analysis) (n : Nat) (x : Admission) : Entity → Option Bool
  | .function f => some (x.anyFunction || (a.function? f).any fun e => decide (e.decl ∈ x.functions))
  | .object o =>
    match a.object? o with
    | none => some false
    | some e => (p.seek x.shapes n e.shape).map Prod.snd

/-- The entities on a list that are admitted, where each is asked about in turn. -/
def passing (test : Entity → Option Bool) : List Entity → Option (List Entity)
  | [] => some []
  | e :: es => do
    let keep ← test e
    let rest ← passing test es
    return if keep then e :: rest else rest

/-- The entities now present that a declared type admits. -/
def expand (p : Program) (a : Analysis) (d : DeclaredType) (n : Nat) : Option ConcreteType := do
  let x ← admission p n d
  let kept ← passing (admits p a n x) a.present
  return .ofList kept

/-- The entities of a type, where `all` stands for those now present. -/
def candidates (a : Analysis) : ConcreteType → List Entity
  | .all => a.present
  | .only s => s.members

/-- The members of a type that a declared type admits. -/
def narrowed (p : Program) (a : Analysis) (t : ConcreteType) (d : DeclaredType) (n : Nat) :
    Option ConcreteType := do
  let x ← admission p n d
  if x.everything then return t
  else
    let kept ← passing (admits p a n x) (candidates a t)
    return .ofList kept

/-- Narrows a type by a declared type. -/
def narrow (env : Setup) (t : ConcreteType) (d : DeclaredType) : LoopM ConcreteType := do
  if d = .unknown ∨ t = ∅ then return t
  else if env.config.memoize then
    let a ← get
    match a.remembered t d with
    | some r => return r
    | none =>
      let r ← await (narrowed env.program a t d)
      set { a with narrowings := ⟨t, d, r⟩ :: a.narrowings }
      return r
  else
    let a ← get
    await (narrowed env.program a t d)

mutual

/-- The concrete type of a value of which only the declared type is known. -/
def widen (p : Program) : DeclaredType → LoopM ConcreteType
  | .unknown => return .all
  | .anyObject => return .all
  | .primitive => return ∅
  | .object s => do
    let d : ShapeDecl ← p.demandShape s
    if d.kind = .interface then
      let a ← get
      await (expand p a (.object s))
    else
      let o ← createObject p s
      lift (AnalysisM.recordAllocation o)
      let a ← get
      let present ← await (expand p a (.object s))
      return .object o ∪ present
  | .function (some f) _ => do
    let a ← get
    match a.findFunction f with
    | some r => return .function r
    | none =>
      let d : FunctionDecl ← p.demandFunction f
      if d.isAmbient then
        let r ← createFunction p f .global
        return .function r
      else return ∅
  | .function none _ => return .all
  | .union ds => widenAny p ds
termination_by structural d => d

/-- What a value may be of which one of several declared types holds. -/
def widenAny (p : Program) : List DeclaredType → LoopM ConcreteType
  | [] => return ∅
  | d :: ds => do
    let t ← widen p d
    let u ← widenAny p ds
    return t ∪ u
termination_by structural ds => ds

end

variable {n : Nat}

mutual

theorem admission_eq (hn : p.rounds ≤ n) : ∀ d, admission p n d = some (Admission.ofDeclared p d)
  | .unknown | .anyObject | .primitive | .function none _ | .function (some _) _ => rfl
  | .object s => by
    rw [admission, Program.search_eq_closure hn s]
    rfl
  | .union ds => by
    rw [admission, Admission.ofDeclared]
    exact admissionAny_eq hn ds

theorem admissionAny_eq (hn : p.rounds ≤ n) : ∀ ds, admissionAny p n ds = some (Admission.ofDeclaredAny p ds)
  | [] => rfl
  | d :: ds => by
    rw [admissionAny, admission_eq hn d, admissionAny_eq hn ds]
    rfl

end

theorem passing_eq {test : Entity → Option Bool} {keep : Entity → Bool} (h : ∀ e, test e = some (keep e)) :
    ∀ es, passing test es = some (es.filter keep)
  | [] => rfl
  | e :: es => by
    rw [passing, h e, passing_eq h es, List.filter_cons]
    rfl

/-- **The walk from an object of the table ends**, and passes no shape twice. -/
theorem seek_ends (h : Occurs env a) {entry : ObjectEntry} (he : entry ∈ a.objects) (wanted : List ShapeId) :
    ∃ visited answer, (∀ n, env.program.rounds ≤ n →
        env.program.seek wanted n entry.shape = some (visited, answer)) ∧ visited.Nodup ∧
      (answer = true ↔ env.program.Leads wanted entry.shape) := by
  obtain ⟨i, hi⟩ := List.getElem?_of_mem he
  have hfound : a.findObject entry.shape ≠ none := by
    rw [h.tabled.findObject hi]
    exact Option.some_ne_none _
  obtain ⟨chain, hchain, hall⟩ := h.founded entry.shape hfound
  have hdeclared : ∀ q ∈ chain, q.index < env.program.shapes.length := by
    intro q hq
    obtain ⟨⟨d, hd, -⟩, -⟩ := hall q hq
    exact (List.getElem?_eq_some_iff.1 hd).1
  have hlength := AnalysisM.length_le_of_nodup AnalysisM.shapeIndex_injective hchain.nodup hdeclared
  obtain ⟨visited, answer, hseek, hvisited, hanswer⟩ := hchain.seek wanted
  refine ⟨visited, answer, fun n hn => hseek n ?_, hchain.nodup.sublist hvisited.sublist, hanswer⟩
  unfold Program.rounds at hn
  omega

theorem admits_eq (hn : env.program.rounds ≤ n) (h : Occurs env a) (x : Admission) (e : Entity) :
    admits env.program a n x e = some (a.admits env.program x e) := by
  cases e with
  | function f => rfl
  | object o =>
    rw [admits, Analysis.admits]
    cases ho : a.object? o with
    | none => rfl
    | some entry =>
      obtain ⟨visited, answer, hseek, -, hanswer⟩ := seek_ends h (List.mem_of_getElem? ho) x.shapes
      dsimp only
      rw [hseek n hn]
      refine congrArg some (Bool.eq_iff_iff.2 ?_)
      exact hanswer.trans Program.any_admissionPath.symm

theorem expand_eq (hn : env.program.rounds ≤ n) (h : Occurs env a) (d : DeclaredType) :
    expand env.program a d n = some (a.expand env.program (Admission.ofDeclared env.program d)) := by
  rw [expand, admission_eq hn]
  dsimp only [Option.bind_eq_bind, Option.bind_some]
  rw [passing_eq (admits_eq hn h _)]
  rfl

theorem narrowed_eq (hn : env.program.rounds ≤ n) (h : Occurs env a) (t : ConcreteType)
    (d : DeclaredType) :
    narrowed env.program a t d n = some (a.narrowed env.program t d) := by
  rw [narrowed, admission_eq hn]
  unfold Analysis.narrowed
  dsimp only [Option.bind_eq_bind, Option.bind_some]
  by_cases hx : (Admission.ofDeclared env.program d).everything = true
  · rw [if_pos hx, if_pos hx]
    rfl
  · rw [if_neg hx, if_neg hx, passing_eq (admits_eq hn h _)]
    cases t with
    | all => rfl
    | only s =>
      -- the members that are kept stand in order already
      refine congrArg some (congrArg ConcreteType.only (EntitySet.ext fun e => ?_))
      rw [EntitySet.mem_ofList]
      rfl

/-- **Narrowing ends.** -/
theorem narrow_endsAs (hn : env.program.rounds ≤ n) (h : Occurs env a) (t : ConcreteType)
    (d : DeclaredType) :
    EndsAs n (narrow env t d) (AnalysisM.narrow env t d) a := by
  rw [narrow, AnalysisM.narrow]
  by_cases htrivial : d = .unknown ∨ t = ∅
  · rw [if_pos htrivial, if_pos htrivial]
    exact endsAs_pure t
  rw [if_neg htrivial, if_neg htrivial]
  by_cases hmemoize : env.config.memoize = true
  · rw [if_pos hmemoize, if_pos hmemoize]
    refine endsAs_get ?_
    cases a.remembered t d with
    | some r => exact endsAs_pure r
    | none =>
      exact endsAs_await_bind (narrowed_eq hn h t d) rfl
  · rw [if_neg hmemoize, if_neg hmemoize]
    exact endsAs_get (endsAs_await (narrowed_eq hn h t d))

mutual

/-- **Widening ends.** What it creates on the way stands on its lineage too. -/
theorem widen_endsAs (hn : env.program.rounds ≤ n) : ∀ (d : DeclaredType) (a : Analysis), Occurs env a →
    EndsAs n (widen env.program d) (AnalysisM.widen env.program d) a
  | .unknown, _, _ | .anyObject, _, _ | .primitive, _, _ | .function none _, _, _ => endsAs_pure _
  | .object s, a, h => by
    rw [widen, AnalysisM.widen]
    refine .bind (endsAs_demandShape s) fun d b hd => ?_
    obtain ⟨rfl, -⟩ := AnalysisM.demandShape_ok hd
    by_cases hkind : d.kind = .interface
    · rw [if_pos hkind, if_pos hkind]
      exact endsAs_get (endsAs_await (expand_eq hn h _))
    · rw [if_neg hkind, if_neg hkind]
      refine .bind (createObject_endsAs hn s b) fun o c hc => ?_
      obtain ⟨hcreated, ⟨ho, -⟩, -⟩ :=
        (AnalysisM.createObject_evaluates (w := true) h.valid s).proceeds.of_ok hc
      have hoccurs := h.steps hcreated
      refine .bind (endsAs_lift _) fun _ k hk => endsAs_get ?_
      obtain ⟨hrecorded, -⟩ :=
        (AnalysisM.recordAllocation_evaluates (p := env.program) (w := true)
          (Analysis.has_of_findObject ho)).proceeds.of_ok hk
      exact endsAs_await_bind (expand_eq hn (hoccurs.steps hrecorded) (.object s)) (endsAs_pure _)
  | .function (some f) _, a, h => by
    rw [widen, AnalysisM.widen]
    refine endsAs_get ?_
    cases a.findFunction f with
    | some r => exact endsAs_pure _
    | none =>
      refine .bind (endsAs_demandFunction f) fun d b _ => ?_
      by_cases hambient : d.isAmbient = true
      · rw [if_pos hambient, if_pos hambient]
        exact .bind (createFunction_endsAs hn f .global b) fun r c _ => endsAs_pure _
      · rw [if_neg hambient, if_neg hambient]
        exact endsAs_pure _
  | .union ds, a, h => by
    rw [widen, AnalysisM.widen]
    exact widenAny_endsAs hn ds a h

theorem widenAny_endsAs (hn : env.program.rounds ≤ n) : ∀ (ds : List DeclaredType) (a : Analysis),
    Occurs env a →
    EndsAs n (widenAny env.program ds) (AnalysisM.widenAny env.program ds) a
  | [], _, _ => endsAs_pure _
  | d :: ds, a, h => by
    rw [widenAny, AnalysisM.widenAny]
    refine .bind (widen_endsAs hn d a h) fun t b hb => ?_
    obtain ⟨hwidened, -⟩ := (AnalysisM.widen_evaluates (w := true) d a h.valid).proceeds.of_ok hb
    exact .bind (widenAny_endsAs hn ds b (h.steps hwidened)) fun u c _ => endsAs_pure _

end

end Unbounded

/-- **Asking whether objects are admitted ends.** Wherever an analysis stands, also after faults and
for programs with cycles of prototypes, the walk from the shape of an object in the table ends; it
passes no shape twice, and it says whether the prototypes lead to a wanted shape. So narrowing and
widening end too. -/
theorem admission_ends (h : Occurs env a) :
    (∀ entry ∈ a.objects, ∀ wanted, ∃ visited answer,
      (∀ n, env.program.rounds ≤ n → env.program.seek wanted n entry.shape = some (visited, answer)) ∧
      visited.Nodup ∧ (answer = true ↔ ∃ t ∈ wanted, ReflTransGen env.program.CountsAs entry.shape t) ∧
      ((env.program.admissionPath entry.shape).any fun s => decide (s ∈ wanted)) = answer) ∧
    ∀ n, env.program.rounds ≤ n →
      (∀ t d, LoopM.EndsAs n (Unbounded.narrow env t d) (AnalysisM.narrow env t d) a) ∧
      ∀ d, LoopM.EndsAs n (Unbounded.widen env.program d) (AnalysisM.widen env.program d) a := by
  refine ⟨fun entry he wanted => ?_, fun n hn => ?_⟩
  · obtain ⟨visited, answer, hseek, hnodup, hanswer⟩ := Unbounded.seek_ends h he wanted
    exact ⟨visited, answer, hseek, hnodup, hanswer,
      Bool.eq_iff_iff.2 (Program.any_admissionPath.trans hanswer.symm)⟩
  · exact ⟨Unbounded.narrow_endsAs hn h, fun d => Unbounded.widen_endsAs hn d a h⟩

/-- Prototypes `B` over `A`, and `C` and `D` over each other. -/
def winding : Setup where
  program := {
    shapes := [{ name := "A", kind := .prototype }, { name := "B", kind := .prototype, proto := some ⟨0⟩ },
      { name := "C", kind := .prototype, proto := some ⟨3⟩ }, { name := "D", kind := .prototype, proto := some ⟨2⟩ }] }

/-- The state after creating `B`, and failing to create `C`. -/
def winding.final : Analysis :=
  (Operation.createObject ⟨2⟩).after winding ((Operation.createObject ⟨1⟩).after winding .fresh)

/-- From `C` the prototypes lead to `C` and `D` only. -/
theorem winding.cycle {t : ShapeId} (h : ReflTransGen winding.program.CountsAs ⟨2⟩ t) : t = ⟨2⟩ ∨ t = ⟨3⟩ := by
  induction h with
  | refl => exact .inl rfl
  | tail _ hnext ih =>
    have hthrough := Program.admittedThrough?_eq_some.2 hnext
    rcases ih with rfl | rfl
    · exact .inr (Option.some.inj hthrough).symm
    · exact .inl (Option.some.inj hthrough).symm

/-- The walk from `B` ends at `A`. It goes round forever from `C`, of which there is no object. -/
theorem winding_admission_ends :
    (∃ visited, (∀ n, winding.program.rounds ≤ n → winding.program.seek [⟨0⟩] n ⟨1⟩ = some (visited, true)) ∧
      visited.Nodup) ∧
    winding.final.objects.map (·.shape) = [⟨0⟩, ⟨1⟩] ∧ (∀ n, winding.program.seek [⟨0⟩] n ⟨2⟩ = none) ∧
    ∀ n, winding.program.rounds ≤ n → LoopM.EndsAs n (Unbounded.narrow winding .all (.object ⟨2⟩))
      (AnalysisM.narrow winding .all (.object ⟨2⟩)) winding.final := by
  have hreach : Reachable winding winding.final := .after _ (.after (.createObject ⟨1⟩) .fresh trivial) trivial
  have hshapes : winding.final.objects.map (·.shape) = [⟨0⟩, ⟨1⟩] := by decide +kernel
  obtain ⟨hwalks, hends⟩ := admission_ends hreach.occurs
  refine ⟨?_, hshapes, Program.seek_eq_none fun t ht => ?_, fun n hn => (hends n hn).1 _ _⟩
  · have hmem : (⟨1⟩ : ShapeId) ∈ winding.final.objects.map (·.shape) := by
      rw [hshapes]
      decide
    obtain ⟨entry, hentry, hshape⟩ := List.mem_map.1 hmem
    obtain ⟨visited, answer, hseek, hnodup, hanswer, -⟩ := hwalks entry hentry [⟨0⟩]
    rw [hshape] at hseek hanswer
    have htrue : answer = true := hanswer.2 ⟨⟨0⟩, by simp, .single (.inherited rfl rfl rfl)⟩
    exact ⟨visited, htrue ▸ hseek, hnodup⟩
  · rcases winding.cycle ht with rfl | rfl
    · exact ⟨by decide, ⟨3⟩, .inherited rfl rfl rfl⟩
    · exact ⟨by decide, ⟨2⟩, .inherited rfl rfl rfl⟩

end TypeFlow
