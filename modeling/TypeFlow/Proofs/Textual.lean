import TypeFlow.Proofs.Steps
import TypeFlow.Proofs.Vocabulary

/-!
# Extraction follows the text

Extraction declares names that the program mentions, records actions that say what the program
says, and faults only where the program gives a cause. Two things make this true of every
scope at any time: a name is declared only where it is not declared yet, and the scope of a
body lies inside the global scope (`ScopeGraph.Lexical`), so that a name which stands for
nothing there is no global name either.

* `Keeps`: a computation preserves an invariant, and its faults are of a certain kind.
* `ScopeGraph.Textual`: the names and actions of a graph come from a program.
* `extract_tells`, `addBodyScope_ends`, `addObjectScope_ends`: what is extracted from a program
  follows its text.
-/

namespace TypeFlow

section Computations

variable {ε σ α β : Type} {I J K : σ → Prop} {E : ε → Prop}

/-- From `s`, the computation ends in a state with `J`, or with a fault in `E`. -/
def Ends (J : σ → Prop) (E : ε → Prop) (x : EStateM ε σ α) (s : σ) : Prop :=
  match x s with
  | .ok _ t => J t
  | .error e _ => E e

/-- **The computation keeps `I`**, unless it stops on a fault in `E`. -/
def Keeps (I : σ → Prop) (E : ε → Prop) (x : EStateM ε σ α) : Prop := ∀ s, I s → Ends I E x s

theorem Ends.of_ok {x : EStateM ε σ α} {s t : σ} {v : α} (h : Ends J E x s) (hx : x s = .ok v t) : J t := by
  unfold Ends at h
  rwa [hx] at h

theorem Ends.of_error {x : EStateM ε σ α} {s t : σ} {e : ε} (h : Ends J E x s) (hx : x s = .error e t) :
    E e := by
  unfold Ends at h
  rwa [hx] at h

theorem Ends.mono {x : EStateM ε σ α} {s : σ} (h : Ends J E x s) (hJ : ∀ t, J t → K t) : Ends K E x s := by
  unfold Ends at h ⊢
  cases hx : x s with
  | ok v t => rw [hx] at h; exact hJ t h
  | error e t => rw [hx] at h; exact h

/-- What comes next may rely on how the first computation ended. -/
theorem Ends.bind_at {x : EStateM ε σ α} {f : α → EStateM ε σ β} {s : σ} (hx : Ends J E x s)
    (hf : ∀ v t, x s = .ok v t → J t → Ends K E (f v) t) : Ends K E (x >>= f) s := by
  unfold Ends at hx ⊢
  rw [bind_apply]
  cases hs : x s with
  | ok v t => rw [hs] at hx; exact hf v t hs hx
  | error e t => rw [hs] at hx; exact hx

theorem Ends.bind {x : EStateM ε σ α} {f : α → EStateM ε σ β} {s : σ} (hx : Ends J E x s)
    (hf : ∀ v t, J t → Ends K E (f v) t) : Ends K E (x >>= f) s :=
  hx.bind_at fun v t _ ht => hf v t ht

theorem keeps_pure (v : α) : Keeps I E (pure v : EStateM ε σ α) := fun _ h => h

theorem keeps_throw {e : ε} (he : E e) : Keeps I E (throw e : EStateM ε σ α) := fun _ _ => he

theorem Keeps.bind {x : EStateM ε σ α} {f : α → EStateM ε σ β} (hx : Keeps I E x)
    (hf : ∀ v, Keeps I E (f v)) : Keeps I E (x >>= f) :=
  fun s hs => (hx s hs).bind fun v t ht => hf v t ht

/-- Reading the state, what comes next may rely on what is read. -/
theorem keeps_get_bind {f : σ → EStateM ε σ α} (hf : ∀ s, I s → Ends I E (f s) s) :
    Keeps I E (get >>= f) := hf

theorem ends_set_bind {f : PUnit → EStateM ε σ α} {s t : σ} (hf : Ends K E (f ⟨⟩) t) :
    Ends K E (set t >>= f) s := hf

variable {p : Program}

theorem ends_demandShape_bind {s : ShapeId} {k : ShapeDecl → EStateM Fault σ α} {t : σ}
    (hs : .shape s ∈ p.words) (hk : ∀ d, p.shape? s = some d → Ends K (Fault.Caused p) (k d) t) :
    Ends K (Fault.Caused p) (p.demandShape s >>= k) t := by
  unfold Program.demandShape
  cases hd : p.shape? s with
  | none => exact ⟨hs, hd⟩
  | some d => exact hk d hd

theorem ends_demandFunction_bind {f : FunctionId} {k : FunctionDecl → EStateM Fault σ α} {t : σ}
    (hf : .function f ∈ p.words) (hk : ∀ d, p.function? f = some d → Ends K (Fault.Caused p) (k d) t) :
    Ends K (Fault.Caused p) (p.demandFunction f >>= k) t := by
  unfold Program.demandFunction FunctionRegistry.demand
  cases hd : p.function? f with
  | none => exact ⟨hf, hd⟩
  | some d => exact hk d hd

theorem keeps_demandFunction_bind {f : FunctionId} {k : FunctionDecl → EStateM Fault σ α}
    (hf : .function f ∈ p.words) (hk : ∀ d, p.function? f = some d → Keeps I (Fault.Caused p) (k d)) :
    Keeps I (Fault.Caused p) (p.demandFunction f >>= k) :=
  fun s hs => ends_demandFunction_bind hf fun d hd => hk d hd s hs

end Computations

namespace ScopeGraph

/-- **A scope is lexical** if the way upwards leads to the global scope. -/
inductive Lexical (g : ScopeGraph) : ScopeId → Prop
  | global (there : 0 < g.scopes.length) : Lexical g .global
  | inner {s t : ScopeId} (parent : g.parent? s = some t) (older : t.index < s.index)
      (outer : Lexical g t) : Lexical g s

variable {g h k : ScopeGraph} {p : Program} {n : Nat} {s : ScopeId}

theorem Lexical.lt (hs : g.Lexical s) : s.index < g.scopes.length := by
  cases hs with
  | global there => exact there
  | inner parent older outer =>
    obtain ⟨c, hc, -⟩ := Option.bind_eq_some_iff.1 parent
    exact scope_lt hc

theorem Lexical.to_global (hs : g.Lexical s) : g.Lexical .global :=
  .global (Nat.lt_of_le_of_lt (Nat.zero_le _) hs.lt)

theorem Lexical.grows (hs : g.Lexical s) (hgh : g.Grows h) : h.Lexical s := by
  induction hs with
  | global there => exact .global (Nat.lt_of_lt_of_le there hgh.scopes.length_le)
  | @inner s t parent older outer ih =>
    obtain ⟨c, hc, hp⟩ := Option.bind_eq_some_iff.1 parent
    obtain ⟨d, hd, hcd⟩ := hgh.scopes s.index c hc
    have hd : h.scope? s = some d := hd
    refine .inner ?_ older ih
    rw [parent?, hd, Option.bind_some, hcd.parent, hp]

theorem Lexical.mem_chainWithin (hs : g.Lexical s) : ∀ m, s.index < m → .global ∈ g.chainWithin m s := by
  induction hs with
  | global there =>
    rintro (_ | m) hm
    · exact absurd hm (Nat.not_lt_zero _)
    · exact List.mem_cons_self ..
  | inner parent older outer ih =>
    rintro (_ | m) hm
    · exact absurd hm (Nat.not_lt_zero _)
    · rw [chainWithin, parent]
      exact List.mem_cons_of_mem _ (ih m (by omega))

theorem own_of_lookup_eq_none {x : String} (hx : g.lookup s x = none) : g.own s x = none :=
  List.findSome?_eq_none_iff.1 hx s (List.mem_cons_self ..)

/-- A name that stands for nothing in a lexical scope is no global name. -/
theorem Lexical.own_global (hs : g.Lexical s) {x : String} (hx : g.lookup s x = none) :
    g.own .global x = none :=
  List.findSome?_eq_none_iff.1 hx _ (hs.mem_chainWithin _ (Nat.lt_succ_self _))

/-- **A graph follows the text of a program**: its slots have names of the program or reserved
ones, and its actions say what the program says, in lexical scopes. It has `n` scopes. -/
structure Textual (p : Program) (n : Nat) (g : ScopeGraph) : Prop where
  names : ∀ k ∈ g.slots, .name k.name ∈ p.words ∨ k.name ∈ SlotName.reserved
  actions : ∀ s, ∀ a ∈ g.actionsOf s, p.Says a.words ∧ g.Lexical s
  count : g.scopes.length = n

/-- The graph `g` continues `b` and follows the text of a program. -/
structure Told (p : Program) (n : Nat) (b g : ScopeGraph) : Prop where
  grows : b.Grows g
  text : g.Textual p n

theorem Textual.told (hg : g.Textual p n) : Told p n g g := ⟨refl_of _ g, hg⟩

theorem Told.trans {b : ScopeGraph} {m : Nat} (hg : Told p n b g) (hh : Told p m g h) : Told p m b h :=
  ⟨trans_of Grows hg.grows hh.grows, hh.text⟩

/-- A graph that continues a textual one, without new actions, is textual if its names are in the
text. -/
theorem Textual.of_grows (hg : g.Textual p n) (hgh : g.Grows h)
    (hactions : ∀ s, h.actionsOf s = g.actionsOf s)
    (hnames : ∀ k ∈ h.slots, k.name ∈ g.slots.map (·.name) ∨ .name k.name ∈ p.words ∨
      k.name ∈ SlotName.reserved)
    {m : Nat} (hm : h.scopes.length = m) : h.Textual p m := by
  refine ⟨fun k hk => ?_, fun s a ha => ?_, hm⟩
  · rcases hnames k hk with hk | hk
    · obtain ⟨k', hk', hname⟩ := List.mem_map.1 hk
      rw [← hname]
      exact hg.names k' hk'
    · exact hk
  · rw [hactions] at ha
    obtain ⟨htext, hs⟩ := hg.actions s a ha
    exact ⟨htext, hs.grows hgh⟩

theorem Textual.bindSlot (hg : g.Textual p n) {x : String}
    (hx : .name x ∈ p.words ∨ x ∈ SlotName.reserved) (hown : g.own s x = none) :
    (g.bindSlot s x).Textual p n := by
  have hbuilds : g.Builds (fun _ => True) (fun _ => False) (g.bindSlot s x) := bindSlot_builds trivial hown
  refine hg.of_grows hbuilds.grows (fun t => hbuilds.actions t not_false) (fun k hk => ?_) ?_
  · rcases List.mem_append.1 hk with hk | hk
    · exact .inl (List.mem_map_of_mem hk)
    · rw [List.mem_singleton.1 hk]
      exact .inr hx
  · rw [← hg.count]
    simp [ScopeGraph.bindSlot, modifyScope]

theorem mem_actionsOf_pushAction {a b : Action} {t : ScopeId}
    (hb : b ∈ (g.pushAction s a).actionsOf t) : b ∈ g.actionsOf t ∨ t = s ∧ b = a := by
  unfold actionsOf pushAction at hb
  rw [scope?_modifyScope] at hb
  unfold actionsOf
  cases hc : g.scope? t with
  | none =>
    rw [hc] at hb
    exact .inl hb
  | some c =>
    rw [hc] at hb
    by_cases hst : s = t
    · simp only [hst, if_true, Option.map_some, Option.getD_some, List.mem_append,
        List.mem_singleton] at hb
      exact hb.imp id fun h => ⟨hst.symm, h⟩
    · simp only [hst, if_false, Option.map_some, Option.getD_some] at hb
      exact .inl hb

theorem pushAction_grows (g : ScopeGraph) (s : ScopeId) (a : Action) : g.Grows (g.pushAction s a) :=
  ⟨continues_modify (fun _ => ⟨rfl, rfl, List.prefix_rfl, List.prefix_rfl, List.prefix_append ..⟩) _ _,
    refl_of _ g.slots⟩

theorem Textual.pushAction (hg : g.Textual p n) {a : Action} (hs : g.Lexical s) (ha : p.Says a.words) :
    (g.pushAction s a).Textual p n := by
  have hgrows := pushAction_grows g s a
  refine ⟨hg.names, fun t b hb => ?_, ?_⟩
  · rcases mem_actionsOf_pushAction hb with hb | ⟨rfl, rfl⟩
    · obtain ⟨htext, ht⟩ := hg.actions t b hb
      exact ⟨htext, ht.grows hgrows⟩
    · exact ⟨ha, hs.grows hgrows⟩
  · rw [← hg.count]
    simp [ScopeGraph.pushAction, modifyScope]

theorem actionsOf_modifyScope (g : ScopeGraph) {s : ScopeId} {f : Scope → Scope}
    (hf : ∀ c, (f c).actions = c.actions) (t : ScopeId) :
    (g.modifyScope s f).actionsOf t = g.actionsOf t := by
  unfold actionsOf
  rw [scope?_modifyScope]
  cases g.scope? t with
  | none => rfl
  | some c =>
    rw [Option.map_some, Option.map_some, Option.map_some]
    split
    · rw [hf]
    · rfl

/-- A new parameter keeps a graph textual. -/
theorem Told.addParam {b : ScopeGraph} (hg : Told p n b g) (s : ScopeId) (x : SlotId) :
    Told p n b (g.modifyScope s fun c => { c with params := c.params ++ [x] }) := by
  let f : Scope → Scope := fun c => { c with params := c.params ++ [x] }
  have hgrows : g.Grows (g.modifyScope s f) :=
    ⟨continues_modify (fun _ => ⟨rfl, rfl, List.prefix_rfl, List.prefix_append .., List.prefix_rfl⟩) _ _,
      refl_of _ g.slots⟩
  refine ⟨trans_of Grows hg.grows hgrows, hg.text.of_grows hgrows
    (actionsOf_modifyScope g fun _ => rfl) (fun k hk => .inl (List.mem_map_of_mem hk)) ?_⟩
  rw [← hg.text.count]
  simp [modifyScope]

theorem Textual.unionInto (hg : g.Textual p n) (x : SlotId) (t : ConcreteType) :
    (g.unionInto x t).2.Textual p n := by
  rw [unionInto_snd]
  have hgrows : g.Grows (g.setType x (g.typeOf x ∪ t)) :=
    setType_grows (ConcreteType.subset_union_left _ t)
  refine hg.of_grows hgrows (fun _ => rfl) (fun k hk => .inl ?_) hg.count
  obtain ⟨i, hi⟩ := List.getElem?_of_mem hk
  have hi : (g.setType x (g.typeOf x ∪ t)).slot? ⟨i⟩ = some k := hi
  rw [slot?_setType] at hi
  obtain ⟨k', hk', rfl⟩ := Option.map_eq_some_iff.1 hi
  refine List.mem_map.2 ⟨k', List.mem_of_getElem? hk', ?_⟩
  split <;> rfl

theorem Textual.joinOwn (hg : g.Textual p n) (s : ScopeId) (x : String) (t : ConcreteType) :
    (g.joinOwn s x t).Textual p n := by
  unfold ScopeGraph.joinOwn
  split
  · exact hg.unionInto _ t
  · exact hg

/-- None of the names is declared in the scope, and they are all different. -/
def Free (g : ScopeGraph) (s : ScopeId) (xs : List String) : Prop :=
  xs.Nodup ∧ ∀ x ∈ xs, g.own s x = none

theorem Free.tail {x : String} {xs : List String} (hs : s.index < g.scopes.length)
    (h : g.Free s (x :: xs)) : (g.bindSlot s x).Free s xs := by
  obtain ⟨hx, hxs⟩ := List.nodup_cons.1 h.1
  refine ⟨hxs, fun y hy => ?_⟩
  rw [own_bindSlot hs (h.2 x (List.mem_cons_self ..)), if_neg, h.2 y (List.mem_cons_of_mem _ hy)]
  rintro ⟨-, rfl⟩
  exact hx hy

end ScopeGraph

open ScopeGraph

variable {p : Program} {n : Nat} {b g : ScopeGraph}

namespace GraphM

/-- **The computation tells what the program says**: from any graph that continues `b`, it keeps
to the text, and a fault has a cause in the program. -/
abbrev Tells {α : Type} (p : Program) (n : Nat) (b : ScopeGraph) (x : GraphM α) : Prop :=
  Keeps (Told p n b) (Fault.Caused p) x

theorem declare_ends {s : ScopeId} {x : String} (hg : Told p n b g)
    (hx : .name x ∈ p.words ∨ x ∈ SlotName.reserved) (hown : ¬ p.Repeats → g.own s x = none) :
    Ends (Told p n b) (Fault.Caused p) (declare s x) g := by
  unfold Ends
  rw [declare_apply]
  cases hs : g.own s x with
  | some y =>
    by_contra hrepeats
    rw [hown hrepeats] at hs
    cases hs
  | none =>
    exact ⟨trans_of Grows hg.grows (bindSlot_builds (D := fun _ => True) (E := fun _ => True) trivial hs).grows,
      hg.text.bindSlot hx hs⟩

theorem declareOnce_tells {s : ScopeId} {x : String} (hx : .name x ∈ p.words) :
    Tells p n b (declareOnce s x) := by
  refine keeps_get_bind fun g hg => ?_
  cases hs : g.own s x with
  | some y => exact hg
  | none => exact (declare_ends hg (.inl hx) fun _ => hs).bind fun _ h hh => hh

theorem emit_tells {s : ScopeId} {a : Action} (hs : b.Lexical s) (ha : p.Says a.words) :
    Tells p n b (emit s a) := fun g hg =>
  ⟨trans_of Grows hg.grows (pushAction_grows g s a), hg.text.pushAction (hs.grows hg.grows) ha⟩

end GraphM

open GraphM

/-! ## Bodies -/

namespace Extraction

variable (p)

mutual

theorem hoistStmt_tells {s : ScopeId} : ∀ st, p.Says (Stmt.words st) → Tells p n b (hoistStmt p s st)
  | .var x _ _, hst => by
    simp only [Stmt.words, Program.says_cons] at hst
    exact declareOnce_tells hst.1
  | .function f, hst => by
    simp only [Stmt.words, Program.says_cons] at hst
    refine keeps_demandFunction_bind hst.1 fun d hd => ?_
    cases hname : d.name with
    | none => exact keeps_pure _
    | some x => exact declareOnce_tells ((Program.says_of_function hd).name x hname)
  | .expr _, _ => keeps_pure _
  | .ret _, _ => keeps_pure _
  | .branch _ yes no, hst => by
    simp only [Stmt.words, Program.says_append] at hst
    exact (hoist_tells yes hst.1.2).bind fun _ => hoist_tells no hst.2
  | .loop _ body, hst => by
    simp only [Stmt.words, Program.says_append] at hst
    exact hoist_tells body hst.2
  | .block body, hst => hoist_tells body hst
termination_by structural st => st

theorem hoist_tells {s : ScopeId} : ∀ sts, p.Says (Stmt.wordsAll sts) → Tells p n b (hoist p s sts)
  | [], _ => keeps_pure _
  | st :: rest, hsts => by
    simp only [Stmt.wordsAll, Program.says_append] at hsts
    exact (hoistStmt_tells st hsts.1).bind fun _ => hoist_tells rest hsts.2
termination_by structural sts => sts

end

variable {p}

/-- An assignment in a lexical scope finds the slot of its name or declares it globally. -/
theorem targetSlot_tells {site : Site} {x : String} (hglobal : site.global = .global)
    (hs : b.Lexical site.scope) (hx : .name x ∈ p.words) : Tells p n b (targetSlot site x) := by
  refine keeps_get_bind fun g hg => ?_
  cases hl : g.lookup site.scope x with
  | some y => exact hg
  | none =>
    rw [hglobal]
    exact declare_ends hg (.inl hx) fun _ => (hs.grows hg.grows).own_global hl

mutual

theorem visitExpr_tells {site : Site} (hglobal : site.global = .global) (hs : b.Lexical site.scope) :
    ∀ e, p.Says (Expr.words e) → Tells p n b (visitExpr site e)
  | ⟨.name _, _⟩, _ => keeps_pure _
  | ⟨.this, _⟩, _ => keeps_pure _
  | ⟨.literal, _⟩, _ => keeps_pure _
  | ⟨.function _, _⟩, _ => keeps_pure _
  | ⟨.assign target value, _⟩, he => by
    simp only [Expr.words, Form.words, Program.says_append] at he
    have htarget := visitExpr_tells hglobal hs target he.1.1
    unfold visitExpr
    refine (visitExpr_tells hglobal hs value he.1.2).bind fun _ => ?_
    split
    · rename_i x _
      have hx : .name x ∈ p.words := he.1.1 _ (by simp [Expr.words, Form.words])
      exact (targetSlot_tells hglobal hs hx).bind fun _ => emit_tells hs he.1.2
    · rename_i receiver property _
      simp only [Expr.words, Form.words, Program.says_append] at he
      refine htarget.bind fun _ => emit_tells hs ?_
      rw [Action.words, Program.says_append, Program.says_cons]
      exact ⟨he.1.1.1.1, he.1.1.1.2 _ (List.mem_singleton_self _), he.1.2⟩
    · exact htarget
  | ⟨.call callee args, _⟩, he => by
    simp only [Expr.words, Form.words, Program.says_append] at he
    refine (visitExpr_tells hglobal hs callee he.1.1).bind fun _ => ?_
    refine (visitExprs_tells hglobal hs args he.1.2).bind fun _ => emit_tells hs ?_
    exact Program.says_append.2 he.1
  | ⟨.construct callee args, _⟩, he => by
    simp only [Expr.words, Form.words, Program.says_append] at he
    refine (visitExpr_tells hglobal hs callee he.1.1).bind fun _ => ?_
    refine (visitExprs_tells hglobal hs args he.1.2).bind fun _ => emit_tells hs ?_
    exact Program.says_append.2 he.1
  | ⟨.objectLit entries, declared⟩, he => by
    have hentries := he
    simp only [Expr.words, Form.words, Program.says_append] at hentries
    refine Keeps.bind (emit_tells hs he) fun _ => ?_
    exact visitEntries_tells hglobal hs ⟨.objectLit entries, declared⟩ he entries hentries.1
  | ⟨.arrayLit elements, _⟩, he => by
    have helements := he
    simp only [Expr.words, Form.words, Program.says_append] at helements
    exact Keeps.bind (emit_tells hs he) fun _ => visitExprs_tells hglobal hs elements helements.1
  | ⟨.prop receiver _, _⟩, he => by
    simp only [Expr.words, Form.words, Program.says_append] at he
    exact visitExpr_tells hglobal hs receiver he.1.1
  | ⟨.elem receiver index, _⟩, he => by
    simp only [Expr.words, Form.words, Program.says_append] at he
    exact (visitExpr_tells hglobal hs receiver he.1.1).bind fun _ =>
      visitExpr_tells hglobal hs index he.1.2
  | ⟨.comma operands, _⟩, he => by
    simp only [Expr.words, Form.words, Program.says_append] at he
    exact visitExprs_tells hglobal hs operands he.1
  | ⟨.unknown operands, _⟩, he => by
    simp only [Expr.words, Form.words, Program.says_append] at he
    exact visitExprs_tells hglobal hs operands he.1
  | ⟨.and left right, _⟩, he => by
    simp only [Expr.words, Form.words, Program.says_append] at he
    exact (visitExpr_tells hglobal hs left he.1.1).bind fun _ => visitExpr_tells hglobal hs right he.1.2
  | ⟨.or left right, _⟩, he => by
    simp only [Expr.words, Form.words, Program.says_append] at he
    exact (visitExpr_tells hglobal hs left he.1.1).bind fun _ => visitExpr_tells hglobal hs right he.1.2
  | ⟨.cond test yes no, _⟩, he => by
    simp only [Expr.words, Form.words, Program.says_append] at he
    refine (visitExpr_tells hglobal hs test he.1.1.1).bind fun _ => ?_
    exact (visitExpr_tells hglobal hs yes he.1.1.2).bind fun _ => visitExpr_tells hglobal hs no he.1.2
termination_by structural e => e

theorem visitExprs_tells {site : Site} (hglobal : site.global = .global) (hs : b.Lexical site.scope) :
    ∀ es, p.Says (Expr.wordsAll es) → Tells p n b (visitExprs site es)
  | [], _ => keeps_pure _
  | e :: es, hes => by
    simp only [Expr.wordsAll, Program.says_append] at hes
    exact (visitExpr_tells hglobal hs e hes.1).bind fun _ => visitExprs_tells hglobal hs es hes.2
termination_by structural es => es

theorem visitEntries_tells {site : Site} (hglobal : site.global = .global) (hs : b.Lexical site.scope)
    (literal : Expr) (hliteral : p.Says literal.words) :
    ∀ es, p.Says (Entry.wordsAll es) → Tells p n b (visitEntries site literal es)
  | [], _ => keeps_pure _
  | ⟨key, value⟩ :: rest, hes => by
    simp only [Entry.wordsAll, Program.says_cons, Program.says_append] at hes
    refine (visitExpr_tells hglobal hs value hes.2.1).bind fun _ => ?_
    refine Keeps.bind (emit_tells hs ?_) fun _ =>
      visitEntries_tells hglobal hs literal hliteral rest hes.2.2
    rw [Action.words, Program.says_append, Program.says_cons]
    exact ⟨hliteral, hes.1, hes.2.1⟩
termination_by structural es => es

end

/-- Where a statement returns, its scope has a slot for what is returned, or the program is at
fault. -/
def Returnable (p : Program) (b : ScopeGraph) (s : ScopeId) (returns : Bool) : Prop :=
  returns = true → (∃ x, b.own s SlotName.ret = some x) ∨ p.ReturnsOutside

theorem Returnable.left {s : ScopeId} {x y : Bool} (h : Returnable p b s (x || y)) : Returnable p b s x :=
  fun hx => h (by rw [hx, Bool.true_or])

theorem Returnable.right {s : ScopeId} {x y : Bool} (h : Returnable p b s (x || y)) : Returnable p b s y :=
  fun hy => h (by rw [hy, Bool.or_true])

mutual

theorem visitStmt_tells {site : Site} (hglobal : site.global = .global) (hs : b.Lexical site.scope) :
    ∀ st, p.Says (Stmt.words st) → Returnable p b site.scope st.returns →
      Tells p n b (visitStmt p site st)
  | .var x value declared, hst, _ => by
    simp only [Stmt.words, Program.says_cons, Program.says_append] at hst
    rw [visitStmt]
    refine keeps_get_bind fun g hg => ?_
    cases g.own site.scope x with
    | none => exact hg
    | some slot =>
      match value, declared, hst with
      | some e, _, hst =>
        have he : p.Says e.words := hst.2.1
        exact ((visitExpr_tells hglobal hs e he).bind fun _ =>
          emit_tells (a := .assign slot e) hs he) g hg
      | none, some d, hst =>
        dsimp only
        split
        · exact emit_tells hs hst.2.2 g hg
        · exact hg
      | none, none, _ => exact hg
  | .function f, hst, _ => by
    have hf : .function f ∈ p.words := hst _ (by simp [Stmt.words])
    rw [visitStmt]
    refine keeps_demandFunction_bind hf fun d hd => keeps_get_bind fun g hg => ?_
    cases d.name.bind (g.own site.scope) with
    | none => exact hg
    | some slot => exact emit_tells hs hst g hg
  | .expr e, hst, _ => visitExpr_tells hglobal hs e hst
  | .ret value, hst, hret => by
    rw [visitStmt]
    refine keeps_get_bind fun g hg => ?_
    cases hx : g.own site.scope SlotName.ret with
    | none =>
      -- the slot would still be there
      have hcause : p.ReturnsOutside := by
        refine (hret rfl).resolve_left ?_
        rintro ⟨x, hown⟩
        rw [hg.grows.own hown] at hx
        cases hx
      exact hcause
    | some slot =>
      match value, hst with
      | some e, hst =>
        have he : p.Says e.words := hst
        exact ((visitExpr_tells hglobal hs e he).bind fun _ => emit_tells (a := .ret slot e) hs he) g hg
      | none, _ => exact hg
  | .branch test yes no, hst, hret => by
    simp only [Stmt.words, Program.says_append] at hst
    refine (visitExpr_tells hglobal hs test hst.1.1).bind fun _ => ?_
    exact (visit_tells hglobal hs yes hst.1.2 hret.left).bind fun _ =>
      visit_tells hglobal hs no hst.2 hret.right
  | .loop test body, hst, hret => by
    simp only [Stmt.words, Program.says_append] at hst
    exact (visitExpr_tells hglobal hs test hst.1).bind fun _ => visit_tells hglobal hs body hst.2 hret
  | .block body, hst, hret => visit_tells hglobal hs body hst hret
termination_by structural st => st

theorem visit_tells {site : Site} (hglobal : site.global = .global) (hs : b.Lexical site.scope) :
    ∀ sts, p.Says (Stmt.wordsAll sts) → Returnable p b site.scope (Stmt.someReturns sts) →
      Tells p n b (visit p site sts)
  | [], _, _ => keeps_pure _
  | st :: rest, hsts, hret => by
    simp only [Stmt.wordsAll, Program.says_append] at hsts
    exact (visitStmt_tells hglobal hs st hsts.1 hret.left).bind fun _ =>
      visit_tells hglobal hs rest hsts.2 hret.right
termination_by structural sts => sts

end

end Extraction

/-! ## Implicit globals -/

namespace ImplicitGlobals

mutual

theorem boundByStmt_caused {names : List String} {e : Fault} :
    ∀ st, p.Says (Stmt.words st) → boundByStmt p names st = .error e → e.Caused p
  | .var _ _ _, _, h => by cases h
  | .function f, hst, h => by
    have hf : .function f ∈ p.words := hst _ (by simp [Stmt.words])
    rw [boundByStmt, FunctionRegistry.demand] at h
    cases hd : p.function? f with
    | none =>
      rw [hd] at h
      cases h
      exact ⟨hf, hd⟩
    | some d =>
      rw [hd] at h
      cases hname : d.name <;> simp [pure, Except.pure, bind, Except.bind, hname] at h
  | .expr _, _, h => by cases h
  | .ret _, _, h => by cases h
  | .branch _ yes no, hst, h => by
    simp only [Stmt.words, Program.says_append] at hst
    rw [boundByStmt] at h
    cases hyes : boundNames p names yes with
    | error e' =>
      rw [hyes] at h
      cases h
      exact boundNames_caused yes hst.1.2 hyes
    | ok names' =>
      rw [hyes] at h
      exact boundNames_caused no hst.2 h
  | .loop _ body, hst, h => by
    simp only [Stmt.words, Program.says_append] at hst
    exact boundNames_caused body hst.2 h
  | .block body, hst, h => boundNames_caused body hst h
termination_by structural st => st

theorem boundNames_caused {names : List String} {e : Fault} :
    ∀ sts, p.Says (Stmt.wordsAll sts) → boundNames p names sts = .error e → e.Caused p
  | [], _, h => by cases h
  | st :: rest, hsts, h => by
    simp only [Stmt.wordsAll, Program.says_append] at hsts
    rw [boundNames] at h
    cases hst : boundByStmt p names st with
    | error e' =>
      rw [hst] at h
      cases h
      exact boundByStmt_caused st hsts.1 hst
    | ok names' =>
      rw [hst] at h
      exact boundNames_caused rest hsts.2 h
termination_by structural sts => sts

end

/-- A step of the walk tells what the program says. -/
abbrev TellsWalk (p : Program) (n : Nat) (b : ScopeGraph) (x : WalkM Unit) : Prop :=
  Keeps (fun w => Told p n b w.graph) (Fault.Caused p) x

theorem assigned_tells {global : ScopeId} {bound : List String} {x : String} (hx : .name x ∈ p.words) :
    TellsWalk p n b (assigned global bound x) := by
  intro w hw
  have hdeclare := declareOnce_tells (s := global) hx w.graph hw
  unfold Ends assigned
  by_cases hbound : x ∈ bound
  · simp only [hbound, if_true]
    exact hw
  · simp only [hbound, if_false]
    cases hd : declareOnce global x w.graph with
    | ok u h => exact hdeclare.of_ok hd
    | error e h => exact hdeclare.of_error hd

section Walk

variable {enter : FunctionId → WalkM Unit} {global : ScopeId} {bound : List String}

mutual

theorem walkExpr_tells (henter : ∀ f, .function f ∈ p.words → TellsWalk p n b (enter f)) :
    ∀ e, p.Says (Expr.words e) → TellsWalk p n b (walkExpr enter global bound e)
  | ⟨.name _, _⟩, _ => keeps_pure _
  | ⟨.this, _⟩, _ => keeps_pure _
  | ⟨.literal, _⟩, _ => keeps_pure _
  | ⟨.function f, _⟩, he => henter f (he _ (by simp [Expr.words, Form.words]))
  | ⟨.assign target value, _⟩, he => by
    simp only [Expr.words, Form.words, Program.says_append] at he
    have htarget := walkExpr_tells henter target he.1.1
    unfold walkExpr
    refine (walkExpr_tells henter value he.1.2).bind fun _ => ?_
    split
    · exact assigned_tells (he.1.1 _ (by simp [Expr.words, Form.words]))
    · exact htarget
  | ⟨.call callee args, _⟩, he => by
    simp only [Expr.words, Form.words, Program.says_append] at he
    exact (walkExpr_tells henter callee he.1.1).bind fun _ => walkExprs_tells henter args he.1.2
  | ⟨.construct callee args, _⟩, he => by
    simp only [Expr.words, Form.words, Program.says_append] at he
    exact (walkExpr_tells henter callee he.1.1).bind fun _ => walkExprs_tells henter args he.1.2
  | ⟨.objectLit entries, _⟩, he => by
    simp only [Expr.words, Form.words, Program.says_append] at he
    exact walkEntries_tells henter entries he.1
  | ⟨.arrayLit elements, _⟩, he => by
    simp only [Expr.words, Form.words, Program.says_append] at he
    exact walkExprs_tells henter elements he.1
  | ⟨.prop receiver _, _⟩, he => by
    simp only [Expr.words, Form.words, Program.says_append] at he
    exact walkExpr_tells henter receiver he.1.1
  | ⟨.elem receiver index, _⟩, he => by
    simp only [Expr.words, Form.words, Program.says_append] at he
    exact (walkExpr_tells henter receiver he.1.1).bind fun _ => walkExpr_tells henter index he.1.2
  | ⟨.comma operands, _⟩, he => by
    simp only [Expr.words, Form.words, Program.says_append] at he
    exact walkExprs_tells henter operands he.1
  | ⟨.unknown operands, _⟩, he => by
    simp only [Expr.words, Form.words, Program.says_append] at he
    exact walkExprs_tells henter operands he.1
  | ⟨.and left right, _⟩, he => by
    simp only [Expr.words, Form.words, Program.says_append] at he
    exact (walkExpr_tells henter left he.1.1).bind fun _ => walkExpr_tells henter right he.1.2
  | ⟨.or left right, _⟩, he => by
    simp only [Expr.words, Form.words, Program.says_append] at he
    exact (walkExpr_tells henter left he.1.1).bind fun _ => walkExpr_tells henter right he.1.2
  | ⟨.cond test yes no, _⟩, he => by
    simp only [Expr.words, Form.words, Program.says_append] at he
    refine (walkExpr_tells henter test he.1.1.1).bind fun _ => ?_
    exact (walkExpr_tells henter yes he.1.1.2).bind fun _ => walkExpr_tells henter no he.1.2
termination_by structural e => e

theorem walkExprs_tells (henter : ∀ f, .function f ∈ p.words → TellsWalk p n b (enter f)) :
    ∀ es, p.Says (Expr.wordsAll es) → TellsWalk p n b (walkExprs enter global bound es)
  | [], _ => keeps_pure _
  | e :: es, hes => by
    simp only [Expr.wordsAll, Program.says_append] at hes
    exact (walkExpr_tells henter e hes.1).bind fun _ => walkExprs_tells henter es hes.2
termination_by structural es => es

theorem walkEntries_tells (henter : ∀ f, .function f ∈ p.words → TellsWalk p n b (enter f)) :
    ∀ es, p.Says (Entry.wordsAll es) → TellsWalk p n b (walkEntries enter global bound es)
  | [], _ => keeps_pure _
  | ⟨_, value⟩ :: rest, hes => by
    simp only [Entry.wordsAll, Program.says_cons, Program.says_append] at hes
    exact (walkExpr_tells henter value hes.2.1).bind fun _ => walkEntries_tells henter rest hes.2.2
termination_by structural es => es

end

mutual

theorem walkStmt_tells (henter : ∀ f, .function f ∈ p.words → TellsWalk p n b (enter f)) :
    ∀ st, p.Says (Stmt.words st) → TellsWalk p n b (walkStmt enter global bound st)
  | .var _ (some e) _, hst => by
    simp only [Stmt.words, Program.says_cons, Program.says_append] at hst
    exact walkExpr_tells henter e hst.2.1
  | .var _ none _, _ => keeps_pure _
  | .function f, hst => henter f (hst _ (by simp [Stmt.words]))
  | .expr e, hst => walkExpr_tells henter e hst
  | .ret (some e), hst => walkExpr_tells henter e hst
  | .ret none, _ => keeps_pure _
  | .branch test yes no, hst => by
    simp only [Stmt.words, Program.says_append] at hst
    refine (walkExpr_tells henter test hst.1.1).bind fun _ => ?_
    exact (walkStmts_tells henter yes hst.1.2).bind fun _ => walkStmts_tells henter no hst.2
  | .loop test body, hst => by
    simp only [Stmt.words, Program.says_append] at hst
    exact (walkExpr_tells henter test hst.1).bind fun _ => walkStmts_tells henter body hst.2
  | .block body, hst => walkStmts_tells henter body hst
termination_by structural st => st

theorem walkStmts_tells (henter : ∀ f, .function f ∈ p.words → TellsWalk p n b (enter f)) :
    ∀ sts, p.Says (Stmt.wordsAll sts) → TellsWalk p n b (walkStmts enter global bound sts)
  | [], _ => keeps_pure _
  | st :: rest, hsts => by
    simp only [Stmt.wordsAll, Program.says_append] at hsts
    exact (walkStmt_tells henter st hsts.1).bind fun _ => walkStmts_tells henter rest hsts.2
termination_by structural sts => sts

end

end Walk

theorem enterFunction_tells {global : ScopeId} : ∀ m bound f, .function f ∈ p.words →
    TellsWalk p n b (enterFunction p global m bound f)
  | 0, _, _, _ => keeps_pure _
  | m + 1, bound, f, hf => by
    refine keeps_get_bind fun w hw => ?_
    by_cases hentered : f ∈ w.entered
    · rw [if_pos hentered]
      exact hw
    · rw [if_neg hentered]
      refine ends_set_bind ?_
      refine keeps_demandFunction_bind hf (fun d hd => ?_) _ hw
      cases hbody : d.body with
      | none => exact keeps_pure _
      | some body =>
        have htext : p.Says (Stmt.wordsAll body) := (Program.says_of_function hd).body body hbody
        dsimp only
        cases hnames : boundNames p d.params body with
        | error e => exact keeps_throw (boundNames_caused body htext hnames)
        | ok names => exact walkStmts_tells (enterFunction_tells m _) body htext

theorem declare_tells {global : ScopeId} {body : List Stmt} (hbody : p.Says (Stmt.wordsAll body)) :
    Tells p n b (declare p global body) := by
  intro g hg
  have hwalk : TellsWalk p n b (walkStmts (enterFunction p global (p.functions.length + 1) []) global []
      body) := walkStmts_tells (enterFunction_tells (p.functions.length + 1) []) body hbody
  unfold Ends declare
  cases hw : walkStmts (enterFunction p global (p.functions.length + 1) []) global [] body ⟨g, []⟩ with
  | ok u w => exact (hwalk ⟨g, []⟩ hg).of_ok hw
  | error e w => exact (hwalk ⟨g, []⟩ hg).of_error hw

end ImplicitGlobals

/-! ## New scopes -/

namespace GraphM

/-- Declares the first of several names that are free in a scope. -/
theorem declare_bind_ends {α : Type} {s : ScopeId} {x : String} {xs : List String} {J : ScopeGraph → Prop}
    {f : SlotId → GraphM α} (hg : g.Textual p n) (hs : s.index < g.scopes.length)
    (hx : .name x ∈ p.words ∨ x ∈ SlotName.reserved) (hfree : ¬ p.Repeats → g.Free s (x :: xs))
    (hf : ∀ y h, Told p n g h → s.index < h.scopes.length → h.own s x = some y →
      (¬ p.Repeats → h.Free s xs) → Ends J (Fault.Caused p) (f y) h) :
    Ends J (Fault.Caused p) (declare s x >>= f) g := by
  have hown : ¬ p.Repeats → g.own s x = none := fun h => (hfree h).2 x (List.mem_cons_self ..)
  refine (declare_ends hg.told hx hown).bind_at fun y h hy hh => ?_
  have hlt : s.index < h.scopes.length := Nat.lt_of_lt_of_le hs hh.grows.scopes.length_le
  refine hf y h hh hlt (declare_own hs hy) fun hrepeats => ?_
  obtain ⟨-, -, rfl⟩ := declare_ok hy
  exact (hfree hrepeats).tail hs

theorem declareEach_ends {s : ScopeId} : ∀ {xs : List String} {g : ScopeGraph}, g.Textual p n →
    s.index < g.scopes.length → (∀ x ∈ xs, .name x ∈ p.words) → (¬ p.Repeats → g.Free s xs) →
    Ends (Told p n g) (Fault.Caused p) (declareEach s xs) g
  | [], _, hg, _, _, _ => hg.told
  | x :: xs, g, hg, hs, hwords, hfree => by
    obtain ⟨hx, hxs⟩ := List.forall_mem_cons.1 hwords
    refine declare_bind_ends hg hs (.inl hx) hfree fun y h hh hlt _ hfree' => ?_
    exact (declareEach_ends hh.text hlt hxs hfree').mono fun k hk => hh.trans hk

theorem declareParams_ends {s : ScopeId} : ∀ {xs : List String} {g : ScopeGraph}, g.Textual p n →
    s.index < g.scopes.length → (∀ x ∈ xs, .name x ∈ p.words) → (¬ p.Repeats → g.Free s xs) →
    Ends (Told p n g) (Fault.Caused p) (declareParams s xs) g
  | [], _, hg, _, _, _ => hg.told
  | x :: xs, g, hg, hs, hwords, hfree => by
    obtain ⟨hx, hxs⟩ := List.forall_mem_cons.1 hwords
    rw [declareParams, declareParam, bind_assoc]
    refine declare_bind_ends hg hs (.inl hx) hfree fun y h hh hlt _ hfree' => ?_
    -- the new parameter declares no name
    let f : Scope → Scope := fun c => { c with params := c.params ++ [y] }
    have hparam : Told p n g (h.modifyScope s f) := hh.addParam s y
    have hlt' : s.index < (h.modifyScope s f).scopes.length := by simpa [modifyScope] using hlt
    refine (declareParams_ends hparam.text hlt' hxs fun hrepeats => ?_).mono fun k hk => hparam.trans hk
    refine ⟨(hfree' hrepeats).1, fun z hz => ?_⟩
    rw [own_modifyScope (f := f) h fun _ => rfl]
    exact (hfree' hrepeats).2 z hz

/-- A new scope is empty, and it keeps a graph textual. -/
theorem addScope_told {kind : ScopeKind} {parent : Option ScopeId} {h : ScopeGraph} {s : ScopeId}
    (hg : g.Textual p n) (hs : addScope kind parent g = .ok s h) :
    Told p (n + 1) g h ∧ s.index < h.scopes.length ∧ ∀ x, h.own s x = none := by
  cases hs
  have hgrows : g.Grows { g with scopes := g.scopes ++ [{ kind, parent }] } :=
    ⟨continues_append _ _, refl_of _ g.slots⟩
  refine ⟨⟨hgrows, ?_⟩, by simp, fun x => by simp [own, scope?]⟩
  refine hg.of_grows hgrows (actionsOf_addScope g kind parent)
    (fun k hk => .inl (List.mem_map_of_mem hk)) ?_
  rw [List.length_append, List.length_singleton, hg.count]

/-- **The scope of a new object follows the text.** -/
theorem addObjectScope_ends {s : ShapeId} {d : ShapeDecl} (hg : g.Textual p n)
    (hd : p.shape? s = some d) (parent : Option ScopeId) :
    Ends (Told p (n + 1) g) (Fault.Caused p) (addObjectScope s parent d.properties) g := by
  have hwords := (Program.says_of_shape hd).properties
  refine Ends.bind_at (J := fun _ => True) trivial fun scope h hscope _ => ?_
  obtain ⟨hh, hlt, hown⟩ := addScope_told hg hscope
  refine Ends.bind (declareEach_ends hh.text hlt hwords fun hrepeats => ⟨?_, fun x _ => hown x⟩)
    fun _ k hk => hh.trans hk
  by_contra hnodup
  exact hrepeats (.inl ⟨d, List.mem_of_getElem? hd, hnodup⟩)

/-- Filling in a body follows the text of its declaration. -/
theorem fillBodyScope_ends {s : ScopeId} {f : FunctionId} {d : FunctionDecl} (hg : g.Textual p n)
    (hs : g.Lexical s) (hd : p.function? f = some d)
    (hfree : ¬ p.Repeats → g.Free s (SlotName.reserved ++ d.params)) :
    Ends (Told p n g) (Fault.Caused p) (fillBodyScope p d s) g := by
  have htext := Program.says_of_function hd
  refine declare_bind_ends hg hs.lt (.inr (by decide)) hfree fun _ g₁ hg₁ hs₁ _ hfree₁ => ?_
  refine declare_bind_ends hg₁.text hs₁ (.inr (by decide)) hfree₁ fun _ g₂ hg₂ hs₂ _ hfree₂ => ?_
  refine declare_bind_ends hg₂.text hs₂ (.inr (by decide)) hfree₂ fun ret g₃ hg₃ hs₃ hret hfree₃ => ?_
  refine (declareParams_ends hg₃.text hs₃ htext.params hfree₃).bind fun _ g₄ hg₄ => ?_
  have hgg₄ : Told p n g g₄ := ((hg₁.trans hg₂).trans hg₃).trans hg₄
  have hs₄ : g₄.Lexical s := hs.grows hgg₄.grows
  cases hbody : d.body with
  | none =>
    have hflow : p.Says (Action.words (.declaredFlow ret d.signature.ret)) :=
      (Program.says_signature.1 htext.signature).2.2
    exact (emit_tells hs₄ hflow g₄ hg₄.text.told).mono fun h hh => hgg₄.trans hh
  | some body =>
    have hbodyText : p.Says (Stmt.wordsAll body) := htext.body body hbody
    have hreturn : Extraction.Returnable p g₄ s (Stmt.someReturns body) := fun _ =>
      .inl ⟨ret, hg₄.grows.own hret⟩
    have hcollect : Tells p n g₄ (Extraction.collect p { global := .global, scope := s } body) :=
      (Extraction.hoist_tells p body hbodyText).bind fun _ =>
        Extraction.visit_tells rfl hs₄ body hbodyText hreturn
    exact (hcollect g₄ hg₄.text.told).mono fun h hh => hgg₄.trans hh

/-- **The body scope of a new function follows the text**, if it is created in a lexical scope. -/
theorem addBodyScope_ends {f : FunctionId} {d : FunctionDecl} {parent : ScopeId} (hg : g.Textual p n)
    (hd : p.function? f = some d) (hp : g.Lexical parent) :
    Ends (Told p (n + 1) g) (Fault.Caused p) (addBodyScope p f d parent) g := by
  refine Ends.bind_at (J := fun _ => True) trivial fun scope h hscope _ => ?_
  obtain ⟨hh, hlt, hown⟩ := addScope_told hg hscope
  have hs : h.Lexical scope := by
    have hparent : h.parent? scope = some parent := by
      cases hscope
      simp [parent?, scope?]
    refine .inner hparent ?_ (hp.grows hh.grows)
    cases hscope
    exact hp.lt
  refine Ends.bind (fillBodyScope_ends hh.text hs hd fun hrepeats => ⟨?_, fun x _ => hown x⟩)
    fun _ k hk => hh.trans hk
  by_contra hnodup
  exact hrepeats (.inr ⟨d, List.mem_of_getElem? hd, hnodup⟩)

end GraphM

end TypeFlow
