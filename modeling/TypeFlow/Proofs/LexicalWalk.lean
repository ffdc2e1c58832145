import Mathlib.Data.List.Nodup
import TypeFlow.Proofs.Causes

/-!
# The lexical walk

Before anything is evaluated, a walk over a body and the functions nested in it declares
the names that are assigned but bound nowhere. The walk enters a function once, with the
names that the functions around it bind. If every function stands in one place only, these
are the names bound around it wherever its body is extracted later.

* `Expr.mentions`, `Stmt.mentions`: the functions and the assigned names of a text.
* `Nested`: a function stands in a text, inside functions that bind certain names.
* `ImplicitGlobals.declare_accounts`: after the walk, a name assigned in a nested function is bound
  in it or around it, or it is a global name.
-/

namespace TypeFlow

/-! ## Mentions -/

/-- Something in a text that matters to scopes. -/
inductive Mention where
  /-- A function stands there, as a statement or as an expression. -/
  | function (f : FunctionId)
  /-- A name is assigned to. -/
  | assigned (x : String)
deriving DecidableEq

def Mention.function? : Mention → Option FunctionId
  | function f => some f
  | assigned _ => none

mutual

/-- The functions and the assigned names of an expression, outside nested functions. -/
def Expr.mentions : Expr → List Mention
  | ⟨.name _, _⟩ => []
  | ⟨.this, _⟩ => []
  | ⟨.literal, _⟩ => []
  | ⟨.function f, _⟩ => [.function f]
  | ⟨.assign target value, _⟩ =>
    value.mentions ++ match target with
      | ⟨.name x, _⟩ => [.assigned x]
      | target => target.mentions
  | ⟨.call callee args, _⟩ => callee.mentions ++ Expr.mentionsAll args
  | ⟨.construct callee args, _⟩ => callee.mentions ++ Expr.mentionsAll args
  | ⟨.objectLit entries, _⟩ => Entry.mentionsAll entries
  | ⟨.arrayLit elements, _⟩ => Expr.mentionsAll elements
  | ⟨.prop receiver _, _⟩ => receiver.mentions
  | ⟨.elem receiver index, _⟩ => receiver.mentions ++ index.mentions
  | ⟨.comma operands, _⟩ => Expr.mentionsAll operands
  | ⟨.unknown operands, _⟩ => Expr.mentionsAll operands
  | ⟨.and left right, _⟩ => left.mentions ++ right.mentions
  | ⟨.or left right, _⟩ => left.mentions ++ right.mentions
  | ⟨.cond test yes no, _⟩ => test.mentions ++ (yes.mentions ++ no.mentions)
termination_by structural e => e

def Expr.mentionsAll : List Expr → List Mention
  | [] => []
  | e :: es => e.mentions ++ Expr.mentionsAll es
termination_by structural es => es

def Entry.mentionsAll : List Entry → List Mention
  | [] => []
  | ⟨_, value⟩ :: rest => value.mentions ++ Entry.mentionsAll rest
termination_by structural es => es

end

mutual

/-- The functions and the assigned names of a statement, outside nested functions. -/
def Stmt.mentions : Stmt → List Mention
  | .var _ (some e) _ => e.mentions
  | .var _ none _ => []
  | .function f => [.function f]
  | .expr e => e.mentions
  | .ret (some e) => e.mentions
  | .ret none => []
  | .branch test yes no => test.mentions ++ (Stmt.mentionsAll yes ++ Stmt.mentionsAll no)
  | .loop test body => test.mentions ++ Stmt.mentionsAll body
  | .block body => Stmt.mentionsAll body
termination_by structural st => st

def Stmt.mentionsAll : List Stmt → List Mention
  | [] => []
  | st :: rest => st.mentions ++ Stmt.mentionsAll rest
termination_by structural sts => sts

end

/-- The functions that stand in a text, each as often as it does. -/
def Stmt.functionsIn (sts : List Stmt) : List FunctionId := (Stmt.mentionsAll sts).filterMap Mention.function?

theorem Stmt.mem_functionsIn {sts : List Stmt} {f : FunctionId} :
    f ∈ Stmt.functionsIn sts ↔ .function f ∈ Stmt.mentionsAll sts := by
  constructor
  · intro hf
    obtain ⟨m, hm, hmf⟩ := List.mem_filterMap.1 hf
    cases m with
    | function f' =>
      cases hmf
      exact hm
    | assigned x => cases hmf
  · exact fun hf => List.mem_filterMap.2 ⟨_, hf, rfl⟩

/-- **Every function stands in one place at most**, as a statement or as an expression, in ambient
declarations, in a body or in the body of a function; and those in ambient declarations have no
body. -/
structure Program.StandsOnce (p : Program) (ambient body : List Stmt) : Prop where
  once : (Stmt.functionsIn ambient ++ Stmt.functionsIn body ++
    p.functions.flatMap fun d => Stmt.functionsIn (d.body.getD [])).Nodup
  ambient : ∀ f ∈ Stmt.functionsIn ambient, ∀ d, p.function? f = some d → d.body = none

/-! ## Nesting -/

open ImplicitGlobals (boundNames)

/-- **A function stands in a body**, itself or inside other functions, which bind the names
listed. -/
inductive Nested (p : Program) (body : List Stmt) : FunctionId → List String → Prop
  | top {f : FunctionId} (here : .function f ∈ Stmt.mentionsAll body) : Nested p body f []
  | inner {g f : FunctionId} {bound names : List String} {d : FunctionDecl} {text : List Stmt}
      (outer : Nested p body g bound) (decl : p.function? g = some d) (written : d.body = some text)
      (binds : boundNames p d.params text = .ok names) (here : .function f ∈ Stmt.mentionsAll text) :
      Nested p body f (names ++ bound)

variable {p : Program} {ambient body : List Stmt}

namespace Program.StandsOnce

variable (h : p.StandsOnce ambient body)
include h

/-- No function stands both in the body and in a function. -/
theorem not_inner {f g : FunctionId} {d : FunctionDecl} {text : List Stmt}
    (hf : .function f ∈ Stmt.mentionsAll body) (hd : p.function? g = some d) (ht : d.body = some text) :
    .function f ∉ Stmt.mentionsAll text := by
  intro hg
  obtain ⟨-, -, hdisjoint⟩ := List.nodup_append.1 h.once
  refine hdisjoint f (List.mem_append_right _ (Stmt.mem_functionsIn.2 hf)) f ?_ rfl
  refine List.mem_flatMap.2 ⟨d, List.mem_of_getElem? hd, ?_⟩
  rw [ht]
  exact Stmt.mem_functionsIn.2 hg

/-- No function stands in two functions. -/
theorem outer_eq {f g g' : FunctionId} {d d' : FunctionDecl} {text text' : List Stmt}
    (hd : p.function? g = some d) (ht : d.body = some text) (hf : .function f ∈ Stmt.mentionsAll text)
    (hd' : p.function? g' = some d') (ht' : d'.body = some text')
    (hf' : .function f ∈ Stmt.mentionsAll text') : g = g' := by
  obtain ⟨-, hinner, -⟩ := List.nodup_append.1 h.once
  have hpairs := (List.nodup_flatMap.1 hinner).2
  obtain ⟨hlt, hget⟩ := List.getElem?_eq_some_iff.1 hd
  obtain ⟨hlt', hget'⟩ := List.getElem?_eq_some_iff.1 hd'
  have hmem : f ∈ Stmt.functionsIn (d.body.getD []) := by
    rw [ht]
    exact Stmt.mem_functionsIn.2 hf
  have hmem' : f ∈ Stmt.functionsIn (d'.body.getD []) := by
    rw [ht']
    exact Stmt.mem_functionsIn.2 hf'
  -- two different functions have nothing in common
  obtain ⟨i⟩ := g
  obtain ⟨j⟩ := g'
  rcases Nat.lt_trichotomy i j with hij | rfl | hij
  · have hdisjoint := List.pairwise_iff_getElem.1 hpairs i j hlt hlt' hij
    rw [hget, hget'] at hdisjoint
    exact absurd hmem' (hdisjoint hmem)
  · rfl
  · have hdisjoint := List.pairwise_iff_getElem.1 hpairs j i hlt' hlt hij
    rw [hget, hget'] at hdisjoint
    exact absurd hmem (hdisjoint hmem')

/-- **What is bound around a function is determined.** -/
theorem nested_unique {f : FunctionId} {bound bound' : List String} (hf : Nested p body f bound)
    (hf' : Nested p body f bound') : bound = bound' := by
  induction hf generalizing bound' with
  | top here =>
    cases hf' with
    | top => rfl
    | inner outer decl written binds here' => exact absurd here' (h.not_inner here decl written)
  | @inner g f bound names d text outer decl htext binds here ih =>
    cases hf' with
    | top here' => exact absurd here (h.not_inner here' decl htext)
    | @inner g' _ bound₁ names₁ d₁ text₁ outer₁ decl₁ htext₁ binds₁ here₁ =>
      obtain rfl := h.outer_eq decl htext here decl₁ htext₁ here₁
      obtain rfl := Option.some.inj (decl.symm.trans decl₁)
      obtain rfl := Option.some.inj (htext.symm.trans htext₁)
      obtain rfl := Except.ok.inj (binds.symm.trans binds₁)
      rw [ih outer₁]

end Program.StandsOnce

/-! ## Filling in a scope -/

namespace ScopeGraph

/-- **Only the scope `s` is filled in**: it may get more of everything, and all other scopes stay as
they are. -/
structure Fills (s : ScopeId) (g h : ScopeGraph) : Prop where
  others : ∀ t, t ≠ s → h.scope? t = g.scope? t
  self : ∀ c, g.scope? s = some c → ∃ d, h.scope? s = some d ∧ c.Grows d

/-- Only slots and parameters are added, all of them to the scope `s`. -/
structure Furnishes (s : ScopeId) (g h : ScopeGraph) : Prop extends Fills s g h where
  builds : g.Builds (· = s) (· = s) h
  actions : ∀ t, h.actionsOf t = g.actionsOf t

variable {s : ScopeId} {g h : ScopeGraph}

instance : IsPreorder ScopeGraph (Fills s) where
  refl _ := ⟨fun _ _ => rfl, fun c hc => ⟨c, hc, refl_of _ c⟩⟩
  trans _ _ _ h k := by
    refine ⟨fun t ht => (k.others t ht).trans (h.others t ht), fun c hc => ?_⟩
    obtain ⟨d, hd, hcd⟩ := h.self c hc
    obtain ⟨e, he, hde⟩ := k.self d hd
    exact ⟨e, he, trans_of Scope.Grows hcd hde⟩

instance : IsPreorder ScopeGraph (Furnishes s) where
  refl g := ⟨refl_of (Fills s) g, refl_of _ g, fun _ => rfl⟩
  trans _ _ _ h k := ⟨trans_of (Fills s) h.toFills k.toFills, trans_of _ h.builds k.builds,
    fun t => (k.actions t).trans (h.actions t)⟩

theorem Grows.own_ne_none (hgh : g.Grows h) {x : String} (hx : g.own s x ≠ none) : h.own s x ≠ none := by
  obtain ⟨y, hy⟩ := Option.ne_none_iff_exists'.1 hx
  rw [hgh.own hy]
  exact Option.some_ne_none y

theorem modifyScope_fills {f : Scope → Scope} (hf : ∀ c : Scope, c.Grows (f c)) :
    g.Fills s (g.modifyScope s f) := by
  refine ⟨fun t ht => ?_, fun c hc => ?_⟩
  · rw [scope?_modifyScope]
    cases g.scope? t with
    | none => rfl
    | some c => rw [Option.map_some, if_neg (Ne.symm ht)]
  · rw [scope?_modifyScope, hc, Option.map_some, if_pos rfl]
    exact ⟨_, rfl, hf c⟩

end ScopeGraph

namespace GraphM

open ScopeGraph (Furnishes)

variable {s : ScopeId}

theorem declare_furnishes (x : String) : Moves (Furnishes s) (declare s x) := by
  intro g
  have hbuilds : g.Builds (· = s) (· = s) (finalState (declare s x) g) :=
    declare_builds (D := (· = s)) rfl x g
  unfold finalState at hbuilds ⊢
  rw [declare_apply] at hbuilds ⊢
  cases hx : g.own s x with
  | some y => exact refl_of _ g
  | none =>
    rw [hx] at hbuilds
    have hfills : g.Fills s (g.modifyScope s fun c => { c with slots := c.slots ++ [(x, ⟨g.slots.length⟩)] }) :=
      ScopeGraph.modifyScope_fills fun _ => ⟨rfl, rfl, List.prefix_append .., List.prefix_rfl, List.prefix_rfl⟩
    exact ⟨⟨hfills.others, hfills.self⟩, hbuilds, ScopeGraph.actionsOf_modifyScope g fun _ => rfl⟩

theorem declareOnce_furnishes (x : String) : Moves (Furnishes s) (declareOnce s x) :=
  declareOnce_moves (declare_furnishes x)

end GraphM

/-! ## Walking -/

/-- A name is declared, by now or before. -/
theorem GraphM.declareOnce_own {s : ScopeId} {x : String} {g h : ScopeGraph} {u : Unit}
    (hs : s.index < g.scopes.length) (hx : declareOnce s x g = .ok u h) : h.own s x ≠ none := by
  rw [declareOnce, get_bind_apply] at hx
  cases hown : g.own s x with
  | some y =>
    rw [hown] at hx
    cases hx
    rw [hown]
    exact Option.some_ne_none y
  | none =>
    rw [hown] at hx
    change (discard (declare s x) : GraphM Unit) g = _ at hx
    obtain ⟨y, k, hy, hk⟩ := bind_ok hx
    cases hk
    rw [declare_own hs hy]
    exact Option.some_ne_none y

theorem demandFunction_ok {σ : Type} {f : FunctionId} {d : FunctionDecl} {s t : σ}
    (h : (p.demandFunction f : EStateM Fault σ FunctionDecl) s = .ok d t) : p.function? f = some d ∧ s = t := by
  unfold Program.demandFunction FunctionRegistry.demand at h
  cases hd : p.function? f with
  | none => rw [hd] at h; cases h
  | some d' =>
    rw [hd] at h
    cases h
    exact ⟨rfl, rfl⟩

namespace ImplicitGlobals

/-- What a text mentions is taken care of: assigned names are bound or global, and functions are
entered. -/
structure Covered (w : Walk) (bound : List String) (ms : List Mention) : Prop where
  names : ∀ x, .assigned x ∈ ms → x ∈ bound ∨ w.graph.own .global x ≠ none
  functions : ∀ f, .function f ∈ ms → f ∈ w.entered

/-- What stands in the body of a function is taken care of, if `bound` is bound around it. -/
def CoveredIn (p : Program) (w : Walk) (f : FunctionId) (bound : List String) : Prop :=
  ∀ d text names, p.function? f = some d → d.body = some text → boundNames p d.params text = .ok names →
    Covered w (names ++ bound) (Stmt.mentionsAll text)

/-- The functions entered are different and declared, so there is room for those that may still be
entered, at most `n` deep. -/
structure Walk.Sane (p : Program) (n : Nat) (w : Walk) : Prop where
  there : 0 < w.graph.scopes.length
  distinct : w.entered.Nodup
  declared : ∀ f ∈ w.entered, f.index < p.functions.length
  room : p.functions.length < n + w.entered.length

/-- The walk went on from `v` to `w`, and took care of every function that it entered. -/
structure Walk.Onward (p : Program) (body : List Stmt) (v w : Walk) : Prop where
  graph : v.graph.Furnishes .global w.graph
  entered : v.entered <:+ w.entered
  covered : ∀ f ∈ w.entered, f ∈ v.entered ∨ ∃ bound, Nested p body f bound ∧ CoveredIn p w f bound

/-- **A part of the walk completes a text**: where it ends without a fault, what the text mentions is
taken care of. -/
def Completes (p : Program) (body : List Stmt) (n : Nat) (bound : List String) (ms : List Mention)
    (x : WalkM Unit) : Prop :=
  ∀ v w, v.Sane p n → x v = .ok ⟨⟩ w → w.Sane p n ∧ v.Onward p body w ∧ Covered w bound ms

variable {n : Nat} {bound : List String} {u v w : Walk} {ms ns : List Mention} {x y : WalkM Unit}

theorem Covered.onward (h : Covered v bound ms) (hvw : v.Onward p body w) : Covered w bound ms := by
  refine ⟨fun x hx => ?_, fun f hf => hvw.entered.subset (h.functions f hf)⟩
  exact (h.names x hx).imp id hvw.graph.builds.grows.own_ne_none

theorem Walk.onward_refl (p : Program) (body : List Stmt) (v : Walk) : v.Onward p body v :=
  ⟨refl_of _ v.graph, List.suffix_rfl, fun _ => .inl⟩

theorem Walk.Onward.trans (h : u.Onward p body v) (k : v.Onward p body w) : u.Onward p body w := by
  refine ⟨trans_of (ScopeGraph.Furnishes _) h.graph k.graph, h.entered.trans k.entered, fun f hf => ?_⟩
  rcases k.covered f hf with hv | hnew
  · rcases h.covered f hv with hu | ⟨bound, hnested, hcovered⟩
    · exact .inl hu
    · exact .inr ⟨bound, hnested, fun d text names hd ht hn => (hcovered d text names hd ht hn).onward k⟩
  · exact .inr hnew

theorem completes_pure : Completes p body n bound [] (pure ⟨⟩) := by
  intro v w hv hx
  cases hx
  exact ⟨hv, Walk.onward_refl p body v, ⟨fun x h => absurd h List.not_mem_nil, fun f h =>
    absurd h List.not_mem_nil⟩⟩

theorem Completes.bind (hx : Completes p body n bound ms x) (hy : Completes p body n bound ns y) :
    Completes p body n bound (ms ++ ns) (x >>= fun _ => y) := by
  intro u w hu h
  obtain ⟨_, v, huv, hvw⟩ := bind_ok h
  obtain ⟨hv, honward, hms⟩ := hx u v hu huv
  obtain ⟨hw, honward', hns⟩ := hy v w hv hvw
  have hms := hms.onward honward'
  refine ⟨hw, honward.trans honward', fun z hz => ?_, fun f hf => ?_⟩
  · exact (List.mem_append.1 hz).elim (hms.names z) (hns.names z)
  · exact (List.mem_append.1 hf).elim (hms.functions f) (hns.functions f)

/-- After an assignment, the name is bound or global. -/
theorem assigned_completes (name : String) :
    Completes p body n bound [.assigned name] (assigned .global bound name) := by
  intro v w hv h
  unfold assigned at h
  by_cases hbound : name ∈ bound
  · rw [if_pos hbound] at h
    cases h
    refine ⟨hv, Walk.onward_refl p body v, fun x hx => ?_, fun f hf => ?_⟩
    · cases List.mem_singleton.1 hx
      exact .inl hbound
    · cases List.mem_singleton.1 hf
  · rw [if_neg hbound] at h
    cases hd : GraphM.declareOnce .global name v.graph with
    | error e g => rw [hd] at h; cases h
    | ok _ g =>
      rw [hd] at h
      cases h
      have hgraph := (GraphM.declareOnce_furnishes name).ok hd
      have hlength := hgraph.builds.grows.scopes.length_le
      refine ⟨⟨Nat.lt_of_lt_of_le hv.there hlength, hv.distinct, hv.declared, hv.room⟩,
        ⟨hgraph, List.suffix_rfl, fun _ => .inl⟩, fun x hx => ?_, fun f hf => ?_⟩
      · cases List.mem_singleton.1 hx
        exact .inr (GraphM.declareOnce_own hv.there hd)
      · cases List.mem_singleton.1 hf

section Text

variable {enter : FunctionId → WalkM Unit}

/-- Every function that a text mentions can be entered. -/
def Enters (p : Program) (body : List Stmt) (n : Nat) (bound : List String) (enter : FunctionId → WalkM Unit)
    (ms : List Mention) : Prop :=
  ∀ f, .function f ∈ ms → Completes p body n bound [.function f] (enter f)

theorem Enters.left (h : Enters p body n bound enter (ms ++ ns)) : Enters p body n bound enter ms :=
  fun f hf => h f (List.mem_append_left _ hf)

theorem Enters.right (h : Enters p body n bound enter (ms ++ ns)) : Enters p body n bound enter ns :=
  fun f hf => h f (List.mem_append_right _ hf)

mutual

theorem walkExpr_completes : ∀ e, Enters p body n bound enter e.mentions →
    Completes p body n bound e.mentions (walkExpr enter .global bound e)
  | ⟨.name _, _⟩, _ => completes_pure
  | ⟨.this, _⟩, _ => completes_pure
  | ⟨.literal, _⟩, _ => completes_pure
  | ⟨.function f, _⟩, h => h f (List.mem_singleton_self _)
  | ⟨.assign target value, _⟩, h => by
    have htarget := walkExpr_completes target
    unfold Expr.mentions at h ⊢
    unfold walkExpr
    refine (walkExpr_completes value h.left).bind ?_
    have hright := h.right
    obtain ⟨form, declared⟩ := target
    cases form with
    | name x => exact assigned_completes x
    | _ => exact htarget hright
  | ⟨.call callee args, _⟩, h => (walkExpr_completes callee h.left).bind (walkExprs_completes args h.right)
  | ⟨.construct callee args, _⟩, h =>
    (walkExpr_completes callee h.left).bind (walkExprs_completes args h.right)
  | ⟨.objectLit entries, _⟩, h => walkEntries_completes entries h
  | ⟨.arrayLit elements, _⟩, h => walkExprs_completes elements h
  | ⟨.prop receiver _, _⟩, h => walkExpr_completes receiver h
  | ⟨.elem receiver index, _⟩, h => (walkExpr_completes receiver h.left).bind (walkExpr_completes index h.right)
  | ⟨.comma operands, _⟩, h => walkExprs_completes operands h
  | ⟨.unknown operands, _⟩, h => walkExprs_completes operands h
  | ⟨.and left right, _⟩, h => (walkExpr_completes left h.left).bind (walkExpr_completes right h.right)
  | ⟨.or left right, _⟩, h => (walkExpr_completes left h.left).bind (walkExpr_completes right h.right)
  | ⟨.cond test yes no, _⟩, h => (walkExpr_completes test h.left).bind
    ((walkExpr_completes yes h.right.left).bind (walkExpr_completes no h.right.right))
termination_by structural e => e

theorem walkExprs_completes : ∀ es, Enters p body n bound enter (Expr.mentionsAll es) →
    Completes p body n bound (Expr.mentionsAll es) (walkExprs enter .global bound es)
  | [], _ => completes_pure
  | e :: es, h => (walkExpr_completes e h.left).bind (walkExprs_completes es h.right)
termination_by structural es => es

theorem walkEntries_completes : ∀ es, Enters p body n bound enter (Entry.mentionsAll es) →
    Completes p body n bound (Entry.mentionsAll es) (walkEntries enter .global bound es)
  | [], _ => completes_pure
  | ⟨_, value⟩ :: rest, h => (walkExpr_completes value h.left).bind (walkEntries_completes rest h.right)
termination_by structural es => es

end

mutual

theorem walkStmt_completes : ∀ st, Enters p body n bound enter st.mentions →
    Completes p body n bound st.mentions (walkStmt enter .global bound st)
  | .var _ (some e) _, h => walkExpr_completes e h
  | .var _ none _, _ => completes_pure
  | .function f, h => h f (List.mem_singleton_self _)
  | .expr e, h => walkExpr_completes e h
  | .ret (some e), h => walkExpr_completes e h
  | .ret none, _ => completes_pure
  | .branch test yes no, h => (walkExpr_completes test h.left).bind
    ((walkStmts_completes yes h.right.left).bind (walkStmts_completes no h.right.right))
  | .loop test text, h => (walkExpr_completes test h.left).bind (walkStmts_completes text h.right)
  | .block text, h => walkStmts_completes text h
termination_by structural st => st

theorem walkStmts_completes : ∀ sts, Enters p body n bound enter (Stmt.mentionsAll sts) →
    Completes p body n bound (Stmt.mentionsAll sts) (walkStmts enter .global bound sts)
  | [], _ => completes_pure
  | st :: rest, h => (walkStmt_completes st h.left).bind (walkStmts_completes rest h.right)
termination_by structural sts => sts

end

end Text

/-! ## Entering functions -/

theorem functionIndex_injective : Function.Injective FunctionId.index :=
  fun ⟨_⟩ ⟨_⟩ h => congrArg FunctionId.mk h

/-- There is always room for one more function. -/
theorem Walk.Sane.pos (hv : v.Sane p n) : 0 < n := by
  have hle := AnalysisM.length_le_of_nodup functionIndex_injective hv.distinct hv.declared
  have hroom := hv.room
  omega

/-- A function whose body was walked through after it was entered is taken care of. -/
theorem Walk.Onward.enter {f : FunctionId} (h : Walk.Onward p body { v with entered := f :: v.entered } w)
    (hw : w.Sane p n) (hf : Nested p body f bound) (hcovered : CoveredIn p w f bound) :
    w.Sane p (n + 1) ∧ v.Onward p body w ∧ Covered w bound [.function f] := by
  have hfirst : v.entered <:+ f :: v.entered := List.suffix_cons ..
  refine ⟨⟨hw.there, hw.distinct, hw.declared, Nat.lt_of_lt_of_le hw.room (by omega)⟩,
    ⟨h.graph, hfirst.trans h.entered, fun g hg => ?_⟩, fun x hx => ?_, fun g hg => ?_⟩
  · rcases h.covered g hg with hg | hnew
    · rcases List.mem_cons.1 hg with rfl | hg
      · exact .inr ⟨bound, hf, hcovered⟩
      · exact .inl hg
    · exact .inr hnew
  · cases List.mem_singleton.1 hx
  · cases List.mem_singleton.1 hg
    exact h.entered.subset (List.mem_cons_self ..)

/-- **Entering a function takes care of its body**, and of the functions in it. -/
theorem enterFunction_completes : ∀ (n : Nat) (bound : List String) (f : FunctionId),
    Nested p body f bound → Completes p body n bound [.function f] (enterFunction p .global n bound f) := by
  intro n
  induction n with
  | zero => exact fun bound f _ v w hv _ => absurd hv.pos (Nat.lt_irrefl 0)
  | succ n ih =>
    intro bound f hf v w hv h
    change (if f ∈ v.entered then pure ⟨⟩ else _ : WalkM Unit) v = _ at h
    by_cases hentered : f ∈ v.entered
    · rw [if_pos hentered] at h
      cases h
      refine ⟨hv, Walk.onward_refl p body v, fun x hx => ?_, fun g hg => ?_⟩
      · cases List.mem_singleton.1 hx
      · cases List.mem_singleton.1 hg
        exact hentered
    · rw [if_neg hentered] at h
      obtain ⟨_, _, hset, h⟩ := bind_ok h
      cases hset
      obtain ⟨d, _, hdemand, h⟩ := bind_ok h
      obtain ⟨hd, rfl⟩ := demandFunction_ok hdemand
      -- with the function entered there is room for the others, one less deep
      have hsane : Walk.Sane p n { v with entered := f :: v.entered } := by
        refine ⟨hv.there, List.nodup_cons.2 ⟨hentered, hv.distinct⟩,
          List.forall_mem_cons.2 ⟨(List.getElem?_eq_some_iff.1 hd).1, hv.declared⟩, ?_⟩
        have hroom := hv.room
        simp only [List.length_cons]
        omega
      cases htext : d.body with
      | none =>
        rw [htext] at h
        cases h
        refine (Walk.onward_refl p body _).enter hsane hf fun d' text names hd' ht _ => ?_
        obtain rfl := Option.some.inj (hd.symm.trans hd')
        rw [htext] at ht
        cases ht
      | some text =>
        rw [htext] at h
        dsimp only at h
        cases hnames : boundNames p d.params text with
        | error e => rw [hnames] at h; cases h
        | ok names =>
          rw [hnames] at h
          have hwalk := walkStmts_completes text fun g hg =>
            ih (names ++ bound) g (.inner hf hd htext hnames hg)
          obtain ⟨hw, honward, hcovered⟩ := hwalk _ w hsane h
          refine honward.enter hw hf fun d' text' names' hd' ht hn => ?_
          obtain rfl := Option.some.inj (hd.symm.trans hd')
          obtain rfl := Option.some.inj (htext.symm.trans ht)
          obtain rfl := Except.ok.inj (hnames.symm.trans hn)
          exact hcovered

/-! ## The whole walk -/

/-- A name that is assigned in a function is bound by it or around it, or it is a global name,
whichever functions of the body it stands in. -/
def Accounted (p : Program) (body : List Stmt) (g : ScopeGraph) : Prop :=
  ∀ f bound d text names, Nested p body f bound → p.function? f = some d → d.body = some text →
    boundNames p d.params text = .ok names →
    ∀ x, .assigned x ∈ Stmt.mentionsAll text → x ∈ names ++ bound ∨ g.own .global x ≠ none

/-- **After the walk, every assigned name is accounted for**, and nothing but global names was
added. -/
theorem declare_accounts (hp : p.StandsOnce ambient body) {g h : ScopeGraph} {u : Unit}
    (hg : 0 < g.scopes.length) (hx : declare p .global body g = .ok u h) :
    g.Furnishes .global h ∧ Accounted p body h := by
  unfold declare at hx
  cases hw : walkStmts (enterFunction p .global (p.functions.length + 1) []) .global [] body ⟨g, []⟩ with
  | error e w => rw [hw] at hx; cases hx
  | ok _ w =>
    rw [hw] at hx
    cases hx
    have hwalk := walkStmts_completes (p := p) body fun f hf =>
      enterFunction_completes (p.functions.length + 1) [] f (.top hf)
    have hsane : Walk.Sane p (p.functions.length + 1) ⟨g, []⟩ :=
      ⟨hg, .nil, fun _ h => absurd h List.not_mem_nil, Nat.lt_succ_self _⟩
    obtain ⟨-, honward, hcovered⟩ := hwalk _ w hsane hw
    have hnew (f : FunctionId) (hf : f ∈ w.entered) : ∃ bound, Nested p body f bound ∧ CoveredIn p w f bound :=
      (honward.covered f hf).resolve_left List.not_mem_nil
    -- whatever stands in the body has been entered
    have hentered {f : FunctionId} {bound : List String} (hf : Nested p body f bound) : f ∈ w.entered := by
      induction hf with
      | top here => exact hcovered.functions _ here
      | inner outer decl written binds here ih =>
        obtain ⟨bound', -, hcovered⟩ := hnew _ ih
        exact (hcovered _ _ _ decl written binds).functions _ here
    refine ⟨honward.graph, fun f bound d text names hf hd ht hn => ?_⟩
    obtain ⟨bound', hf', hcovered⟩ := hnew f (hentered hf)
    rw [hp.nested_unique hf hf']
    exact (hcovered d text names hd ht hn).names

end ImplicitGlobals

end TypeFlow
