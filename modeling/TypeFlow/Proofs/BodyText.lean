import TypeFlow.Proofs.LexicalWalk
import TypeFlow.Proofs.Resolution

/-!
# The text of a body in its scope

Extracting a body hoists its names and then records its actions. Hoisting declares the
names that the lexical walk counts as bound. The actions mention no functions but those of
the text, and recording them touches another scope only for an assigned name that stands
for nothing.

* `Extraction.hoist_binds`: hoisting and walking agree on the names that a body binds.
* `Extraction.visit_visits`: what recording the actions of a text can do.
* `GraphM.addBodyScope_extracts`: a body whose assigned names are bound or known around it gets a
  scope of its own, and no other scope changes.
-/

namespace TypeFlow

open ImplicitGlobals (boundNames boundByStmt)

variable {p : Program} {s : ScopeId}

/-- The functions and the assigned names of the text that an action evaluates. -/
def Action.mentions : Action → List Mention
  | .assign _ value => value.mentions
  | .assignProperty receiver _ value => receiver.mentions ++ value.mentions
  | .call callee args => callee.mentions ++ Expr.mentionsAll args
  | .construct callee args => callee.mentions ++ Expr.mentionsAll args
  | .allocate literal => literal.mentions
  | .ret _ value => value.mentions
  | .declareFunction _ f => [.function f]
  | .declaredFlow _ _ => []

/-! ## Recording actions -/

namespace ScopeGraph

variable {g h k : ScopeGraph} {t : ScopeId} {new more : List Action}

/-- The graph with more actions in a scope. -/
def recording (g : ScopeGraph) (s : ScopeId) (new : List Action) : ScopeGraph :=
  g.modifyScope s fun c => { c with actions := c.actions ++ new }

theorem recording_nil : g.recording s [] = g := by
  have hid : (fun c : Scope => { c with actions := c.actions ++ [] }) = id := by
    funext c
    rw [List.append_nil]
    rfl
  unfold recording modifyScope
  rw [hid, List.modify_id]

theorem recording_recording :
    (g.recording s new).recording s more = g.recording s (new ++ more) := by
  unfold recording modifyScope
  rw [List.modify_modify_eq]
  congr
  funext c
  simp

theorem own_recording (x : String) : (g.recording s new).own t x = g.own t x :=
  own_modifyScope g (f := fun c => { c with actions := c.actions ++ new }) (fun _ => rfl) t x

theorem lookup_recording (x : String) : (g.recording s new).lookup t x = g.lookup t x := by
  refine lookup_congr (P := fun _ => True) (fun u _ => ?_) (fun _ _ _ _ => trivial)
    (fun u _ => own_recording x) trivial
  unfold parent? recording
  rw [scope?_modifyScope]
  cases g.scope? u with
  | none => rfl
  | some c =>
    rw [Option.map_some, Option.bind_some, Option.bind_some]
    split <;> rfl

theorem recording_fills : g.Fills s (g.recording s new) :=
  modifyScope_fills fun _ => ⟨rfl, rfl, List.prefix_rfl, List.prefix_rfl, List.prefix_append ..⟩

/-- **Recording the actions of a text** that mentions `ms`. If all assigned names stand for
something, nothing but actions is added. -/
structure Visits (ms : List Mention) (s : ScopeId) (g h : ScopeGraph) : Prop where
  elsewhere : ∀ t, t ≠ s → t ≠ .global → h.scope? t = g.scope? t
  resolved : (∀ x, .assigned x ∈ ms → g.lookup s x ≠ none) → ∃ new, h = g.recording s new
  actions : ∀ t, ∀ a ∈ h.actionsOf t,
    a ∈ g.actionsOf t ∨ t = s ∧ ∀ f, .function f ∈ a.mentions → .function f ∈ ms

instance {ms : List Mention} : IsPreorder ScopeGraph (Visits ms s) where
  refl g := ⟨fun _ _ _ => rfl, fun _ => ⟨[], recording_nil.symm⟩, fun _ _ => .inl⟩
  trans g h k hgh hhk := by
    refine ⟨fun t hs hroot => (hhk.elsewhere t hs hroot).trans (hgh.elsewhere t hs hroot), fun hms => ?_,
      fun t a ha => ?_⟩
    · -- the first part declares nothing, so the names still stand for something in the second
      obtain ⟨new, rfl⟩ := hgh.resolved hms
      obtain ⟨more, rfl⟩ := hhk.resolved fun x hx => by
        rw [lookup_recording]
        exact hms x hx
      exact ⟨new ++ more, recording_recording⟩
    · rcases hhk.actions t a ha with ha | hnew
      · exact hgh.actions t a ha
      · exact .inr hnew

end ScopeGraph

namespace Extraction

open ScopeGraph (Visits)
open GraphM

/- Actions are recorded in the scope `s`, and new names go into the global scope. -/
variable {ms : List Mention} {ambient : Bool}

theorem emit_visits {a : Action} (ha : a.mentions ⊆ ms) : Moves (Visits ms s) (emit s a) := by
  intro g
  have hfills : g.Fills s (g.recording s [a]) := ScopeGraph.recording_fills
  refine ⟨fun t ht _ => hfills.others t ht, fun _ => ⟨[a], rfl⟩, fun t b hb => ?_⟩
  rcases ScopeGraph.mem_actionsOf_pushAction hb with hb | ⟨rfl, rfl⟩
  · exact .inl hb
  · exact .inr ⟨rfl, fun f hf => ha hf⟩

/-- The target of an assignment is a new global name only if the name stands for nothing. -/
theorem targetSlot_visits {x : String} (hx : .assigned x ∈ ms) :
    Moves (Visits ms s) (targetSlot ⟨.global, s, ambient⟩ x) := by
  refine moves_get_bind fun g => ?_
  cases hlookup : g.lookup s x with
  | some y => exact refl_of _ g
  | none =>
    -- the name becomes global, and not all assigned names stood for something
    have hnew : g.Furnishes .global (finalState (declare .global x) g) := declare_furnishes x g
    refine ⟨fun t _ ht => hnew.others t ht, fun hms => absurd hlookup (hms x hx), fun t a ha => .inl ?_⟩
    exact hnew.actions t ▸ ha

mutual

theorem visitExpr_visits :
    ∀ e : Expr, e.mentions ⊆ ms → Moves (Visits ms s) (visitExpr ⟨.global, s, ambient⟩ e)
  | ⟨.name _, _⟩, _ => moves_pure _
  | ⟨.this, _⟩, _ => moves_pure _
  | ⟨.literal, _⟩, _ => moves_pure _
  | ⟨.function _, _⟩, _ => moves_pure _
  | ⟨.assign target value, _⟩, h => by
    have htarget := visitExpr_visits target
    unfold Expr.mentions at h
    obtain ⟨hvalue, hrest⟩ := List.append_subset.1 h
    unfold visitExpr
    refine (visitExpr_visits value hvalue).bind fun _ => ?_
    obtain ⟨form, declared⟩ := target
    cases form with
    | name x =>
      have hx : .assigned x ∈ ms := hrest (List.mem_singleton_self _)
      exact (targetSlot_visits hx).bind fun _ => emit_visits hvalue
    | prop receiver property =>
      exact (htarget hrest).bind fun _ => emit_visits (List.append_subset.2 ⟨hrest, hvalue⟩)
    | _ => exact htarget hrest
  | ⟨.call callee args, _⟩, h =>
    have ⟨hcallee, hargs⟩ := List.append_subset.1 h
    (visitExpr_visits callee hcallee).bind fun _ => (visitExprs_visits args hargs).bind fun _ => emit_visits h
  | ⟨.construct callee args, _⟩, h =>
    have ⟨hcallee, hargs⟩ := List.append_subset.1 h
    (visitExpr_visits callee hcallee).bind fun _ => (visitExprs_visits args hargs).bind fun _ => emit_visits h
  | ⟨.objectLit entries, _⟩, h => (emit_visits h).bind fun _ => visitEntries_visits _ h entries h
  | ⟨.arrayLit elements, _⟩, h => (emit_visits h).bind fun _ => visitExprs_visits elements h
  | ⟨.prop receiver _, _⟩, h => visitExpr_visits receiver h
  | ⟨.elem receiver index, _⟩, h =>
    have ⟨hreceiver, hindex⟩ := List.append_subset.1 h
    (visitExpr_visits receiver hreceiver).bind fun _ => visitExpr_visits index hindex
  | ⟨.comma operands, _⟩, h => visitExprs_visits operands h
  | ⟨.unknown operands, _⟩, h => visitExprs_visits operands h
  | ⟨.and left right, _⟩, h =>
    have ⟨hleft, hright⟩ := List.append_subset.1 h
    (visitExpr_visits left hleft).bind fun _ => visitExpr_visits right hright
  | ⟨.or left right, _⟩, h =>
    have ⟨hleft, hright⟩ := List.append_subset.1 h
    (visitExpr_visits left hleft).bind fun _ => visitExpr_visits right hright
  | ⟨.cond test yes no, _⟩, h =>
    have ⟨htest, hrest⟩ := List.append_subset.1 h
    have ⟨hyes, hno⟩ := List.append_subset.1 hrest
    (visitExpr_visits test htest).bind fun _ => (visitExpr_visits yes hyes).bind fun _ => visitExpr_visits no hno
termination_by structural e => e

theorem visitExprs_visits :
    ∀ es, Expr.mentionsAll es ⊆ ms → Moves (Visits ms s) (visitExprs ⟨.global, s, ambient⟩ es)
  | [], _ => moves_pure _
  | e :: es, h =>
    have ⟨he, hes⟩ := List.append_subset.1 h
    (visitExpr_visits e he).bind fun _ => visitExprs_visits es hes
termination_by structural es => es

theorem visitEntries_visits (literal : Expr) (hl : literal.mentions ⊆ ms) :
    ∀ es, Entry.mentionsAll es ⊆ ms → Moves (Visits ms s) (visitEntries ⟨.global, s, ambient⟩ literal es)
  | [], _ => moves_pure _
  | ⟨_, value⟩ :: rest, h =>
    have ⟨hvalue, hrest⟩ := List.append_subset.1 h
    (visitExpr_visits value hvalue).bind fun _ =>
      (emit_visits (List.append_subset.2 ⟨hl, hvalue⟩)).bind fun _ => visitEntries_visits literal hl rest hrest
termination_by structural es => es

end

mutual

theorem visitStmt_visits :
    ∀ st : Stmt, st.mentions ⊆ ms → Moves (Visits ms s) (visitStmt p ⟨.global, s, ambient⟩ st)
  | .var x value declared, h => by
    rw [visitStmt]
    refine moves_get.bind fun g => ?_
    split
    · exact moves_pure _
    · match value, declared with
      | some e, _ => exact (visitExpr_visits e h).bind fun _ => emit_visits h
      | none, some d =>
        dsimp only
        split
        · exact emit_visits (List.nil_subset _)
        · exact moves_pure _
      | none, none => exact moves_pure _
  | .function f, h => by
    rw [visitStmt]
    refine (demandFunction_moves p f).bind fun d => moves_get.bind fun g => ?_
    split
    · exact emit_visits h
    · exact moves_pure _
  | .expr e, h => visitExpr_visits e h
  | .ret value, h => by
    rw [visitStmt]
    refine moves_get.bind fun g => ?_
    split
    · exact moves_throw _
    · match value with
      | some e => exact (visitExpr_visits e h).bind fun _ => emit_visits h
      | none => exact moves_pure _
  | .branch test yes no, h =>
    have ⟨htest, hrest⟩ := List.append_subset.1 h
    have ⟨hyes, hno⟩ := List.append_subset.1 hrest
    (visitExpr_visits test htest).bind fun _ =>
      (visit_visits yes hyes).bind fun _ => visit_visits no hno
  | .loop test body, h =>
    have ⟨htest, hbody⟩ := List.append_subset.1 h
    (visitExpr_visits test htest).bind fun _ => visit_visits body hbody
  | .block body, h => visit_visits body h
termination_by structural st => st

/-- **Recording the actions of a text** declares no name but assigned ones that stand for nothing. -/
theorem visit_visits :
    ∀ sts, Stmt.mentionsAll sts ⊆ ms → Moves (Visits ms s) (visit p ⟨.global, s, ambient⟩ sts)
  | [], _ => moves_pure _
  | st :: rest, h =>
    have ⟨hst, hrest⟩ := List.append_subset.1 h
    (visitStmt_visits st hst).bind fun _ => visit_visits rest hrest
termination_by structural sts => sts

end

/-! ## Hoisting -/

/-- Declaring names in `s` declares all that `bind` adds to a list of names. -/
def Binds (s : ScopeId) (x : GraphM Unit) (bind : List String → Except Fault (List String)) : Prop :=
  ∀ g h, s.index < g.scopes.length → x g = .ok ⟨⟩ h → g.Grows h ∧
    ∀ names, ∃ all, bind names = .ok all ∧ ∀ y ∈ all, y ∈ names ∨ h.own s y ≠ none

theorem binds_pure : Binds s (pure ⟨⟩) pure := by
  intro g h _ hx
  cases hx
  exact ⟨refl_of _ g, fun names => ⟨names, rfl, fun _ => .inl⟩⟩

theorem Binds.bind {x y : GraphM Unit} {b c : List String → Except Fault (List String)} (hx : Binds s x b)
    (hy : Binds s y c) : Binds s (x >>= fun _ => y) fun names => b names >>= c := by
  intro g k hs hgk
  obtain ⟨_, h, hgh, hhk⟩ := bind_ok hgk
  obtain ⟨hgrows, hb⟩ := hx g h hs hgh
  obtain ⟨hgrows', hc⟩ := hy h k (Nat.lt_of_lt_of_le hs hgrows.scopes.length_le) hhk
  refine ⟨trans_of ScopeGraph.Grows hgrows hgrows', fun names => ?_⟩
  obtain ⟨all, hall, hown⟩ := hb names
  obtain ⟨more, hmore, hown'⟩ := hc all
  have hboth : (b names >>= c) = .ok more := by
    rw [hall]
    exact hmore
  refine ⟨more, hboth, fun y hy => ?_⟩
  rcases hown' y hy with hy | hy
  · exact (hown y hy).imp id hgrows'.own_ne_none
  · exact .inr hy

theorem declareOnce_binds (x : String) : Binds s (declareOnce s x) fun names => pure (names.insert x) := by
  intro g h hs hx
  refine ⟨((declareOnce_furnishes x).ok hx).builds.grows, fun names => ⟨_, rfl, fun y hy => ?_⟩⟩
  rcases List.mem_insert_iff.1 hy with rfl | hy
  · exact .inr (declareOnce_own hs hx)
  · exact .inl hy

mutual

theorem hoistStmt_binds : ∀ st, Binds s (hoistStmt p s st) fun names => boundByStmt p names st
  | .var x _ _ => declareOnce_binds x
  | .function f => by
    intro g h hs hx
    rw [hoistStmt] at hx
    obtain ⟨d, _, hdemand, hx⟩ := bind_ok hx
    obtain ⟨hd, rfl⟩ := demandFunction_ok hdemand
    have hbound (names : List String) : boundByStmt p names (.function f) =
        match d.name with
        | some x => pure (names.insert x)
        | none => pure names := by
      rw [boundByStmt, FunctionRegistry.demand, hd]
      rfl
    simp only [hbound]
    cases hname : d.name with
    | none =>
      rw [hname] at hx
      exact binds_pure g h hs hx
    | some x =>
      rw [hname] at hx
      exact declareOnce_binds x g h hs hx
  | .expr _ => binds_pure
  | .ret _ => binds_pure
  | .branch _ yes no => (hoist_binds yes).bind (hoist_binds no)
  | .loop _ body => hoist_binds body
  | .block body => hoist_binds body
termination_by structural st => st

/-- **Hoisting declares what the walk counts as bound.** -/
theorem hoist_binds : ∀ sts, Binds s (hoist p s sts) fun names => boundNames p names sts
  | [] => binds_pure
  | st :: rest => (hoistStmt_binds st).bind (hoist_binds rest)
termination_by structural sts => sts

end

theorem hoist_furnishes (sts : List Stmt) : Moves (ScopeGraph.Furnishes s) (hoist p s sts) :=
  hoist_moves p declare_furnishes sts

end Extraction

/-! ## The scope of a body -/

namespace GraphM

open ScopeGraph (Fills Furnishes)

theorem declareParam_furnishes (x : String) : Moves (Furnishes s) (declareParam s x) := by
  intro g
  have hbuilds : g.Builds (· = s) (· = s) (finalState (declareParam s x) g) :=
    declareParam_builds (D := (· = s)) (E := (· = s)) rfl rfl x g
  cases hx : declare s x g with
  | error e h =>
    have herror : declareParam s x g = .error e h := by
      rw [declareParam, bind_apply, hx]
    rw [finalState_error herror]
    exact (declare_furnishes x).error hx
  | ok y h =>
    let f : Scope → Scope := fun c => { c with params := c.params ++ [y] }
    have hok : declareParam s x g = .ok y (h.modifyScope s f) := by
      rw [declareParam, bind_apply, hx]
      rfl
    have hdeclare := (declare_furnishes x).ok hx
    have hmodify : h.Fills s (h.modifyScope s f) :=
      ScopeGraph.modifyScope_fills fun _ => ⟨rfl, rfl, List.prefix_rfl, List.prefix_append .., List.prefix_rfl⟩
    rw [finalState_ok hok] at hbuilds ⊢
    refine ⟨trans_of (Fills s) hdeclare.toFills hmodify, hbuilds, fun t => ?_⟩
    exact (ScopeGraph.actionsOf_modifyScope h (f := f) (fun _ => rfl) t).trans (hdeclare.actions t)

theorem declareParams_furnishes : ∀ xs, Moves (Furnishes s) (declareParams s xs)
  | [] => moves_pure _
  | x :: xs => (declareParam_furnishes x).bind fun _ => declareParams_furnishes xs

theorem declareEach_furnishes : ∀ xs, Moves (Furnishes s) (declareEach s xs)
  | [] => moves_pure _
  | x :: xs => (declare_furnishes x).bind fun _ => declareEach_furnishes xs

theorem declareParam_own {x : String} {g h : ScopeGraph} {y : SlotId} (hs : s.index < g.scopes.length)
    (hx : declareParam s x g = .ok y h) : h.own s x ≠ none := by
  obtain ⟨z, k, hz, hk⟩ := bind_ok hx
  have hown := declare_own hs hz
  cases hk
  rw [← ScopeGraph.own_modifyScope k (s := s) (f := fun c => { c with params := c.params ++ [y] })
    fun _ => rfl] at hown
  exact fun hnone => Option.some_ne_none y (hown.symm.trans hnone)

/-- Every parameter gets a slot. -/
theorem declareParams_own : ∀ {xs : List String} {g h : ScopeGraph} {u : Unit}, s.index < g.scopes.length →
    declareParams s xs g = .ok u h → ∀ x ∈ xs, h.own s x ≠ none
  | [], _, _, _, _, _, x, hx => absurd hx List.not_mem_nil
  | y :: xs, g, h, u, hs, hgh, x, hx => by
    obtain ⟨_, k, hgk, hkh⟩ := bind_ok hgh
    rcases List.mem_cons.1 hx with rfl | hx
    · exact ((declareParams_furnishes xs).ok hkh).builds.grows.own_ne_none (declareParam_own hs hgk)
    · have hlength := ((declareParam_furnishes y).ok hgk).builds.grows.scopes.length_le
      exact declareParams_own (Nat.lt_of_lt_of_le hs hlength) hkh x hx

/-- A function stands in the body of `d`, whose names the scope `s` has declared. -/
def StandsIn (p : Program) (d : FunctionDecl) (h : ScopeGraph) (s : ScopeId) (f : FunctionId) : Prop :=
  ∃ text names, d.body = some text ∧ boundNames p d.params text = .ok names ∧
    .function f ∈ Stmt.mentionsAll text ∧ ∀ x ∈ names, h.own s x ≠ none

/-- **The body of `d` is extracted into the scope `s`**, and no other scope changes. -/
structure Extracts (p : Program) (d : FunctionDecl) (s : ScopeId) (g h : ScopeGraph) : Prop where
  fills : g.Fills s h
  actions : ∀ a ∈ h.actionsOf s, a ∈ g.actionsOf s ∨ ∀ f, .function f ∈ a.mentions → StandsIn p d h s f

section Filling

variable {d : FunctionDecl} {g h : ScopeGraph}

theorem extracts_of_furnishes (hgh : g.Furnishes s h) : Extracts p d s g h :=
  ⟨hgh.toFills, fun _ ha => .inl (hgh.actions s ▸ ha)⟩

/-- A part that only declares names may come before the rest. -/
theorem extracts_bind {α β : Type} (hgh : g.Furnishes s h) {x : GraphM α} {f : α → GraphM β}
    (hx : Moves (Furnishes s) x)
    (hf : ∀ v k, x h = .ok v k → g.Furnishes s k → Extracts p d s g (finalState (f v) k)) :
    Extracts p d s g (finalState (x >>= f) h) := by
  cases hxh : x h with
  | error e k =>
    have herror : (x >>= f) h = .error e k := by rw [bind_apply, hxh]
    rw [finalState_error herror]
    exact extracts_of_furnishes (trans_of _ hgh (hx.error hxh))
  | ok v k =>
    have hok : finalState (x >>= f) h = finalState (f v) k := by
      unfold finalState
      rw [bind_apply, hxh]
    rw [hok]
    exact hf v k hxh (trans_of _ hgh (hx.ok hxh))

/-- **The scope of a body is filled in**, and no other scope changes, if the names that the body
assigns are bound by it or stand for something around it. -/
theorem fillBodyScope_extracts (hs : s.index < g.scopes.length)
    (hfound : ∀ text names, d.body = some text → boundNames p d.params text = .ok names →
      ∀ x, .assigned x ∈ Stmt.mentionsAll text → x ∈ names ∨ ∀ h, g.Furnishes s h → h.lookup s x ≠ none) :
    Extracts p d s g (finalState (fillBodyScope p d s) g) := by
  refine extracts_bind (refl_of _ g) (declare_furnishes _) fun _ g₁ _ h₁ => ?_
  refine extracts_bind h₁ (declare_furnishes _) fun _ g₂ _ h₂ => ?_
  refine extracts_bind h₂ (declare_furnishes _) fun ret g₃ _ h₃ => ?_
  refine extracts_bind h₃ (declareParams_furnishes _) fun _ g₄ hparams h₄ => ?_
  cases hbody : d.body with
  | none =>
    have hnew : g₄.Fills s (g₄.recording s [.declaredFlow ret d.signature.ret]) := ScopeGraph.recording_fills
    refine ⟨trans_of (Fills s) h₄.toFills hnew, fun a ha => ?_⟩
    rcases ScopeGraph.mem_actionsOf_pushAction ha with ha | ⟨-, rfl⟩
    · exact .inl (h₄.actions s ▸ ha)
    · exact .inr fun f hf => absurd hf List.not_mem_nil
  | some text =>
    refine extracts_bind h₄ (Extraction.hoist_furnishes text) fun _ g₅ hhoist h₅ => ?_
    have hs₃ := Nat.lt_of_lt_of_le hs h₃.builds.grows.scopes.length_le
    have hs₄ := Nat.lt_of_lt_of_le hs h₄.builds.grows.scopes.length_le
    obtain ⟨hgrows, hbinds⟩ := Extraction.hoist_binds text g₄ g₅ hs₄ hhoist
    obtain ⟨names, hnames, hown⟩ := hbinds d.params
    -- the parameters and the hoisted names are the names that the body binds
    have hdeclared (x : String) (hx : x ∈ names) : g₅.own s x ≠ none :=
      (hown x hx).elim (fun hx => hgrows.own_ne_none (declareParams_own hs₃ hparams x hx)) id
    have hvisit : g₅.Visits (Stmt.mentionsAll text) s
        (finalState (Extraction.visit p { global := .global, scope := s } text) g₅) :=
      Extraction.visit_visits text (List.Subset.refl _) g₅
    obtain ⟨new, hnew⟩ := hvisit.resolved fun x hx => by
      rcases hfound text names hbody hnames x hx with hx | hx
      · exact ScopeGraph.lookup_ne_none_of_own (hdeclared x hx)
      · exact hx g₅ h₅
    refine ⟨trans_of (Fills s) h₅.toFills (hnew ▸ ScopeGraph.recording_fills), fun a ha => ?_⟩
    rcases hvisit.actions s a ha with ha | ⟨-, hmentions⟩
    · exact .inl (h₅.actions s ▸ ha)
    · refine .inr fun f hf => ⟨text, names, hbody, hnames, hmentions f hf, fun x hx => ?_⟩
      rw [hnew, ScopeGraph.own_recording]
      exact hdeclared x hx

end Filling

end GraphM

namespace ScopeGraph

variable {g h : ScopeGraph}

/-- What a name stands for depends on the scopes that can be reached upwards. -/
theorem lookup_of_scopes {P : ScopeId → Prop} (hup : ∀ t u, P t → g.parent? t = some u → P u)
    (hsame : ∀ t, P t → h.scope? t = g.scope? t) (hs : P s) (x : String) : h.lookup s x = g.lookup s x := by
  refine lookup_congr (P := P) (fun t ht => ?_) hup (fun t ht => ?_) hs
  · unfold parent?
    rw [hsame t ht]
  · unfold own
    rw [hsame t ht]

theorem scope?_addScope_of_ne (c : Scope) {t : ScopeId} (ht : t ≠ ⟨g.scopes.length⟩) :
    scope? { g with scopes := g.scopes ++ [c] } t = g.scope? t := by
  have hne : t.index ≠ g.scopes.length := fun h => ht (congrArg ScopeId.mk h)
  unfold scope?
  rcases Nat.lt_or_gt_of_ne hne with hlt | hgt
  · exact List.getElem?_append_left hlt
  · rw [List.getElem?_eq_none (by simp; omega), List.getElem?_eq_none (by omega)]

/-- What can be found from the parent of a new scope can be found from it. -/
theorem Furnishes.lookup_ne_none (hg : g.Sound) {kind : ScopeKind} {parent : ScopeId}
    (hp : parent.index < g.scopes.length)
    (hh : Furnishes ⟨g.scopes.length⟩ { g with scopes := g.scopes ++ [{ kind, parent := some parent }] } h)
    {x : String} (hx : g.lookup parent x ≠ none) : h.lookup ⟨g.scopes.length⟩ x ≠ none := by
  let s : ScopeId := ⟨g.scopes.length⟩
  let g' : ScopeGraph := { g with scopes := g.scopes ++ [{ kind, parent := some parent }] }
  have hg' : g'.Sound := hg.addScope (by simpa using hp)
  have hsound : h.Sound := hh.builds.sound (fun t ht => by simp [ht]) hg'
  have hparent : h.parent? s = some parent := by
    obtain ⟨c, hc, hk⟩ := hh.self { kind, parent := some parent } List.getElem?_concat_length
    exact Option.bind_eq_some_iff.2 ⟨c, hc, hk.parent⟩
  -- the scopes upwards from the parent are older than the new one
  have hold : h.lookup parent x = g.lookup parent x := by
    refine lookup_of_scopes (P := (·.index < g.scopes.length)) (fun t u ht hu => ?_) (fun t ht => ?_) hp x
    · exact Nat.lt_trans (hg.parent_lt hu).1 ht
    · have hne : t ≠ s := fun hts => Nat.ne_of_lt ht (congrArg ScopeId.index hts)
      exact (hh.others t hne).trans (scope?_addScope_of_ne _ hne)
  refine hsound.lookup_ne_none_of_parent hparent ?_
  rw [hold]
  exact hx

end ScopeGraph

/-- **A new body scope.** If the names that the body assigns are bound by it or stand for something
in the scope around it, then the scope is added at the end and no other scope changes. -/
theorem GraphM.addBodyScope_extracts {g : ScopeGraph} (hg : g.Sound) {f : FunctionId} {d : FunctionDecl}
    {parent : ScopeId} (hp : parent.index < g.scopes.length)
    (hfound : ∀ text names, d.body = some text → boundNames p d.params text = .ok names →
      ∀ x, .assigned x ∈ Stmt.mentionsAll text → x ∈ names ∨ g.lookup parent x ≠ none) :
    Extracts p d ⟨g.scopes.length⟩ { g with scopes := g.scopes ++ [{ kind := .body f, parent := some parent }] }
      (finalState (addBodyScope p f d parent) g) := by
  let s : ScopeId := ⟨g.scopes.length⟩
  let g' : ScopeGraph := { g with scopes := g.scopes ++ [{ kind := .body f, parent := some parent }] }
  have hfill : Extracts p d s g' (finalState (fillBodyScope p d s) g') := by
    refine fillBodyScope_extracts (by simp [s, g']) fun text names ht hn x hx => ?_
    exact (hfound text names ht hn x hx).imp id fun hne h hh => hh.lookup_ne_none hg hp hne
  have hend : finalState (addBodyScope p f d parent) g = finalState (fillBodyScope p d s) g' :=
    finalState_bind_pure (fillBodyScope p d s) (fun _ => s) g'
  rw [hend]
  exact hfill

end TypeFlow
