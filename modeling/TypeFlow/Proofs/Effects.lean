import TypeFlow.Analysis.Process
import TypeFlow.Proofs.Calm

/-!
# The effect of every computation

Creation, narrowing, widening, inference, binding and the evaluation of actions all
proceed by steps, return entities that exist, and do the same on a state that remembers
nothing (`Proceeds`). A fault may leave scopes behind that belong to no entity. Where the steps
were calm, the computation gives the same result again and changes nothing (`Repeats`).

* `createObject_evaluates`, `createFunction_evaluates`: creation ends with the canonical entity.
* `narrow_evaluates`: what is remembered is what would be computed.
* `infer_evaluates`: inference.
-/

namespace TypeFlow

open Relation

/-- The same program without memory. -/
def Setup.plain (env : Setup) : Setup := { env with config := { env.config with memoize := false } }

variable {p : Program} {w : Bool} {α β : Type} {a : Analysis}

/-- **`x` proceeds by steps** from `a` to a result with `post`, and `y` does the same from the state
that remembers nothing. On a fault, what the steps led to may have scopes left over. -/
def Proceeds (p : Program) (w : Bool) (x y : AnalysisM α) (post : Analysis → α → Prop) (a : Analysis) : Prop :=
  match x a with
  | .ok v b => Steps p w a b ∧ post b v ∧ y a.forget = .ok v b.forget
  | .error e b => (∃ c, Steps p w a c ∧ c.Leaves b) ∧ y a.forget = .error e b.forget

/-- **`y` repeats `x`** if it changes nothing after `x` was calm, and its result then is the `same`. -/
def Repeats (p : Program) (same : Analysis → α → α → Prop) (x y : AnalysisM α) (a : Analysis) : Prop :=
  ∀ v b, x a = .ok v b → a.Calm p b → ∀ c, b.Calm p c →
    ∃ w, y c.forget = .ok w c.forget ∧ same c v w

/-- `x` proceeds, and `y` repeats it up to `same`. -/
structure EvaluatesUpTo (p : Program) (w : Bool) (same : Analysis → α → α → Prop) (x y : AnalysisM α)
    (post : Analysis → α → Prop) (a : Analysis) : Prop where
  proceeds : Proceeds p w x y post a
  repeats : Repeats p same x y a

/-- `x` proceeds, and `y` repeats it. -/
abbrev Evaluates (p : Program) (w : Bool) (x y : AnalysisM α) (post : Analysis → α → Prop)
    (a : Analysis) : Prop :=
  EvaluatesUpTo p w (fun _ v w => w = v) x y post a

theorem Analysis.Calm.forget {b : Analysis} (h : a.Calm p b) : a.Calm p b.forget :=
  ⟨h.functions, h.allocated, h.discovered, h.objects, h.scopes, h.types, h.counted⟩

namespace Proceeds

variable {x y : AnalysisM α} {f g : α → AnalysisM β} {mid post' : Analysis → α → Prop}
  {post : Analysis → β → Prop}

theorem of_ok (h : Proceeds p w x y mid a) {v : α} {b : Analysis} (hx : x a = .ok v b) :
    Steps p w a b ∧ mid b v ∧ y a.forget = .ok v b.forget := by
  unfold Proceeds at h
  rwa [hx] at h

theorem of_error (h : Proceeds p w x y mid a) {e : Fault} {b : Analysis} (hx : x a = .error e b) :
    (∃ c, Steps p w a c ∧ c.Leaves b) ∧ y a.forget = .error e b.forget := by
  unfold Proceeds at h
  rwa [hx] at h

/-- What succeeds without memory succeeds. -/
theorem returns (h : Proceeds p w x y mid a) {v : α} {c : Analysis} (hy : y a.forget = .ok v c) :
    ∃ b, x a = .ok v b ∧ b.forget = c := by
  cases hx : x a with
  | ok v' b =>
    obtain ⟨-, -, hok⟩ := h.of_ok hx
    rw [hy] at hok
    cases hok
    exact ⟨b, rfl, rfl⟩
  | error e b =>
    obtain ⟨-, herror⟩ := h.of_error hx
    rw [hy] at herror
    cases herror

theorem weaken (h : Proceeds p w x y mid a) (hp : ∀ b v, Steps p w a b → mid b v → post' b v) :
    Proceeds p w x y post' a := by
  unfold Proceeds at h ⊢
  cases hx : x a with
  | ok v b => rw [hx] at h; exact ⟨h.1, hp b v h.1 h.2.1, h.2.2⟩
  | error e b => rw [hx] at h; exact h

theorem bind (hv : a.Valid p) (hx : Proceeds p w x y mid a)
    (hf : ∀ v b, Steps p w a b → b.Valid p → mid b v → Proceeds p w (f v) (g v) post b) :
    Proceeds p w (x >>= f) (y >>= g) post a := by
  unfold Proceeds
  rw [bind_apply, bind_apply]
  cases hxa : x a with
  | error e b =>
    obtain ⟨h1, h2⟩ := hx.of_error hxa
    rw [h2]
    exact ⟨h1, rfl⟩
  | ok v b =>
    obtain ⟨h1, h2, h3⟩ := hx.of_ok hxa
    have hb := hf v b h1 (h1.valid hv) h2
    rw [h3]
    dsimp only
    cases hfb : f v b with
    | ok w c =>
      obtain ⟨k1, k2, k3⟩ := hb.of_ok hfb
      exact ⟨h1.trans k1, k2, k3⟩
    | error e c =>
      obtain ⟨⟨d, k1, k2⟩, k3⟩ := hb.of_error hfb
      exact ⟨⟨d, h1.trans k1, k2⟩, k3⟩

end Proceeds

section Combinators

variable {x y : AnalysisM α} {f g : α → AnalysisM β} {mid : Analysis → α → Prop}
  {post post' : Analysis → β → Prop} {same : Analysis → β → β → Prop}

theorem proceeds_pure {v : β} (h : post a v) : Proceeds p w (pure v) (pure v) post a :=
  ⟨.refl, h, rfl⟩

theorem proceeds_throw (e : Fault) : Proceeds p w (throw e) (throw e) post a :=
  ⟨⟨a, .refl, a.graph, refl_of _ a.graph, rfl⟩, rfl⟩

/-- Reading the state is harmless where what is remembered makes no difference. -/
theorem proceeds_get {f g : Analysis → AnalysisM β} (hg : g a.forget = g a)
    (h : Proceeds p w (f a) (g a) post a) : Proceeds p w (get >>= f) (get >>= g) post a := by
  unfold Proceeds at h ⊢
  change match f a a with
    | .ok v b => Steps p w a b ∧ post b v ∧ g a.forget a.forget = .ok v b.forget
    | .error e b => (∃ c, Steps p w a c ∧ c.Leaves b) ∧ g a.forget a.forget = .error e b.forget
  rw [hg]
  exact h

theorem evaluates_pure {v : β} (h : post a v) : Evaluates p w (pure v) (pure v) post a := by
  refine ⟨proceeds_pure h, fun w b hb _ c _ => ?_⟩
  cases hb
  exact ⟨v, rfl, rfl⟩

theorem evaluates_throw (e : Fault) : EvaluatesUpTo p w same (throw e) (throw e) post a := by
  refine ⟨proceeds_throw e, fun w b hb => ?_⟩
  cases hb

/-- Reading the state is harmless where new objects make no difference. -/
theorem evaluates_get {f g : Analysis → AnalysisM β} (hg : ∀ c, a.Calm p c → g c = g a)
    (h : EvaluatesUpTo p w same (f a) (g a) post a) :
    EvaluatesUpTo p w same (get >>= f) (get >>= g) post a := by
  refine ⟨proceeds_get (hg _ (Analysis.Calm.refl a).forget) h.proceeds, fun v b hb hab c hbc => ?_⟩
  obtain ⟨w, hw, hs⟩ := h.repeats v b hb hab c hbc
  refine ⟨w, ?_, hs⟩
  change g c.forget c.forget = _
  rw [hg _ (hab.trans hbc).forget, hw]

/-- What comes after `x` may rely on `y` repeating `x`. -/
theorem EvaluatesUpTo.bind_with (hv : a.Valid p) (hx : Evaluates p w x y mid a)
    (hf : ∀ v b, Steps p w a b → b.Valid p → mid b v →
      EvaluatesUpTo p w (fun c w w' => y c.forget = .ok v c.forget → same c w w') (f v) (g v) post b) :
    EvaluatesUpTo p w same (x >>= f) (y >>= g) post a := by
  refine ⟨hx.proceeds.bind hv fun v b h1 h2 h3 => (hf v b h1 h2 h3).proceeds, fun w c hc hac d hcd => ?_⟩
  rw [bind_apply] at hc
  cases hxa : x a with
  | error e b => rw [hxa] at hc; cases hc
  | ok v b =>
    rw [hxa] at hc
    obtain ⟨h1, h2, -⟩ := hx.proceeds.of_ok hxa
    have hb := hf v b h1 (h1.valid hv) h2
    -- both halves of the way are calm
    obtain ⟨hab, hbc⟩ := hac.between h1 (hb.proceeds.of_ok hc).1
    obtain ⟨w', hw', hs⟩ := hb.repeats w c hc hbc d hcd
    obtain ⟨v', hv', rfl⟩ := hx.repeats v b hxa hab d (hbc.trans hcd)
    refine ⟨w', ?_, hs hv'⟩
    rw [bind_apply, hv']
    exact hw'

theorem EvaluatesUpTo.mono {same' : Analysis → β → β → Prop} {x y : AnalysisM β}
    (h : EvaluatesUpTo p w same x y post a) (hs : ∀ c v w, same c v w → same' c v w) :
    EvaluatesUpTo p w same' x y post a := by
  refine ⟨h.proceeds, fun v b hb hab c hbc => ?_⟩
  obtain ⟨w, hw, hsame⟩ := h.repeats v b hb hab c hbc
  exact ⟨w, hw, hs c v w hsame⟩

theorem EvaluatesUpTo.bind (hv : a.Valid p) (hx : Evaluates p w x y mid a)
    (hf : ∀ v b, Steps p w a b → b.Valid p → mid b v → EvaluatesUpTo p w same (f v) (g v) post b) :
    EvaluatesUpTo p w same (x >>= f) (y >>= g) post a :=
  .bind_with hv hx fun v b h1 h2 h3 => (hf v b h1 h2 h3).mono fun _ _ _ h _ => h

end Combinators

theorem EvaluatesUpTo.weaken {x y : AnalysisM α} {post post' : Analysis → α → Prop}
    {same : Analysis → α → α → Prop} (h : EvaluatesUpTo p w same x y post a)
    (hp : ∀ b v, Steps p w a b → post b v → post' b v) : EvaluatesUpTo p w same x y post' a :=
  ⟨h.proceeds.weaken hp, h.repeats⟩

/-! ## Creation -/

namespace AnalysisM

open GraphM

theorem onGraph_ok {x : GraphM α} {v : α} {g : ScopeGraph} (h : x a.graph = .ok v g) :
    onGraph x a = .ok v { a with graph := g } := by
  unfold onGraph
  rw [h]

theorem onGraph_error {x : GraphM α} {e : Fault} {g : ScopeGraph} (h : x a.graph = .error e g) :
    onGraph x a = .error e { a with graph := g } := by
  unfold onGraph
  rw [h]

theorem demandShape_evaluates (s : ShapeId) :
    Evaluates p w (p.demandShape s) (p.demandShape s) (fun b d => b = a ∧ p.shape? s = some d) a := by
  unfold Program.demandShape
  cases h : p.shape? s with
  | some d => exact evaluates_pure ⟨rfl, rfl⟩
  | none => exact evaluates_throw _

theorem demandFunction_evaluates (f : FunctionId) :
    Evaluates p w (p.demandFunction f) (p.demandFunction f)
      (fun b d => b = a ∧ p.function? f = some d) a := by
  unfold Program.demandFunction FunctionRegistry.demand
  cases h : p.function? f with
  | some d => exact evaluates_pure ⟨rfl, rfl⟩
  | none => exact evaluates_throw _

theorem demandShape_ok {s : ShapeId} {d : ShapeDecl} {b : Analysis}
    (h : (p.demandShape s : AnalysisM ShapeDecl) a = .ok d b) : b = a ∧ p.shape? s = some d :=
  ((demandShape_evaluates (w := true) s).proceeds.of_ok h).2.1

theorem demandFunction_ok {f : FunctionId} {d : FunctionDecl} {b : Analysis}
    (h : (p.demandFunction f : AnalysisM FunctionDecl) a = .ok d b) : b = a ∧ p.function? f = some d :=
  ((demandFunction_evaluates (w := true) f).proceeds.of_ok h).2.1

theorem demandFunction_eq {f : FunctionId} {d : FunctionDecl} (h : p.function? f = some d) :
    (p.demandFunction f : AnalysisM FunctionDecl) = pure d := by
  unfold Program.demandFunction FunctionRegistry.demand
  rw [h]

/-- Building the scope of an object and entering the object is one step. -/
theorem addObject_proceeds {s : ShapeId} {d : ShapeDecl} (hv : a.Valid p) (hd : p.shape? s = some d)
    (hn : a.findObject s = none) (hf : ∀ t ∈ d.proto, a.findObject t ≠ none) :
    Proceeds p w (onGraph (addObjectScope s (d.proto.bind a.objectScope) d.properties) >>= addObject s)
      (onGraph (addObjectScope s (d.proto.bind a.objectScope) d.properties) >>= addObject s)
      (fun b o => b.findObject s = some o ∧ b.functions = a.functions ∧
        ∀ q, q ≠ s → b.findObject q = a.findObject q) a := by
  have older : ∀ t ∈ d.proto.bind a.objectScope, t.index < a.graph.scopes.length := by
    intro t ht
    obtain ⟨q, -, hq⟩ := Option.bind_eq_some_iff.1 ht
    exact hv.toWired.objectScope_lt hq
  unfold Proceeds
  rw [bind_apply, bind_apply]
  cases hg : addObjectScope s (d.proto.bind a.objectScope) d.properties a.graph with
  | error e g =>
    have hb := addObjectScope_builds (D := (· = .global)) (E := (a.graph.scopes.length ≤ ·.index)) s
      older d.properties
    rw [finalState_error hg] at hb
    rw [onGraph_error hg, onGraph_error (a := a.forget) hg]
    exact ⟨⟨a, .refl, g, hb, rfl⟩, rfl⟩
  | ok scope g =>
    rw [onGraph_ok hg, onGraph_ok (a := a.forget) hg]
    refine ⟨.single (.object hd hn rfl hf older hg), ⟨?_, rfl, fun q hq => ?_⟩, rfl⟩
    · rw [Analysis.findObject_append hn, if_pos rfl]
    · rw [Analysis.findObject_append hn, if_neg hq]

theorem createObjectWithin_proceeds : ∀ (n : Nat) (path : List ShapeId) (s : ShapeId) (a : Analysis),
    a.Valid p → Proceeds p w (createObjectWithin p n path s) (createObjectWithin p n path s)
      (fun b o => b.findObject s = some o ∧ b.functions = a.functions ∧
        ∀ q ∈ path, a.findObject q = none → b.findObject q = none) a
  | 0, _, s, _, _ => proceeds_throw _
  | n + 1, path, s, a, hv => by
    refine proceeds_get rfl ?_
    cases ha : a.findObject s with
    | some o => exact proceeds_pure ⟨ha, rfl, fun _ _ h => h⟩
    | none =>
      by_cases hs : s ∈ path
      · simp only [hs, if_true]
        exact proceeds_throw _
      · simp only [hs, if_false, objectScope, bind_assoc]
        refine .bind hv (demandShape_evaluates s).proceeds ?_
        rintro d b - hb ⟨rfl, hd⟩
        cases hp : d.proto with
        | none =>
          have h := addObject_proceeds (w := w) hv hd ha (by simp [hp])
          rw [hp, Option.bind_none] at h
          refine h.weaken fun c o _ ⟨h1, h2, h3⟩ => ⟨h1, h2, fun q hq hqa => ?_⟩
          rw [h3 q (fun h => hs (h ▸ hq)), hqa]
        | some t =>
          simp only [bind_assoc]
          refine .bind hv (createObjectWithin_proceeds n (s :: path) t _ hv) ?_
          rintro o c - hc ⟨h1, h2, h3⟩
          refine proceeds_get rfl ?_
          have hscope : (c.object? o).map (·.scope) = d.proto.bind c.objectScope := by
            simp [hp, Analysis.objectScope, h1]
          rw [hscope]
          -- the shapes that wait for this one are not created on the way
          have hcs : c.findObject s = none := h3 s (List.mem_cons_self ..) ha
          refine (addObject_proceeds hc hd hcs (by simp [hp, h1])).weaken
            fun e o _ ⟨k1, k2, k3⟩ => ⟨k1, k2.trans h2, fun q hq hqa => ?_⟩
          rw [k3 q (fun h => hs (h ▸ hq)), h3 q (List.mem_cons_of_mem _ hq) hqa]

/-- An object that exists is returned as it is. -/
theorem createObject_of_found {s : ShapeId} {o : ObjRef} (h : a.findObject s = some o) :
    createObject p s a = .ok o a := by
  unfold createObject createObjectWithin
  rw [get_bind_apply, h]
  rfl

theorem createObject_evaluates (hv : a.Valid p) (s : ShapeId) :
    Evaluates p w (createObject p s) (createObject p s)
      (fun b o => b.findObject s = some o ∧ b.functions = a.functions) a := by
  have h : Proceeds p w (createObject p s) (createObject p s)
      (fun b o => b.findObject s = some o ∧ b.functions = a.functions) a :=
    (createObjectWithin_proceeds (p.shapes.length + 1) [] s a hv).weaken fun _ _ _ h => ⟨h.1, h.2.1⟩
  refine ⟨h, fun o b hb _ c hbc => ⟨o, ?_, rfl⟩⟩
  obtain ⟨-, ⟨ho, -⟩, -⟩ := Proceeds.of_ok h hb
  exact createObject_of_found (Analysis.findObject_of_isPrefix ho hbc.forget.objects)

theorem createObject?_evaluates (hv : a.Valid p) (shape : Option ShapeId) :
    Evaluates p w (createObject? p shape) (createObject? p shape)
      (fun b r => b.Provides shape r ∧ b.functions = a.functions) a := by
  cases shape with
  | none => exact evaluates_pure ⟨rfl, rfl⟩
  | some s =>
    refine .bind hv (createObject_evaluates hv s) ?_
    rintro o b - hb ⟨h1, h2⟩
    exact evaluates_pure ⟨⟨o, h1, rfl⟩, h2⟩

theorem createBodyScope_apply {f : FunctionId} {d : FunctionDecl} (hd : p.function? f = some d)
    (parent : ScopeId) (b : Analysis) :
    createBodyScope p f parent b = match addBodyScope p f d parent b.graph with
      | .ok body h => .ok body { b with graph := h, discovered := b.discovered ++ [body] }
      | .error e h => .error e { b with graph := h } := by
  unfold createBodyScope Program.demandFunction FunctionRegistry.demand
  rw [hd]
  change (onGraph (addBodyScope p f d parent) >>= _) b = _
  rw [bind_apply]
  cases hb : addBodyScope p f d parent b.graph with
  | ok body h => rw [onGraph_ok hb]; rfl
  | error e h => rw [onGraph_error hb]

theorem unionIntoOwn_apply (s : ScopeId) (name : String) (t : ConcreteType) (b : Analysis) :
    unionIntoOwn s name t b = .ok ⟨⟩ { b with graph := b.graph.joinOwn s name t } := by
  have hmodify (f : Analysis → Analysis) : (modify f : AnalysisM Unit) b = .ok ⟨⟩ (f b) := rfl
  unfold unionIntoOwn ScopeGraph.joinOwn
  rw [hmodify]
  cases b.graph.own s name <;> rfl

theorem introduceFunction_apply {f : FunctionId} {d : FunctionDecl} (hd : p.function? f = some d)
    (parent : ScopeId) (prototype object : Option ObjRef) {statics : ScopeId} {g : ScopeGraph}
    (hs : addScope (.statics f) none a.graph = .ok statics g) :
    introduceFunction p f parent prototype object a = match addBodyScope p f d parent g with
      | .ok body h => .ok ⟨a.functions.length⟩ { a with
          graph := h.joinOwn body SlotName.callee (.function ⟨a.functions.length⟩)
          functions := a.functions ++ [⟨f, parent, body, statics, object, prototype⟩]
          narrowings := []
          discovered := a.discovered ++ [body] }
      | .error e h => .error e { a with graph := h } := by
  unfold introduceFunction
  rw [bind_apply]
  change (onGraph (addScope (.statics f) none) >>= _) a = _
  rw [bind_apply, onGraph_ok hs]
  dsimp only
  rw [bind_apply, createBodyScope_apply hd]
  dsimp only
  cases addBodyScope p f d parent g with
  | error e h => rfl
  | ok body h =>
    dsimp only
    rw [bind_apply, unionIntoOwn_apply]
    rfl

/-- Building the scopes of a function and entering the function is one step. -/
theorem introduceFunction_evaluates {f : FunctionId} {d : FunctionDecl}
    {object prototype : Option ObjRef} (hd : p.function? f = some d) (hn : a.findFunction f = none)
    (hp : a.Provides d.prototypeShape prototype) (ho : a.Provides d.objectShape object)
    {parent : ScopeId} (older : parent.index < a.graph.scopes.length) :
    Evaluates p w (introduceFunction p f parent prototype object)
      (introduceFunction p f parent prototype object) (fun b r => b.findFunction f = some r) a := by
  obtain ⟨statics, g, hs⟩ : ∃ statics g, addScope (.statics f) none a.graph = .ok statics g :=
    ⟨_, _, rfl⟩
  constructor
  · unfold Proceeds
    rw [introduceFunction_apply hd parent prototype object hs,
      introduceFunction_apply (a := a.forget) hd parent prototype object hs]
    cases hb : addBodyScope p f d parent g with
    | error e h =>
      have hh := function_builds (E := (a.graph.scopes.length ≤ ·.index)) (Nat.le_succ _) older hs
        (finalState_error hb)
      exact ⟨⟨a, .refl, h, hh, rfl⟩, rfl⟩
    | ok body h =>
      exact ⟨.single (.function hd hn hp ho older hs hb), Analysis.findFunction_append hn rfl rfl, rfl⟩
  · -- the table of functions has grown
    intro v b hx hab
    rw [introduceFunction_apply hd parent prototype object hs] at hx
    cases hb : addBodyScope p f d parent g with
    | error e h => rw [hb] at hx; cases hx
    | ok body h =>
      rw [hb] at hx
      cases hx
      have hlen := congrArg List.length hab.functions
      simp at hlen

theorem createFunction_evaluates (hv : a.Valid p) (f : FunctionId) {parent : ScopeId}
    (older : parent.index < a.graph.scopes.length) :
    Evaluates p w (createFunction p f parent) (createFunction p f parent)
      (fun b r => b.findFunction f = some r) a := by
  refine evaluates_get (fun c hc => by rw [hc.findFunction]) ?_
  cases ha : a.findFunction f with
  | some r => exact evaluates_pure ha
  | none =>
    refine .bind hv (demandFunction_evaluates f) ?_
    rintro d b - hb ⟨rfl, hd⟩
    refine .bind hv (createObject?_evaluates hv d.prototypeShape) ?_
    rintro prototype b hab hb ⟨hp, hfb⟩
    refine .bind hb (createObject?_evaluates hb d.objectShape) ?_
    rintro object c hbc hc ⟨ho, hfc⟩
    have hn : c.findFunction f = none := by
      unfold Analysis.findFunction at ha ⊢
      rwa [hfc, hfb]
    have hle := (Steps.grows (hab.trans hbc)).graph.scopes.length_le
    exact introduceFunction_evaluates hd hn (hp.grows hbc.grows) ho (Nat.lt_of_lt_of_le older hle)

end AnalysisM

end TypeFlow
