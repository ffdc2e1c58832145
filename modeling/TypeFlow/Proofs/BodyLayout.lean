import TypeFlow.Proofs.BodyText

/-!
# The layout of a body scope

A body scope declares three names of its own, then the parameters, and then the names that the text
of the body declares. The latter are hoisted from any depth of blocks and branches. A name that is
there already stays where it is, so the order is that of the first occurrences.

* `Stmt.declarationsAll`, `Stmt.hoisted`: what a text declares, and under which names.
* `Extraction.hoist_apply`, `Extraction.hoist_ok`: hoisting ends well exactly if all functions are known,
  and what it binds.
* `ScopeGraph.namesOf_bindAll`: the names in the order of their first occurrence.
* `GraphM.declareParams_layout`: parameters must be new, and their slots are kept in order.
-/

namespace TypeFlow

/-! ## What a text declares -/

/-- A variable or a function that a text declares. -/
inductive Declaration where
  | var (x : String)
  | function (f : FunctionId)

mutual

/-- What a statement declares, in the order of the text and outside nested functions. -/
def Stmt.declarations : Stmt → List Declaration
  | .var x _ _ => [.var x]
  | .function f => [.function f]
  | .expr _ => []
  | .ret _ => []
  | .branch _ yes no => Stmt.declarationsAll yes ++ Stmt.declarationsAll no
  | .loop _ body => Stmt.declarationsAll body
  | .block body => Stmt.declarationsAll body
termination_by structural st => st

def Stmt.declarationsAll : List Stmt → List Declaration
  | [] => []
  | st :: rest => st.declarations ++ Stmt.declarationsAll rest
termination_by structural sts => sts

end

namespace Declaration

/-- The name that is declared. Not every function has one. -/
def name? (p : Program) : Declaration → Option String
  | var x => some x
  | function f => (p.function? f).bind (·.name)

/-- A function is known if the program has it. -/
def Known (p : Program) : Declaration → Prop
  | var _ => True
  | function f => ∃ d, p.function? f = some d

end Declaration

/-- **The names that a text declares**, in the order of the text, each as often as it is declared. -/
def Stmt.hoisted (p : Program) (sts : List Stmt) : List String :=
  (Stmt.declarationsAll sts).filterMap (Declaration.name? p)

variable {p : Program} {s t : ScopeId}

/-! ## Names in order -/

namespace ScopeGraph

variable {g h : ScopeGraph} {x : String}

/-- The names that a scope declares, in order. -/
def namesOf (g : ScopeGraph) (s : ScopeId) : List String :=
  ((g.scope? s).map fun c => c.slots.map Prod.fst).getD []

theorem namesOf_eq {c : Scope} (hc : g.scope? s = some c) : g.namesOf s = c.slots.map Prod.fst := by
  unfold namesOf
  rw [hc]
  rfl

theorem paramsOf_eq {c : Scope} (hc : g.scope? s = some c) : g.paramsOf s = c.params := by
  unfold paramsOf
  rw [hc]
  rfl

theorem exists_scope (hs : s.index < g.scopes.length) : ∃ c, g.scope? s = some c :=
  ⟨_, List.getElem?_eq_getElem hs⟩

theorem own_eq_none_iff (hs : s.index < g.scopes.length) : g.own s x = none ↔ x ∉ g.namesOf s := by
  obtain ⟨c, hc⟩ := exists_scope hs
  rw [namesOf_eq hc]
  refine ⟨not_mem_of_own hc, fun hx => ?_⟩
  unfold own
  rw [hc, Option.bind_some, List.lookup_eq_none_iff]
  intro y hy
  have hne : x ≠ y.1 := fun hxy => hx (hxy ▸ List.mem_map_of_mem hy)
  exact bne_iff_ne.2 hne

theorem own_ne_none_iff (hs : s.index < g.scopes.length) : g.own s x ≠ none ↔ x ∈ g.namesOf s := by
  rw [ne_eq, own_eq_none_iff hs, not_not]

theorem length_bindSlot : (g.bindSlot s x).scopes.length = g.scopes.length := List.length_modify ..

theorem namesOf_bindSlot (hs : s.index < g.scopes.length) : (g.bindSlot s x).namesOf s = g.namesOf s ++ [x] := by
  obtain ⟨c, hc⟩ := exists_scope hs
  have hbound := scope?_bindSlot g s s x
  rw [hc, Option.map_some, if_pos rfl] at hbound
  rw [namesOf_eq hbound, namesOf_eq hc, List.map_append]
  rfl

theorem paramsOf_bindSlot : (g.bindSlot s x).paramsOf t = g.paramsOf t := by
  unfold paramsOf
  rw [scope?_bindSlot]
  cases g.scope? t with
  | none => rfl
  | some c =>
    by_cases hst : s = t
    · simp [hst]
    · simp [hst]

/-- The graph in which a scope declares a name, unless it does already. -/
def bindOnce (g : ScopeGraph) (s : ScopeId) (x : String) : ScopeGraph :=
  match g.own s x with
  | some _ => g
  | none => g.bindSlot s x

/-- The graph in which a scope declares all names of a list. -/
def bindAll (s : ScopeId) : List String → ScopeGraph → ScopeGraph
  | [], g => g
  | x :: xs, g => bindAll s xs (g.bindOnce s x)

theorem bindOnce_of_mem (hs : s.index < g.scopes.length) (hx : x ∈ g.namesOf s) : g.bindOnce s x = g := by
  obtain ⟨y, hy⟩ := Option.ne_none_iff_exists'.1 ((own_ne_none_iff hs).2 hx)
  unfold bindOnce
  rw [hy]

theorem bindOnce_of_not_mem (hs : s.index < g.scopes.length) (hx : x ∉ g.namesOf s) :
    g.bindOnce s x = g.bindSlot s x := by
  unfold bindOnce
  rw [(own_eq_none_iff hs).2 hx]

theorem length_bindOnce : (g.bindOnce s x).scopes.length = g.scopes.length := by
  unfold bindOnce
  split
  · rfl
  · exact length_bindSlot

theorem paramsOf_bindOnce : (g.bindOnce s x).paramsOf t = g.paramsOf t := by
  unfold bindOnce
  split
  · rfl
  · exact paramsOf_bindSlot

theorem paramsOf_bindAll : ∀ (xs : List String) (g : ScopeGraph), (bindAll s xs g).paramsOf t = g.paramsOf t
  | [], _ => rfl
  | x :: xs, g => (paramsOf_bindAll xs (g.bindOnce s x)).trans paramsOf_bindOnce

/-- **Names are declared in the order of their first occurrence**, after those that are there. -/
theorem namesOf_bindAll : ∀ (xs : List String) (g : ScopeGraph), s.index < g.scopes.length →
    (bindAll s xs g).namesOf s = g.namesOf s ++ (xs.filter (· ∉ g.namesOf s)).eraseDups := by
  intro xs
  induction xs with
  | nil => exact fun g _ => (List.append_nil _).symm
  | cons x xs ih =>
    intro g hs
    have hrest := ih (g.bindOnce s x) (by rwa [length_bindOnce])
    rw [bindAll, hrest]
    by_cases hx : x ∈ g.namesOf s
    · rw [bindOnce_of_mem hs hx, List.filter_cons_of_neg (by simpa using hx)]
    · -- what was new before is new now, apart from `x`
      rw [bindOnce_of_not_mem hs hx, namesOf_bindSlot hs, List.filter_cons_of_pos (by simpa using hx),
        List.eraseDups_cons, List.filter_filter, List.append_assoc, List.singleton_append]
      congr 3
      refine List.filter_congr fun y _ => ?_
      by_cases hy : y = x
      · simp [hy]
      · simp [hy, beq_false_of_ne hy]

theorem mem_namesOf_bindAll (hs : s.index < g.scopes.length) {xs : List String} (hx : x ∈ xs) :
    x ∈ (bindAll s xs g).namesOf s := by
  rw [namesOf_bindAll xs g hs, List.mem_append]
  by_cases hold : x ∈ g.namesOf s
  · exact .inl hold
  · refine .inr (List.mem_eraseDups.2 (List.mem_filter.2 ⟨hx, ?_⟩))
    simpa using hold

end ScopeGraph

/-! ## Hoisting -/

namespace Extraction

open GraphM

variable {g h : ScopeGraph}

theorem declareOnce_apply (s : ScopeId) (x : String) (g : ScopeGraph) :
    declareOnce s x g = .ok ⟨⟩ (g.bindOnce s x) := by
  rw [declareOnce, get_bind_apply]
  unfold ScopeGraph.bindOnce
  cases hx : g.own s x with
  | some y => rfl
  | none =>
    have hnew : declare s x g = .ok ⟨g.slots.length⟩ (g.bindSlot s x) := by rw [declare_apply, hx]
    have hdiscard : discard (declare s x) g = (declare s x >>= fun _ => pure ⟨⟩) g := rfl
    dsimp only
    rw [hdiscard, bind_apply, hnew]
    rfl

theorem bindAll_furnishes : ∀ (xs : List String) (g : ScopeGraph), g.Furnishes s (ScopeGraph.bindAll s xs g)
  | [], g => refl_of _ g
  | x :: xs, g =>
    trans_of _ ((declareOnce_furnishes x).ok (declareOnce_apply s x g)) (bindAll_furnishes xs (g.bindOnce s x))

/-- Hoists one declaration. -/
def hoistOne (p : Program) (s : ScopeId) : Declaration → GraphM Unit
  | .var x => declareOnce s x
  | .function f => do
    let d : FunctionDecl ← p.demandFunction f
    match d.name with
    | some x => declareOnce s x
    | none => return ()

/-- Hoists declarations one after the other. -/
def hoistEach (p : Program) (s : ScopeId) : List Declaration → GraphM Unit
  | [] => return ()
  | d :: ds => do
    hoistOne p s d
    hoistEach p s ds

theorem hoistEach_append (ds es : List Declaration) :
    hoistEach p s (ds ++ es) = hoistEach p s ds >>= fun _ => hoistEach p s es := by
  induction ds with
  | nil => exact (pure_bind _ _).symm
  | cons d ds ih => rw [List.cons_append, hoistEach, hoistEach, ih, bind_assoc]

theorem hoistEach_singleton (d : Declaration) : hoistEach p s [d] = hoistOne p s d :=
  bind_pure_unit

mutual

theorem hoistStmt_eq_hoistEach : ∀ st, hoistStmt p s st = hoistEach p s st.declarations
  | .var x _ _ => (hoistEach_singleton (.var x)).symm
  | .function f => (hoistEach_singleton (.function f)).symm
  | .expr _ => rfl
  | .ret _ => rfl
  | .branch _ yes no => by
    rw [hoistStmt, Stmt.declarations, hoistEach_append, hoist_eq_hoistEach yes, hoist_eq_hoistEach no]
  | .loop _ body => hoist_eq_hoistEach body
  | .block body => hoist_eq_hoistEach body
termination_by structural st => st

/-- **Hoisting goes through the declarations of a text**, whatever the statements around them. -/
theorem hoist_eq_hoistEach : ∀ sts, hoist p s sts = hoistEach p s (Stmt.declarationsAll sts)
  | [] => rfl
  | st :: rest => by
    rw [hoist, Stmt.declarationsAll, hoistEach_append, hoistStmt_eq_hoistEach st, hoist_eq_hoistEach rest]
termination_by structural sts => sts

end

theorem hoistOne_known {d : Declaration} (hd : d.Known p) (g : ScopeGraph) :
    hoistOne p s d g = .ok ⟨⟩ (ScopeGraph.bindAll s (d.name? p).toList g) := by
  cases d with
  | var x => exact declareOnce_apply s x g
  | function f =>
    obtain ⟨d, hf⟩ := hd
    rw [hoistOne, Program.demandFunction, FunctionRegistry.demand, Declaration.name?, hf, Option.bind_some, pure_bind]
    cases d.name with
    | none => rfl
    | some x => exact declareOnce_apply s x g

theorem hoistOne_ok {d : Declaration} {u : Unit} (hok : hoistOne p s d g = .ok u h) : d.Known p := by
  cases d with
  | var x => trivial
  | function f =>
    obtain ⟨d, k, hdemand, -⟩ := bind_ok hok
    exact ⟨d, (demandFunction_ok hdemand).1⟩

theorem hoistEach_known : ∀ (ds : List Declaration) (g : ScopeGraph), (∀ d ∈ ds, d.Known p) →
    hoistEach p s ds g = .ok ⟨⟩ (ScopeGraph.bindAll s (ds.filterMap (Declaration.name? p)) g) := by
  intro ds
  induction ds with
  | nil => exact fun g _ => rfl
  | cons d ds ih =>
    intro g hknown
    obtain ⟨hd, hds⟩ := List.forall_mem_cons.1 hknown
    rw [hoistEach, bind_apply, hoistOne_known hd]
    dsimp only
    rw [ih _ hds]
    cases hname : d.name? p with
    | none => rw [List.filterMap_cons_none hname]; rfl
    | some x => rw [List.filterMap_cons_some hname]; rfl

theorem hoistEach_ok : ∀ {ds : List Declaration} {g h : ScopeGraph} {u : Unit}, hoistEach p s ds g = .ok u h →
    ∀ d ∈ ds, d.Known p
  | [], _, _, _, _, d, hd => absurd hd List.not_mem_nil
  | e :: ds, g, h, u, hok, d, hd => by
    obtain ⟨_, k, hfirst, hrest⟩ := bind_ok hok
    rcases List.mem_cons.1 hd with rfl | hd
    · exact hoistOne_ok hfirst
    · exact hoistEach_ok hrest d hd

/-- **Hoisting a text whose functions are known** binds its names. -/
theorem hoist_apply {text : List Stmt} (hknown : ∀ d ∈ Stmt.declarationsAll text, d.Known p) (g : ScopeGraph) :
    hoist p s text g = .ok ⟨⟩ (ScopeGraph.bindAll s (Stmt.hoisted p text) g) := by
  rw [hoist_eq_hoistEach]
  exact hoistEach_known _ g hknown

/-- Hoisting a text ends well only if its functions are known. -/
theorem hoist_ok {text : List Stmt} {u : Unit} (hok : hoist p s text g = .ok u h) :
    (∀ d ∈ Stmt.declarationsAll text, d.Known p) ∧ h = ScopeGraph.bindAll s (Stmt.hoisted p text) g := by
  have hknown : ∀ d ∈ Stmt.declarationsAll text, d.Known p := by
    rw [hoist_eq_hoistEach] at hok
    exact hoistEach_ok hok
  rw [hoist_apply hknown] at hok
  cases hok
  exact ⟨hknown, rfl⟩

end Extraction

/-! ## Parameters -/

/-- The graph in which a scope declares a parameter. -/
def ScopeGraph.bindParam (g : ScopeGraph) (s : ScopeId) (x : String) : ScopeGraph :=
  (g.bindSlot s x).modifyScope s fun c => { c with params := c.params ++ [⟨g.slots.length⟩] }

namespace GraphM

variable {g h : ScopeGraph} {x : String}

theorem bindParam_layout (hs : s.index < g.scopes.length) (hx : x ∉ g.namesOf s) :
    (g.bindParam s x).namesOf s = g.namesOf s ++ [x] ∧
      (g.bindParam s x).paramsOf s = g.paramsOf s ++ [⟨g.slots.length⟩] ∧
      (g.bindParam s x).own s x = some ⟨g.slots.length⟩ := by
  obtain ⟨c, hc⟩ := ScopeGraph.exists_scope hs
  have hbound : (g.bindParam s x).scope? s = some { c with
      slots := c.slots ++ [(x, ⟨g.slots.length⟩)], params := c.params ++ [⟨g.slots.length⟩] } := by
    unfold ScopeGraph.bindParam
    rw [ScopeGraph.scope?_modifyScope, ScopeGraph.scope?_bindSlot, hc]
    simp
  have hown : (g.bindParam s x).own s x = (g.bindSlot s x).own s x :=
    ScopeGraph.own_modifyScope _ (f := fun c => { c with params := c.params ++ [⟨g.slots.length⟩] }) (fun _ => rfl) s x
  refine ⟨?_, ?_, ?_⟩
  · rw [ScopeGraph.namesOf_eq hbound, ScopeGraph.namesOf_eq hc, List.map_append]
    rfl
  · rw [ScopeGraph.paramsOf_eq hbound, ScopeGraph.paramsOf_eq hc]
  · rw [hown, ScopeGraph.own_bindSlot hs ((ScopeGraph.own_eq_none_iff hs).2 hx), if_pos ⟨rfl, rfl⟩]

theorem declare_new (hs : s.index < g.scopes.length) (hx : x ∉ g.namesOf s) :
    declare s x g = .ok ⟨g.slots.length⟩ (g.bindSlot s x) := by
  rw [declare_apply, (ScopeGraph.own_eq_none_iff hs).2 hx]

theorem declareParam_new (hs : s.index < g.scopes.length) (hx : x ∉ g.namesOf s) :
    declareParam s x g = .ok ⟨g.slots.length⟩ (g.bindParam s x) := by
  rw [declareParam, bind_apply, declare_new hs hx]
  rfl

/-- A name that is declared already cannot be a parameter. -/
theorem declareParam_ok {y : SlotId} (hs : s.index < g.scopes.length) (hok : declareParam s x g = .ok y h) :
    x ∉ g.namesOf s := by
  obtain ⟨z, k, hz, -⟩ := bind_ok hok
  exact (ScopeGraph.own_eq_none_iff hs).1 (declare_ok hz).1

/-- **Parameters that are new and different** follow the names that are there, and their slots are kept in
order. -/
theorem declareParams_layout : ∀ (xs : List String) (g : ScopeGraph), s.index < g.scopes.length →
    (g.namesOf s ++ xs).Nodup → ∃ h, declareParams s xs g = .ok ⟨⟩ h ∧ h.namesOf s = g.namesOf s ++ xs ∧
      ∃ new, h.paramsOf s = g.paramsOf s ++ new ∧ new.map some = xs.map (h.own s) := by
  intro xs
  induction xs with
  | nil => exact fun g _ _ => ⟨g, rfl, (List.append_nil _).symm, [], (List.append_nil _).symm, rfl⟩
  | cons x xs ih =>
    intro g hs hnodup
    rw [List.append_cons] at hnodup
    have hx : x ∉ g.namesOf s := by
      intro hmem
      have hfront := (List.nodup_append.1 hnodup).1
      exact (List.nodup_append.1 hfront).2.2 x hmem x (List.mem_singleton_self x) rfl
    have hfirst := declareParam_new hs hx
    obtain ⟨hnames, hparams, hown⟩ := bindParam_layout hs hx
    have hthere : s.index < (g.bindParam s x).scopes.length :=
      Nat.lt_of_lt_of_le hs ((declareParam_furnishes x).ok hfirst).builds.grows.scopes.length_le
    obtain ⟨h, hrest, hnames', new, hparams', hnew⟩ := ih (g.bindParam s x) hthere (by rwa [hnames])
    refine ⟨h, ?_, ?_, ⟨g.slots.length⟩ :: new, ?_, ?_⟩
    · rw [declareParams, bind_apply, hfirst]
      exact hrest
    · rw [hnames', hnames, List.append_assoc, List.singleton_append]
    · rw [hparams', hparams, List.append_assoc, List.singleton_append]
    · have hkept := ((declareParams_furnishes xs).ok hrest).builds.grows.own hown
      rw [List.map_cons, List.map_cons, hnew, hkept]

theorem declareParams_ok : ∀ {xs : List String} {g h : ScopeGraph} {u : Unit}, s.index < g.scopes.length →
    (g.namesOf s).Nodup → declareParams s xs g = .ok u h → (g.namesOf s ++ xs).Nodup
  | [], g, h, u, _, hnodup, _ => by rwa [List.append_nil]
  | x :: xs, g, h, u, hs, hnodup, hok => by
    obtain ⟨y, k, hfirst, hrest⟩ := bind_ok hok
    have hx := declareParam_ok hs hfirst
    have hthere := Nat.lt_of_lt_of_le hs ((declareParam_furnishes x).ok hfirst).builds.grows.scopes.length_le
    rw [declareParam_new hs hx] at hfirst
    cases hfirst
    obtain ⟨hnames, -, -⟩ := bindParam_layout hs hx
    have hfront : ((g.bindParam s x).namesOf s).Nodup := by
      rw [hnames, ← List.concat_eq_append]
      exact hnodup.concat hx
    have hall := declareParams_ok hthere hfront hrest
    rwa [hnames, ← List.append_cons] at hall

end GraphM

end TypeFlow
