import TypeFlow.Proofs.Likeness

/-!
# Control structure is transparent

Values flow in whatever order the statements are executed, so an analysis does not ask which
branch is taken or how often a loop runs. **Flattening** a program replaces blocks, branches
and loops by their tests and the statements in them. Every walk through statements goes through a
control statement as through its flattened form, so an analysis of the flattened program does
the very same.

* `Stmt.flatten`, `Program.flatten`: programs without control structure.
* `InOrder.flattenAll`: walks cannot tell statements from their flattened form.
* `flatten_transparent`: an analysis of the flattened program goes through the same states.
-/

namespace TypeFlow

mutual

/-- A statement without its control structure. -/
def Stmt.flatten : Stmt → List Stmt
  | .var x value declared => [.var x value declared]
  | .function f => [.function f]
  | .expr e => [.expr e]
  | .ret value => [.ret value]
  | .branch test yes no => .expr test :: (Stmt.flattenAll yes ++ Stmt.flattenAll no)
  | .loop test body => .expr test :: Stmt.flattenAll body
  | .block body => Stmt.flattenAll body
termination_by structural st => st

/-- Statements without their control structure. -/
def Stmt.flattenAll : List Stmt → List Stmt
  | [] => []
  | st :: rest => st.flatten ++ Stmt.flattenAll rest
termination_by structural sts => sts

end

def FunctionDecl.flatten (d : FunctionDecl) : FunctionDecl :=
  { d with body := d.body.map Stmt.flattenAll }

/-- **The program without control structure**, in its ambient statements, its body and the bodies of
all functions. -/
def Program.flatten (p : Program) : Program :=
  { p with
    functions := p.functions.map FunctionDecl.flatten
    ambient := Stmt.flattenAll p.ambient
    body := Stmt.flattenAll p.body }

/-- Whether a statement has no statements in it. -/
def Stmt.isSimple : Stmt → Bool
  | .branch .. => false
  | .loop .. => false
  | .block _ => false
  | _ => true

/-- No statement of the program has statements in it. -/
def Program.IsFlat (p : Program) : Prop :=
  (∀ st ∈ p.ambient, st.isSimple = true) ∧ (∀ st ∈ p.body, st.isSimple = true) ∧
    ∀ d ∈ p.functions, ∀ body ∈ d.body, ∀ st ∈ body, st.isSimple = true

mutual

theorem Stmt.flatten_isSimple : ∀ st : Stmt, ∀ x ∈ st.flatten, x.isSimple = true
  | .var .. => by simp [Stmt.flatten, Stmt.isSimple]
  | .function _ => by simp [Stmt.flatten, Stmt.isSimple]
  | .expr _ => by simp [Stmt.flatten, Stmt.isSimple]
  | .ret _ => by simp [Stmt.flatten, Stmt.isSimple]
  | .branch test yes no => by
    rw [Stmt.flatten]
    refine List.forall_mem_cons.2 ⟨rfl, List.forall_mem_append.2 ⟨?_, ?_⟩⟩
    · exact Stmt.flattenAll_isSimple yes
    · exact Stmt.flattenAll_isSimple no
  | .loop test body => by
    rw [Stmt.flatten]
    exact List.forall_mem_cons.2 ⟨rfl, Stmt.flattenAll_isSimple body⟩
  | .block body => Stmt.flattenAll_isSimple body
termination_by structural st => st

theorem Stmt.flattenAll_isSimple : ∀ sts : List Stmt, ∀ x ∈ Stmt.flattenAll sts, x.isSimple = true
  | [] => fun _ h => absurd h List.not_mem_nil
  | st :: rest => by
    rw [Stmt.flattenAll]
    exact List.forall_mem_append.2 ⟨Stmt.flatten_isSimple st, Stmt.flattenAll_isSimple rest⟩
termination_by structural sts => sts

end

theorem Program.flatten_isFlat (p : Program) : p.flatten.IsFlat := by
  refine ⟨Stmt.flattenAll_isSimple p.ambient, Stmt.flattenAll_isSimple p.body, fun d hd body hbody => ?_⟩
  obtain ⟨e, -, rfl⟩ := List.mem_map.1 hd
  obtain ⟨sts, -, rfl⟩ := Option.map_eq_some_iff.1 hbody
  exact Stmt.flattenAll_isSimple sts

/-! ## Walks -/

section Walks

variable {m : Type → Type} [Monad m] {α : Type} {one : Stmt → α → m α} {all : List Stmt → α → m α}

/-- **A walk through statements in order**, which carries something along: a control statement is its
test and then the statements in it. -/
structure InOrder (one : Stmt → α → m α) (all : List Stmt → α → m α) : Prop where
  nil : ∀ x, all [] x = pure x
  cons : ∀ st rest x, all (st :: rest) x = one st x >>= all rest
  branch : ∀ test yes no x, one (.branch test yes no) x = one (.expr test) x >>= all yes >>= all no
  loop : ∀ test body x, one (.loop test body) x = one (.expr test) x >>= all body
  block : ∀ body x, one (.block body) x = all body x

namespace InOrder

variable [LawfulMonad m]

theorem append (h : InOrder one all) (l l' : List Stmt) (x : α) :
    all (l ++ l') x = all l x >>= all l' := by
  induction l generalizing x with
  | nil => rw [List.nil_append, h.nil, pure_bind]
  | cons st rest ih =>
    rw [List.cons_append, h.cons, h.cons, bind_assoc]
    exact congrArg _ (funext ih)

theorem singleton (h : InOrder one all) (st : Stmt) (x : α) : all [st] x = one st x := by
  rw [h.cons, funext h.nil, bind_pure]

mutual

theorem flatten (h : InOrder one all) : ∀ (st : Stmt) (x : α), all st.flatten x = one st x
  | .var .., x => h.singleton _ x
  | .function _, x => h.singleton _ x
  | .expr _, x => h.singleton _ x
  | .ret _, x => h.singleton _ x
  | .branch test yes no, x => by
    rw [Stmt.flatten, h.cons, h.branch, bind_assoc]
    refine congrArg _ (funext fun y => ?_)
    rw [h.append, flattenAll h yes, funext (flattenAll h no)]
  | .loop test body, x => by
    rw [Stmt.flatten, h.cons, h.loop, funext (flattenAll h body)]
  | .block body, x => by rw [Stmt.flatten, h.block, flattenAll h body]
termination_by structural st => st

/-- **A walk cannot tell statements from their flattened form.** -/
theorem flattenAll (h : InOrder one all) :
    ∀ (sts : List Stmt) (x : α), all (Stmt.flattenAll sts) x = all sts x
  | [], _ => rfl
  | st :: rest, x => by
    rw [Stmt.flattenAll, h.append, flatten h st, h.cons, funext (flattenAll h rest)]
termination_by structural sts => sts

end

end InOrder

end Walks

variable (p : Program)

theorem hoist_flattenAll (s : ScopeId) (sts : List Stmt) :
    Extraction.hoist p s (Stmt.flattenAll sts) = Extraction.hoist p s sts := by
  have h : InOrder (fun st (_ : Unit) => Extraction.hoistStmt p s st)
      fun sts _ => Extraction.hoist p s sts :=
    ⟨fun _ => rfl, fun _ _ _ => rfl, fun _ _ _ _ => rfl, fun _ _ _ => rfl, fun _ _ => rfl⟩
  exact h.flattenAll sts ()

theorem visit_flattenAll (site : Extraction.Site) (sts : List Stmt) :
    Extraction.visit p site (Stmt.flattenAll sts) = Extraction.visit p site sts := by
  have h : InOrder (fun st (_ : Unit) => Extraction.visitStmt p site st)
      fun sts _ => Extraction.visit p site sts :=
    ⟨fun _ => rfl, fun _ _ _ => rfl, fun _ _ _ _ => (bind_assoc ..).symm, fun _ _ _ => rfl,
      fun _ _ => rfl⟩
  exact h.flattenAll sts ()

theorem boundNames_flattenAll (names : List String) (sts : List Stmt) :
    ImplicitGlobals.boundNames p names (Stmt.flattenAll sts) =
      ImplicitGlobals.boundNames p names sts := by
  have h : InOrder (fun st names => ImplicitGlobals.boundByStmt p names st)
      fun sts names => ImplicitGlobals.boundNames p names sts :=
    ⟨fun _ => rfl, fun _ _ _ => rfl, fun _ _ _ _ => rfl, fun _ _ _ => rfl, fun _ _ => rfl⟩
  exact h.flattenAll sts names

theorem walkStmts_flattenAll (enter : FunctionId → ImplicitGlobals.WalkM Unit) (global : ScopeId)
    (bound : List String) (sts : List Stmt) :
    ImplicitGlobals.walkStmts enter global bound (Stmt.flattenAll sts) =
      ImplicitGlobals.walkStmts enter global bound sts := by
  have h : InOrder (fun st (_ : Unit) => ImplicitGlobals.walkStmt enter global bound st)
      fun sts _ => ImplicitGlobals.walkStmts enter global bound sts :=
    ⟨fun _ => rfl, fun _ _ _ => rfl, fun _ _ _ _ => (bind_assoc ..).symm, fun _ _ _ => rfl,
      fun _ _ => rfl⟩
  exact h.flattenAll sts ()

/-! ## Programs -/

theorem FunctionDecl.like_flatten (d : FunctionDecl) : d.Like d.flatten :=
  ⟨rfl, rfl, by simp [FunctionDecl.isAmbient, FunctionDecl.flatten], rfl, rfl, rfl, rfl⟩

namespace Program

theorem function?_flatten (f : FunctionId) :
    p.flatten.function? f = (p.function? f).map FunctionDecl.flatten :=
  List.getElem?_map ..

theorem sameOutline_flatten : p.SameOutline p.flatten where
  shapes := rfl
  arrayShape := rfl
  length_functions := List.length_map ..
  function f d hd := ⟨d.flatten, by rw [function?_flatten, hd, Option.map_some], d.like_flatten⟩

/-- A function body and its flattened form fill in the same scope. -/
theorem alike_flatten : p.Alike p.flatten where
  toSameOutline := p.sameOutline_flatten
  body f d e hd he := by
    rw [function?_flatten, hd, Option.map_some] at he
    cases he
    funext scope
    simp only [GraphM.fillBodyScope, FunctionDecl.flatten]
    cases d.body with
    | none => rfl
    | some body =>
      simp only [Option.map_some, Extraction.collect, hoist_flattenAll, visit_flattenAll,
        p.sameOutline_flatten.hoist, p.sameOutline_flatten.visit]

end Program

/-- The walk enters a function and its flattened form in the same way. The induction is on how deep
functions are still entered. -/
theorem enterFunction_flatten (global : ScopeId) (n : Nat) (bound : List String) (f : FunctionId) :
    ImplicitGlobals.enterFunction p.flatten global n bound f =
      ImplicitGlobals.enterFunction p global n bound f := by
  induction n generalizing bound f with
  | zero => rfl
  | succ n ih =>
    unfold ImplicitGlobals.enterFunction
    refine congrArg _ (funext fun w => ?_)
    by_cases hf : f ∈ w.entered
    · rw [if_pos hf, if_pos hf]
    rw [if_neg hf, if_neg hf]
    refine congrArg _ (funext fun _ => ?_)
    simp only [Program.demandFunction, FunctionRegistry.demand, Program.function?_flatten]
    cases p.function? f with
    | none => rfl
    | some d =>
      simp only [Option.map_some, FunctionDecl.flatten, pure_bind]
      cases d.body with
      | none => rfl
      | some body =>
        simp only [Option.map_some, boundNames_flattenAll, p.sameOutline_flatten.boundNames,
          walkStmts_flattenAll, funext (ih _)]

theorem declare_flatten (global : ScopeId) (body : List Stmt) :
    ImplicitGlobals.declare p.flatten global (Stmt.flattenAll body) =
      ImplicitGlobals.declare p global body := by
  have henter : ImplicitGlobals.enterFunction p.flatten global (p.flatten.functions.length + 1) [] =
      ImplicitGlobals.enterFunction p global (p.functions.length + 1) [] := by
    rw [p.sameOutline_flatten.length_functions]
    exact funext (enterFunction_flatten p global _ [])
  funext g
  rw [ImplicitGlobals.declare, ImplicitGlobals.declare, henter, walkStmts_flattenAll]

theorem extract_flatten (ambient body : List Stmt) :
    extract p.flatten (Stmt.flattenAll ambient) (Stmt.flattenAll body) = extract p ambient body := by
  simp only [extract, hoist_flattenAll, visit_flattenAll, declare_flatten, p.sameOutline_flatten.hoist,
    p.sameOutline_flatten.visit]

theorem trace_flatten (config : Config) (ambient body : List Stmt) (a : Analysis) :
    Setup.trace ⟨p.flatten, config⟩ (Stmt.flattenAll ambient) (Stmt.flattenAll body) a =
      Setup.trace ⟨p, config⟩ ambient body a := by
  have hprepare : AnalysisM.prepare ⟨p.flatten, config⟩ (Stmt.flattenAll ambient)
      (Stmt.flattenAll body) = AnalysisM.prepare ⟨p, config⟩ ambient body := by
    rw [AnalysisM.prepare, AnalysisM.prepare, extract_flatten]
  have hsystem : Setup.system ⟨p.flatten, config⟩ = Setup.system ⟨p, config⟩ :=
    Setup.Alike.system_eq ⟨p.alike_flatten, rfl⟩
  rw [Setup.trace, Setup.trace, hprepare, hsystem]

/-- **Control structure is transparent.** The flattened program has no control structure left, and an
analysis of it does the same as an analysis of the program: from every state it goes pass by pass
through the same states to the same end, a fixed point or a fault. -/
theorem flatten_transparent (p : Program) (config : Config) :
    p.flatten.IsFlat ∧
      (∀ a, Setup.trace ⟨p.flatten, config⟩ p.flatten.ambient p.flatten.body a =
        Setup.trace ⟨p, config⟩ p.ambient p.body a) ∧
      Setup.analyze ⟨p.flatten, config⟩ = Setup.analyze ⟨p, config⟩ := by
  have htrace := trace_flatten p config p.ambient p.body
  refine ⟨p.flatten_isFlat, htrace, ?_⟩
  simp only [Setup.analyze, Setup.process]
  rw [show p.flatten.ambient = Stmt.flattenAll p.ambient from rfl,
    show p.flatten.body = Stmt.flattenAll p.body from rfl, htrace]

end TypeFlow
