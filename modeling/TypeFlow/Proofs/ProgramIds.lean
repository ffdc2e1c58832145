import TypeFlow.Program.Json
import TypeFlow.Proofs.Decoding
import TypeFlow.Proofs.Vocabulary

/-!
# Ids in a program text

Functions and shapes are named by numbers of 32 bits. Reading refuses any other number, so all
ids of a program that was read have 32 bits, wherever in the program they stand.

* `Fitting`: all ids that a text mentions have 32 bits.
* `Program.yields`: what is read has such ids.
-/

namespace TypeFlow

open Json

/-! ## Ids -/

/-- Whether a word is no id or an id with 32 bits. -/
def Word.Fits : Word → Prop
  | name _ => True
  | function f => f.index < 4294967296
  | shape s => s.index < 4294967296

instance : DecidablePred Word.Fits
  | .name _ => inferInstanceAs (Decidable True)
  | .function f => inferInstanceAs (Decidable (f.index < 4294967296))
  | .shape s => inferInstanceAs (Decidable (s.index < 4294967296))

/-- **All ids in a text have 32 bits.** -/
def Fitting (text : List Word) : Prop := ∀ w ∈ text, w.Fits

instance (text : List Word) : Decidable (Fitting text) :=
  inferInstanceAs (Decidable (∀ w ∈ text, w.Fits))

@[simp] theorem fitting_nil : Fitting [] := fun _ h => absurd h List.not_mem_nil

@[simp] theorem fitting_cons {w : Word} {text : List Word} :
    Fitting (w :: text) ↔ w.Fits ∧ Fitting text :=
  List.forall_mem_cons

@[simp] theorem fitting_append {l m : List Word} : Fitting (l ++ m) ↔ Fitting l ∧ Fitting m :=
  List.forall_mem_append

@[simp] theorem fitting_map {α : Type} {f : α → Word} {l : List α} :
    Fitting (l.map f) ↔ ∀ x ∈ l, (f x).Fits :=
  List.forall_mem_map

@[simp] theorem fitting_flatMap {α : Type} {f : α → List Word} {l : List α} :
    Fitting (l.flatMap f) ↔ ∀ x ∈ l, Fitting (f x) :=
  List.forall_mem_flatMap

theorem yields_id : Yields id? fun n => n < 4294967296 := by
  intro j n h
  unfold id? at h
  split at h
  · split at h
    · next hlt => cases h; exact hlt
    · cases h
  · cases h

theorem FunctionId.yields : Yields FunctionId.ofJson? fun f => (Word.function f).Fits := by
  intro j f h
  obtain ⟨n, hn, rfl⟩ := yields_id.map h
  exact hn

theorem ShapeId.yields : Yields ShapeId.ofJson? fun s => (Word.shape s).Fits := by
  intro j s h
  obtain ⟨n, hn, rfl⟩ := yields_id.map h
  exact hn

/-- What several parts say fits if each part fits. -/
theorem fitting_of_cons {α : Type} {wordsAll : List α → List Word} {words : α → List Word}
    (hnil : wordsAll [] = []) (hcons : ∀ x xs, wordsAll (x :: xs) = words x ++ wordsAll xs)
    {xs : List α} : Fitting (wordsAll xs) ↔ ∀ x ∈ xs, Fitting (words x) := by
  induction xs with
  | nil => simp [hnil]
  | cons x xs ih => rw [hcons, fitting_append, ih, List.forall_mem_cons]

/-! ## Declared types -/

theorem DeclaredType.fitting_wordsAll {ds : List DeclaredType} :
    Fitting (DeclaredType.wordsAll ds) ↔ ∀ d ∈ ds, Fitting d.words :=
  fitting_of_cons rfl fun _ _ => rfl

theorem DeclaredType.fitting_words? {o : Option DeclaredType} :
    Fitting (DeclaredType.words? o) ↔ ∀ d ∈ o, Fitting d.words := by
  cases o <;> simp [DeclaredType.words?]

theorem Signature.fitting_words? {o : Option Signature} :
    Fitting (Signature.words? o) ↔ ∀ s ∈ o, Fitting s.words := by
  cases o <;> simp [Signature.words?]

theorem DeclaredType.fitting_of_tag {tag : String} {d : DeclaredType}
    (h : DeclaredType.ofTag? tag = some d) : Fitting d.words := by
  unfold DeclaredType.ofTag? at h
  split at h <;> cases h <;> exact fitting_nil

-- The recursion is on how many arrays and objects may still be entered: every decoder hands a
-- smaller number to the decoders of its parts.
mutual

theorem DeclaredType.yields (n : Nat) : Yields (DeclaredType.ofJson? n) fun d => Fitting d.words := by
  intro j d h
  unfold DeclaredType.ofJson? at h
  split at h
  · exact DeclaredType.yields_payload _ _ _ _ h
  · exact DeclaredType.fitting_of_tag h
  · cases h
termination_by n
decreasing_by all_goals omega

theorem DeclaredType.yields_payload (n : Nat) (tag : String) :
    Yields (DeclaredType.ofPayload? n tag) fun d => Fitting d.words := by
  intro j d h
  unfold DeclaredType.ofPayload? at h
  split at h
  · split at h
    · simp only [Option.bind_eq_bind, Option.bind_eq_some_iff] at h
      obtain ⟨decl, hdecl, signature, hsignature, ⟨⟩⟩ := h
      have hdecl := FunctionId.yields.optional_nullable hdecl
      have hsignature := (Signature.yields _).optional_nullable hsignature
      simp only [DeclaredType.words, fitting_append, fitting_map, Option.mem_toList]
      exact ⟨hdecl, Signature.fitting_words?.2 hsignature⟩
    · cases h
  · simp only [Option.bind_eq_bind, Option.bind_eq_some_iff] at h
    obtain ⟨members, hmembers, ⟨⟩⟩ := h
    exact DeclaredType.fitting_wordsAll.2 ((DeclaredType.yields _).mapM hmembers)
  · obtain ⟨s, hs, rfl⟩ := ShapeId.yields.map h
    exact fitting_cons.2 ⟨hs, fitting_nil⟩
  · exact DeclaredType.fitting_of_tag h
  · cases h
termination_by n
decreasing_by all_goals omega

theorem Signature.yields (n : Nat) : Yields (Signature.ofJson? n) fun s => Fitting s.words := by
  intro j s h
  unfold Signature.ofJson? at h
  split at h
  · split at h
    · simp only [Option.bind_eq_bind, Option.bind_eq_some_iff] at h
      obtain ⟨params, hparams, thisType, hthis, ret, hret, ⟨⟩⟩ := h
      have hparams := (DeclaredType.yields_list _).optional hparams fitting_nil
      have hthis := (DeclaredType.yields _).optional_nullable hthis
      have hret := (DeclaredType.yields _).optional hret fitting_nil
      rw [Signature.words, fitting_append, fitting_append]
      exact ⟨⟨hparams, DeclaredType.fitting_words?.2 hthis⟩, hret⟩
    · cases h
  · cases h
termination_by n
decreasing_by all_goals omega

theorem DeclaredType.yields_list (n : Nat) :
    Yields (DeclaredType.listOfJson? n) fun ds => Fitting (DeclaredType.wordsAll ds) := by
  intro j ds h
  unfold DeclaredType.listOfJson? at h
  split at h
  · exact DeclaredType.fitting_wordsAll.2 ((DeclaredType.yields _).mapM h)
  · cases h
termination_by n
decreasing_by all_goals omega

end

/-! ## Expressions -/

theorem Expr.fitting_wordsAll {es : List Expr} :
    Fitting (Expr.wordsAll es) ↔ ∀ e ∈ es, Fitting e.words :=
  fitting_of_cons rfl fun _ _ => rfl

theorem Entry.fitting_wordsAll {es : List Entry} :
    Fitting (Entry.wordsAll es) ↔ ∀ e ∈ es, Fitting e.value.words := by
  induction es with
  | nil => simp [Entry.wordsAll]
  | cons e es ih =>
    cases e
    simp [Entry.wordsAll, Word.Fits, ih]

theorem Form.fitting_of_tag {tag : String} {form : Form} (h : Form.ofTag? tag = some form) :
    Fitting form.words := by
  unfold Form.ofTag? at h
  split at h <;> cases h <;> exact fitting_nil

mutual

theorem Expr.yields (n : Nat) : Yields (Expr.ofJson? n) fun e => Fitting e.words := by
  intro j e h
  unfold Expr.ofJson? at h
  split at h
  · split at h
    · simp only [Option.bind_eq_bind, Option.bind_eq_some_iff] at h
      obtain ⟨form, hform, declared, hdeclared, ⟨⟩⟩ := h
      have hform := (Form.yields _).required hform
      have hdeclared := (DeclaredType.yields _).optional_nullable hdeclared
      exact fitting_append.2 ⟨hform, DeclaredType.fitting_words?.2 hdeclared⟩
    · cases h
  · cases h
termination_by n
decreasing_by all_goals omega

theorem Form.yields (n : Nat) : Yields (Form.ofJson? n) fun form => Fitting form.words := by
  intro j form h
  unfold Form.ofJson? at h
  split at h
  · exact Form.yields_payload _ _ _ _ h
  · exact Form.fitting_of_tag h
  · cases h
termination_by n
decreasing_by all_goals omega

theorem Form.yields_payload (n : Nat) (tag : String) :
    Yields (Form.ofPayload? n tag) fun form => Fitting form.words := by
  intro j form h
  unfold Form.ofPayload? at h
  -- one case for each tag, in the order of the decoder
  split at h
  · simp only [Option.bind_eq_bind, Option.bind_eq_some_iff] at h
    obtain ⟨entries, hentries, ⟨⟩⟩ := h
    exact Entry.fitting_wordsAll.2 ((Entry.yields _).mapM hentries)
  · simp only [Option.bind_eq_bind, Option.bind_eq_some_iff] at h
    obtain ⟨elements, helements, ⟨⟩⟩ := h
    exact Expr.fitting_wordsAll.2 ((Expr.yields _).mapM helements)
  · split at h
    · simp only [Option.bind_eq_bind, Option.bind_eq_some_iff] at h
      obtain ⟨receiver, hreceiver, property, -, ⟨⟩⟩ := h
      exact fitting_append.2 ⟨(Expr.yields _).required hreceiver, fitting_cons.2 ⟨trivial, fitting_nil⟩⟩
    · cases h
  · split at h
    · simp only [Option.bind_eq_bind, Option.bind_eq_some_iff] at h
      obtain ⟨receiver, hreceiver, index, hindex, ⟨⟩⟩ := h
      exact fitting_append.2 ⟨(Expr.yields _).required hreceiver, (Expr.yields _).required hindex⟩
    · cases h
  · split at h
    · simp only [Option.bind_eq_bind, Option.bind_eq_some_iff] at h
      obtain ⟨callee, hcallee, args, hargs, ⟨⟩⟩ := h
      exact fitting_append.2 ⟨(Expr.yields _).required hcallee, (Expr.yields_list _).required hargs⟩
    · cases h
  · split at h
    · simp only [Option.bind_eq_bind, Option.bind_eq_some_iff] at h
      obtain ⟨callee, hcallee, args, hargs, ⟨⟩⟩ := h
      exact fitting_append.2 ⟨(Expr.yields _).required hcallee, (Expr.yields_list _).required hargs⟩
    · cases h
  · split at h
    · simp only [Option.bind_eq_bind, Option.bind_eq_some_iff] at h
      obtain ⟨target, htarget, value, hvalue, ⟨⟩⟩ := h
      exact fitting_append.2 ⟨(Expr.yields _).required htarget, (Expr.yields _).required hvalue⟩
    · cases h
  · simp only [Option.bind_eq_bind, Option.bind_eq_some_iff] at h
    obtain ⟨operands, hoperands, ⟨⟩⟩ := h
    exact Expr.fitting_wordsAll.2 ((Expr.yields _).mapM hoperands)
  · simp only [Option.bind_eq_bind, Option.bind_eq_some_iff] at h
    obtain ⟨left, hleft, right, hright, ⟨⟩⟩ := h
    exact fitting_append.2 ⟨Expr.yields _ _ _ hleft, Expr.yields _ _ _ hright⟩
  · simp only [Option.bind_eq_bind, Option.bind_eq_some_iff] at h
    obtain ⟨left, hleft, right, hright, ⟨⟩⟩ := h
    exact fitting_append.2 ⟨Expr.yields _ _ _ hleft, Expr.yields _ _ _ hright⟩
  · split at h
    · simp only [Option.bind_eq_bind, Option.bind_eq_some_iff] at h
      obtain ⟨test, htest, yes, hyes, no, hno, ⟨⟩⟩ := h
      exact fitting_append.2
        ⟨fitting_append.2 ⟨(Expr.yields _).required htest, (Expr.yields _).required hyes⟩,
          (Expr.yields _).required hno⟩
    · cases h
  · simp only [Option.bind_eq_bind, Option.bind_eq_some_iff] at h
    obtain ⟨operands, hoperands, ⟨⟩⟩ := h
    exact Expr.fitting_wordsAll.2 ((Expr.yields _).mapM hoperands)
  · obtain ⟨x, -, rfl⟩ := Option.map_eq_some_iff.1 h
    exact fitting_cons.2 ⟨trivial, fitting_nil⟩
  · obtain ⟨f, hf, rfl⟩ := FunctionId.yields.map h
    exact fitting_cons.2 ⟨hf, fitting_nil⟩
  · exact Form.fitting_of_tag h
  · cases h
termination_by n
decreasing_by all_goals omega

theorem Entry.yields (n : Nat) : Yields (Entry.ofJson? n) fun e => Fitting e.value.words := by
  intro j e h
  unfold Entry.ofJson? at h
  split at h
  · split at h
    · simp only [Option.bind_eq_bind, Option.bind_eq_some_iff] at h
      obtain ⟨key, -, value, hvalue, ⟨⟩⟩ := h
      exact (Expr.yields _).required hvalue
    · cases h
  · cases h
termination_by n
decreasing_by all_goals omega

theorem Expr.yields_list (n : Nat) :
    Yields (Expr.listOfJson? n) fun es => Fitting (Expr.wordsAll es) := by
  intro j es h
  unfold Expr.listOfJson? at h
  split at h
  · exact Expr.fitting_wordsAll.2 ((Expr.yields _).mapM h)
  · cases h
termination_by n
decreasing_by all_goals omega

end

/-! ## Statements -/

theorem Expr.fitting_words? {o : Option Expr} :
    Fitting (Expr.words? o) ↔ ∀ e ∈ o, Fitting e.words := by
  cases o <;> simp [Expr.words?]

theorem Stmt.fitting_wordsAll {sts : List Stmt} :
    Fitting (Stmt.wordsAll sts) ↔ ∀ st ∈ sts, Fitting st.words :=
  fitting_of_cons rfl fun _ _ => rfl

mutual

theorem Stmt.yields (n : Nat) : Yields (Stmt.ofJson? n) fun st => Fitting st.words := by
  intro j st h
  unfold Stmt.ofJson? at h
  split at h
  · exact Stmt.yields_payload _ _ _ _ h
  · cases h
termination_by n
decreasing_by all_goals omega

theorem Stmt.yields_payload (n : Nat) (tag : String) :
    Yields (Stmt.ofPayload? n tag) fun st => Fitting st.words := by
  intro j st h
  unfold Stmt.ofPayload? at h
  split at h
  · split at h
    · simp only [Option.bind_eq_bind, Option.bind_eq_some_iff] at h
      obtain ⟨name, -, value, hvalue, declared, hdeclared, ⟨⟩⟩ := h
      have hvalue := (Expr.yields _).optional_nullable hvalue
      have hdeclared := (DeclaredType.yields _).optional_nullable hdeclared
      exact fitting_cons.2 ⟨trivial, fitting_append.2
        ⟨Expr.fitting_words?.2 hvalue, DeclaredType.fitting_words?.2 hdeclared⟩⟩
    · cases h
  · split at h
    · simp only [Option.bind_eq_bind, Option.bind_eq_some_iff] at h
      obtain ⟨test, htest, yes, hyes, no, hno, ⟨⟩⟩ := h
      exact fitting_append.2 ⟨fitting_append.2 ⟨(Expr.yields _).required htest,
        (Stmt.yields_list _).required hyes⟩, (Stmt.yields_list _).optional hno fitting_nil⟩
    · cases h
  · split at h
    · simp only [Option.bind_eq_bind, Option.bind_eq_some_iff] at h
      obtain ⟨test, htest, body, hbody, ⟨⟩⟩ := h
      exact fitting_append.2 ⟨(Expr.yields _).required htest, (Stmt.yields_list _).required hbody⟩
    · cases h
  · simp only [Option.bind_eq_bind, Option.bind_eq_some_iff] at h
    obtain ⟨body, hbody, ⟨⟩⟩ := h
    exact Stmt.fitting_wordsAll.2 ((Stmt.yields _).mapM hbody)
  · obtain ⟨f, hf, rfl⟩ := FunctionId.yields.map h
    exact fitting_cons.2 ⟨hf, fitting_nil⟩
  · obtain ⟨e, he, rfl⟩ := (Expr.yields _).map h
    exact he
  · obtain ⟨value, hvalue, rfl⟩ := (Expr.yields _).nullable.map h
    exact Expr.fitting_words?.2 hvalue
  · cases h
termination_by n
decreasing_by all_goals omega

theorem Stmt.yields_list (n : Nat) :
    Yields (Stmt.listOfJson? n) fun sts => Fitting (Stmt.wordsAll sts) := by
  intro j sts h
  unfold Stmt.listOfJson? at h
  split at h
  · exact Stmt.fitting_wordsAll.2 ((Stmt.yields _).mapM h)
  · cases h
termination_by n
decreasing_by all_goals omega

end

/-! ## Declarations -/

theorem ShapeDecl.yields (n : Nat) : Yields (ShapeDecl.ofJson? n) fun d => Fitting d.words := by
  intro j d h
  unfold ShapeDecl.ofJson? at h
  split at h
  · split at h
    · simp only [Option.bind_eq_bind, Option.bind_eq_some_iff] at h
      obtain ⟨name, -, kind, -, properties, -, proto, hproto, subtypes, hsubtypes, implementors,
        himplementors, ⟨⟩⟩ := h
      have hproto := ShapeId.yields.optional_nullable hproto
      have hsubtypes := ShapeId.yields.leaves.optional hsubtypes nofun
      have himplementors := FunctionId.yields.leaves.optional himplementors nofun
      simp only [ShapeDecl.words, fitting_append, fitting_map, Option.mem_toList]
      exact ⟨⟨⟨fun _ _ => trivial, hproto⟩, hsubtypes⟩, himplementors⟩
    · cases h
  · cases h

theorem FunctionDecl.yields (n : Nat) : Yields (FunctionDecl.ofJson? n) fun d => Fitting d.words := by
  intro j d h
  unfold FunctionDecl.ofJson? at h
  split at h
  · split at h
    · simp only [Option.bind_eq_bind, Option.bind_eq_some_iff] at h
      obtain ⟨name, -, params, -, body, hbody, signature, hsignature, object, hobject, prototype,
        hprototype, superclass, hsuper, ⟨⟩⟩ := h
      have hbody := (Stmt.yields_list _).optional_nullable hbody
      have hsignature := (Signature.yields _).optional hsignature fitting_nil
      have hobject := ShapeId.yields.optional_nullable hobject
      have hprototype := ShapeId.yields.optional_nullable hprototype
      have hsuper := FunctionId.yields.optional_nullable hsuper
      simp only [FunctionDecl.words, fitting_append, fitting_map, Option.mem_toList]
      refine ⟨⟨⟨⟨⟨⟨fun _ _ => trivial, fun _ _ => trivial⟩, ?_⟩, hsignature⟩, hobject⟩, hprototype⟩,
        hsuper⟩
      cases body with
      | none => exact fitting_nil
      | some body => exact hbody body rfl
    · cases h
  · cases h

/-- **What is read has ids of 32 bits.** -/
theorem Program.yields (n : Nat) : Yields (Program.ofJson? n) fun p => Fitting p.words := by
  intro j p h
  unfold Program.ofJson? at h
  split at h
  · split at h
    · simp only [Option.bind_eq_bind, Option.bind_eq_some_iff] at h
      obtain ⟨shapes, hshapes, functions, hfunctions, ambient, hambient, body, hbody, arrayShape, harray,
        ⟨⟩⟩ := h
      have hshapes := (Yields.list ShapeDecl.yields _).optional hshapes nofun
      have hfunctions := (Yields.list FunctionDecl.yields _).optional hfunctions nofun
      have hambient := (Stmt.yields_list _).optional hambient fitting_nil
      have hbody := (Stmt.yields_list _).optional hbody fitting_nil
      have harray := ShapeId.yields.optional_nullable harray
      simp only [Program.words, fitting_append, fitting_map, fitting_flatMap, Option.mem_toList]
      exact ⟨⟨⟨⟨hshapes, hfunctions⟩, hambient⟩, hbody⟩, harray⟩
    · cases h
  · cases h

end TypeFlow
