import TypeFlow.Proofs.JsonText
import TypeFlow.Proofs.ProgramIds

/-!
# Programs as text

A program is written with every field, and reading fills in what is left out, so what was
written is read back unchanged. Reading is bounded in two ways: ids have 32 bits, and arrays
and objects nest to a certain depth only.

* `DeclaredType.reads`, `Expr.reads`, `Stmt.reads`: the parts of a program are read back.
* `Program.reads`: a program is read back.
* `program_text_round_trip`: writing and reading, in both orders.
-/

namespace TypeFlow

open Json

/-! ## Ids -/

theorem FunctionId.ofJson?_toJson {f : FunctionId} (h : (Word.function f).Fits) :
    ofJson? f.toJson = some f := by
  rw [ofJson?, toJson, id?, if_pos (by exact h), Option.map_some]

theorem ShapeId.ofJson?_toJson {s : ShapeId} (h : (Word.shape s).Fits) : ofJson? s.toJson = some s := by
  rw [ofJson?, toJson, id?, if_pos (by exact h), Option.map_some]

theorem FunctionId.reads_option {o : Option FunctionId} (h : ∀ f ∈ o, (Word.function f).Fits) :
    Reads (fun _ => nullable FunctionId.ofJson?) (ofOption FunctionId.toJson o) o :=
  .option (fun _ => rfl) fun f hf _ _ => FunctionId.ofJson?_toJson (h f hf)

theorem ShapeId.reads_option {o : Option ShapeId} (h : ∀ s ∈ o, (Word.shape s).Fits) :
    Reads (fun _ => nullable ShapeId.ofJson?) (ofOption ShapeId.toJson o) o :=
  .option (fun _ => rfl) fun s hs _ _ => ShapeId.ofJson?_toJson (h s hs)

/-! ## Declared types -/

namespace DeclaredType

theorem listToJson_eq_map : ∀ ds : List DeclaredType, listToJson ds = ds.map toJson :=
  eq_map_of_cons rfl fun _ _ => rfl

theorem optionToJson_eq (o : Option DeclaredType) : optionToJson o = ofOption toJson o := by
  cases o <;> rfl

theorem ofJson?_null (n : Nat) : ofJson? n .null = none := by
  cases n <;> rfl

theorem ofJson?_object (n : Nat) (tag : String) (v : Json) :
    ofJson? (n + 1) (.object [⟨some tag, v⟩]) = ofPayload? n tag v :=
  rfl

end DeclaredType

theorem Signature.ofJson?_null (n : Nat) : Signature.ofJson? n .null = none := by
  cases n <;> rfl

-- Each case opens the decoder at one tag and finds there what the parts are read as.
mutual

theorem DeclaredType.reads : ∀ d : DeclaredType, Fitting d.words → Reads DeclaredType.ofJson? d.toJson d
  | .unknown, _ => fun n _ => by cases n <;> rfl
  | .primitive, _ => fun n _ => by cases n <;> rfl
  | .anyObject, _ => fun n _ => by cases n <;> rfl
  | .object s, h => .variant DeclaredType.ofJson?_object fun n _ => by
    simp only [DeclaredType.ofPayload?, ShapeId.ofJson?_toJson (h _ (.head _)), Option.map_some]
  | .function decl signature, h => by
    simp only [DeclaredType.words, fitting_append, fitting_map, Option.mem_toList] at h
    refine .variant DeclaredType.ofJson?_object
      (.pair (by decide) (FunctionId.reads_option h.1) (Signature.reads_option signature h.2) ?_)
    intro n j hrecord hdecl hsignature
    simp only [DeclaredType.ofPayload?, hrecord, Json.optional, hdecl, hsignature]
    rfl
  | .union members, h => by
    refine .variant DeclaredType.ofJson?_object (.items (DeclaredType.listToJson_eq_map members) ?_
      (DeclaredType.reads_of_mem members h))
    intro n hitems
    simp only [DeclaredType.ofPayload?, hitems]
    rfl
termination_by structural d => d

theorem DeclaredType.reads_of_mem : ∀ ds : List DeclaredType, Fitting (DeclaredType.wordsAll ds) →
    ∀ d ∈ ds, Reads DeclaredType.ofJson? d.toJson d
  | [], _ => fun _ hd => absurd hd List.not_mem_nil
  | d :: ds, h => by
    rw [DeclaredType.wordsAll, fitting_append] at h
    exact List.forall_mem_cons.2 ⟨DeclaredType.reads d h.1, DeclaredType.reads_of_mem ds h.2⟩
termination_by structural ds => ds

theorem DeclaredType.reads_option : ∀ o : Option DeclaredType, Fitting (DeclaredType.words? o) →
    Reads (fun n => nullable (DeclaredType.ofJson? n)) (DeclaredType.optionToJson o) o
  | none, _ => fun _ _ => rfl
  | some d, h => fun n hn => nullable_eq_some (DeclaredType.ofJson?_null n) (DeclaredType.reads d h n hn)
termination_by structural o => o

theorem Signature.reads : ∀ s : Signature, Fitting s.words → Reads Signature.ofJson? s.toJson s
  | ⟨params, thisType, ret⟩, h => by
    rw [Signature.words, fitting_append, fitting_append] at h
    have hparams : Reads DeclaredType.listOfJson? (.array (DeclaredType.listToJson params)) params :=
      .items (DeclaredType.listToJson_eq_map params) (fun _ hitems => hitems)
        (DeclaredType.reads_of_mem params h.1.1)
    have hthis := DeclaredType.reads_option thisType h.1.2
    have hret := DeclaredType.reads ret h.2
    refine .record ["params", "this_type", "ret"] rfl (by decide) fun n hn hrecord => ?_
    simp only [List.forall_mem_cons] at hn
    simp only [Signature.ofJson?, hrecord, List.map, Json.optional, hparams n hn.1, hthis n hn.2.1,
      hret n hn.2.2.1]
    rfl
termination_by structural s => s

theorem Signature.reads_option : ∀ o : Option Signature, Fitting (Signature.words? o) →
    Reads (fun n => nullable (Signature.ofJson? n)) (Signature.optionToJson o) o
  | none, _ => fun _ _ => rfl
  | some s, h => fun n hn => nullable_eq_some (Signature.ofJson?_null n) (Signature.reads s h n hn)
termination_by structural o => o

end

theorem DeclaredType.reads_ofOption {o : Option DeclaredType} (h : Fitting (DeclaredType.words? o)) :
    Reads (fun n => nullable (DeclaredType.ofJson? n)) (ofOption DeclaredType.toJson o) o :=
  DeclaredType.optionToJson_eq o ▸ DeclaredType.reads_option o h

/-! ## Expressions -/

theorem Expr.listToJson_eq_map : ∀ es : List Expr, listToJson es = es.map toJson :=
  eq_map_of_cons rfl fun _ _ => rfl

theorem Entry.listToJson_eq_map : ∀ es : List Entry, listToJson es = es.map toJson :=
  eq_map_of_cons rfl fun _ _ => rfl

theorem Expr.reads_all {es : List Expr} (h : ∀ e ∈ es, Reads Expr.ofJson? e.toJson e) :
    Reads Expr.listOfJson? (.array (Expr.listToJson es)) es :=
  .items (Expr.listToJson_eq_map es) (fun _ hitems => hitems) h

theorem Form.ofJson?_object (n : Nat) (tag : String) (v : Json) :
    Form.ofJson? (n + 1) (.object [⟨some tag, v⟩]) = Form.ofPayload? n tag v :=
  rfl

theorem reads_text (s : String) : Reads (fun _ => text?) (.text s) s := fun _ _ => rfl

mutual

theorem Expr.reads : ∀ e : Expr, Fitting e.words → Reads Expr.ofJson? e.toJson e
  | ⟨form, declared⟩, h => by
    rw [Expr.words, fitting_append] at h
    refine .pair (by decide) (Form.reads form h.1) (DeclaredType.reads_ofOption h.2) ?_
    intro n j hrecord hform hdeclared
    simp only [Expr.ofJson?, hrecord, Json.optional, required, Option.bind_some, hform, hdeclared]
    rfl
termination_by structural e => e

theorem Form.reads : ∀ form : Form, Fitting form.words → Reads Form.ofJson? form.toJson form
  | .name x, _ => .variant Form.ofJson?_object fun n _ => by
    simp only [Form.ofPayload?, reads_text x n (Nat.zero_le n), Option.map_some]
  | .this, _ => fun n _ => by cases n <;> rfl
  | .literal, _ => fun n _ => by cases n <;> rfl
  | .function f, h => .variant Form.ofJson?_object fun n _ => by
    simp only [Form.ofPayload?, FunctionId.ofJson?_toJson (h _ (.head _)), Option.map_some]
  | .objectLit entries, h => by
    refine .variant Form.ofJson?_object
      (.items (Entry.listToJson_eq_map entries) ?_ (Entry.reads_of_mem entries h))
    intro n hitems
    simp only [Form.ofPayload?, hitems]
    rfl
  | .arrayLit elements, h => by
    refine .variant Form.ofJson?_object
      (.items (Expr.listToJson_eq_map elements) ?_ (Expr.reads_of_mem elements h))
    intro n hitems
    simp only [Form.ofPayload?, hitems]
    rfl
  | .prop receiver property, h => by
    rw [Form.words, fitting_append] at h
    refine .variant Form.ofJson?_object
      (.pair (by decide) (Expr.reads receiver h.1) (reads_text property) ?_)
    intro n j hrecord hreceiver hproperty
    simp only [Form.ofPayload?, hrecord, required, Option.bind_some, hreceiver, hproperty]
    rfl
  | .elem receiver index, h => by
    rw [Form.words, fitting_append] at h
    refine .variant Form.ofJson?_object
      (.pair (by decide) (Expr.reads receiver h.1) (Expr.reads index h.2) ?_)
    intro n j hrecord hreceiver hindex
    simp only [Form.ofPayload?, hrecord, required, Option.bind_some, hreceiver, hindex]
    rfl
  | .call callee args, h => by
    rw [Form.words, fitting_append] at h
    refine .variant Form.ofJson?_object
      (.pair (by decide) (Expr.reads callee h.1) (Expr.reads_all (Expr.reads_of_mem args h.2)) ?_)
    intro n j hrecord hcallee hargs
    simp only [Form.ofPayload?, hrecord, required, Option.bind_some, hcallee, hargs]
    rfl
  | .construct callee args, h => by
    rw [Form.words, fitting_append] at h
    refine .variant Form.ofJson?_object
      (.pair (by decide) (Expr.reads callee h.1) (Expr.reads_all (Expr.reads_of_mem args h.2)) ?_)
    intro n j hrecord hcallee hargs
    simp only [Form.ofPayload?, hrecord, required, Option.bind_some, hcallee, hargs]
    rfl
  | .assign target value, h => by
    rw [Form.words, fitting_append] at h
    refine .variant Form.ofJson?_object
      (.pair (by decide) (Expr.reads target h.1) (Expr.reads value h.2) ?_)
    intro n j hrecord htarget hvalue
    simp only [Form.ofPayload?, hrecord, required, Option.bind_some, htarget, hvalue]
    rfl
  | .comma operands, h => by
    refine .variant Form.ofJson?_object
      (.items (Expr.listToJson_eq_map operands) ?_ (Expr.reads_of_mem operands h))
    intro n hitems
    simp only [Form.ofPayload?, hitems]
    rfl
  | .and left right, h => by
    rw [Form.words, fitting_append] at h
    refine .variant Form.ofJson?_object (.array fun n hn => ?_)
    simp only [List.forall_mem_cons] at hn
    simp only [Form.ofPayload?, Expr.reads left h.1 n hn.1, Expr.reads right h.2 n hn.2.1]
    rfl
  | .or left right, h => by
    rw [Form.words, fitting_append] at h
    refine .variant Form.ofJson?_object (.array fun n hn => ?_)
    simp only [List.forall_mem_cons] at hn
    simp only [Form.ofPayload?, Expr.reads left h.1 n hn.1, Expr.reads right h.2 n hn.2.1]
    rfl
  | .cond test yes no, h => by
    rw [Form.words, fitting_append, fitting_append] at h
    refine .variant Form.ofJson?_object
      (.record ["cond", "then_expr", "else_expr"] rfl (by decide) fun n hn hrecord => ?_)
    simp only [List.forall_mem_cons] at hn
    simp only [Form.ofPayload?, hrecord, List.map, required, Option.bind_some,
      Expr.reads test h.1.1 n hn.1, Expr.reads yes h.1.2 n hn.2.1, Expr.reads no h.2 n hn.2.2.1]
    rfl
  | .unknown operands, h => by
    refine .variant Form.ofJson?_object
      (.items (Expr.listToJson_eq_map operands) ?_ (Expr.reads_of_mem operands h))
    intro n hitems
    simp only [Form.ofPayload?, hitems]
    rfl
termination_by structural form => form

theorem Expr.reads_of_mem : ∀ es : List Expr, Fitting (Expr.wordsAll es) →
    ∀ e ∈ es, Reads Expr.ofJson? e.toJson e
  | [], _ => fun _ he => absurd he List.not_mem_nil
  | e :: es, h => by
    rw [Expr.wordsAll, fitting_append] at h
    exact List.forall_mem_cons.2 ⟨Expr.reads e h.1, Expr.reads_of_mem es h.2⟩
termination_by structural es => es

theorem Entry.reads_of_mem : ∀ es : List Entry, Fitting (Entry.wordsAll es) →
    ∀ e ∈ es, Reads Entry.ofJson? e.toJson e
  | [], _ => fun _ he => absurd he List.not_mem_nil
  | ⟨key, value⟩ :: es, h => by
    rw [Entry.wordsAll, fitting_cons, fitting_append] at h
    refine List.forall_mem_cons.2 ⟨?_, Entry.reads_of_mem es h.2.2⟩
    refine .pair (by decide) (reads_text key) (Expr.reads value h.2.1) ?_
    intro n j hrecord hkey hvalue
    simp only [Entry.ofJson?, hrecord, required, Option.bind_some, hkey, hvalue]
    rfl
termination_by structural es => es

end

theorem Expr.ofJson?_null (n : Nat) : Expr.ofJson? n .null = none := by
  cases n <;> rfl

theorem Expr.reads_option {o : Option Expr} (h : Fitting (Expr.words? o)) :
    Reads (fun n => nullable (Expr.ofJson? n)) (ofOption Expr.toJson o) o :=
  .option Expr.ofJson?_null (by rintro e ⟨⟩; exact Expr.reads e h)

/-! ## Statements -/

namespace Stmt

theorem listToJson_eq_map : ∀ sts : List Stmt, listToJson sts = sts.map toJson :=
  eq_map_of_cons rfl fun _ _ => rfl

theorem reads_all {sts : List Stmt} (h : ∀ st ∈ sts, Reads ofJson? st.toJson st) :
    Reads listOfJson? (.array (listToJson sts)) sts :=
  .items (listToJson_eq_map sts) (fun _ hitems => hitems) h

theorem ofJson?_object (n : Nat) (tag : String) (v : Json) :
    ofJson? (n + 1) (.object [⟨some tag, v⟩]) = ofPayload? n tag v :=
  rfl

theorem listOfJson?_null (n : Nat) : listOfJson? n .null = none := by
  cases n <;> rfl

end Stmt

mutual

theorem Stmt.reads : ∀ st : Stmt, Fitting st.words → Reads Stmt.ofJson? st.toJson st
  | .var name value declared, h => by
    rw [Stmt.words, fitting_cons, fitting_append] at h
    have hvalue := Expr.reads_option h.2.1
    have hdeclared := DeclaredType.reads_ofOption h.2.2
    refine .variant Stmt.ofJson?_object
      (.record ["name", "init", "declared"] rfl (by decide) fun n hn hrecord => ?_)
    simp only [List.forall_mem_cons] at hn
    simp only [Stmt.ofPayload?, hrecord, List.map, required, Json.optional, Option.bind_some,
      reads_text name n hn.1, hvalue n hn.2.1, hdeclared n hn.2.2.1]
    rfl
  | .function f, h => .variant Stmt.ofJson?_object fun n _ => by
    simp only [Stmt.ofPayload?, FunctionId.ofJson?_toJson (h _ (.head _)), Option.map_some]
  | .expr e, h => .variant Stmt.ofJson?_object fun n hn => by
    simp only [Stmt.ofPayload?, Expr.reads e h n hn, Option.map_some]
  | .ret value, h => .variant Stmt.ofJson?_object fun n hn => by
    simp only [Stmt.ofPayload?, Expr.reads_option h n hn, Option.map_some]
  | .branch test yes no, h => by
    rw [Stmt.words, fitting_append, fitting_append] at h
    have htest := Expr.reads test h.1.1
    have hyes := Stmt.reads_all (Stmt.reads_of_mem yes h.1.2)
    have hno := Stmt.reads_all (Stmt.reads_of_mem no h.2)
    refine .variant Stmt.ofJson?_object
      (.record ["cond", "then_branch", "else_branch"] rfl (by decide) fun n hn hrecord => ?_)
    simp only [List.forall_mem_cons] at hn
    simp only [Stmt.ofPayload?, hrecord, List.map, required, Json.optional, Option.bind_some,
      htest n hn.1, hyes n hn.2.1, hno n hn.2.2.1]
    rfl
  | .loop test body, h => by
    rw [Stmt.words, fitting_append] at h
    refine .variant Stmt.ofJson?_object
      (.pair (by decide) (Expr.reads test h.1) (Stmt.reads_all (Stmt.reads_of_mem body h.2)) ?_)
    intro n j hrecord htest hbody
    simp only [Stmt.ofPayload?, hrecord, required, Option.bind_some, htest, hbody]
    rfl
  | .block body, h => by
    refine .variant Stmt.ofJson?_object
      (.items (Stmt.listToJson_eq_map body) ?_ (Stmt.reads_of_mem body h))
    intro n hitems
    simp only [Stmt.ofPayload?, hitems]
    rfl
termination_by structural st => st

theorem Stmt.reads_of_mem : ∀ sts : List Stmt, Fitting (Stmt.wordsAll sts) →
    ∀ st ∈ sts, Reads Stmt.ofJson? st.toJson st
  | [], _ => fun _ hst => absurd hst List.not_mem_nil
  | st :: sts, h => by
    rw [Stmt.wordsAll, fitting_append] at h
    exact List.forall_mem_cons.2 ⟨Stmt.reads st h.1, Stmt.reads_of_mem sts h.2⟩
termination_by structural sts => sts

end

/-! ## Declarations -/

theorem reads_texts (l : List String) : Reads (leaves? text?) (.ofTexts l) l :=
  .items rfl (fun _ hitems => hitems) fun s _ => reads_text s

theorem ShapeKind.reads (k : ShapeKind) : Reads (bare? ShapeKind.ofTag?) (.text k.tag) k :=
  fun n _ => by cases n <;> cases k <;> rfl

theorem ShapeDecl.reads {d : ShapeDecl} (h : Fitting d.words) : Reads ShapeDecl.ofJson? d.toJson d := by
  simp only [ShapeDecl.words, fitting_append, fitting_map, Option.mem_toList] at h
  obtain ⟨⟨⟨-, hproto⟩, hsubtypes⟩, himplementors⟩ := h
  have hproto := ShapeId.reads_option hproto
  have hsubtypes : Reads (leaves? ShapeId.ofJson?) (.array (d.subtypes.map ShapeId.toJson)) d.subtypes :=
    .items rfl (fun _ hitems => hitems) fun s hs _ _ => ShapeId.ofJson?_toJson (hsubtypes s hs)
  have himplementors :
      Reads (leaves? FunctionId.ofJson?) (.array (d.implementors.map FunctionId.toJson)) d.implementors :=
    .items rfl (fun _ hitems => hitems) fun f hf _ _ => FunctionId.ofJson?_toJson (himplementors f hf)
  refine .record ["name", "kind", "properties", "implicit_prototype", "subtypes", "implementors"] rfl
    (by decide) fun n hn hrecord => ?_
  simp only [List.forall_mem_cons] at hn
  obtain ⟨h₁, h₂, h₃, h₄, h₅, h₆, -⟩ := hn
  simp only [ShapeDecl.ofJson?, hrecord, List.map, required, Json.optional, Option.bind_some,
    reads_text d.name n h₁, d.kind.reads n h₂, reads_texts d.properties n h₃, hproto n h₄,
    hsubtypes n h₅, himplementors n h₆]
  rfl

theorem FunctionDecl.reads {d : FunctionDecl} (h : Fitting d.words) :
    Reads FunctionDecl.ofJson? d.toJson d := by
  simp only [FunctionDecl.words, fitting_append, fitting_map, Option.mem_toList] at h
  obtain ⟨⟨⟨⟨⟨-, hbody⟩, hsignature⟩, hobject⟩, hprototype⟩, hsuper⟩ := h
  have hname : Reads (fun _ => nullable text?) (ofOption .text d.name) d.name :=
    .option (fun _ => rfl) fun s _ => reads_text s
  -- a body without statements is an array, so it is told from a missing body
  have hbody : Reads (fun n => nullable (Stmt.listOfJson? n))
      (ofOption (fun body => .array (Stmt.listToJson body)) d.body) d.body := by
    refine .option Stmt.listOfJson?_null fun body hmem => Stmt.reads_all (Stmt.reads_of_mem body ?_)
    rw [Option.mem_def.1 hmem] at hbody
    exact hbody
  have hsignature := Signature.reads d.signature hsignature
  have hobject := ShapeId.reads_option hobject
  have hprototype := ShapeId.reads_option hprototype
  have hsuper := FunctionId.reads_option hsuper
  refine .record ["name", "params", "body", "signature", "instance_shape", "prototype_shape",
    "superclass"] rfl (by decide) fun n hn hrecord => ?_
  simp only [List.forall_mem_cons] at hn
  obtain ⟨h₁, h₂, h₃, h₄, h₅, h₆, h₇, -⟩ := hn
  simp only [FunctionDecl.ofJson?, hrecord, List.map, Json.optional, hname n h₁,
    reads_texts d.params n h₂, hbody n h₃, hsignature n h₄, hobject n h₅, hprototype n h₆, hsuper n h₇]
  rfl

/-- **A program whose ids have 32 bits is read back.** -/
theorem Program.reads {p : Program} (h : Fitting p.words) : Reads Program.ofJson? p.toJson p := by
  simp only [Program.words, fitting_append, fitting_map, fitting_flatMap, Option.mem_toList] at h
  obtain ⟨⟨⟨⟨hshapes, hfunctions⟩, hambient⟩, hbody⟩, harray⟩ := h
  have hshapes : Reads (list? ShapeDecl.ofJson?) (.array (p.shapes.map ShapeDecl.toJson)) p.shapes :=
    .items rfl (fun _ hitems => hitems) fun d hd => ShapeDecl.reads (hshapes d hd)
  have hfunctions :
      Reads (list? FunctionDecl.ofJson?) (.array (p.functions.map FunctionDecl.toJson)) p.functions :=
    .items rfl (fun _ hitems => hitems) fun d hd => FunctionDecl.reads (hfunctions d hd)
  have hambient := Stmt.reads_all (Stmt.reads_of_mem p.ambient hambient)
  have hbody := Stmt.reads_all (Stmt.reads_of_mem p.body hbody)
  have harray := ShapeId.reads_option harray
  refine .record ["shapes", "functions", "externs", "body", "array_shape"] rfl (by decide)
    fun n hn hrecord => ?_
  simp only [List.forall_mem_cons] at hn
  obtain ⟨h₁, h₂, h₃, h₄, h₅, -⟩ := hn
  simp only [Program.ofJson?, hrecord, List.map, Json.optional, hshapes n h₁, hfunctions n h₂,
    hambient n h₃, hbody n h₄, harray n h₅]
  rfl

/-! ## Texts -/

theorem Program.parse_render {p : Program} (hfit : Fitting p.words)
    (hdepth : p.toJson.depth ≤ Program.maxDepth) : Program.parse p.render = some p := by
  rw [Program.parse, Program.render, Json.parse_render, Option.bind_some, Program.reads hfit _ hdepth]

theorem Program.fitting_of_parse {text : String} {p : Program} (h : Program.parse text = some p) :
    Fitting p.words := by
  obtain ⟨j, -, hj⟩ := Option.bind_eq_some_iff.1 h
  exact Program.yields _ j p hj

/-- **Programs survive being written and read.** A program whose ids have 32 bits, and whose JSON
is nested no deeper than reading allows, is read back as itself. Every program that was read has
such ids, so it survives being written and read again if its JSON is not nested too deeply. -/
theorem program_text_round_trip :
    (∀ p : Program, Fitting p.words → p.toJson.depth ≤ Program.maxDepth →
      Program.parse p.render = some p) ∧
    ∀ text p, Program.parse text = some p → Fitting p.words ∧
      (p.toJson.depth ≤ Program.maxDepth → Program.parse p.render = some p) :=
  ⟨fun _ hfit hdepth => Program.parse_render hfit hdepth, fun _ _ h =>
    ⟨Program.fitting_of_parse h, Program.parse_render (Program.fitting_of_parse h)⟩⟩

/-- A class that is allocated once. Most fields are left out. -/
def sparseClass : Json :=
  .ofFields
    [("shapes", .array [.ofFields [("name", .text "Point"), ("kind", .text "Instance")]]),
      ("functions", .array [.ofFields
        [("name", .text "Point"), ("body", .array []), ("instance_shape", .nat 0)]]),
      ("body", .array [.ofFields [("Var", .ofFields
        [("name", .text "\"é\"\n"), ("init", .ofFields [("kind", .ofFields [("New", .ofFields
          [("callee", .ofFields [("kind", .ofFields [("Name", .text "Point")])]),
            ("args", .array [])])])])])]])]

/-- The same class as a program. -/
def pointClass : Program where
  shapes := [{ name := "Point", kind := .constructed }]
  functions := [{ name := some "Point", body := some [], objectShape := some ⟨0⟩ }]
  body := [.var "\"é\"\n" (some ⟨.construct ⟨.name "Point", none⟩ [], none⟩) none]

theorem pointClass_round_trip :
    Program.parse sparseClass.render = some pointClass ∧ Fitting pointClass.words ∧
      pointClass.toJson.depth ≤ Program.maxDepth ∧
      Program.parse pointClass.render = some pointClass := by
  have hsparse : Program.parse sparseClass.render = some pointClass := by
    rw [Program.parse, Json.parse_render]
    rfl
  have hfit := (program_text_round_trip.2 _ _ hsparse).1
  exact ⟨hsparse, hfit, by decide, program_text_round_trip.1 pointClass hfit (by decide)⟩

end TypeFlow
