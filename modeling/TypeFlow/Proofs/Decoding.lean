import TypeFlow.Json.Decode

/-!
# Decoders

What a decoder makes of records, variants and lists, from what it makes of their parts. A
decoder takes the number of arrays and objects that may still be entered.

* `Json.Reads`: a value is read wherever there is room for its nesting.
* `Json.record?_ofFields`: the fields of a record are found again in the object made of them.
* `Json.Yields`: whatever a decoder returns has a certain property.
-/

namespace TypeFlow.Json

/-! ## Room for nesting -/

theorem itemDepth_le {js : List Json} {n : Nat} : itemDepth js ≤ n ↔ ∀ j ∈ js, j.depth ≤ n := by
  induction js with
  | nil => simp [itemDepth]
  | cons j js ih => rw [itemDepth, Nat.max_le, ih, List.forall_mem_cons]

theorem fieldDepth_le {fs : List JsonField} {n : Nat} :
    fieldDepth fs ≤ n ↔ ∀ f ∈ fs, f.value.depth ≤ n := by
  induction fs with
  | nil => simp [fieldDepth]
  | cons f fs ih =>
    cases f
    rw [fieldDepth, Nat.max_le, ih, List.forall_mem_cons]

theorem depth_array_le {js : List Json} {n : Nat} :
    (array js).depth ≤ n + 1 ↔ ∀ j ∈ js, j.depth ≤ n := by
  rw [depth, Nat.add_le_add_iff_right, itemDepth_le]

theorem depth_ofFields_le {fields : List (String × Json)} {n : Nat} :
    (ofFields fields).depth ≤ n + 1 ↔ ∀ f ∈ fields, f.2.depth ≤ n := by
  rw [ofFields, depth, Nat.add_le_add_iff_right, fieldDepth_le, List.forall_mem_map]

/-! ## Records -/

theorem valuesOf_cons (k key : String) (v : Json) (fs : List JsonField) :
    valuesOf k (⟨some key, v⟩ :: fs) = if key = k then v :: valuesOf k fs else valuesOf k fs := by
  by_cases h : key = k <;> simp [valuesOf, h]

theorem valuesOf_of_not_mem {k : String} {fields : List (String × Json)}
    (h : k ∉ fields.map Prod.fst) : valuesOf k (fields.map fun (k, v) => ⟨some k, v⟩) = [] := by
  induction fields with
  | nil => rfl
  | cons f fields ih =>
    rw [List.map_cons, List.mem_cons, not_or] at h
    rw [List.map_cons, valuesOf_cons, if_neg (Ne.symm h.1), ih h.2]

theorem valuesOf_of_mem {fields : List (String × Json)} (h : (fields.map Prod.fst).Nodup)
    {f : String × Json} (hf : f ∈ fields) :
    valuesOf f.1 (fields.map fun (k, v) => ⟨some k, v⟩) = [f.2] := by
  induction fields with
  | nil => cases hf
  | cons g fields ih =>
    rw [List.map_cons, List.nodup_cons] at h
    rw [List.map_cons, valuesOf_cons]
    rcases List.mem_cons.1 hf with rfl | hf
    · rw [if_pos rfl, valuesOf_of_not_mem h.1]
    · have hne : g.1 ≠ f.1 := fun heq => h.1 (heq ▸ List.mem_map_of_mem hf)
      rw [if_neg hne, ih h.2 hf]

/-- **The fields of a record are found again** in the object made of them, if their names
differ. -/
theorem record?_ofFields {fields : List (String × Json)} (h : (fields.map Prod.fst).Nodup) :
    (ofFields fields).record? (fields.map Prod.fst) = some (fields.map fun f => some f.2) := by
  simp only [ofFields, record?]
  rw [if_pos, List.map_map]
  · refine congrArg some (List.map_congr_left fun f hf => ?_)
    rw [Function.comp_apply, valuesOf_of_mem h hf, List.head?_cons]
  · simp only [List.all_eq_true, List.forall_mem_map]
    refine ⟨fun _ _ => rfl, fun f hf => ?_⟩
    rw [valuesOf_of_mem h hf]
    rfl

section Reads

variable {α β γ : Type} {decode : Nat → Json → Option α}

theorem eq_map_of_cons {encodeAll : List α → List Json} {encode : α → Json} (hnil : encodeAll [] = [])
    (hcons : ∀ x xs, encodeAll (x :: xs) = encode x :: encodeAll xs) (xs : List α) :
    encodeAll xs = xs.map encode := by
  induction xs with
  | nil => exact hnil
  | cons x xs ih => rw [hcons, ih, List.map_cons]

theorem mapM_map_encode {decode : Json → Option α} {encode : α → Json} {xs : List α}
    (h : ∀ x ∈ xs, decode (encode x) = some x) : (xs.map encode).mapM decode = some xs := by
  induction xs with
  | nil => rfl
  | cons x xs ih =>
    rw [List.forall_mem_cons] at h
    rw [List.map_cons, List.mapM_cons, h.1, ih h.2]
    rfl

theorem nullable_eq_some {decode : Json → Option α} (hnull : decode null = none) {j : Json} {x : α}
    (h : decode j = some x) : nullable decode j = some (some x) := by
  unfold nullable
  split
  · rw [hnull] at h; cases h
  · rw [h, Option.map_some]

/-- **Reading `j` gives `x`** wherever there is room for the nesting of `j`. -/
def Reads (decode : Nat → Json → Option α) (j : Json) (x : α) : Prop :=
  ∀ n, j.depth ≤ n → decode n j = some x

namespace Reads

/-- An object with one member is read as what its tag is attached to. -/
theorem variant {payload : Nat → String → Json → Option α}
    (hdecode : ∀ n tag v, decode (n + 1) (.object [⟨some tag, v⟩]) = payload n tag v)
    {tag : String} {v : Json} {x : α} (h : Reads (payload · tag) v x) :
    Reads decode (ofFields [(tag, v)]) x := by
  intro n hn
  cases n with
  | zero => cases hn
  | succ n =>
    rw [depth_ofFields_le, List.forall_mem_singleton] at hn
    exact (hdecode n tag v).trans (h n hn)

/-- A record is read field by field. -/
theorem record (names : List String) {fields : List (String × Json)} {x : α}
    (hnames : fields.map Prod.fst = names) (hnodup : names.Nodup)
    (h : ∀ n, (∀ f ∈ fields, f.2.depth ≤ n) →
      (ofFields fields).record? names = some (fields.map fun f => some f.2) →
      decode (n + 1) (ofFields fields) = some x) :
    Reads decode (ofFields fields) x := by
  intro n hn
  subst hnames
  cases n with
  | zero => cases hn
  | succ n => exact h n (depth_ofFields_le.1 hn) (record?_ofFields hnodup)

/-- A record of two fields. -/
theorem pair {first : Nat → Json → Option β} {second : Nat → Json → Option γ} {k l : String}
    {v w : Json} {x : β} {y : γ} {z : α} (hne : k ≠ l) (hv : Reads first v x)
    (hw : Reads second w y)
    (hdecode : ∀ n j, j.record? [k, l] = some [some v, some w] → first n v = some x →
      second n w = some y → decode (n + 1) j = some z) :
    Reads decode (ofFields [(k, v), (l, w)]) z := by
  refine record [k, l] rfl (by simpa using hne) fun n hn hrecord => ?_
  simp only [List.forall_mem_cons] at hn
  exact hdecode n _ hrecord (hv n hn.1) (hw n hn.2.1)

theorem array {js : List Json} {x : α}
    (h : ∀ n, (∀ j ∈ js, j.depth ≤ n) → decode (n + 1) (.array js) = some x) :
    Reads decode (.array js) x := by
  intro n hn
  cases n with
  | zero => cases hn
  | succ n => exact h n (depth_array_le.1 hn)

/-- A list is read item by item. -/
theorem items {decodeAll : Nat → Json → Option β} {encode : α → Json} {js : List Json} {xs : List α}
    {y : β} (hjs : js = xs.map encode)
    (hdecode : ∀ n, js.mapM (decode n) = some xs → decodeAll (n + 1) (.array js) = some y)
    (h : ∀ x ∈ xs, Reads decode (encode x) x) : Reads decodeAll (.array js) y := by
  subst hjs
  refine array fun n hn => hdecode n (mapM_map_encode fun x hx => h x hx n ?_)
  exact List.forall_mem_map.1 hn x hx

/-- A value that may be missing is told from `null`, where `null` is no such value. -/
theorem option {encode : α → Json} {o : Option α} (hnull : ∀ n, decode n .null = none)
    (h : ∀ x ∈ o, Reads decode (encode x) x) :
    Reads (fun n => nullable (decode n)) (ofOption encode o) o := by
  intro n hn
  cases o with
  | none => rfl
  | some x => exact nullable_eq_some (hnull n) (h x rfl n hn)

end Reads

end Reads

section Yields

variable {α : Type} {decode : Json → Option α} {P : α → Prop}

/-- **Whatever the decoder returns satisfies `P`.** -/
def Yields (decode : Json → Option α) (P : α → Prop) : Prop := ∀ j x, decode j = some x → P x

namespace Yields

theorem required (h : Yields decode P) {j : Option Json} {x : α}
    (hx : Json.required decode j = some x) : P x := by
  obtain ⟨j, -, hj⟩ := Option.bind_eq_some_iff.1 hx
  exact h j x hj

theorem optional (h : Yields decode P) {missing : α} {j : Option Json} {x : α}
    (hx : Json.optional missing decode j = some x) (hmissing : P missing) : P x := by
  cases j with
  | none => cases hx; exact hmissing
  | some j => exact h j x hx

theorem map {β : Type} (h : Yields decode P) {f : α → β} {j : Json} {y : β}
    (hy : (decode j).map f = some y) : ∃ x, P x ∧ f x = y := by
  obtain ⟨x, hx, rfl⟩ := Option.map_eq_some_iff.1 hy
  exact ⟨x, h j x hx, rfl⟩

theorem nullable (h : Yields decode P) : Yields (Json.nullable decode) fun o => ∀ x ∈ o, P x := by
  intro j o ho x hx
  subst hx
  unfold Json.nullable at ho
  split at ho
  · cases ho
  · obtain ⟨y, hy, ⟨⟩⟩ := h.map ho
    exact hy

theorem optional_nullable (h : Yields decode P) {j : Option Json} {o : Option α}
    (ho : Json.optional none (Json.nullable decode) j = some o) : ∀ x ∈ o, P x :=
  h.nullable.optional ho nofun

theorem mapM (h : Yields decode P) {js : List Json} {xs : List α} (hxs : js.mapM decode = some xs) :
    ∀ x ∈ xs, P x := by
  induction js generalizing xs with
  | nil => cases hxs; exact fun _ hx => absurd hx List.not_mem_nil
  | cons j js ih =>
    simp only [List.mapM_cons, Option.bind_eq_bind, Option.bind_eq_some_iff] at hxs
    obtain ⟨x, hx, rest, hrest, ⟨⟩⟩ := hxs
    exact List.forall_mem_cons.2 ⟨h j x hx, ih hrest⟩

theorem list {decode : Nat → Json → Option α} (h : ∀ n, Yields (decode n) P) (n : Nat) :
    Yields (list? decode n) fun xs => ∀ x ∈ xs, P x := by
  intro j xs hxs
  unfold list? at hxs
  split at hxs
  · exact (h _).mapM hxs
  · cases hxs

theorem leaves (h : Yields decode P) {n : Nat} : Yields (leaves? decode n) fun xs => ∀ x ∈ xs, P x :=
  list (fun _ => h) n

end Yields

end Yields

end TypeFlow.Json
