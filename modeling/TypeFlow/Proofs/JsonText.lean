import Mathlib.Data.List.Chain
import Mathlib.Tactic.IntervalCases
import Mathlib.Tactic.SplitIfs
import TypeFlow.Json.Reader
import TypeFlow.Json.Writer

/-!
# Reading what was written

A JSON value written as text is read back as the same value. Both directions go through
tokens, and each half is a fold of a machine: the lexer over characters and the reader over
tokens. Numerals are the only tokens without an end of their own, and no two of them stand next
to each other.

* `Json.tokenize_render`: tokens are found again in their text.
* `Json.ofTokens_tokens`: a value is found again in its tokens.
* `Json.parse_render`: a value is found again in its text.
-/

namespace TypeFlow.Json

/-! ## Tokens in a text -/

/-- Whether only the next character ends the token. -/
def Token.isNumeral : Token → Bool
  | nat _ => true
  | number => true
  | _ => false

/-- The second token may follow the first without white space. -/
def Token.Apart (t u : Token) : Prop := t.isNumeral = true → u.isNumeral = false

namespace Lexer

/-- The machine after the text of some tokens, the last one first. It does not know yet that a
numeral has ended. -/
def after : List Token → Lexer
  | [] => {}
  | .nat 0 :: ts => ⟨.number .zero (some 0), ts⟩
  | .nat (n + 1) :: ts => ⟨.number .digits (some (n + 1)), ts⟩
  | .number :: ts => ⟨.number .zero none, ts⟩
  | t :: ts => ⟨.blank, t :: ts⟩

theorem finish_after (ts : List Token) : (after ts).finish = some ts.reverse := by
  fun_cases after ts <;> rfl

/-! ### Numerals -/

theorem digit?_digitChar {d : Nat} (h : d < 10) : digit? d.digitChar = some d := by
  revert d
  decide

theorem start_digitChar {d : Nat} (h : d < 10) (hd : 0 < d) (ts : List Token) :
    start ⟨.blank, ts⟩ d.digitChar = some ⟨.number .digits (some d), ts⟩ := by
  interval_cases d <;> rfl

/-- The digits of a positive number. The induction takes off the last one. -/
theorem foldlM_toDigits (ts : List Token) (n : Nat) (hn : 0 < n) :
    (Nat.toDigits 10 n).foldlM step ⟨.blank, ts⟩ = some ⟨.number .digits (some n), ts⟩ := by
  induction n using Nat.strongRecOn with
  | ind n ih =>
    by_cases hlt : n < 10
    · rw [Nat.toDigits_of_lt_base hlt, List.foldlM_cons]
      simp only [step, start_digitChar hlt hn ts]
      rfl
    · have hdiv : 0 < n / 10 := by omega
      have hvalue : 10 * (n / 10) + n % 10 = n := by omega
      rw [Nat.toDigits_of_base_le (by decide) (by omega), List.foldlM_append, ih _ (by omega) hdiv]
      simp [step, continueNumber, digit?_digitChar (Nat.mod_lt n (by decide)), hvalue]

/-- A character that no number goes on with. -/
def endsNumeral (c : Char) : Prop := digit? c = none ∧ c ≠ '.' ∧ c ≠ 'e' ∧ c ≠ 'E'

instance (c : Char) : Decidable (endsNumeral c) := inferInstanceAs (Decidable (_ ∧ _))

/-- A numeral is complete at a character that no number goes on with. -/
theorem step_after {c : Char} (hc : endsNumeral c) (ts : List Token) :
    step (after ts) c = step ⟨.blank, ts⟩ c := by
  obtain ⟨hdigit, hpoint, he, hE⟩ := hc
  have hinteger : continueNumber.afterInteger c = none := by
    simp [continueNumber.afterInteger, hpoint, he, hE]
  fun_cases after ts with
  | case1 => rfl
  | case2 ts => simp [step, continueNumber, endNumber, endNumber.token, hdigit, hinteger, push]
  | case3 ts n => simp [step, continueNumber, endNumber, endNumber.token, hdigit, hinteger, push]
  | case4 ts => simp [step, continueNumber, endNumber, endNumber.token, hdigit, hinteger, push]
  | case5 t ts => rfl

/-! ### Strings -/

theorem hexDigit?_hexDigit {d : Nat} (h : d < 16) : hexDigit? (hexDigit d) = some d := by
  revert d
  decide

/-- An escaped code unit below 256. -/
theorem foldlM_unit (t : PartialText) (ts : List Token) {u : Nat} (hu : u < 256) :
    ['\\', 'u', '0', '0', hexDigit (u / 16), hexDigit (u % 16)].foldlM step ⟨.string t, ts⟩ =
      some ⟨.string (t.pushUnit u), ts⟩ := by
  have hzeros : ['\\', 'u', '0', '0'].foldlM step ⟨.string t, ts⟩ = some ⟨.unit t 2 0, ts⟩ := rfl
  have hhigh := hexDigit?_hexDigit (show u / 16 < 16 by omega)
  have hlow := hexDigit?_hexDigit (show u % 16 < 16 by omega)
  have hvalue : 16 * (u / 16) + u % 16 = u := by omega
  change (['\\', 'u', '0', '0'] ++ [hexDigit (u / 16), hexDigit (u % 16)]).foldlM step _ = _
  rw [List.foldlM_append, hzeros]
  simp [step, hhigh, hlow, hvalue]

/-- An escaped character is read as that character. -/
theorem foldlM_escaped (cs : List Char) (ts : List Token) (c : Char) :
    (escaped c).foldlM step ⟨.string { chars := some cs }, ts⟩ =
      some ⟨.string { chars := some (c :: cs) }, ts⟩ := by
  unfold escaped
  split_ifs with hquote hslash hback htab hline hform hreturn hcontrol
  · subst hquote; rfl
  · subst hslash; rfl
  · subst hback; rfl
  · subst htab; rfl
  · subst hline; rfl
  · subst hform; rfl
  · subst hreturn; rfl
  · have hlead : ¬ 55296 ≤ c.toNat := by omega
    have htrail : ¬ 56320 ≤ c.toNat := by omega
    rw [foldlM_unit _ _ (by omega)]
    simp [PartialText.pushUnit, PartialText.push, hlead, htrail]
  · simp [step, hquote, hslash, hcontrol, PartialText.push]

theorem foldlM_flatMap_escaped (ts : List Token) (s cs : List Char) :
    (s.flatMap escaped).foldlM step ⟨.string { chars := some cs }, ts⟩ =
      some ⟨.string { chars := some (s.reverse ++ cs) }, ts⟩ := by
  induction s generalizing cs with
  | nil => rfl
  | cons c s ih =>
    rw [List.flatMap_cons, List.foldlM_append, foldlM_escaped]
    simp [ih]

theorem foldlM_quoted (ts : List Token) : ∀ t : JsonText,
    (quoted t).foldlM step ⟨.blank, ts⟩ = some ⟨.blank, .string t :: ts⟩
  | none => rfl
  | some s => by
    have hopen : step ⟨.blank, ts⟩ '"' = some ⟨.string { chars := some [] }, ts⟩ := rfl
    rw [quoted, List.foldlM_cons, hopen, Option.bind_eq_bind, Option.bind_some, List.foldlM_append,
      foldlM_flatMap_escaped]
    simp [step, push, PartialText.close]

/-! ### Lists of tokens -/

/-- The text of one token. -/
theorem foldlM_token (ts : List Token) (t : Token) :
    t.render.foldlM step ⟨.blank, ts⟩ = some (after (t :: ts)) := by
  cases t with
  | bool b => cases b <;> rfl
  | nat n =>
    cases n with
    | zero => rw [Token.render, Nat.toDigits_zero]; rfl
    | succ n => exact foldlM_toDigits ts (n + 1) n.succ_pos
  | string t => exact foldlM_quoted ts t
  | _ => rfl

theorem render_of_not_numeral {t : Token} (h : t.isNumeral = false) :
    ∃ c cs, t.render = c :: cs ∧ endsNumeral c := by
  cases t with
  | bool b => cases b <;> exact ⟨_, _, rfl, by decide⟩
  | nat n => cases h
  | number => cases h
  | string t => cases t <;> exact ⟨'"', _, rfl, by decide⟩
  | _ => exact ⟨_, _, rfl, by decide⟩

/-- The text of a token that may stand after those already read. -/
theorem foldlM_token_after {ts : List Token} {t : Token} (h : ∀ u ∈ ts.head?, u.Apart t) :
    t.render.foldlM step (after ts) = some (after (t :: ts)) := by
  rw [← foldlM_token ts t]
  cases hnumeral : t.isNumeral with
  | false =>
    obtain ⟨c, cs, hrender, hc⟩ := render_of_not_numeral hnumeral
    rw [hrender, List.foldlM_cons, List.foldlM_cons, step_after hc]
  | true =>
    -- what was read before a numeral is no numeral, so the machine is at a blank
    have hblank : after ts = ⟨.blank, ts⟩ := by
      fun_cases after ts with
      | case1 => rfl
      | case2 ts => exact absurd (h _ rfl rfl) (by simp [hnumeral])
      | case3 ts n => exact absurd (h _ rfl rfl) (by simp [hnumeral])
      | case4 ts => exact absurd (h _ rfl rfl) (by simp [hnumeral])
      | case5 t ts => rfl
    rw [hblank]

theorem foldlM_flatMap_render (read : List Token) {ts : List Token} (hts : ts.IsChain Token.Apart)
    (hread : ∀ u ∈ read.head?, ∀ t ∈ ts.head?, u.Apart t) :
    (ts.flatMap Token.render).foldlM step (after read) = some (after (ts.reverse ++ read)) := by
  induction ts generalizing read with
  | nil => rfl
  | cons t ts ih =>
    obtain ⟨hhead, htail⟩ := List.isChain_cons.1 hts
    rw [List.flatMap_cons, List.foldlM_append, foldlM_token_after fun u hu => hread u hu t rfl,
      Option.bind_eq_bind, Option.bind_some, ih _ htail, List.reverse_cons, List.append_assoc,
      List.singleton_append]
    rintro u ⟨⟩
    exact hhead

end Lexer

/-- **Tokens are found again in their text**, where no two numerals stand next to each other. -/
theorem tokenize_render {ts : List Token} (h : ts.IsChain Token.Apart) :
    tokenize (ts.flatMap Token.render) = some ts := by
  have hread := Lexer.foldlM_flatMap_render [] h nofun
  rw [tokenize, show ({} : Lexer) = Lexer.after [] from rfl, hread, Option.bind_some,
    Lexer.finish_after, List.append_nil, List.reverse_reverse]

/-! ## Values in tokens -/

theorem Token.isChain_cons {t : Token} (ht : t.isNumeral = false) {ts : List Token}
    (hts : ts.IsChain Apart) : (t :: ts).IsChain Apart :=
  List.isChain_cons.2 ⟨fun _ _ h => absurd h (by simp [ht]), hts⟩

mutual

/-- The tokens of a value may be followed by anything but a numeral. -/
theorem tokens_isChain {rest : List Token} (hrest : rest.IsChain Token.Apart)
    (hstart : ∀ t ∈ rest.head?, t.isNumeral = false) :
    ∀ j : Json, (j.tokens ++ rest).IsChain Token.Apart
  | .null => Token.isChain_cons rfl hrest
  | .bool _ => Token.isChain_cons rfl hrest
  | .nat _ => List.isChain_cons.2 ⟨fun u hu _ => hstart u hu, hrest⟩
  | .number => List.isChain_cons.2 ⟨fun u hu _ => hstart u hu, hrest⟩
  | .string _ => Token.isChain_cons rfl hrest
  | .array [] => Token.isChain_cons rfl (Token.isChain_cons rfl hrest)
  | .array (j :: js) => by
    obtain ⟨hitems, hcomma⟩ := itemTokens_isChain hrest js
    rw [tokens, List.cons_append, List.append_assoc]
    exact Token.isChain_cons rfl (tokens_isChain hitems hcomma j)
  | .object [] => Token.isChain_cons rfl (Token.isChain_cons rfl hrest)
  | .object (⟨k, v⟩ :: fs) => by
    obtain ⟨hfields, hcomma⟩ := fieldTokens_isChain hrest fs
    rw [tokens, List.cons_append, List.cons_append, List.cons_append, List.append_assoc]
    exact Token.isChain_cons rfl (Token.isChain_cons rfl (Token.isChain_cons rfl
      (tokens_isChain hfields hcomma v)))
termination_by structural j => j

theorem itemTokens_isChain {rest : List Token} (hrest : rest.IsChain Token.Apart) :
    ∀ js : List Json, (itemTokens js ++ rest).IsChain Token.Apart ∧
      ∀ t ∈ (itemTokens js ++ rest).head?, t.isNumeral = false
  | [] => ⟨Token.isChain_cons rfl hrest, by rintro t ⟨⟩; rfl⟩
  | j :: js => by
    obtain ⟨hitems, hcomma⟩ := itemTokens_isChain hrest js
    rw [itemTokens, List.cons_append, List.append_assoc]
    exact ⟨Token.isChain_cons rfl (tokens_isChain hitems hcomma j), by rintro t ⟨⟩; rfl⟩
termination_by structural js => js

theorem fieldTokens_isChain {rest : List Token} (hrest : rest.IsChain Token.Apart) :
    ∀ fs : List JsonField, (fieldTokens fs ++ rest).IsChain Token.Apart ∧
      ∀ t ∈ (fieldTokens fs ++ rest).head?, t.isNumeral = false
  | [] => ⟨Token.isChain_cons rfl hrest, by rintro t ⟨⟩; rfl⟩
  | ⟨k, v⟩ :: fs => by
    obtain ⟨hfields, hcomma⟩ := fieldTokens_isChain hrest fs
    rw [fieldTokens, List.cons_append, List.cons_append, List.cons_append, List.append_assoc]
    refine ⟨?_, by rintro t ⟨⟩; rfl⟩
    exact Token.isChain_cons rfl (Token.isChain_cons rfl (Token.isChain_cons rfl
      (tokens_isChain hfields hcomma v)))
termination_by structural fs => fs

end

namespace Reader

/-- The first item of an array is read like any other. -/
theorem foldlM_firstItem (stack : List Frame) (j : Json) :
    j.tokens.foldlM step (.firstItem stack) = j.tokens.foldlM step (.value (.array [] :: stack)) := by
  fun_cases tokens j <;> rfl

mutual

/-- The tokens of a value deliver it to what it stands in. -/
theorem foldlM_tokens : ∀ (j : Json) (stack : List Frame),
    j.tokens.foldlM step (.value stack) = deliver j stack
  | .null, stack => bind_pure (deliver .null stack)
  | .bool b, stack => bind_pure (deliver (.bool b) stack)
  | .nat n, stack => bind_pure (deliver (.nat n) stack)
  | .number, stack => bind_pure (deliver .number stack)
  | .string t, stack => bind_pure (deliver (.string t) stack)
  | .array [], stack => bind_pure (deliver (.array []) stack)
  | .array (j :: js), stack => by
    change (j.tokens ++ itemTokens js).foldlM step (.firstItem stack) = _
    rw [List.foldlM_append, foldlM_firstItem, foldlM_tokens j]
    exact foldlM_itemTokens js [j] stack
  | .object [], stack => bind_pure (deliver (.object []) stack)
  | .object (⟨k, v⟩ :: fs), stack => by
    change (v.tokens ++ fieldTokens fs).foldlM step (.value (.member [] k :: stack)) = _
    rw [List.foldlM_append, foldlM_tokens v]
    exact foldlM_fieldTokens fs [⟨k, v⟩] stack
termination_by structural j => j

/-- The further items end up behind those already read, which stand last first. -/
theorem foldlM_itemTokens : ∀ (js items : List Json) (stack : List Frame),
    (itemTokens js).foldlM step (.next (.array items :: stack)) =
      deliver (.array (items.reverse ++ js)) stack
  | [], items, stack => by
    rw [List.append_nil]
    exact bind_pure (deliver (.array items.reverse) stack)
  | j :: js, items, stack => by
    change (j.tokens ++ itemTokens js).foldlM step (.value (.array items :: stack)) = _
    rw [List.foldlM_append, foldlM_tokens j, List.append_cons, ← List.reverse_cons]
    exact foldlM_itemTokens js (j :: items) stack
termination_by structural js => js

theorem foldlM_fieldTokens : ∀ (fs fields : List JsonField) (stack : List Frame),
    (fieldTokens fs).foldlM step (.next (.object fields :: stack)) =
      deliver (.object (fields.reverse ++ fs)) stack
  | [], fields, stack => by
    rw [List.append_nil]
    exact bind_pure (deliver (.object fields.reverse) stack)
  | ⟨k, v⟩ :: fs, fields, stack => by
    change (v.tokens ++ fieldTokens fs).foldlM step (.value (.member fields k :: stack)) = _
    rw [List.foldlM_append, foldlM_tokens v, List.append_cons, ← List.reverse_cons]
    exact foldlM_fieldTokens fs (⟨k, v⟩ :: fields) stack
termination_by structural fs => fs

end

end Reader

/-- **A value is found again in its tokens.** -/
theorem ofTokens_tokens (j : Json) : ofTokens j.tokens = some j := by
  rw [ofTokens, Reader.foldlM_tokens]
  rfl

/-- **A value is found again in its text**, whatever it holds and however deeply it is nested. -/
theorem parse_render (j : Json) : parse j.render = some j := by
  have hchain : j.tokens.IsChain Token.Apart := by
    simpa using tokens_isChain List.isChain_nil nofun j
  rw [parse, render, String.toList_ofList, tokenize_render hchain, Option.bind_some, ofTokens_tokens]

end TypeFlow.Json
