import TypeFlow.Json.Basic

/-!
# JSON tokens from text

A machine that reads a text character by character. Being a fold over the characters it
needs no bound, however deeply the text is nested.

* `Json.tokenize`: the tokens of a text, if it is made of tokens.
-/

namespace TypeFlow.Json

/-- A string read in part. -/
structure PartialText where
  /-- The characters so far, the last one first; nothing once a surrogate was left unpaired. -/
  chars : Option (List Char) := some []
  /-- A leading surrogate that waits for a trailing one. -/
  lead : Option Nat := none

namespace PartialText

/-- The string with the next character. A surrogate still waiting is left unpaired. -/
def push (t : PartialText) (c : Char) : PartialText :=
  match t.lead with
  | none => { t with chars := t.chars.map (c :: ·) }
  | some _ => { chars := none }

/-- The string with the next escaped code unit. -/
def pushUnit (t : PartialText) (u : Nat) : PartialText :=
  match t.lead with
  | some v =>
    if 0xDC00 ≤ u ∧ u < 0xE000 then
      { chars := t.chars.map
          (Char.ofNat (0x10000 + (v - 0xD800) * 0x400 + (u - 0xDC00)) :: ·) }
    else { chars := none }
  | none =>
    if 0xD800 ≤ u ∧ u < 0xDC00 then { t with lead := some u }
    else if 0xDC00 ≤ u ∧ u < 0xE000 then { chars := none }
    else t.push (Char.ofNat u)

/-- What the string denotes if it ends here. -/
def close (t : PartialText) : JsonText :=
  match t.lead with
  | none => t.chars.map fun cs => String.ofList cs.reverse
  | some _ => none

end PartialText

/-- How far a number has been read. -/
inductive NumberPart where
  | minus
  | zero
  | digits
  | point
  | fraction
  | exponent
  | exponentSign
  | exponentDigits
deriving DecidableEq

/-- What the next character continues. -/
inductive LexMode where
  /-- Nothing: a new token may start. -/
  | blank
  /-- A word of which the characters of `rest` are missing. -/
  | word (rest : List Char) (token : Token)
  /-- A number, with its value as long as it is a plain natural numeral. -/
  | number (part : NumberPart) (value : Option Nat)
  | string (t : PartialText)
  /-- A string, after a backslash. -/
  | escape (t : PartialText)
  /-- A string, inside an escaped code unit of which some digits are missing. -/
  | unit (t : PartialText) (missing value : Nat)

/-- The state of the machine. -/
structure Lexer where
  mode : LexMode := .blank
  /-- The tokens so far, the last one first. -/
  tokens : List Token := []

/-- The value of a decimal digit. -/
def digit? (c : Char) : Option Nat :=
  if '0' ≤ c ∧ c ≤ '9' then some (c.toNat - 48) else none

/-- The value of a hexadecimal digit. -/
def hexDigit? (c : Char) : Option Nat :=
  if '0' ≤ c ∧ c ≤ '9' then some (c.toNat - 48)
  else if 'a' ≤ c ∧ c ≤ 'f' then some (c.toNat - 87)
  else if 'A' ≤ c ∧ c ≤ 'F' then some (c.toNat - 55)
  else none

/-- Space, tab, line feed and carriage return. -/
def isBlank (c : Char) : Bool :=
  c = ' ' ∨ c = '\t' ∨ c = '\n' ∨ c = '\r'

/-- The character that an escape letter stands for. -/
def escapeLetter? (c : Char) : Option Char :=
  if c = '"' then some '"'
  else if c = '\\' then some '\\'
  else if c = '/' then some '/'
  else if c = 'b' then some (Char.ofNat 8)
  else if c = 'f' then some (Char.ofNat 12)
  else if c = 'n' then some '\n'
  else if c = 'r' then some '\r'
  else if c = 't' then some '\t'
  else none

namespace Lexer

/-- The machine with one more token. -/
def push (l : Lexer) (t : Token) : Lexer := { tokens := t :: l.tokens }

/-- The first character of a token, or white space. -/
def start (l : Lexer) (c : Char) : Option Lexer :=
  if isBlank c then some { l with mode := .blank }
  else if c = '[' then some (l.push .openArray)
  else if c = ']' then some (l.push .closeArray)
  else if c.toNat = 123 then some (l.push .openObject)
  else if c.toNat = 125 then some (l.push .closeObject)
  else if c = ',' then some (l.push .comma)
  else if c = ':' then some (l.push .colon)
  else if c = '"' then some { l with mode := .string {} }
  else if c = 'n' then some { l with mode := .word ['u', 'l', 'l'] .null }
  else if c = 't' then some { l with mode := .word ['r', 'u', 'e'] (.bool true) }
  else if c = 'f' then some { l with mode := .word ['a', 'l', 's', 'e'] (.bool false) }
  else if c = '-' then some { l with mode := .number .minus none }
  else if c = '0' then some { l with mode := .number .zero (some 0) }
  else
    match digit? c with
    | some d => some { l with mode := .number .digits (some d) }
    | none => none

/-- How a number goes on with a character, if it does. -/
def continueNumber (part : NumberPart) (value : Option Nat) (c : Char) :
    Option (NumberPart × Option Nat) :=
  match part, digit? c with
  | .minus, some 0 => some (.zero, none)
  | .minus, some _ => some (.digits, none)
  | .digits, some d => some (.digits, value.map (10 * · + d))
  | .point, some _ => some (.fraction, none)
  | .fraction, some _ => some (.fraction, none)
  | .exponent, some _ => some (.exponentDigits, none)
  | .exponentSign, some _ => some (.exponentDigits, none)
  | .exponentDigits, some _ => some (.exponentDigits, none)
  | .zero, none => afterInteger
  | .digits, none => afterInteger
  | .fraction, none => if c = 'e' ∨ c = 'E' then some (.exponent, none) else none
  | .exponent, none => if c = '+' ∨ c = '-' then some (.exponentSign, none) else none
  | _, _ => none
where
  /-- After the integer part comes the fraction or the exponent. -/
  afterInteger : Option (NumberPart × Option Nat) :=
    if c = '.' then some (.point, none)
    else if c = 'e' ∨ c = 'E' then some (.exponent, none)
    else none

/-- The number that ends here, if a number may end here and `next` cannot extend it. A digit
after a leading zero is a mistake. -/
def endNumber (part : NumberPart) (value : Option Nat) (next : Option Char) : Option Token :=
  match part with
  | .zero => if (next.bind digit?).isSome then none else some (token value)
  | .digits => some (token value)
  | .fraction => some (token value)
  | .exponentDigits => some (token value)
  | _ => none
where
  /-- A number by its value. -/
  token : Option Nat → Token
    | some n => .nat n
    | none => .number

/-- Reads one character. -/
def step (l : Lexer) (c : Char) : Option Lexer :=
  match l.mode with
  | .blank => l.start c
  | .word [] token => (l.push token).start c
  | .word [r] token => if c = r then some (l.push token) else none
  | .word (r :: rest) token => if c = r then some { l with mode := .word rest token } else none
  | .number part value =>
    match continueNumber part value c with
    | some (part, value) => some { l with mode := .number part value }
    | none => (endNumber part value (some c)).bind fun t => (l.push t).start c
  | .string t =>
    if c = '"' then some (l.push (.string t.close))
    else if c = '\\' then some { l with mode := .escape t }
    else if c.toNat < 32 then none
    else some { l with mode := .string (t.push c) }
  | .escape t =>
    if c = 'u' then some { l with mode := .unit t 4 0 }
    else (escapeLetter? c).map fun e => { l with mode := .string (t.push e) }
  | .unit t missing value =>
    (hexDigit? c).map fun d =>
      if missing ≤ 1 then { l with mode := .string (t.pushUnit (16 * value + d)) }
      else { l with mode := .unit t (missing - 1) (16 * value + d) }

/-- The tokens, if the text may end here. -/
def finish (l : Lexer) : Option (List Token) :=
  match l.mode with
  | .blank => some l.tokens.reverse
  | .number part value => (endNumber part value none).map fun t => (l.push t).tokens.reverse
  | _ => none

end Lexer

/-- The tokens of a text, if it is made of tokens. -/
def tokenize (cs : List Char) : Option (List Token) :=
  (cs.foldlM Lexer.step {}).bind Lexer.finish

end TypeFlow.Json
