import TypeFlow.Toml.Basic
import TypeFlow.Toml.Text

/-!
# Numbers and dates in TOML

Integers have 64 bits and may be written in four bases, with underscores between digits.
Of floats and dates only the form is checked, and that a float is not too large.
-/

namespace TypeFlow.Toml

/-- A digit in a base up to 16. -/
def digitIn? (base : Nat) (c : Char) : Option Nat :=
  (hexDigit? c).filter (· < base)

/-- The further digits of a number. An underscore must stand between two digits. -/
def moreDigits? (base : Nat) : List Char → Option (List Nat × List Char)
  | [] => some ([], [])
  | '_' :: c :: cs => do
    let d ← digitIn? base c
    let (ds, rest) ← moreDigits? base cs
    return (d :: ds, rest)
  | c :: cs =>
    match digitIn? base c with
    | some d => (moreDigits? base cs).map fun (ds, rest) => (d :: ds, rest)
    | none => if c = '_' then none else some ([], c :: cs)

/-- One or more digits. -/
def digits? (base : Nat) : List Char → Option (List Nat × List Char)
  | [] => none
  | c :: cs => do
    let d ← digitIn? base c
    let (ds, rest) ← moreDigits? base cs
    return (d :: ds, rest)

/-- The number that digits spell. -/
def ofDigits (base : Nat) (ds : List Nat) : Nat := ds.foldl (base * · + ·) 0

/-- A sign that may stand here, and the rest. -/
def sign : List Char → Bool × List Char
  | '+' :: cs => (false, cs)
  | '-' :: cs => (true, cs)
  | cs => (false, cs)

/-- A decimal integer without its sign. A zero in front stands alone. -/
def decimal? : List Char → Option (List Nat × List Char)
  | '0' :: cs => some ([0], cs)
  | cs => digits? 10 cs

/-- Whether the number with digits `ds`, times ten to the power `up` less `down`, is too large
for a double: at least halfway from the largest finite one to the next power of two. -/
def overflows (ds : List Nat) (up down : Nat) : Bool :=
  let n := ofDigits 10 ds
  let width := (ds.dropWhile (· = 0)).length
  if n = 0 then false
  else if 310 + down < width + up then true
  else if width + up < 308 + down then false
  else
    let limit := Nat.pow 2 1024 - Nat.pow 2 970
    if down ≤ up then limit ≤ n * Nat.pow 10 (up - down) else limit * Nat.pow 10 (down - up) ≤ n

/-- The exponent of a float, if one stands here. -/
def exponent? : List Char → Option (Option (Bool × Nat) × List Char)
  | c :: cs =>
    if c = 'e' ∨ c = 'E' then do
      let (negative, cs) := sign cs
      let (ds, rest) ← digits? 10 cs
      return (some (negative, ofDigits 10 ds), rest)
    else some (none, c :: cs)
  | [] => some (none, [])

/-- The fraction of a float, if one stands here. -/
def fraction? : List Char → Option (Option (List Nat) × List Char)
  | '.' :: cs => (digits? 10 cs).map fun (ds, rest) => (some ds, rest)
  | cs => some (none, cs)

/-- An integer that fits into 64 bits with its sign. -/
def integer64? (n : Int) : Option Toml :=
  if Int64.minValue.toInt ≤ n ∧ n ≤ Int64.maxValue.toInt then some (integer n) else none

/-- An integer or a float in decimal notation, or one of the words for special floats. -/
def decimalNumber? (cs : List Char) : Option (Toml × List Char) :=
  let (negative, cs) := sign cs
  match cs with
  | 'i' :: 'n' :: 'f' :: rest => some (float, rest)
  | 'n' :: 'a' :: 'n' :: rest => some (float, rest)
  | cs => do
    let (whole, cs) ← decimal? cs
    let (frac, cs) ← fraction? cs
    let (exp, cs) ← exponent? cs
    match frac, exp with
    | none, none =>
      let n : Int := ofDigits 10 whole
      let v ← integer64? (if negative then -n else n)
      return (v, cs)
    | _, _ =>
      let frac := frac.getD []
      let (shrinks, e) := exp.getD (false, 0)
      let up := if shrinks then 0 else e
      let down := frac.length + if shrinks then e else 0
      if !negative && overflows (whole ++ frac) up down then none
      else return (float, cs)

/-- An integer in a base given by its mark. -/
def baseInteger? (base : Nat) (cs : List Char) : Option (Toml × List Char) := do
  let (ds, cs) ← digits? base cs
  let v ← integer64? (ofDigits base ds)
  return (v, cs)

/-! ### Dates and times -/

/-- Exactly `n` decimal digits. -/
def fixedDigits? : Nat → List Char → Option (Nat × List Char)
  | n, cs =>
    let ds := (cs.take n).filterMap (digitIn? 10)
    if ds.length = n then some (ofDigits 10 ds, cs.drop n) else none

/-- The rest after a certain character. -/
def expect? (c : Char) : List Char → Option (List Char)
  | x :: cs => if x = c then some cs else none
  | [] => none

/-- Two digits that spell a number in a range. -/
def twoDigits? (lo hi : Nat) (cs : List Char) : Option (Nat × List Char) := do
  let (n, cs) ← fixedDigits? 2 cs
  if lo ≤ n ∧ n ≤ hi then return (n, cs) else none

def daysIn (year month : Nat) : Nat :=
  if month = 2 then
    if year % 4 = 0 ∧ (year % 100 ≠ 0 ∨ year % 400 = 0) then 29 else 28
  else if month = 4 ∨ month = 6 ∨ month = 9 ∨ month = 11 then 30
  else 31

/-- The rest after a date. -/
def date? (cs : List Char) : Option (List Char) := do
  let (year, cs) ← fixedDigits? 4 cs
  let cs ← expect? '-' cs
  let (month, cs) ← twoDigits? 1 12 cs
  let cs ← expect? '-' cs
  let (_, cs) ← twoDigits? 1 (daysIn year month) cs
  return cs

/-- The rest after a time of day. A second may be a leap second. -/
def time? (cs : List Char) : Option (List Char) := do
  let (_, cs) ← twoDigits? 0 23 cs
  let cs ← expect? ':' cs
  let (_, cs) ← twoDigits? 0 59 cs
  let cs ← expect? ':' cs
  let (_, cs) ← twoDigits? 0 60 cs
  match cs with
  | '.' :: rest =>
    match rest.span fun c => (digitIn? 10 c).isSome with
    | ([], _) => none
    | (_, cs) => return cs
  | cs => return cs

/-- The rest after the offset of a time, if one stands here. -/
def offset? : List Char → Option (List Char)
  | c :: cs =>
    if c = 'Z' ∨ c = 'z' then some cs
    else if c = '+' ∨ c = '-' then do
      let (_, cs) ← twoDigits? 0 23 cs
      let cs ← expect? ':' cs
      let (_, cs) ← twoDigits? 0 59 cs
      return cs
    else some (c :: cs)
  | [] => some []

/-- The rest after a time of day that may follow a date. -/
def skipTime : List Char → List Char
  | c :: cs =>
    if c = 'T' ∨ c = 't' ∨ c = ' ' then ((time? cs).bind offset?).getD (c :: cs) else c :: cs
  | [] => []

/-- The rest after a date, a time or both. -/
def datetime? (cs : List Char) : Option (List Char) :=
  match date? cs with
  | some rest => some (skipTime rest)
  | none => time? cs

/-- A number or a date. -/
def number? (cs : List Char) : Option (Toml × List Char) :=
  match datetime? cs with
  | some rest => some (datetime, rest)
  | none =>
    match cs with
    | '0' :: 'x' :: cs => baseInteger? 16 cs
    | '0' :: 'o' :: cs => baseInteger? 8 cs
    | '0' :: 'b' :: cs => baseInteger? 2 cs
    | cs => decimalNumber? cs

end TypeFlow.Toml
