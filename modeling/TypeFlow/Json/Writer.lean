import TypeFlow.Json.Basic

/-!
# Writing JSON

A value as text, on one line or indented.

* `Json.render`: without any white space.
* `Json.pretty`: indented by two spaces.
-/

namespace TypeFlow.Json

/-- A digit below 16. -/
def hexDigit (n : Nat) : Char :=
  if n < 10 then Char.ofNat (48 + n) else Char.ofNat (87 + n)

/-- How a character is written inside a string: quotes, backslashes and control characters are
escaped, by a letter where there is one. -/
def escaped (c : Char) : List Char :=
  if c = '"' then ['\\', '"']
  else if c = '\\' then ['\\', '\\']
  else if c = Char.ofNat 8 then ['\\', 'b']
  else if c = Char.ofNat 9 then ['\\', 't']
  else if c = Char.ofNat 10 then ['\\', 'n']
  else if c = Char.ofNat 12 then ['\\', 'f']
  else if c = Char.ofNat 13 then ['\\', 'r']
  else if c.toNat < 32 then
    ['\\', 'u', '0', '0', hexDigit (c.toNat / 16), hexDigit (c.toNat % 16)]
  else [c]

/-- A string in quotes. A string that denotes no text is written as a lone surrogate. -/
def quoted : JsonText → List Char
  | some s => '"' :: (s.toList.flatMap escaped ++ ['"'])
  | none => ['"', '\\', 'u', 'd', '8', '0', '0', '"']

/-- The text of a token. Which number stands for `number` is immaterial. -/
def Token.render : Token → List Char
  | openArray => ['[']
  | closeArray => [']']
  | openObject => [Char.ofNat 123]
  | closeObject => [Char.ofNat 125]
  | comma => [',']
  | colon => [':']
  | null => ['n', 'u', 'l', 'l']
  | bool true => ['t', 'r', 'u', 'e']
  | bool false => ['f', 'a', 'l', 's', 'e']
  | nat n => Nat.toDigits 10 n
  | number => ['-', '0']
  | string t => quoted t

/-- The value as text, without any white space. -/
def render (j : Json) : String := String.ofList (j.tokens.flatMap Token.render)

/-- A line break and the white space that starts a line at a depth. -/
def lineBreak (depth : Nat) : List Char := '\n' :: List.replicate (2 * depth) ' '

mutual

/-- The value as indented text, where its first line is at some depth already. -/
def prettyAt (depth : Nat) : Json → List Char
  | null => Token.null.render
  | bool b => (Token.bool b).render
  | nat n => (Token.nat n).render
  | number => Token.number.render
  | string t => quoted t
  | array [] => ['[', ']']
  | array (j :: js) =>
    '[' :: (lineBreak (depth + 1) ++ prettyAt (depth + 1) j ++ prettyItems depth js)
  | object [] => [Char.ofNat 123, Char.ofNat 125]
  | object (⟨k, v⟩ :: fs) =>
    Char.ofNat 123 :: (lineBreak (depth + 1) ++ quoted k ++ [':', ' '] ++ prettyAt (depth + 1) v ++
      prettyFields depth fs)
termination_by structural j => j

/-- The further items of an array. -/
def prettyItems (depth : Nat) : List Json → List Char
  | [] => lineBreak depth ++ [']']
  | j :: js => ',' :: (lineBreak (depth + 1) ++ prettyAt (depth + 1) j ++ prettyItems depth js)
termination_by structural js => js

/-- The further members of an object. -/
def prettyFields (depth : Nat) : List JsonField → List Char
  | [] => lineBreak depth ++ [Char.ofNat 125]
  | ⟨k, v⟩ :: fs =>
    ',' :: (lineBreak (depth + 1) ++ quoted k ++ [':', ' '] ++ prettyAt (depth + 1) v ++
      prettyFields depth fs)
termination_by structural fs => fs

end

/-- The value as indented text, one item or member on a line. -/
def pretty (j : Json) : String := String.ofList (prettyAt 0 j)

end TypeFlow.Json
