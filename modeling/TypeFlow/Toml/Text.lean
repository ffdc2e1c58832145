/-!
# The words of TOML

Blanks, comments, strings and keys. Each reader takes the remaining characters and gives
what it read with the characters after it.
-/

namespace TypeFlow.Toml

/-- Space and tab. -/
def isBlank (c : Char) : Bool := c = ' ' ∨ c = '\t'

/-- A character that may stand in a comment: no control character but the tab. -/
def isPrintable (c : Char) : Bool := c = '\t' ∨ 32 ≤ c.toNat ∧ c.toNat ≠ 127

def skipBlanks (cs : List Char) : List Char := cs.dropWhile isBlank

/-- The rest after a comment that may start here. -/
def skipComment : List Char → List Char
  | '#' :: cs => cs.dropWhile isPrintable
  | cs => cs

/-- The rest after a line break. -/
def newline? : List Char → Option (List Char)
  | '\n' :: cs => some cs
  | '\r' :: '\n' :: cs => some cs
  | _ => none

/-- The rest after the end of a line, before which a comment may stand. -/
def lineEnd? (cs : List Char) : Option (List Char) :=
  match skipComment (skipBlanks cs) with
  | [] => some []
  | cs => newline? cs

/-- The rest after blanks, line breaks and comments. -/
def skipLines (inComment : Bool) : List Char → List Char
  | [] => []
  | '\n' :: cs => skipLines false cs
  | '\r' :: '\n' :: cs => skipLines false cs
  | c :: cs =>
    if inComment then if isPrintable c then skipLines true cs else c :: cs
    else if isBlank c then skipLines false cs
    else if c = '#' then skipLines true cs
    else c :: cs

/-- The value of a digit in base 16. -/
def hexDigit? (c : Char) : Option Nat :=
  if '0' ≤ c ∧ c ≤ '9' then some (c.toNat - 48)
  else if 'a' ≤ c ∧ c ≤ 'f' then some (c.toNat - 87)
  else if 'A' ≤ c ∧ c ≤ 'F' then some (c.toNat - 55)
  else none

/-! ### Strings -/

/-- What the next character of a string with escapes continues. -/
inductive StringMode where
  /-- Text, after some quotes of which it is not yet known whether they end the string. -/
  | text (quotes : Nat)
  /-- The first half of a line break. -/
  | carriage
  | escape
  | code (missing value : Nat)
  /-- Blanks after a backslash at the end of a line, before or after the line break. -/
  | fold (broken : Bool)
  | foldCarriage

/-- What a character does to a string. -/
inductive StringStep where
  | continue (mode : StringMode) (chars : List Char)
  /-- The string ended, with this character or before it. -/
  | stop (consumed : Bool) (chars : List Char)
  | fail

/-- The characters so far with quotes that turned out to be text. -/
def withQuotes (quote : Char) (n : Nat) (chars : List Char) : List Char :=
  List.replicate n quote ++ chars

/-- The next character of text. In a string over several lines three quotes end it, and up to
two more in front of them are text. -/
def textStep (multi : Bool) (quotes : Nat) (chars : List Char) (c : Char) : StringStep :=
  if c = '"' then
    if !multi then .stop true chars
    else if quotes = 4 then .stop true (withQuotes '"' 2 chars)
    else .continue (.text (quotes + 1)) chars
  else if 3 ≤ quotes then .stop false (withQuotes '"' (quotes - 3) chars)
  else
    let chars := withQuotes '"' quotes chars
    if c = '\\' then .continue .escape chars
    else if isPrintable c then .continue (.text 0) (c :: chars)
    else if multi ∧ c = '\n' then .continue (.text 0) (c :: chars)
    else if multi ∧ c = '\r' then .continue .carriage chars
    else .fail

/-- The character that an escape letter stands for. -/
def escapeLetter? (c : Char) : Option Char :=
  if c = 'b' then some (Char.ofNat 8)
  else if c = 't' then some '\t'
  else if c = 'n' then some '\n'
  else if c = 'f' then some (Char.ofNat 12)
  else if c = 'r' then some '\r'
  else if c = '"' then some '"'
  else if c = '\\' then some '\\'
  else none

/-- The next character of a string with escapes. -/
def stringStep (multi : Bool) (chars : List Char) (c : Char) : StringMode → StringStep
  | .text quotes => textStep multi quotes chars c
  | .carriage => if c = '\n' then .continue (.text 0) (c :: chars) else .fail
  | .escape =>
    match escapeLetter? c with
    | some e => .continue (.text 0) (e :: chars)
    | none =>
      if c = 'u' then .continue (.code 4 0) chars
      else if c = 'U' then .continue (.code 8 0) chars
      else if multi then foldStep false
      else .fail
  | .code missing value =>
    match hexDigit? c with
    | none => .fail
    | some d =>
      let value := 16 * value + d
      if 1 < missing then .continue (.code (missing - 1) value) chars
      else if value < 0xD800 ∨ 0xE000 ≤ value ∧ value < 0x110000 then
        .continue (.text 0) (Char.ofNat value :: chars)
      else .fail
  | .fold broken => foldStep broken
  | .foldCarriage => if c = '\n' then .continue (.fold true) chars else .fail
where
  /-- White space that a backslash at the end of a line removes. -/
  foldStep (broken : Bool) : StringStep :=
    if isBlank c then .continue (.fold broken) chars
    else if c = '\n' then .continue (.fold true) chars
    else if c = '\r' then .continue .foldCarriage chars
    else if broken then textStep multi 0 chars c
    else .fail

/-- Reads the inside of a string with escapes, up to its closing quotes. -/
def readString (multi : Bool) : StringMode → List Char → List Char → Option (String × List Char)
  | .text quotes, chars, [] =>
    if multi ∧ 3 ≤ quotes then
      some (String.ofList (withQuotes '"' (quotes - 3) chars).reverse, [])
    else none
  | _, _, [] => none
  | mode, chars, c :: cs =>
    match stringStep multi chars c mode with
    | .continue mode chars => readString multi mode chars cs
    | .stop true chars => some (String.ofList chars.reverse, cs)
    | .stop false chars => some (String.ofList chars.reverse, c :: cs)
    | .fail => none

/-- Reads the inside of a string without escapes on one line. -/
def readLiteral (cs : List Char) : Option (String × List Char) :=
  match cs.span fun c => c ≠ '\'' ∧ isPrintable c with
  | (chars, '\'' :: rest) => some (String.ofList chars, rest)
  | _ => none

/-- Reads the inside of a string without escapes over several lines, after some quotes of which
it is not yet known whether they end it. -/
def readLines : Nat → List Char → List Char → Option (String × List Char)
  | quotes, chars, [] =>
    if 3 ≤ quotes then some (String.ofList (withQuotes '\'' (quotes - 3) chars).reverse, [])
    else none
  | quotes, chars, c :: cs =>
    if c = '\'' then
      if quotes = 4 then some (String.ofList (withQuotes '\'' 2 chars).reverse, cs)
      else readLines (quotes + 1) chars cs
    else if 3 ≤ quotes then
      some (String.ofList (withQuotes '\'' (quotes - 3) chars).reverse, c :: cs)
    else if isPrintable c ∨ c = '\n' ∨ c = '\r' ∧ cs.head? = some '\n' then
      readLines 0 (c :: withQuotes '\'' quotes chars) cs
    else none

/-- The rest after a line break that may stand here. -/
def skipNewline (cs : List Char) : List Char := (newline? cs).getD cs

/-- A string of any kind. -/
def string? : List Char → Option (String × List Char)
  | '"' :: '"' :: '"' :: cs => readString true (.text 0) [] (skipNewline cs)
  | '"' :: cs => readString false (.text 0) [] cs
  | '\'' :: '\'' :: '\'' :: cs => readLines 0 [] (skipNewline cs)
  | '\'' :: cs => readLiteral cs
  | _ => none

/-! ### Keys -/

/-- A character of a key without quotes. -/
def isKeyChar (c : Char) : Bool :=
  'a' ≤ c ∧ c ≤ 'z' ∨ 'A' ≤ c ∧ c ≤ 'Z' ∨ '0' ≤ c ∧ c ≤ '9' ∨ c = '_' ∨ c = '-'

/-- A key without dots. -/
def simpleKey? : List Char → Option (String × List Char)
  | '"' :: cs => readString false (.text 0) [] cs
  | '\'' :: cs => readLiteral cs
  | cs =>
    match cs.span isKeyChar with
    | ([], _) => none
    | (key, rest) => some (String.ofList key, rest)

/-- Keys joined by dots, at most `n` of them, with blanks around them. -/
def keyPath? : Nat → List Char → Option (List String × List Char)
  | 0, _ => none
  | n + 1, cs => do
    let (key, cs) ← simpleKey? (skipBlanks cs)
    match skipBlanks cs with
    | '.' :: cs =>
      let (keys, cs) ← keyPath? n cs
      return (key :: keys, cs)
    | cs => return ([key], cs)

end TypeFlow.Toml
