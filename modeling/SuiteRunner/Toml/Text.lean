import SuiteRunner.Text.Digits

/-!
# Strings of a TOML document

The four ways to write a string, as `toml` reads them. Each function reads the rest of a string
whose opening quote has been read, and gives the text and what follows the closing quote.

* `basic`, `literal`: on one line, with and without escapes;
* `basicLines`, `literalLines`: over several lines. A line break is read as a line feed.
-/

namespace SuiteRunner.Toml

/-- A character that may stand in a string or a comment: no control character but the tab. -/
def isPlain (c : Char) : Bool := c == '\t' || (decide (0x20 ≤ c.toNat) && c.toNat != 0x7F)

/-- A space or a tab. -/
def isGap (c : Char) : Bool := c == ' ' || c == '\t'

/-- What follows a line break, if the text starts with one. -/
def afterBreak? : List Char → Option (List Char)
  | '\n' :: cs => some cs
  | '\r' :: '\n' :: cs => some cs
  | _ => none

/-! ## Escapes -/

/-- The character of a short escape. -/
def shortEscape? : Char → Option Char
  | 'b' => some '\x08'
  | 't' => some '\t'
  | 'n' => some '\n'
  | 'f' => some '\x0c'
  | 'r' => some '\r'
  | '"' => some '"'
  | '\\' => some '\\'
  | _ => none

/-- The character with the code point that hexadecimal digits name, if there is one. -/
def scalar? (ds : List Char) : Option Char := do
  let n ← ofDigits? 16 ds
  if n < 0xD800 ∨ (0xE000 ≤ n ∧ n < 0x110000) then some (Char.ofNat n) else none

/-! ## Strings on one line -/

/-- The rest of a string with escapes. -/
def basic : List Char → Option (List Char × List Char)
  | '"' :: cs => some ([], cs)
  | '\\' :: 'u' :: a :: b :: c :: d :: cs => do
    let x ← scalar? [a, b, c, d]
    let (s, rest) ← basic cs
    some (x :: s, rest)
  | '\\' :: 'U' :: a :: b :: c :: d :: e :: f :: g :: h :: cs => do
    let x ← scalar? [a, b, c, d, e, f, g, h]
    let (s, rest) ← basic cs
    some (x :: s, rest)
  | '\\' :: e :: cs => do
    let x ← shortEscape? e
    let (s, rest) ← basic cs
    some (x :: s, rest)
  | c :: cs =>
    if isPlain c && c != '\\' then (basic cs).map fun (s, rest) => (c :: s, rest) else none
  | [] => none

/-- The rest of a string without escapes. -/
def literal : List Char → Option (List Char × List Char)
  | '\'' :: cs => some ([], cs)
  | c :: cs => if isPlain c then (literal cs).map fun (s, rest) => (c :: s, rest) else none
  | [] => none

/-! ## Strings over several lines -/

/-- The end of a string over several lines, after three of its closing quotes `q`: up to two more
are its last characters. -/
def lastQuotes (q : Char) : List Char → List Char × List Char
  | a :: b :: cs =>
    if a = q then if b = q then ([q, q], cs) else ([q], b :: cs) else ([], a :: b :: cs)
  | [a] => if a = q then ([q], []) else ([], [a])
  | [] => ([], [])

/-- A backslash in front of this text ends a line: nothing but gaps stands before the break. -/
def endsLine (cs : List Char) : Bool := (afterBreak? (cs.dropWhile isGap)).isSome

/-- A character that is skipped behind a backslash at the end of a line, with `cs` after it. -/
def isFolded (c : Char) (cs : List Char) : Bool :=
  isGap c || c == '\n' || (c == '\r' && cs.head? == some '\n')

/-- The rest of a string with escapes over several lines. If it is `folding`, a backslash has ended
a line, and no visible character has come since. -/
def basicLines (folding : Bool) : List Char → Option (List Char × List Char)
  | [] => none
  | c :: cs =>
    if folding && isFolded c cs then basicLines true cs
    else
      match c, cs with
      | '"', '"' :: '"' :: cs => some (lastQuotes '"' cs)
      | '\\', cs =>
        if endsLine cs then basicLines true cs
        else
          match cs with
          | 'u' :: a :: b :: c :: d :: cs => do
            let x ← scalar? [a, b, c, d]
            let (s, rest) ← basicLines false cs
            some (x :: s, rest)
          | 'U' :: a :: b :: c :: d :: e :: f :: g :: h :: cs => do
            let x ← scalar? [a, b, c, d, e, f, g, h]
            let (s, rest) ← basicLines false cs
            some (x :: s, rest)
          | e :: cs => do
            let x ← shortEscape? e
            let (s, rest) ← basicLines false cs
            some (x :: s, rest)
          | [] => none
      | '\r', '\n' :: cs => (basicLines false cs).map fun (s, rest) => ('\n' :: s, rest)
      | c, cs =>
        if isPlain c || c == '\n' then
          (basicLines false cs).map fun (s, rest) => (c :: s, rest)
        else none

/-- The rest of a string without escapes over several lines. -/
def literalLines : List Char → Option (List Char × List Char)
  | '\'' :: '\'' :: '\'' :: cs => some (lastQuotes '\'' cs)
  | '\r' :: '\n' :: cs => (literalLines cs).map fun (s, rest) => ('\n' :: s, rest)
  | c :: cs =>
    if isPlain c || c == '\n' then (literalLines cs).map fun (s, rest) => (c :: s, rest) else none
  | [] => none

/-- Any string, its opening quotes included. A line break right after three quotes is no part of
the text. -/
def stringOf : List Char → Option (List Char × List Char)
  | '"' :: '"' :: '"' :: cs => basicLines false ((afterBreak? cs).getD cs)
  | '\'' :: '\'' :: '\'' :: cs => literalLines ((afterBreak? cs).getD cs)
  | '"' :: cs => basic cs
  | '\'' :: cs => literal cs
  | _ => none

end SuiteRunner.Toml
