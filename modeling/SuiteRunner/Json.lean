import SuiteRunner.Text.Digits

/-!
# JSON texts

A JSON text as a value, and the reader that takes the value from its text. It accepts what
`serde_json` accepts where values may be skipped.

* `Json.Glyph`: what one element of a string literal stands for. An escape may name half of a
  surrogate pair, so a literal need not denote a text: `Json.textOf` says whether it does;
* `Json.ofText?`: the value of a whole text. A string, and the name of a member, may be any literal.
-/

namespace SuiteRunner

namespace Json

/-- An element of a string literal. -/
inductive Glyph where
  /-- A character, bare or by its short escape. -/
  | char (c : Char)
  /-- A sixteen-bit unit, by four hexadecimal digits. -/
  | unit (code : Nat)
  deriving DecidableEq, Repr

/-- A number literal, as far as its value can be told from it at once. -/
structure Number where
  /-- There is a minus sign. -/
  negative : Bool
  /-- The digits before the point. -/
  whole : Nat
  /-- There is neither a fraction nor an exponent. -/
  isInteger : Bool
  deriving DecidableEq, Repr

end Json

/-- A JSON value. -/
inductive Json where
  | null
  | boolean (b : Bool)
  | number (n : Json.Number)
  /-- A string literal. -/
  | string (glyphs : List Json.Glyph)
  | array (items : List Json)
  /-- The members in order, each with the literal of its name, repeated names included. -/
  | object (members : List (List Json.Glyph × Json))
  deriving Repr

namespace Json

/-! ## String literals -/

/-- A unit that starts a surrogate pair. -/
def isHigh (n : Nat) : Bool := decide (0xD800 ≤ n) && decide (n < 0xDC00)

/-- A unit that ends a surrogate pair. -/
def isLow (n : Nat) : Bool := decide (0xDC00 ≤ n) && decide (n < 0xE000)

/-- The character of a surrogate pair. -/
def ofPair (high low : Nat) : Char :=
  Char.ofNat (0x10000 + (high - 0xD800) * 0x400 + (low - 0xDC00))

/-- The text that a literal denotes; none if half of a surrogate pair stands alone. -/
def textOf : List Glyph → Option (List Char)
  | [] => some []
  | .char c :: gs => (textOf gs).map (c :: ·)
  | .unit n :: .unit m :: gs =>
    if isHigh n then if isLow m then (textOf gs).map (ofPair n m :: ·) else none
    else if isLow n then none
    else (textOf (.unit m :: gs)).map (Char.ofNat n :: ·)
  | .unit n :: gs =>
    if isHigh n || isLow n then none else (textOf gs).map (Char.ofNat n :: ·)

/-- The unit that four hexadecimal digits name. -/
def unit? (a b c d : Char) : Option Nat := ofDigits? 16 [a, b, c, d]

/-- The character of a short escape. -/
def shortEscape? : Char → Option Char
  | '"' => some '"'
  | '\\' => some '\\'
  | '/' => some '/'
  | 'b' => some '\x08'
  | 'f' => some '\x0c'
  | 'n' => some '\n'
  | 'r' => some '\r'
  | 't' => some '\t'
  | _ => none

/-- The rest of a string literal, after its opening quote. -/
def glyphs : List Char → Option (List Glyph × List Char)
  | '"' :: cs => some ([], cs)
  | '\\' :: 'u' :: a :: b :: c :: d :: cs => do
    let n ← unit? a b c d
    let (gs, rest) ← glyphs cs
    some (.unit n :: gs, rest)
  | '\\' :: e :: cs => do
    let c ← shortEscape? e
    let (gs, rest) ← glyphs cs
    some (.char c :: gs, rest)
  | c :: cs =>
    if c.toNat < 0x20 || c == '\\' then none
    else do
      let (gs, rest) ← glyphs cs
      some (.char c :: gs, rest)
  | [] => none

/-! ## Numbers -/

/-- The digits at the start of a text. -/
def digits (cs : List Char) : List Char × List Char :=
  (cs.takeWhile Char.isDigit, cs.dropWhile Char.isDigit)

/-- The digits before the point: no zero stands before another digit. -/
def wholePart (cs : List Char) : Option (Nat × List Char) :=
  match digits cs with
  | ([], _) => none
  | ('0' :: _ :: _, _) => none
  | (ds, rest) => (ofDigits? 10 ds).map (·, rest)

/-- A point and digits, or nothing; whether there was a point. -/
def fraction : List Char → Option (Bool × List Char)
  | '.' :: cs =>
    match digits cs with
    | ([], _) => none
    | (_, rest) => some (true, rest)
  | cs => some (false, cs)

/-- A sign, or nothing. -/
def dropSign : List Char → List Char
  | '+' :: cs | '-' :: cs => cs
  | cs => cs

/-- An exponent, or nothing; whether there was one. -/
def exponent : List Char → Option (Bool × List Char)
  | 'e' :: cs | 'E' :: cs =>
    match digits (dropSign cs) with
    | ([], _) => none
    | (_, rest) => some (true, rest)
  | cs => some (false, cs)

/-- A number without its sign. -/
def magnitude (negative : Bool) (cs : List Char) : Option (Number × List Char) := do
  let (whole, cs) ← wholePart cs
  let (point, cs) ← fraction cs
  let (power, cs) ← exponent cs
  some (⟨negative, whole, !point && !power⟩, cs)

/-- A number. -/
def numberOf : List Char → Option (Number × List Char)
  | '-' :: cs => magnitude true cs
  | cs => magnitude false cs

/-! ## Values -/

/-- A character that may stand between tokens. -/
def isSpace (c : Char) : Bool := c == ' ' || c == '\n' || c == '\t' || c == '\r'

/-- A text without the space it starts with. -/
def skip (cs : List Char) : List Char := cs.dropWhile isSpace

mutual

/-- A value. -/
def value : Nat → List Char → Option (Json × List Char)
  | 0, _ => none
  | fuel + 1, cs =>
    match skip cs with
    | 'n' :: 'u' :: 'l' :: 'l' :: rest => some (.null, rest)
    | 't' :: 'r' :: 'u' :: 'e' :: rest => some (.boolean true, rest)
    | 'f' :: 'a' :: 'l' :: 's' :: 'e' :: rest => some (.boolean false, rest)
    | '"' :: rest => (glyphs rest).map fun (gs, rest) => (.string gs, rest)
    | '[' :: rest =>
      match skip rest with
      | ']' :: rest => some (.array [], rest)
      | rest => (items fuel rest).map fun (xs, rest) => (.array xs, rest)
    | '\x7b' :: rest =>
      match skip rest with
      | '\x7d' :: rest => some (.object [], rest)
      | rest => (members fuel rest).map fun (ms, rest) => (.object ms, rest)
    | rest => (numberOf rest).map fun (n, rest) => (.number n, rest)

/-- The items of an array, at least one, and the bracket that closes it. -/
def items : Nat → List Char → Option (List Json × List Char)
  | 0, _ => none
  | fuel + 1, cs => do
    let (x, rest) ← value fuel cs
    match skip rest with
    | ',' :: rest =>
      let (xs, rest) ← items fuel rest
      some (x :: xs, rest)
    | ']' :: rest => some ([x], rest)
    | _ => none

/-- The members of an object, at least one, and the brace that closes it. -/
def members : Nat → List Char → Option (List (List Glyph × Json) × List Char)
  | 0, _ => none
  | fuel + 1, cs =>
    match skip cs with
    | '"' :: rest => do
      let (name, rest) ← glyphs rest
      match skip rest with
      | ':' :: rest =>
        let (x, rest) ← value fuel rest
        match skip rest with
        | ',' :: rest =>
          let (ms, rest) ← members fuel rest
          some ((name, x) :: ms, rest)
        | '\x7d' :: rest => some ([(name, x)], rest)
        | _ => none
      | _ => none
    | _ => none

end

/-- The value of a whole text. Each step of the reader that does not take a character is followed
by one that does, so twice the length of the text is fuel enough. -/
def ofText? (cs : List Char) : Option Json :=
  match value (2 * cs.length + 2) cs with
  | some (j, rest) => if skip rest = [] then some j else none
  | none => none

end Json

end SuiteRunner
