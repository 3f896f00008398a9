import SuiteRunner.Text.Digits

/-!
# Numbers of a TOML document

Numbers as `toml` reads them. Integers have 64 bits and may be written in base 2, 8, 10 or 16; a
decimal one may have a sign. Of a floating-point number only its form matters, and that it is not
too large. Underscores stand between digits.
-/

namespace SuiteRunner.Toml

/-- A decimal digit. -/
def isDigit (c : Char) : Bool := (digit? 10 c).isSome

/-- Further digits of a number, each with at most one underscore before it. -/
def moreDigits (base : Nat) : List Char → List Char × List Char
  | '_' :: d :: cs =>
    if (digit? base d).isSome then
      let (ds, rest) := moreDigits base cs
      (d :: ds, rest)
    else ([], '_' :: d :: cs)
  | d :: cs =>
    if (digit? base d).isSome then
      let (ds, rest) := moreDigits base cs
      (d :: ds, rest)
    else ([], d :: cs)
  | [] => ([], [])

/-- The digits of a number, at least one. -/
def someDigits (base : Nat) : List Char → Option (List Char × List Char)
  | d :: cs =>
    if (digit? base d).isSome then
      let (ds, rest) := moreDigits base cs
      some (d :: ds, rest)
    else none
  | [] => none

/-- A sign: whether it is a minus. -/
def sign : List Char → Bool × List Char
  | '+' :: cs => (false, cs)
  | '-' :: cs => (true, cs)
  | cs => (false, cs)

/-- Decimal digits that start with a zero only if it stands alone. -/
def wholeDigits : List Char → Option (List Char × List Char)
  | '0' :: cs => some (['0'], cs)
  | cs => someDigits 10 cs

/-! ## Integers -/

/-- An integer of 64 bits. -/
def isInt64 (n : Int) : Bool :=
  decide (Int64.minValue.toInt ≤ n) && decide (n ≤ Int64.maxValue.toInt)

/-- The digits in `base` of an integer without a sign. -/
def integerIn (base : Nat) (cs : List Char) : Option (Int × List Char) := do
  let (ds, rest) ← someDigits base cs
  let n ← ofDigits? base ds
  if isInt64 n then some (n, rest) else none

/-- An integer. -/
def integer : List Char → Option (Int × List Char)
  | '0' :: 'x' :: cs => integerIn 16 cs
  | '0' :: 'o' :: cs => integerIn 8 cs
  | '0' :: 'b' :: cs => integerIn 2 cs
  | cs => do
    let (negative, cs) := sign cs
    let (ds, rest) ← wholeDigits cs
    let n ← ofDigits? 10 ds
    let n : Int := if negative then -n else n
    if isInt64 n then some (n, rest) else none

/-! ## Floating-point numbers -/

/-- The least number that is rounded to infinity: half a unit in the last place above the largest
finite one. -/
def infinityBound : Nat := Nat.pow 2 1024 - Nat.pow 2 970

/-- `m · 10^e` is at least `infinityBound`. Only where the decimal point is near the bound's is the
number worked out. -/
def overflows (m : Nat) (e : Int) : Bool :=
  if m = 0 then false
  else
    let point := (Nat.toDigits 10 m).length + e
    if point > 310 then true
    else if point < 308 then false
    else if e ≥ 0 then decide (infinityBound ≤ m * Nat.pow 10 e.toNat)
    else decide (infinityBound * Nat.pow 10 (-e).toNat ≤ m)

/-- The digits after a point, if there is one. -/
def fraction? : List Char → Option (List Char × List Char)
  | '.' :: cs => someDigits 10 cs
  | _ => none

/-- The exponent, if there is one. -/
def exponent? : List Char → Option (Int × List Char)
  | c :: cs =>
    if c = 'e' ∨ c = 'E' then do
      let (negative, cs) := sign cs
      let (ds, rest) ← someDigits 10 cs
      let n ← ofDigits? 10 ds
      some (if negative then -n else n, rest)
    else none
  | [] => none

/-- The name of a number that is none, or of one beyond all numbers. -/
def specialFloat? : List Char → Option (List Char)
  | 'i' :: 'n' :: 'f' :: rest => some rest
  | 'n' :: 'a' :: 'n' :: rest => some rest
  | _ => none

/-- A floating-point number in digits: it has a fraction, or an exponent, or both, and is not
rounded to infinity. -/
def digitFloat (cs : List Char) : Option (List Char) := do
  let (negative, cs) := sign cs
  let (ds, cs) ← wholeDigits cs
  let (fs, cs, pointed) := match fraction? cs with
    | some (fs, cs) => (fs, cs, true)
    | none => ([], cs, false)
  let (e, cs, scaled) := match exponent? cs with
    | some (e, cs) => (e, cs, true)
    | none => (0, cs, false)
  let m ← ofDigits? 10 (ds ++ fs)
  if !pointed && !scaled then none
  else if !negative && overflows m (e - fs.length) then none
  else some cs

/-- What follows a floating-point number. -/
def float (cs : List Char) : Option (List Char) :=
  match digitFloat cs with
  | some rest => some rest
  | none => specialFloat? (sign cs).2

end SuiteRunner.Toml
