import SuiteRunner.Text.Digits

/-!
# Dates and times of a TOML document

A date, a time, or a date with a time and possibly an offset, as `toml` reads them. No setting is
one, so only the form is read, and that each part is in its range.
-/

namespace SuiteRunner.Toml

/-- `n` decimal digits. -/
def digitsOf (n : Nat) (cs : List Char) : Option (Nat × List Char) :=
  if cs.length < n then none else (ofDigits? 10 (cs.take n)).map (·, cs.drop n)

/-- Two digits that name a number in `low … high`. -/
def twoDigits (low high : Nat) (cs : List Char) : Option (Nat × List Char) :=
  (digitsOf 2 cs).filter fun r => low ≤ r.1 && r.1 ≤ high

/-- What follows the character `c`. -/
def after? (c : Char) : List Char → Option (List Char)
  | d :: cs => if d = c then some cs else none
  | [] => none

/-- A year with a 29th of February. -/
def isLeap (year : Nat) : Bool := year % 4 == 0 && (year % 100 != 0 || year % 400 == 0)

/-- The number of days of a month. -/
def daysIn (year month : Nat) : Nat :=
  match month with
  | 2 => if isLeap year then 29 else 28
  | 4 | 6 | 9 | 11 => 30
  | _ => 31

/-- What follows a date. -/
def date (cs : List Char) : Option (List Char) := do
  let (year, cs) ← digitsOf 4 cs
  let cs ← after? '-' cs
  let (month, cs) ← twoDigits 1 12 cs
  let cs ← after? '-' cs
  let (_, cs) ← twoDigits 1 (daysIn year month) cs
  some cs

/-- What follows a fraction of a second, or nothing. -/
def secondFraction (cs : List Char) : List Char :=
  match cs with
  | '.' :: d :: rest =>
    if (digit? 10 d).isSome then rest.dropWhile fun d => (digit? 10 d).isSome else cs
  | _ => cs

/-- What follows an hour and a minute. -/
def hourMinute (cs : List Char) : Option (List Char) := do
  let (_, cs) ← twoDigits 0 23 cs
  let cs ← after? ':' cs
  let (_, cs) ← twoDigits 0 59 cs
  some cs

/-- What follows a time of day. A minute may have a sixty-first second. -/
def time (cs : List Char) : Option (List Char) := do
  let cs ← hourMinute cs
  let cs ← after? ':' cs
  let (_, cs) ← twoDigits 0 60 cs
  some (secondFraction cs)

/-- What follows an offset from universal time, or nothing. -/
def offset (cs : List Char) : List Char :=
  match cs with
  | 'Z' :: rest | 'z' :: rest => rest
  | '+' :: rest | '-' :: rest => (hourMinute rest).getD cs
  | _ => cs

/-- What follows the time that is joined to a date, or nothing. -/
def timeAfterDate (cs : List Char) : List Char :=
  match cs with
  | c :: rest =>
    if c = 'T' ∨ c = 't' ∨ c = ' ' then
      match time rest with
      | some rest => offset rest
      | none => cs
    else cs
  | [] => cs

/-- What follows a date, a time, or both. -/
def moment (cs : List Char) : Option (List Char) :=
  match date cs with
  | some rest => some (timeAfterDate rest)
  | none => time cs

end SuiteRunner.Toml
