/-!
# Digits

Reading numbers in a base between two and sixteen, for settings files and arguments.
-/

namespace SuiteRunner

/-- The value of a hexadecimal digit, in either case. -/
def hexDigit? (c : Char) : Option Nat :=
  if '0' ≤ c ∧ c ≤ '9' then some (c.toNat - 48)
  else if 'a' ≤ c ∧ c ≤ 'f' then some (c.toNat - 87)
  else if 'A' ≤ c ∧ c ≤ 'F' then some (c.toNat - 55)
  else none

/-- The value of a digit in `base`. -/
def digit? (base : Nat) (c : Char) : Option Nat := (hexDigit? c).filter (· < base)

/-- The number that a text starts with, in decimal digits: zero if it starts with none. -/
def leadingNumber (cs : List Char) : Nat :=
  ((cs.takeWhile Char.isDigit).filterMap hexDigit?).foldl (fun n d => n * 10 + d) 0

/-- The number that digits in `base` name; none if one of them is no digit. -/
def ofDigits? (base : Nat) (ds : List Char) : Option Nat :=
  ds.foldlM (fun n d => (digit? base d).map (n * base + ·)) 0

end SuiteRunner
