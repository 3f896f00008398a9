/-!
# Patterns

Patterns for names: a star matches any characters, a question mark one, and brackets one of a set.
A quoted character matches itself.

* `Pattern.ofMarks`: the pattern that a word is;
* `Pattern.fits`: a text is matched from end to end.
-/

namespace SuiteRunner.Shell

/-- A character of a word after its values are filled in. -/
structure Mark where
  /-- The character. -/
  char : Char
  /-- It stands for itself. -/
  quoted : Bool
  deriving DecidableEq, Repr

/-- An element of a pattern. -/
inductive Glob where
  /-- The character itself. -/
  | one (c : Char)
  /-- Any character. -/
  | any
  /-- Any characters, none included. -/
  | many
  /-- A character in one of the ranges, or in none of them. -/
  | among (excluded : Bool) (ranges : List (Char × Char))
  deriving DecidableEq, Repr

/-- A pattern: elements one after another. -/
abbrev Pattern := List Glob

namespace Glob

/-- The character `c` is one that a single element stands for. -/
def accepts : Glob → Char → Bool
  | one d, c => c == d
  | any, _ => true
  | many, _ => false
  | among excluded ranges, c =>
    (ranges.any fun r => decide (r.1 ≤ c) && decide (c ≤ r.2)) != excluded

end Glob

namespace Pattern

/-- The mark is the unquoted character `c`. -/
def isBare (m : Mark) (c : Char) : Bool := m.char == c && !m.quoted

/-- The ranges between brackets, and what comes after the closing one. A closing bracket that
stands first is one of the characters. -/
def ranges (first : Bool) : List Mark → Option (List (Char × Char) × List Mark)
  | m :: dash :: n :: rest =>
    if isBare m ']' && !first then some ([], dash :: n :: rest)
    else if isBare dash '-' && !isBare n ']' then
      (ranges false rest).map fun (rs, rest) => ((m.char, n.char) :: rs, rest)
    else (ranges false (dash :: n :: rest)).map fun (rs, rest) => ((m.char, m.char) :: rs, rest)
  | m :: rest =>
    if isBare m ']' && !first then some ([], rest)
    else (ranges false rest).map fun (rs, rest) => ((m.char, m.char) :: rs, rest)
  | [] => none
termination_by ms => ms.length

/-- The element between brackets, and what comes after it. -/
def bracket (ms : List Mark) : Option (Glob × List Mark) :=
  match ms with
  | ⟨'!', false⟩ :: ms => (ranges true ms).map fun (rs, rest) => (.among true rs, rest)
  | ms => (ranges true ms).map fun (rs, rest) => (.among false rs, rest)

/-- The pattern that at most `fuel` marks are. -/
def ofMarksWith : Nat → List Mark → Pattern
  | 0, _ | _, [] => []
  | fuel + 1, m :: ms =>
    if m.quoted then .one m.char :: ofMarksWith fuel ms
    else if m.char = '*' then .many :: ofMarksWith fuel ms
    else if m.char = '?' then .any :: ofMarksWith fuel ms
    else if m.char = '[' then
      match bracket ms with
      | some (g, rest) => g :: ofMarksWith fuel rest
      | none => .one m.char :: ofMarksWith fuel ms
    else .one m.char :: ofMarksWith fuel ms

/-- The pattern that a word is. -/
def ofMarks (ms : List Mark) : Pattern := ofMarksWith ms.length ms

/-- The pattern matches the text from end to end. -/
def fits : Pattern → List Char → Bool
  | [], s => s.isEmpty
  | .many :: gs, [] => fits gs []
  | .many :: gs, c :: s => fits gs (c :: s) || fits (.many :: gs) s
  | _ :: _, [] => false
  | g :: gs, c :: s => g.accepts c && fits gs s
termination_by gs s => gs.length + s.length

/-- The pattern has an element that is no character by itself. -/
def isOpen (p : Pattern) : Bool :=
  p.any fun
    | .one _ => false
    | _ => true

/-- `s` without its shortest or longest start that the pattern matches. -/
def cutStart (p : Pattern) (longest : Bool) (s : List Char) : List Char :=
  let cuts := (List.range (s.length + 1)).filter fun n => p.fits (s.take n)
  match if longest then cuts.getLast? else cuts.head? with
  | some n => s.drop n
  | none => s

/-- `s` without its shortest or longest end that the pattern matches. -/
def cutEnd (p : Pattern) (longest : Bool) (s : List Char) : List Char :=
  let cuts := (List.range (s.length + 1)).filter fun n => p.fits (s.drop n)
  match if longest then cuts.head? else cuts.getLast? with
  | some n => s.take n
  | none => s

end Pattern

end SuiteRunner.Shell
