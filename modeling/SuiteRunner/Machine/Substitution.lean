import SuiteRunner.Shell.Pattern

/-!
# Substitutions in lines

A substitution finds a stretch of a line that an expression matches, the first one and of those the
longest, and puts another text in its place.

* `Expression.longest?`: the longest start of a text that an expression matches;
* `Substitution.apply`: the line with the text put in.
-/

namespace SuiteRunner.Machine

open Shell (Glob Mark Pattern)

/-- An element of an expression: one character, or any number of them. -/
structure Atom where
  /-- The characters that it stands for. -/
  glob : Glob
  /-- It stands for any number of them. -/
  starred : Bool
  deriving Repr

/-- An expression. -/
structure Expression where
  /-- It matches only at the start of a line. -/
  fromStart : Bool
  /-- It matches only up to the end of a line. -/
  toEnd : Bool
  /-- Its elements. -/
  atoms : List Atom
  deriving Repr

namespace Expression

/-- The elements of an expression of at most `fuel` characters, and whether it goes up to the end
of a line. -/
def readWith : Nat → List Char → Option (List Atom × Bool)
  | 0, _ | _, [] => some ([], false)
  | _ + 1, ['$'] => some ([], true)
  | fuel + 1, c :: cs => do
    let (glob, rest) ←
      match c, cs with
      | '\\', d :: cs => some (Glob.one d, cs)
      | '.', cs => some (.any, cs)
      | '[', '^' :: cs =>
        (Pattern.ranges true (cs.map (⟨·, false⟩))).map fun (rs, ms) =>
          (.among true rs, ms.map (·.char))
      | '[', cs =>
        (Pattern.ranges true (cs.map (⟨·, false⟩))).map fun (rs, ms) =>
          (.among false rs, ms.map (·.char))
      | c, cs => some (.one c, cs)
    match rest with
    | '*' :: rest => (readWith fuel rest).map fun (as, e) => (⟨glob, true⟩ :: as, e)
    | rest => (readWith fuel rest).map fun (as, e) => (⟨glob, false⟩ :: as, e)

/-- The expression that a text is. -/
def ofChars? (cs : List Char) : Option Expression :=
  match cs with
  | '^' :: cs => (readWith cs.length cs).map fun (as, e) => ⟨true, e, as⟩
  | cs => (readWith cs.length cs).map fun (as, e) => ⟨false, e, as⟩

/-- The lengths of the starts of a text that the elements match. -/
def lengths : List Atom → List Char → List Nat
  | [], _ => [0]
  | a :: as, [] => if a.starred then lengths as [] else []
  | a :: as, c :: s =>
    let further := if a.glob.accepts c then
        (if a.starred then lengths (a :: as) s else lengths as s).map (· + 1)
      else []
    if a.starred then lengths as (c :: s) ++ further else further
termination_by as s => as.length + s.length

/-- The length of the longest start of a text that the expression matches. -/
def longest? (e : Expression) (s : List Char) : Option Nat :=
  ((lengths e.atoms s).filter fun n => !e.toEnd || n == s.length).max?

end Expression

/-- A substitution. -/
structure Substitution where
  /-- What is looked for. -/
  expression : Expression
  /-- What is put in its place. -/
  text : List Char
  /-- Every stretch counts, and not only the first. -/
  everywhere : Bool
  deriving Repr

namespace Substitution

/-- Three fields behind a sign that stands for `d`, with a sign between them. -/
def fields? (d : Char) (cs : List Char) : Option (List Char × List Char × List Char) :=
  match cs.splitOn d with
  | [a, b, c] => some (a, b, c)
  | _ => none

/-- The substitution that a command is. -/
def ofChars? (cs : List Char) : Option Substitution :=
  match cs with
  | 's' :: d :: rest => do
    let (found, text, flags) ← fields? d rest
    let e ← Expression.ofChars? found
    match flags with
    | [] => some ⟨e, text, false⟩
    | ['g'] => some ⟨e, text, true⟩
    | _ => none
  | _ => none

/-- The text that is put in the place of `found`. -/
def replacement (found : List Char) : List Char → List Char
  | '\\' :: c :: cs => c :: replacement found cs
  | '&' :: cs => found ++ replacement found cs
  | c :: cs => c :: replacement found cs
  | [] => []

/-- Where a search starts. -/
inductive Position where
  /-- At the start of a line. -/
  | start
  /-- Behind a character that no stretch ended with. -/
  | inside
  /-- Behind a stretch, where no empty one counts. -/
  | behind
  deriving DecidableEq, Repr

/-- The length of the stretch that starts at a position. -/
def stretch? (u : Substitution) (position : Position) (s : List Char) : Option Nat :=
  if u.expression.fromStart && position != .start then none
  else (u.expression.longest? s).filter fun n => n != 0 || position != .behind

/-- The rest of a line with the text put in, in at most `fuel` steps. -/
def applyWith (u : Substitution) : Nat → Position → List Char → List Char
  | 0, _, s => s
  | fuel + 1, position, s =>
    match u.stretch? position s with
    | none =>
      match s with
      | [] => []
      | c :: s => c :: applyWith u fuel .inside s
    | some n =>
      let put := replacement (s.take n) u.text
      if !u.everywhere then put ++ s.drop n
      else if n != 0 then put ++ applyWith u fuel .behind (s.drop n)
      else
        match s with
        | [] => put
        | c :: s => put ++ c :: applyWith u fuel .inside s

/-- The line with the text put in. -/
def apply (u : Substitution) (s : List Char) : List Char := u.applyWith (2 * s.length + 1) .start s

end Substitution

end SuiteRunner.Machine
