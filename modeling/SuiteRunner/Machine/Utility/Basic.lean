import SuiteRunner.Machine.World

/-!
# Utilities

A utility is a small program: it gets arguments, and ends with a status.

* `Utility`: what it is;
* `Utility.options`, `Utility.eachOf`, `Utility.complainAbout`: what most of them share.
-/

namespace SuiteRunner.Machine

/-- A utility: its arguments are given, and its status is answered. -/
abbrev Utility := List (List Char) → Act Nat

namespace Utility

open Act

/-- The letters of the options in front of arguments, and the arguments. -/
def options : List (List Char) → List Char × List (List Char)
  | [] => ([], [])
  | ('-' :: c :: cs) :: rest =>
    if c :: cs = ['-'] then ([], rest)
    else
      let (letters, arguments) := options rest
      (c :: cs ++ letters, arguments)
  | arguments => ([], arguments)

/-- The last argument, and the ones before it. -/
def lastOf (arguments : List (List Char)) : Option (List (List Char) × List Char) :=
  match arguments.getLast? with
  | some target => if arguments.length < 2 then none else some (arguments.dropLast, target)
  | none => none

/-- A complaint of the utility `name` about a file. -/
def complainAbout (name what : String) (file : List Char) (why : String) : Act Unit :=
  complain (s!"{name}: {what} '".toList ++ file ++ s!"': {why}".toList)

/-- One after another; the status is the highest. -/
def eachOf (arguments : List (List Char)) (act : List Char → Act Nat) : Act Nat :=
  arguments.foldlM (fun status a => do return max status (← act a)) 0

/-- The words for why `p` does not lead to an entry; `other` if it does. -/
def reasonFor (t : Tree) (follow : Bool) (p : Path) (other : String) : String :=
  match t.resolve follow p with
  | .ok _ => other
  | .error cause => reason cause

/-- The number that a text starts with, in decimal digits, a sign in front of it. -/
def numberOf (cs : List Char) : Int :=
  match cs with
  | '-' :: ds => -(leadingNumber ds : Int)
  | '+' :: ds => leadingNumber ds
  | ds => leadingNumber ds

/-- Success. -/
def succeed : Utility := fun _ => return 0

/-- Failure. -/
def fail : Utility := fun _ => return 1

end Utility

end SuiteRunner.Machine
