import SuiteRunner.Machine.Utility.Basic

/-!
# Utilities for names

The parts of a path, taken from its text alone, and the path of the working directory.
-/

namespace SuiteRunner.Machine.Utility

open Act

/-- A text without the slashes at its end. -/
def withoutSlashes (cs : List Char) : List Char := (cs.reverse.dropWhile (· == '/')).reverse

/-- The directory that a path is in. -/
def directoryOf (cs : List Char) : List Char :=
  match withoutSlashes cs with
  | [] => if cs = [] then ['.'] else ['/']
  | name =>
    if name.contains '/' then
      match withoutSlashes (name.reverse.dropWhile (· != '/')).reverse with
      | [] => ['/']
      | dir => dir
    else ['.']

/-- The last name of a path. -/
def lastName (cs : List Char) : List Char :=
  match withoutSlashes cs with
  | [] => if cs = [] then [] else ['/']
  | name => (name.reverse.takeWhile (· != '/')).reverse

/-- Print the directory that a path is in. -/
def dirname : Utility := fun arguments => do
  let (_, files) := options arguments
  eachOf files fun file => do
    say (directoryOf file ++ ['\n'])
    return 0

/-- Print the last name of a path, without a suffix. -/
def basename : Utility := fun arguments => do
  let (_, arguments) := options arguments
  match arguments with
  | [] =>
    complain "basename: missing operand".toList
    return 1
  | file :: rest =>
    let name := lastName file
    let suffix := rest.headD []
    let name := if suffix.isSuffixOf name && suffix != name then
        name.take (name.length - suffix.length) else name
    say (name ++ ['\n'])
    return 0

/-- Print the working directory. -/
def pwd : Utility := fun _ => do
  let home := (← tree).home
  say (Shell.charsOf (Path.slash :: Path.unite home) ++ ['\n'])
  return 0

end SuiteRunner.Machine.Utility
