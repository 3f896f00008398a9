import SuiteRunner.Machine.Substitution
import SuiteRunner.Machine.Utility.Basic

/-!
# Utilities for texts

What is printed: arguments, arguments by a format, files, and files with a substitution in every
line.

* `Utility.unescape`: a text with what its backslashes mean;
* `Utility.formats`: arguments by a format, which is read again as long as there are arguments.
-/

namespace SuiteRunner.Machine.Utility

open Act

/-! ## Arguments -/

/-- The value of up to `n` octal digits at the start, and the rest. -/
def octal : Nat → Nat → List Char → Nat × List Char
  | 0, value, cs => (value, cs)
  | n + 1, value, c :: cs =>
    if '0' ≤ c ∧ c ≤ '7' then octal n (value * 8 + (c.toNat - 48)) cs else (value, c :: cs)
  | _, value, [] => (value, [])

/-- The character that a letter behind a backslash stands for. -/
def escape? : Char → Option Char
  | 'a' => some '\x07'
  | 'b' => some '\x08'
  | 'f' => some '\x0c'
  | 'n' => some '\n'
  | 'r' => some '\r'
  | 't' => some '\t'
  | 'v' => some '\x0b'
  | '\\' => some '\\'
  | _ => none

/-- A text with what its backslashes mean, in at most `fuel` steps, and whether it goes on after
it. With `zero`, an octal number starts with a zero. -/
def unescape (zero : Bool) : Nat → List Char → List Char × Bool
  | 0, cs => (cs, true)
  | fuel + 1, '\\' :: c :: cs =>
    if c = 'c' then ([], false)
    else if (zero && c == '0') || (!zero && '0' ≤ c && c ≤ '7') then
      let (value, rest) := octal 3 0 (if zero then cs else c :: cs)
      let (tail, on) := unescape zero fuel rest
      (Char.ofNat (value % 256) :: tail, on)
    else
      let (tail, on) := unescape zero fuel cs
      match escape? c with
      | some d => (d :: tail, on)
      | none => ('\\' :: c :: tail, on)
  | fuel + 1, c :: cs =>
    let (tail, on) := unescape zero fuel cs
    (c :: tail, on)
  | _, [] => ([], true)

/-- Arguments with blanks between them. -/
def united (arguments : List (List Char)) : List Char := List.intercalate [' '] arguments

/-- Print arguments. -/
def echo : Utility := fun arguments => do
  let (words, newline) := match arguments with
    | ['-', 'n'] :: words => (words, false)
    | words => (words, true)
  let text := united words
  let (text, on) := unescape true text.length text
  say (if newline && on then text ++ ['\n'] else text)
  return 0

/-- One reading of a format, in at most `fuel` steps: the text, the arguments that are left, and
whether it goes on after it. -/
def format : Nat → List Char → List (List Char) → List Char × List (List Char) × Bool
  | 0, _, arguments => ([], arguments, true)
  | _, [], arguments => ([], arguments, true)
  | fuel + 1, '%' :: '%' :: cs, arguments =>
    let (tail, rest, on) := format fuel cs arguments
    ('%' :: tail, rest, on)
  | fuel + 1, '%' :: c :: cs, arguments =>
    let argument := arguments.headD []
    if c = 'b' then
      match unescape true argument.length argument with
      | (text, false) => (text, [], false)
      | (text, true) =>
        let (tail, rest, on) := format fuel cs arguments.tail
        (text ++ tail, rest, on)
    else
      let text :=
        if c = 'd' ∨ c = 'i' then (toString (numberOf argument)).toList
        else if c = 'c' then argument.take 1
        else argument
      let (tail, rest, on) := format fuel cs arguments.tail
      (text ++ tail, rest, on)
  | fuel + 1, '\\' :: c :: cs, arguments =>
    if c = 'c' then ([], [], false)
    else
      let (value?, more) :=
        if '0' ≤ c ∧ c ≤ '7' then
          let (value, rest) := octal 3 0 (c :: cs)
          (some (Char.ofNat (value % 256)), rest)
        else (escape? c, cs)
      let (tail, rest, on) := format fuel more arguments
      match value? with
      | some d => (d :: tail, rest, on)
      | none => ('\\' :: c :: tail, rest, on)
  | fuel + 1, c :: cs, arguments =>
    let (tail, rest, on) := format fuel cs arguments
    (c :: tail, rest, on)

/-- Readings of a format, as long as there are arguments for it. -/
def formats (f : List Char) : Nat → List (List Char) → List Char
  | 0, _ => []
  | fuel + 1, arguments =>
    let (text, rest, on) := format f.length f arguments
    if on && !rest.isEmpty && rest.length < arguments.length then text ++ formats f fuel rest
    else text

/-- Print arguments by a format. -/
def printf : Utility := fun arguments => do
  match arguments with
  | [] =>
    complain "printf: usage: printf format [arg ...]".toList
    return 2
  | f :: rest =>
    say (formats f (rest.length + 1) rest)
    return 0

/-! ## Files -/

/-- The bytes of files one after another, or of the input. -/
def inputs (name : String) (files : List (List Char)) : Act (Bytes × Nat) := do
  if files.isEmpty then
    let p ← process
    setProcess fun p => { p with input := [] }
    return (p.input, 0)
  else
    files.foldlM (fun (bytes, status) file => do
      if file = ['-'] then return (bytes, status)
      match (← tree).read (pathOf file) with
      | .ok content => return (bytes ++ content, status)
      | .error cause =>
        complain (s!"{name}: ".toList ++ file ++ s!": {reason cause}".toList)
        return (bytes, 1)) (([], 0) : Bytes × Nat)

/-- Print files. -/
def cat : Utility := fun arguments => do
  let (_, files) := options arguments
  let (bytes, status) ← inputs "cat" files
  put (← process).out bytes
  return status

/-- Print files with a substitution in every line. -/
def sed : Utility := fun arguments => do
  let command? := match arguments with
    | ['-', 'e'] :: c :: files => some (c, files)
    | c :: files => some (c, files)
    | [] => none
  match command?.bind fun (c, files) => (Substitution.ofChars? c).map (·, files) with
  | none =>
    complain "sed: unknown command".toList
    return 1
  | some (u, files) =>
    let (bytes, status) ← inputs "sed" files
    let lines := (Shell.charsOf bytes).splitOn '\n'
    let (whole, last) := (lines.dropLast, lines.getLastD [])
    say (whole.flatMap (fun l => u.apply l ++ ['\n']) ++ if last = [] then [] else u.apply last)
    return status

end SuiteRunner.Machine.Utility
