import SuiteRunner.Shell.Command

/-!
# Reading parts of scripts

A reader goes on character by character and counts the lines; it may find a fault.

* `Shell.Reader`: what it is;
* `Reader.skipBlanks`, `Reader.nextWord`, `Reader.expectWord`: what stands between commands;
* `Reader.arrow?`, `Reader.change?`, `Reader.assignment?`: what certain characters mean.
-/

namespace SuiteRunner.Shell

/-- Where reading stands. -/
structure Cursor where
  /-- What is not read yet. -/
  rest : List Char
  /-- The number of the line. -/
  line : Nat

/-- A reader of a part of a script; it may find a fault. -/
abbrev Reader := StateT Cursor Option

namespace Reader

/-! ## Characters -/

/-- Characters that end a word. -/
def endsWord (c : Char) : Bool := [' ', '\t', '\n', ';', '&', '|', '<', '>', '(', ')'].contains c

/-- A character that a name starts with. -/
def startsName (c : Char) : Bool := c.isAlpha || c == '_'

/-- A character in a name. -/
def inName (c : Char) : Bool := c.isAlphanum || c == '_'

/-- The names of parameters that are one character and no letter. -/
def specialNames : List Char := ['@', '*', '#', '?', '-', '$', '!']

/-- What is not read yet. -/
def ahead : Reader (List Char) := do return (← get).rest

/-- Go on by `n` characters. -/
def advance (n : Nat) : Reader Unit :=
  modify fun k => ⟨k.rest.drop n, k.line + (k.rest.take n).count '\n'⟩

/-- Go on behind a character that must come now. -/
def expect (c : Char) : Reader Unit := do
  if (← ahead).head? = some c then advance 1 else failure

/-- The number of characters at the start that mean nothing: blanks, line ends that are taken
back, and comments; with `lines`, line ends too. In a `comment`, only a line end means anything. -/
def gapLength (lines : Bool) (comment : Bool) : List Char → Nat
  | [] => 0
  | c :: cs =>
    if c = '\n' then if lines then gapLength lines false cs + 1 else 0
    else if comment || c = '#' then gapLength lines true cs + 1
    else if c = ' ' || c = '\t' then gapLength lines false cs + 1
    else
      match c, cs with
      | '\\', '\n' :: cs => gapLength lines false cs + 2
      | _, _ => 0

/-- Go on behind blanks and a comment. -/
def skipBlanks : Reader Unit := do advance (gapLength false false (← ahead))

/-- Go on behind blanks, comments and line ends. -/
def skipLines : Reader Unit := do advance (gapLength true false (← ahead))

/-- The characters up to the end of the word that comes now. -/
def nextWord : Reader (List Char) := do return (← ahead).takeWhile fun c => !endsWord c

/-- The word that comes now is `w`. -/
def isNext (w : String) : Reader Bool := do return (← nextWord) == w.toList

/-- Go on behind a word that must come now. -/
def expectWord (w : String) : Reader Unit := do
  skipLines
  if ← isNext w then advance w.length else failure

/-- Words that end a list of commands. -/
def closingWords : List (List Char) :=
  ["then", "else", "elif", "fi", "do", "done", "esac", "\x7d"].map String.toList

/-- A list of commands ends here. -/
def atEnd : Reader Bool := do
  match ← ahead with
  | [] | ')' :: _ | ';' :: ';' :: _ => return true
  | _ => return closingWords.contains (← nextWord)

/-- The text up to a back quote, and what comes after it. -/
def untilBackQuote : List Char → Option (List Char × List Char)
  | [] => none
  | '\x60' :: cs => some ([], cs)
  | '\\' :: c :: cs =>
    (untilBackQuote cs).map fun (body, rest) =>
      (if ['\x60', '\\', '$'].contains c then c :: body else '\\' :: c :: body, rest)
  | c :: cs => (untilBackQuote cs).map fun (body, rest) => (c :: body, rest)

/-! ## Words -/

/-- The change that a parameter in braces starts with, and the number of its characters. -/
def change? : List Char → Option (Change × Nat)
  | ':' :: '-' :: _ => some (.otherwise true, 2)
  | '-' :: _ => some (.otherwise false, 1)
  | ':' :: '+' :: _ => some (.instead true, 2)
  | '+' :: _ => some (.instead false, 1)
  | '%' :: '%' :: _ => some (.cut true true, 2)
  | '%' :: _ => some (.cut true false, 1)
  | '#' :: '#' :: _ => some (.cut false true, 2)
  | '#' :: _ => some (.cut false false, 1)
  | _ => none

/-- The name of a parameter that comes now: a name, a number, or a special character. In braces
(`whole`) a number may have more than one digit. -/
def parameterName (whole : Bool) (cs : List Char) : List Char :=
  match cs with
  | [] => []
  | c :: _ =>
    if startsName c then cs.takeWhile inName
    else if c.isDigit then if whole then cs.takeWhile Char.isDigit else [c]
    else if specialNames.contains c then [c]
    else []

/-- The word is a name and an equals sign, and then a value. -/
def assignment? (w : Word) : Option (List Char × Word) :=
  let bare : Part → Option Char
    | .char c false => some c
    | _ => none
  let name := (w.takeWhile fun p => ((bare p).map inName).getD false).filterMap bare
  match name, w.drop name.length with
  | c :: cs, .char '=' false :: value => if startsName c then some (c :: cs, value) else none
  | _, _ => none

/-- The word as a name for a command. -/
def functionName? (w : Word) : Option (List Char) := do
  let name ← w.mapM fun
    | .char c false => if inName c then some c else none
    | _ => none
  match name with
  | c :: cs => if startsName c then some (c :: cs) else none
  | [] => none

/-- The stream, the opening and the length of a redirection to a file that comes now, or the
stream and the length of one to another stream. -/
def arrow? (cs : List Char) : Option (Nat × Option Opening × Nat) :=
  let digits := cs.takeWhile Char.isDigit
  let number := fun standard => if digits = [] then standard else leadingNumber digits
  match cs.drop digits.length with
  | '>' :: '>' :: _ => some (number 1, some .append, digits.length + 2)
  | '>' :: '&' :: _ => some (number 1, none, digits.length + 2)
  | '>' :: '|' :: _ => some (number 1, some .overwrite, digits.length + 2)
  | '>' :: _ => some (number 1, some .overwrite, digits.length + 1)
  | '<' :: '&' :: _ => some (number 0, none, digits.length + 2)
  | '<' :: '<' :: _ | '<' :: '>' :: _ => none
  | '<' :: _ => some (number 0, some .read, digits.length + 1)
  | _ => none

/-- A word, or a redirection. -/
abbrev Item := Word ⊕ Redirection

/-- The simple command that items are. -/
def simpleOf (line : Nat) (items : List Item) : Command :=
  let words := items.filterMap Sum.getLeft?
  let assignments := (words.takeWhile fun w => (assignment? w).isSome).filterMap assignment?
  .simple line assignments (words.drop assignments.length) (items.filterMap Sum.getRight?)

/-- A command with redirections, if there are any. -/
def redirect (c : Command) (items : List Item) : Reader Command :=
  if items.any Sum.isLeft then failure
  else
    match items.filterMap Sum.getRight? with
    | [] => pure c
    | rs => pure (.redirected c rs)

/-- A list that must not be empty. -/
def nonempty {α : Type} : List α → Reader (List α)
  | [] => failure
  | xs => pure xs


end Reader

end SuiteRunner.Shell
