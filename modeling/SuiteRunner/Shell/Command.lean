import SuiteRunner.Text.Digits
import SuiteRunner.Text.Utf8

/-!
# Shell commands

An executable under test may be a script: the commands of a shell script as data. A script is read
as characters of one byte each.

* `Part`: what a word is made of;
* `Redirection`: where the output of a command goes, and where its input comes from;
* `Command`: simple commands and what is built from them.
-/

namespace SuiteRunner.Shell

/-- How the value of a parameter is changed. -/
inductive Change where
  /-- Another word stands for it if it is not set; with `orEmpty`, also if it is empty. -/
  | otherwise (orEmpty : Bool)
  /-- Another word stands for it if it is set; with `orEmpty`, only if it is not empty. -/
  | instead (orEmpty : Bool)
  /-- What a pattern matches is cut off, at the start or at the end. -/
  | cut (atEnd longest : Bool)
  deriving DecidableEq, Repr

/-- How a file is opened. -/
inductive Opening where
  | read
  | overwrite
  | append
  deriving DecidableEq, Repr

mutual

/-- A part of a word. What is quoted stands for itself. -/
inductive Part where
  /-- A character. -/
  | char (c : Char) (quoted : Bool)
  /-- Quotes with nothing in them. -/
  | nothing
  /-- The value of a parameter. -/
  | value (name : List Char) (quoted : Bool)
  /-- The value of a parameter with a change. -/
  | changed (name : List Char) (change : Change) (word : List Part) (quoted : Bool)
  /-- The output of commands. -/
  | output (body : List Command) (quoted : Bool)

/-- Where a command reads from or writes to. -/
inductive Redirection where
  /-- The stream with the number `stream` is a file. -/
  | file (stream : Nat) (opening : Opening) (target : List Part)
  /-- The stream with the number `stream` is the same as another one. -/
  | copy (stream source : Nat)

/-- A command. -/
inductive Command where
  /-- Assignments, and a command name with arguments; it stands on `line`. -/
  | simple (line : Nat) (assignments : List (List Char × List Part)) (words : List (List Part))
      (redirections : List Redirection)
  /-- One after another. -/
  | sequence (body : List Command)
  /-- In a process of its own. -/
  | subshell (body : List Command)
  /-- With streams of its own. -/
  | redirected (command : Command) (redirections : List Redirection)
  /-- The output of each is the input of the next. -/
  | pipeline (commands : List Command)
  /-- Success is failure. -/
  | negation (command : Command)
  /-- The second only if the first succeeds. -/
  | both (first second : Command)
  /-- The second only if the first fails. -/
  | either (first second : Command)
  /-- Nobody waits for it. -/
  | background (command : Command)
  /-- The first arm whose condition succeeds. -/
  | branch (arms : List (List Command × List Command)) (otherwise : List Command)
  /-- Again and again, while the condition fails, or while it succeeds. -/
  | loop (untilSuccess : Bool) (condition body : List Command)
  /-- Once for each word, or for each argument of the script. -/
  | each (name : List Char) (words? : Option (List (List Part))) (body : List Command)
  /-- The first arm with a pattern that the word matches. -/
  | choice (word : List Part) (arms : List (List (List Part) × List Command))
  /-- A name for a command. -/
  | function (name : List Char) (body : Command)

end

/-- A word: its parts. -/
abbrev Word := List Part

/-- Commands one after another. -/
abbrev Script := List Command

/-- The characters of a byte string, one each. -/
def charsOf (bs : Bytes) : List Char := bs.map fun b => Char.ofNat b.toNat

/-- The bytes of characters that stand for one each. -/
def bytesOf (cs : List Char) : Bytes := cs.map fun c => UInt8.ofNat c.toNat

end SuiteRunner.Shell
