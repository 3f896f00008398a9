import SuiteRunner.Session

/-!
# The console

What the commands print: the status lines of `ConsoleReporter`, the tally under them, the listing,
and failures with their hints as `main` shows them. Colours are the terminal's codes for them, and
are written only if they are wanted.
-/

namespace SuiteRunner.Console

/-! ## Colours -/

/-- A way to make a text stand out. -/
inductive Ink where
  | bold
  | dim
  | red
  | green
  | yellow
  | blue
  | cyan
  deriving DecidableEq, Repr

/-- The number of an ink in a control sequence. -/
def Ink.number : Ink → Nat
  | bold => 1
  | dim => 2
  | red => 31
  | green => 32
  | yellow => 33
  | blue => 34
  | cyan => 36

/-- The control sequence with a number. -/
def sequence (n : Nat) : String := s!"\x1b[{n}m"

/-- A text in inks, if colours are wanted. -/
def paint (color : Bool) (inks : List Ink) (text : String) : String :=
  if color then String.join (inks.map fun i => sequence i.number) ++ text ++ sequence 0 else text

/-! ## Runs -/

/-- The inks of a verdict. -/
def inksOf : Verdict → List Ink
  | .success => [.green, .bold]
  | .failed => [.red, .bold]
  | .timeout => [.yellow, .bold]
  | .ignored => [.dim]

/-- The status line of a test. -/
def statusLine (color : Bool) : Report → String
  | .finished test v =>
    let label := paint color (inksOf v) v.label
    match v with
    | .timeout => s!"{label}: {test.display} took too long.\n"
    | .ignored => s!"{label}: {test.display}\n"
    | _ => s!"{label}: {test.display}.\n"
  | .errored test failure =>
    let label := paint color [.red, .bold] "ERROR"
    s!"{label}: {test.display}: {failure.message}\n"

/-- The listener that prints a status line for every test. -/
def listener (color : Bool) : Listener := fun r => [.shown (statusLine color r)]

/-- The ink of a count. -/
def tallyInk : Verdict → Ink
  | .success => .green
  | .failed => .red
  | .timeout => .yellow
  | .ignored => .dim

/-- The line of one count. -/
def countLine (color : Bool) (ink : Ink) (n : Nat) (label : String) : String :=
  s!"{paint color [ink] (toString n)} x {label}\n"

/-- The tally, under three empty lines. -/
def tallyText (color : Bool) (t : Tally) : String :=
  "\n\n\n" ++ s!"Total tests run: {paint color [.bold] (toString t.total)}\n" ++
    String.join
      (Verdict.all.map fun v => countLine color (tallyInk v) (t.count v) v.tallyLabel) ++
    if t.errored = 0 then "" else countLine color .red t.errored "errored"

/-! ## Listings -/

/-- The line of a test in a listing. -/
def listLine (color : Bool) (test : TestFile) : Except Failure Bool → String
  | .ok true => "  " ++ paint color [.dim] "ignored" ++ s!" {test.display}\n"
  | .ok false => "  " ++ paint color [.green] "active" ++ s!"  {test.display}\n"
  | .error failure =>
    "  " ++ paint color [.red] "error" ++ s!"  {test.display} ({failure.message})\n"

/-- The last line of a listing. -/
def listEnd (color : Bool) (tests ignored : Nat) : String :=
  let number := fun n : Nat => paint color [.cyan] (toString n)
  s!"\n{number tests} test files, {number ignored} ignored\n"

/-- The line in place of an empty listing. -/
def emptyList (color : Bool) (extension : String) (dir : Path) : String :=
  let sign := paint color [.blue] "ℹ"
  s!"{sign} No test files ending in {extension} under {dir.display}\n"

/-! ## Failures -/

/-- The line with the hint on a failure. -/
def hintText (color : Bool) (f : Failure) : String :=
  match f.hint? with
  | some hint => paint color [.cyan, .bold] "hint:" ++ s!" {hint}\n"
  | none => ""

/-- The part on what lies behind a failure. -/
def causeText (f : Failure) : String :=
  match f.cause? with
  | some cause => s!"\nCaused by:\n    {cause.text}\n"
  | none => ""

/-- A failure, with its hint and its cause. -/
def failureText (color : Bool) (f : Failure) : String :=
  hintText color f ++ s!"Error: {f.message}\n" ++ causeText f

end SuiteRunner.Console
