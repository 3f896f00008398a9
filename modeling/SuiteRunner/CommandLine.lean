import SuiteRunner.CommandLine.Console
import SuiteRunner.CommandLine.Help
import SuiteRunner.Settings.Load
import SuiteRunner.Supervision

/-!
# The command line

The program as a function: from the arguments, the file tree and the machine that processes run
on, to what is printed and the exit code.

* `CommandLine.settingsFor`, `CommandLine.runSettings`: the settings that a command works with
  (`load_config`, and what `run` adds to it). Options replace what the file says, and the file has
  to be valid all the same;
* `CommandLine.list`, `CommandLine.run`: the `run` of each of the commands `list` and `run`;
* `CommandLine.respond`: the whole program (`main`).
-/

namespace SuiteRunner.CommandLine

/-- What is left when the program is over. -/
structure Response where
  /-- The exit code. -/
  code : Nat
  /-- What was printed to standard output. -/
  out : Bytes
  /-- What was printed to standard error. -/
  err : Bytes
  deriving DecidableEq, Repr

/-- A success that prints `text`. -/
def Response.ofText (text : String) : Response := ⟨0, Bytes.ofString text, []⟩

/-- A failure after `out` and `err` have been printed. -/
def Response.ofFailure (color : Bool) (f : Failure) (out err : Bytes) : Response :=
  ⟨1, out, err ++ Bytes.ofString (Console.failureText color f)⟩

/-! ## Settings -/

/-- The settings file that a command reads. -/
def fileOf (o : Options) : Path := o.config?.getD (Path.ofString Settings.fileName)

/-- The settings of the file, with the suite that the options give. -/
def settingsFor (t : Tree) (o : Options) : Except Failure Settings := do
  let s ← Settings.load t (fileOf o)
  .ok { s with suiteDir := o.suite?.getD s.suiteDir }

/-- The settings of a run: the options replace the executable and the budget too, and the outcome
is looked at once more. -/
def runSettings (t : Tree) (o : Options) : Except Failure Settings := do
  let s ← settingsFor t o
  let s := { s with
    executable := o.exe?.getD s.executable
    timeoutMs := o.timeoutMs?.getD s.timeoutMs }
  s.validate
  .ok s

/-! ## Listing -/

/-- The line of each test, and whether it opts out. -/
def listEntries (color : Bool) (t : Tree) (tests : List TestFile) : List (String × Bool) :=
  tests.map fun test =>
    let r := test.optsOut t
    (Console.listLine color test r, match r with | .ok b => b | .error _ => false)

/-- The listing of a suite. -/
def listText (color : Bool) (t : Tree) (s : Settings) (tests : List TestFile) : String :=
  if tests.isEmpty then Console.emptyList color s.extension s.suiteDir
  else
    let entries := listEntries color t tests
    String.join (entries.map (·.1)) ++
      Console.listEnd color tests.length (entries.countP (·.2))

/-- The listing that the options ask for. -/
def listing (color : Bool) (t : Tree) (o : Options) : Except Failure String := do
  let s ← settingsFor t o
  let found ← Suite.discover t s.suiteDir s.extension
  .ok (listText color t s found.tests)

/-- **The command that lists a suite.** -/
def list (color : Bool) (t : Tree) (o : Options) : Response :=
  match listing color t o with
  | .ok text => .ofText text
  | .error f => .ofFailure color f [] []

/-! ## Running -/

variable {σ : Type}

/-- The response of a session; none if it never ended. -/
def ofRecord (color : Bool) (r : Session.Record (Supervision.Watched σ)) : Option Response :=
  let out := printed .out r.events
  let err := printed .err r.events
  match r.ending with
  | .completed tally => some ⟨0, out ++ Bytes.ofString (Console.tallyText color tally), err⟩
  | .aborted f => some (.ofFailure color f out err)
  | .unfinished => none

/-- **The command that runs a suite**; none if it never ends. -/
def run (host : Supervision.Host σ) (state : σ) (color : Bool) (t : Tree) (o : Options) :
    Option Response :=
  match runSettings t o with
  | .error f => some (.ofFailure color f [] [])
  | .ok s => ofRecord color (Supervision.session host (Console.listener color) s ⟨0, state⟩ t)

/-- **The program**; none if it never ends. -/
def respond (host : Supervision.Host σ) (state : σ) (color : Bool) (t : Tree)
    (args : List Bytes) : Option Response :=
  match Arguments.parse args with
  | .error misuse => some ⟨2, [], Bytes.ofString (misuse.line ++ "\n")⟩
  | .ok (.help topic) => some (.ofText topic.text)
  | .ok .version => some (.ofText versionText)
  | .ok (.perform .list o) => some (list color t o)
  | .ok (.perform .run o) => run host state color t o

end SuiteRunner.CommandLine
