import SuiteRunner.Event
import SuiteRunner.Tally
import SuiteRunner.Tree.Edit

/-!
# Sessions

Model of `Harness`. A session runs a suite: it is discovered once, and then each test in turn is
looked at and, unless it opts out, handed to a runner. A runner may do anything to the tree, so
whether a test opts out is decided when its turn comes.

* `Runner`: whatever can run a test (`TestRunner`). It has a state of its own;
* `Listener`: whatever is told about each test (`Reporter`). It has a say in what is shown, and none
  in what is done;
* `Session.turn`: `run_one`;
* `Session.run`: `run_with_reporter`, as the record of all that happened and how it ended.
-/

namespace SuiteRunner

/-- What comes of the turn of a test. -/
structure Turn (σ : Type) where
  /-- The answer; none if there never is one. -/
  answer? : Option (Except Failure Verdict)
  /-- What happened meanwhile. -/
  events : List Event
  /-- The state of the runner afterwards. -/
  state : σ
  /-- The tree afterwards. -/
  tree : Tree

/-- What comes of handing a test to a runner. -/
structure Reply (σ : Type) extends Turn σ where
  /-- A runner does nothing that is the session's to do. -/
  apart : ∀ e ∈ events, e.ofSession = false

/-- Whatever can run a test: it sees its own state, the tree and the test. -/
abbrev Runner (σ : Type) := σ → Tree → TestFile → Reply σ

/-- Whatever is told about each test: the events that a report gives rise to. -/
abbrev Listener := Report → List Event

namespace Listener

/-- A listener that keeps every report. -/
def recording : Listener := fun r => [.reported r]

/-- A listener that does nothing: `SilentReporter`. -/
def silent : Listener := fun _ => []

end Listener

/-- A runner that answers by a rule, after making the changes that another rule gives. -/
def Runner.scripted (answer : TestFile → Except Failure Verdict) (edits : TestFile → List Edit) :
    Runner Unit :=
  fun s t test => ⟨⟨some (answer test), [], s, Edit.applyAll t (edits test)⟩, by simp⟩

namespace Session

/-- How a session ended. -/
inductive Ending where
  /-- Every test had its turn. -/
  | completed (tally : Tally)
  /-- A failure stopped it. -/
  | aborted (failure : Failure)
  /-- The runner never answered. -/
  | unfinished
  deriving DecidableEq, Repr

/-- A session when it is over. -/
structure Record (σ : Type) where
  /-- How it ended. -/
  ending : Ending
  /-- All that happened, in order. -/
  events : List Event
  /-- The state of the runner at the end. -/
  state : σ
  /-- The tree at the end. -/
  tree : Tree

/-- A record with earlier events in front. -/
def Record.after {σ : Type} (r : Record σ) (es : List Event) : Record σ :=
  { r with events := es ++ r.events }

variable {σ : Type}

/-- The turn of a test: it is read, and unless it opts out or cannot be read, the runner gets
it. -/
def turn (runner : Runner σ) (s : σ) (t : Tree) (test : TestFile) : Turn σ :=
  match test.optsOut t with
  | .error failure => ⟨some (.error failure), [.examined test], s, t⟩
  | .ok true => ⟨some (.ok .ignored), [.examined test], s, t⟩
  | .ok false =>
    let r := runner s t test
    { r.toTurn with events := .examined test :: .handed test :: r.events }

/-- The turns of tests one after another, with `tally` counted so far. A failure that is not fatal
is counted, and the session goes on. -/
def runTests (runner : Runner σ) (listener : Listener) :
    List TestFile → Tally → σ → Tree → Record σ
  | [], tally, s, t => ⟨.completed tally, [], s, t⟩
  | test :: rest, tally, s, t =>
    let r := turn runner s t test
    match r.answer? with
    | none => ⟨.unfinished, r.events, r.state, r.tree⟩
    | some (.ok verdict) =>
      (runTests runner listener rest (tally.record verdict) r.state r.tree).after
        (r.events ++ listener (.finished test verdict))
    | some (.error failure) =>
      if failure.isFatal then ⟨.aborted failure, r.events, r.state, r.tree⟩
      else
        (runTests runner listener rest tally.recordError r.state r.tree).after
          (r.events ++ .noted (.skippedTest test.path failure) ::
            listener (.errored test failure))

/-- The last entry of the journal, once every test had its turn. -/
def closing : Ending → List Event
  | .completed tally => [.noted (.completed tally.summary)]
  | _ => []

/-- **A session over the suite in `dir`.** -/
def run (runner : Runner σ) (listener : Listener) (dir : Path) (extension : String) (s : σ)
    (t : Tree) : Record σ :=
  match Suite.discover t dir extension with
  | .error failure => ⟨.aborted failure, [], s, t⟩
  | .ok found =>
    let r := runTests runner listener found.tests .empty s t
    { r with events := found.notes.map .noted ++ r.events ++ closing r.ending }

end Session

end SuiteRunner
