import SuiteRunner.Failure
import SuiteRunner.Verdict

/-!
# The journal

What a run notes for whoever looks into it later: entries with a level, a message and named fields,
one for each `debug` and `warn` in `discover`, in `run_with_reporter` and in the `run` of
`Watchdog`.
-/

namespace SuiteRunner

/-- How much an entry matters. -/
inductive Level where
  /-- For finding faults. -/
  | debug
  /-- For every operator. -/
  | warning
  deriving DecidableEq, Repr

/-- The name of a level. -/
def Level.text : Level → String
  | debug => "DEBUG"
  | warning => "WARN"

/-- An entry of the journal. -/
inductive Note where
  /-- A name with the suffix is no regular file. -/
  | skippedOther (path : Path)
  /-- A name with the suffix leads nowhere. -/
  | skippedUnreadable (path : Path) (cause : Fault)
  /-- The suite is listed. -/
  | discovered (suite : Path) (count : Nat)
  /-- A child process runs a test. -/
  | spawned (test : Path)
  /-- The budget of a test is used up. -/
  | budgetExceeded (test : Path) (budgetMs : Nat)
  /-- A child ended by itself, and not as a test does. -/
  | exitedAbnormally (test : Path) (status : WaitStatus)
  /-- A child has ended. -/
  | finished (test : Path) (status : WaitStatus) (verdict : Verdict)
  /-- A test was not run because it could not be read. -/
  | skippedTest (test : Path) (failure : Failure)
  /-- The run is over. -/
  | completed (summary : String)
  deriving DecidableEq, Repr

namespace Note

/-- The level of an entry. -/
def level : Note → Level
  | budgetExceeded .. | exitedAbnormally .. | skippedTest .. => .warning
  | _ => .debug

/-- The message of an entry. -/
def message : Note → String
  | skippedOther _ => "skipping non-regular entry"
  | skippedUnreadable .. => "skipping unreadable entry"
  | discovered .. => "discovered test files"
  | spawned _ => "spawned"
  | budgetExceeded .. => "budget exceeded, killing"
  | exitedAbnormally .. => "exited abnormally without being killed"
  | finished .. => "finished"
  | skippedTest .. => "skipping unreadable test"
  | completed _ => "run complete"

/-- The fields of an entry. -/
def fields : Note → List (String × String)
  | skippedOther p => [("path", p.display)]
  | skippedUnreadable p c => [("path", p.display), ("error", c.text)]
  | discovered suite count => [("suite", suite.display), ("count", toString count)]
  | spawned test => [("test", test.display)]
  | budgetExceeded test ms => [("test", test.display), ("budget_ms", toString ms)]
  | exitedAbnormally test status => [("test", test.display), ("status", status.text)]
  | finished test status verdict =>
    [("test", test.display), ("status", status.text), ("outcome", verdict.label)]
  | skippedTest test failure => [("test", test.display), ("error", failure.message)]
  | completed summary => [("summary", summary)]

end Note

end SuiteRunner
