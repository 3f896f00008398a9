import SuiteRunner.Fault
import SuiteRunner.Path

/-!
# Failures

What can stop a run, or one test of it (`CutestError`): a failure is **fatal** unless it is about
reading one test file (`Failure.isFatal`, there `is_fatal`). Each has a message, and most have a
hint for whoever has to mend it (`recovery_suggestion`).
-/

namespace SuiteRunner

/-- What is wrong with the settings: the causes that `load` and `validate` put into a
`ConfigError`. -/
inductive SettingsProblem where
  /-- The file is there and cannot be read as text. -/
  | unreadable (cause : Fault)
  /-- The text is not a settings file. -/
  | malformed
  /-- A budget of nothing. -/
  | zeroTimeout
  /-- A suffix that every name has. -/
  | emptyExtension
  /-- Anything else, told in words. -/
  | other (text : String)
  deriving DecidableEq, Repr

/-- The text of a problem. -/
def SettingsProblem.text : SettingsProblem → String
  | unreadable cause => s!"failed to read config: {cause.text}"
  | malformed => "failed to parse config"
  | zeroTimeout => "timeout_ms must be greater than zero"
  | emptyExtension => "extension must not be empty"
  | other text => text

/-- What can stop a run or one test. -/
inductive Failure where
  /-- The suite directory cannot be listed. -/
  | suiteUnreadable (suite : Path) (cause : Fault)
  /-- The executable under test cannot be started. -/
  | spawnFailed (executable : Path) (cause : Fault)
  /-- A test file cannot be opened or read. -/
  | testUnreadable (test : Path) (cause : Fault)
  /-- The child process running a test was lost. -/
  | waitFailed (test : Path) (cause : Fault)
  /-- The settings cannot be used. -/
  | settings (problem : SettingsProblem)
  deriving DecidableEq, Repr

namespace Failure

/-- **Only an unreadable test leaves the run going.** -/
def isFatal : Failure → Bool
  | testUnreadable .. => false
  | _ => true

/-- What lies behind a failure. -/
def cause? : Failure → Option Fault
  | suiteUnreadable _ c | spawnFailed _ c | testUnreadable _ c | waitFailed _ c => some c
  | settings _ => none

/-- The message of a failure. -/
def message : Failure → String
  | suiteUnreadable p c => s!"cannot read test suite directory {p.display}: {c.text}"
  | spawnFailed p c => s!"cannot spawn executable {p.display}: {c.text}"
  | testUnreadable p c => s!"cannot read test file {p.display}: {c.text}"
  | waitFailed p c => s!"lost track of child process for {p.display}: {c.text}"
  | settings problem => s!"configuration error: {problem.text}"

/-- What to do about a failure. -/
def hint? : Failure → Option String
  | suiteUnreadable .. =>
    some "Check the suite directory with '--suite <DIR>' or 'suite_dir' in cutest.toml."
  | spawnFailed .. =>
    some "Build the executable under test first, or point at it with '--exe <PATH>'."
  | testUnreadable .. => some "Check the file permissions of the test file."
  | waitFailed .. => none
  | settings _ => some "Fix or remove cutest.toml to fall back to defaults."

end Failure

end SuiteRunner
