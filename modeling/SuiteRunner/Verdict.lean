/-!
# Verdicts

How one test came out (`Outcome`), and how the wait status of the process that ran it decides that
(`classify`, here `WaitStatus.verdict`).
-/

namespace SuiteRunner

/-- How a test came out. -/
inductive Verdict where
  /-- It exited with code 0. -/
  | success
  /-- It exited with code 1. -/
  | failed
  /-- It exited in any other way, or was killed. -/
  | timeout
  /-- It opted out and was not run. -/
  | ignored
  deriving DecidableEq, Repr

namespace Verdict

/-- All verdicts, in their order. -/
def all : List Verdict := [success, failed, timeout, ignored]

/-- The place of a verdict in the order. -/
def rank : Verdict → Nat
  | success => 0
  | failed => 1
  | timeout => 2
  | ignored => 3

instance : Ord Verdict where
  compare := compareOn rank

/-- The word in a status line. -/
def label : Verdict → String
  | success => "SUCCESS"
  | failed => "FAILED"
  | timeout => "TIMEOUT"
  | ignored => "IGNORED"

/-- The word behind a count. -/
def tallyLabel : Verdict → String
  | success => "successful"
  | failed => "failed"
  | timeout => "timed-out"
  | ignored => "ignored"

end Verdict

/-! ## Wait statuses -/

/-- What the system tells about a process that ended. -/
structure WaitStatus where
  /-- The status word. -/
  raw : Int32
  deriving DecidableEq, Repr

namespace WaitStatus

/-- The signal that ended the process: the low seven bits, zero for an exit. -/
def signal (s : WaitStatus) : Nat := (s.raw.toUInt32 &&& 0x7F).toNat

/-- The code that the process exited with, if no signal ended it. -/
def code? (s : WaitStatus) : Option Nat :=
  if s.signal = 0 then some ((s.raw.toUInt32 >>> 8) &&& 0xFF).toNat else none

/-- The system kept the memory of the process that a signal ended. -/
def hasCore (s : WaitStatus) : Bool := s.raw.toUInt32 &&& 0x80 != 0

/-- An exit with `code`, of which eight bits are kept. -/
def exit (code : Nat) : WaitStatus := ⟨Int32.ofNat (code % 256 * 256)⟩

/-- An end by the signal `n`. -/
def signaled (n : Nat) : WaitStatus := ⟨Int32.ofNat (n % 128)⟩

/-- An end by a kill that cannot be caught. -/
def killed : WaitStatus := signaled 9

/-- **Code 0 is a success and code 1 a failure; every other end counts as a timeout.** -/
def verdict (s : WaitStatus) : Verdict :=
  match s.code? with
  | some 0 => .success
  | some 1 => .failed
  | _ => .timeout

/-- The name of a signal. -/
def signalName : Nat → Option String
  | 1 => some "SIGHUP" | 2 => some "SIGINT" | 3 => some "SIGQUIT" | 4 => some "SIGILL"
  | 5 => some "SIGTRAP" | 6 => some "SIGABRT" | 7 => some "SIGBUS" | 8 => some "SIGFPE"
  | 9 => some "SIGKILL" | 10 => some "SIGUSR1" | 11 => some "SIGSEGV" | 12 => some "SIGUSR2"
  | 13 => some "SIGPIPE" | 14 => some "SIGALRM" | 15 => some "SIGTERM" | 16 => some "SIGSTKFLT"
  | 17 => some "SIGCHLD" | 18 => some "SIGCONT" | 19 => some "SIGSTOP" | 20 => some "SIGTSTP"
  | 21 => some "SIGTTIN" | 22 => some "SIGTTOU" | 23 => some "SIGURG" | 24 => some "SIGXCPU"
  | 25 => some "SIGXFSZ" | 26 => some "SIGVTALRM" | 27 => some "SIGPROF" | 28 => some "SIGWINCH"
  | 29 => some "SIGIO" | 30 => some "SIGPWR" | 31 => some "SIGSYS"
  | _ => none

/-- The text of a status. -/
def text (s : WaitStatus) : String :=
  match s.code? with
  | some code => s!"exit status: {code}"
  | none =>
    let name := match signalName s.signal with
      | some name => s!" ({name})"
      | none => ""
    s!"signal: {s.signal}" ++ name ++ if s.hasCore then " (core dumped)" else ""

end WaitStatus

end SuiteRunner
