import SuiteRunner.Verdict

/-!
# Tallies

How many tests came out in which way (`RunStats`). A tally forgets the order of what it records and
nothing else: `Tally.summary` shows all five counts. The counts by outcome are fields here, where
`RunStats` has a map in which every outcome is present; `Ledger` is the tally with the map.
-/

namespace SuiteRunner

/-- The counts of a run. -/
structure Tally where
  /-- Tests that exited with code 0. -/
  success : Nat := 0
  /-- Tests that exited with code 1. -/
  failed : Nat := 0
  /-- Tests that ended in another way. -/
  timeout : Nat := 0
  /-- Tests that opted out. -/
  ignored : Nat := 0
  /-- Tests that could not be read. -/
  errored : Nat := 0
  deriving DecidableEq, Repr

namespace Tally

/-- The tally of nothing. -/
def empty : Tally := {}

/-- One more test came out as `v`. -/
def record (t : Tally) : Verdict → Tally
  | .success => { t with success := t.success + 1 }
  | .failed => { t with failed := t.failed + 1 }
  | .timeout => { t with timeout := t.timeout + 1 }
  | .ignored => { t with ignored := t.ignored + 1 }

/-- One more test could not be read. -/
def recordError (t : Tally) : Tally := { t with errored := t.errored + 1 }

/-- How many tests came out as `v`. -/
def count (t : Tally) : Verdict → Nat
  | .success => t.success
  | .failed => t.failed
  | .timeout => t.timeout
  | .ignored => t.ignored

/-- All tests, the unreadable ones included. -/
def total (t : Tally) : Nat :=
  t.success + t.failed + t.timeout + t.ignored + t.errored

/-! ## Histories -/

/-- What a tally is told about one test: a verdict, or none for a test that could not be read. -/
abbrev Entry := Option Verdict

/-- A tally after one entry. -/
def add (t : Tally) : Entry → Tally
  | some v => t.record v
  | none => t.recordError

/-- The tally of a history. -/
def ofHistory (es : List Entry) : Tally := es.foldl add empty

/-! ## The summary -/

/-- The number of unreadable tests, where there are any. -/
def erroredPart (t : Tally) : String :=
  if t.errored = 0 then "" else s!", {t.errored} errored"

/-- One count with its word. -/
def part (t : Tally) (v : Verdict) : String := s!"{t.count v} {v.tallyLabel}"

/-- The tally in one line. -/
def summary (t : Tally) : String :=
  s!"{t.total} tests run: " ++ ", ".intercalate (Verdict.all.map t.part) ++ t.erroredPart

end Tally

end SuiteRunner
