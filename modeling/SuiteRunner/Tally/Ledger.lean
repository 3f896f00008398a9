import Mathlib
import SuiteRunner.Tally

/-!
# Tallies in a map

`RunStats` keeps its counts in a map that is ordered by the outcomes, with an entry for each outcome
from the start: `new`, `record`, `record_error`, `count`, `errored`, `total` and `summary` are here
as they are there. A run keeps a `Tally` instead, which has a field for each outcome, so that there
is no entry to miss.
-/

namespace SuiteRunner

instance : Std.TransOrd Verdict := inferInstanceAs (Std.TransCmp (compareOn Verdict.rank))

instance : Std.LawfulEqOrd Verdict where
  eq_of_compare {v w} h := by
    cases v <;> cases w <;> first | rfl | cases h

/-- A tally that keeps its counts in a map. -/
structure Ledger where
  /-- The counts by verdict. -/
  counts : Std.TreeMap Verdict Nat
  /-- Tests that could not be read. -/
  errored : Nat

namespace Ledger

/-- The ledger of nothing: each verdict has its entry. -/
def empty : Ledger := ⟨.ofList (Verdict.all.map fun v => (v, 0)), 0⟩

/-- One more test came out as `v`. A verdict that has no count yet would get one. -/
def record (l : Ledger) (v : Verdict) : Ledger :=
  { l with counts := l.counts.alter v fun n? => some (n?.getD 0 + 1) }

/-- One more test could not be read. -/
def recordError (l : Ledger) : Ledger := { l with errored := l.errored + 1 }

/-- How many tests came out as `v`. -/
def count (l : Ledger) (v : Verdict) : Nat := l.counts.getD v 0

/-- All tests, the unreadable ones included. -/
def total (l : Ledger) : Nat := (l.counts.toList.map Prod.snd).sum + l.errored

/-- The parts of a summary: one for each verdict, and one for the unreadable tests if there are
any. -/
def parts (l : Ledger) : List String :=
  (Verdict.all.map fun v => s!"{l.count v} {v.tallyLabel}") ++
    if l.errored = 0 then [] else [s!"{l.errored} errored"]

/-- The ledger in one line. -/
def summary (l : Ledger) : String := s!"{l.total} tests run: " ++ ", ".intercalate l.parts

/-- A ledger after one entry. -/
def add (l : Ledger) : Tally.Entry → Ledger
  | some v => l.record v
  | none => l.recordError

/-- The ledger of a history. -/
def ofHistory (es : List Tally.Entry) : Ledger := es.foldl add empty

end Ledger

end SuiteRunner
