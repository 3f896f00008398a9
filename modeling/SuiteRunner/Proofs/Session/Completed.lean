import Mathlib
import SuiteRunner.Proofs.Session.Run
import SuiteRunner.Proofs.Tally

/-!
# Sessions that complete

When every test had its turn, the listener was told each test of the suite as it was found at
first, once and in order, and the tally counts what the listener was told. Whatever the runner did
to the tree meanwhile, it did not do it to the suite.
-/

namespace SuiteRunner.Session

variable {σ : Type}

/-- **A session that completes tells and counts every test of the suite once.** The tests that are
told are those found at first, in their order, whatever the runner did to the tree; each verdict
is counted as often as it is told, and so are the tests that could not be run. A session that tells
nobody ends in the same way after the same calls. -/
theorem completed_exact (runner : Runner σ) (dir : Path) (extension : String) (s : σ) (t : Tree) :
    let r := run runner .recording dir extension s t
    let quiet := run runner .silent dir extension s t
    (∀ tally, r.ending = .completed tally →
      ∃ found, Suite.discover t dir extension = .ok found ∧ found.tests.Nodup ∧
        (reports r.events).map Report.test = found.tests ∧
        (∀ v, tally.count v = ((reports r.events).map Report.entry).count (some v)) ∧
        tally.errored = ((reports r.events).map Report.entry).count none ∧
        tally.total = found.tests.length) ∧
    quiet.ending = r.ending ∧ calls quiet.events = calls r.events ∧ quiet.state = r.state ∧
      quiet.tree = r.tree := by
  have hl : ∀ r, calls (Listener.recording r) = calls (Listener.silent r) := fun _ => rfl
  refine ⟨?_, run_listener runner hl dir extension s t⟩
  intro tally h
  obtain ⟨found, es, q, hd, hp, rfl, hes⟩ := passes_of_completed h
  have htests := hp.reports_test
  have htally : q.tally = Tally.ofHistory ((reports es).map Report.entry) := hp.tally_eq
  rw [hes, reports_around]
  refine ⟨found, hd, Suite.tests_nodup hd, htests, ?_, ?_, ?_⟩
  · intro v
    rw [htally, Tally.count_ofHistory]
  · rw [htally, Tally.errored_ofHistory]
  · rw [htally, Tally.total_ofHistory, ← htests, List.length_map, List.length_map]

theorem completed_exact_meddled :
    (meddled (.ok .failed)).ending = .completed ⟨1, 1, 0, 1, 1⟩ ∧
      ∃ found, Suite.discover fourTests ⟨[0x73]⟩ ".t" = .ok found ∧
        (reports (meddled (.ok .failed)).events).map Report.test = found.tests ∧
        found.tests.length = 4 := by
  have h : (meddled (.ok .failed)).ending = .completed ⟨1, 1, 0, 1, 1⟩ := by cbv
  obtain ⟨found, hd, -, htests, -, -, htotal⟩ :=
    (completed_exact (meddler (.ok .failed)) ⟨[0x73]⟩ ".t" () fourTests).1 _ h
  exact ⟨h, found, hd, htests, htotal.symm⟩

end SuiteRunner.Session
