import Mathlib
import SuiteRunner.Proofs.Session.Run

/-!
# Sessions that are aborted

A session is aborted by a fatal failure and by nothing else: by that of discovery, before anything
happens, or by the one the runner answers for a test. Then the tests before were told, and the
tests behind are not even opened.

* `views_of_stops`, `answerAfter_of_stops`: what is seen of a session that stops, and that it is
  the answer of the runner for the last call that stops it;
* **`aborted_exact`**: what is known of a session that is aborted, and when no session is.
-/

namespace SuiteRunner.Session

variable {σ : Type} {runner : Runner σ} {dir : Path} {extension : String} {s : σ} {t : Tree}

/-- **What is seen of a session that stops**: the tests before the last one were told, and the last
one was opened and handed over. -/
theorem views_of_stops {q : Standing σ} {pre : List TestFile} {es : List Event} {test : TestFile}
    {ending : Ending} (hp : Passes runner .recording ⟨.empty, s, t⟩ pre es q)
    (hs : Stops runner q test ending) {notes : List Note} {events : List Event}
    (he : events = notes.map .noted ++ (es ++ (q.turn runner test).events) ++ closing ending) :
    calls events = calls es ++ [test] ∧ (calls es).Sublist pre ∧
      (reports events).map Report.test = pre ∧ examinations events = pre ++ [test] := by
  have hc : calls (q.turn runner test).events = [test] :=
    turn_calls_of_unmarked runner q.state q.tree test hs.unmarked
  subst he
  refine ⟨?_, hp.calls_sublist, ?_, ?_⟩
  · rw [calls_around, calls_append, hc]
  · rw [reports_around, reports_last]
    exact hp.reports_test
  · rw [examinations_around, examinations_last, hp.examinations_eq]

/-- **The runner stops a session by its answer for the last call.** -/
theorem answerAfter_of_stops {q : Standing σ} {pre : List TestFile} {es : List Event}
    {test : TestFile} {ending : Ending} (hp : Passes runner .recording ⟨.empty, s, t⟩ pre es q)
    (hs : Stops runner q test ending) :
    runner.answerAfter s t (calls es) test = (q.turn runner test).answer? := by
  have hafter : (q.state, q.tree) = runner.after (calls es) s t := hp.after_eq
  have hanswer : (q.turn runner test).answer? = (runner q.state q.tree test).answer? :=
    turn_answer_of_unmarked runner q.state q.tree test hs.unmarked
  rw [Runner.answerAfter, ← hafter, hanswer]

/-- **Only a fatal failure aborts a session, and it does so at once.** The failure is that of
discovery, and nothing has happened, or it is what the runner answered for a test of the suite.
The tests before that one were all told, in order and once each, it was not told itself, and no
test behind it was opened, told or handed over. A session that finds its suite completes if no
call is answered by a fatal failure and the last call is answered at all. -/
theorem aborted_exact (runner : Runner σ) (dir : Path) (extension : String) (s : σ) (t : Tree) :
    let r := run runner .recording dir extension s t
    (∀ failure, r.ending = .aborted failure → failure.isFatal = true ∧
      ((Suite.discover t dir extension = .error failure ∧
          (∃ cause, failure = .suiteUnreadable dir cause) ∧ r.events = []) ∨
        ∃ found pre test post called, Suite.discover t dir extension = .ok found ∧
          found.tests = pre ++ test :: post ∧ found.tests.Nodup ∧
          runner.answerAfter s t called test = some (.error failure) ∧
          calls r.events = called ++ [test] ∧ called.Sublist pre ∧
          (reports r.events).map Report.test = pre ∧ examinations r.events = pre ++ [test])) ∧
    ∀ found, Suite.discover t dir extension = .ok found →
      (∀ called test rest failure, calls r.events = called ++ test :: rest →
        runner.answerAfter s t called test = some (.error failure) → failure.isFatal = false) →
      (∃ tally, r.ending = .completed tally) ∨
        r.ending = .unfinished ∧ ∃ called test, calls r.events = called ++ [test] ∧
          runner.answerAfter s t called test = none := by
  intro r
  rcases run_cases runner .recording dir extension s t with
    ⟨failure, hd, hr⟩ | ⟨found, es, q, hd, hp, hr⟩ |
      ⟨found, pre, test, post, es, q, ending, hd, hsplit, hp, hs, hr⟩
  · obtain ⟨cause, hcause⟩ := Suite.discover_error hd
    refine ⟨?_, fun found hd' => ?_⟩
    · intro failure' h
      rw [show r = _ from hr] at h ⊢
      cases h
      exact ⟨by rw [hcause]; rfl, Or.inl ⟨hd, ⟨cause, hcause⟩, rfl⟩⟩
    · rw [hd] at hd'
      cases hd'
  · have hending : r.ending = .completed q.tally := congrArg Record.ending hr
    refine ⟨fun failure h => ?_, fun _ _ _ => Or.inl ⟨q.tally, hending⟩⟩
    rw [hending] at h
    cases h
  · have hending : r.ending = ending := congrArg Record.ending hr
    have hanswer := answerAfter_of_stops hp hs
    have hviews := views_of_stops hp hs (congrArg Record.events hr)
    cases hs with
    | aborted failure h hf =>
      rw [h] at hanswer
      refine ⟨fun failure' h' => ?_, fun found' hd' hcalm => ?_⟩
      · rw [hending] at h'
        cases h'
        exact ⟨hf, Or.inr ⟨found, pre, test, post, calls es, hd, hsplit, Suite.tests_nodup hd,
          hanswer, hviews⟩⟩
      · have hmild := hcalm (calls es) test [] failure hviews.1 hanswer
        rw [hf] at hmild
        cases hmild
    | unfinished h =>
      rw [h] at hanswer
      refine ⟨fun failure' h' => ?_, fun _ _ _ => ?_⟩
      · rw [hending] at h'
        cases h'
      · exact Or.inr ⟨hending, calls es, test, hviews.1, hanswer⟩

theorem aborted_exact_meddled :
    (∃ found pre test post called, Suite.discover fourTests ⟨[0x73]⟩ ".t" = .ok found ∧
      found.tests = pre ++ test :: post ∧
      (meddler (.error (.spawnFailed ⟨[]⟩ .noEntry))).answerAfter () fourTests called test =
        some (.error (.spawnFailed ⟨[]⟩ .noEntry))) ∧
    ∃ tally, (meddled (.error (.testUnreadable ⟨[]⟩ .noEntry))).ending = .completed tally := by
  constructor
  · have h := (aborted_exact (meddler (.error (.spawnFailed ⟨[]⟩ .noEntry))) ⟨[0x73]⟩ ".t" ()
      fourTests).1 (.spawnFailed ⟨[]⟩ .noEntry) (by cbv)
    rcases h.2 with ⟨-, ⟨cause, hcause⟩, -⟩ | ⟨found, pre, test, post, called, hd, hs, -, ha, -⟩
    · cases hcause
    · exact ⟨found, pre, test, post, called, hd, hs, ha⟩
  · have h := (aborted_exact (meddler (.error (.testUnreadable ⟨[]⟩ .noEntry))) ⟨[0x73]⟩ ".t" ()
      fourTests).2 (Suite.ofNames fourTests ⟨[0x73]⟩ ".t" (fourTests.namesIn [[0x73]])) (by cbv)
    have hscript : ∀ called test,
        (meddler (.error (.testUnreadable ⟨[]⟩ .noEntry))).answerAfter () fourTests called test =
          some (if test == ofLetter 0x64 then .error (.testUnreadable ⟨[]⟩ .noEntry)
            else .ok .success) := fun _ _ => rfl
    have hcalm : ∀ called test failure,
        (meddler (.error (.testUnreadable ⟨[]⟩ .noEntry))).answerAfter () fourTests called test =
          some (.error failure) → failure.isFatal = false := by
      intro called test failure ha
      rw [hscript] at ha
      split at ha
      · cases ha
        rfl
      · cases ha
    rcases h fun called test _ failure _ => hcalm called test failure with
      ⟨tally, ht⟩ | ⟨-, called, test, -, hnone⟩
    · exact ⟨tally, ht⟩
    · rw [hscript] at hnone
      cases hnone

end SuiteRunner.Session
