import SuiteRunner.Proofs.Marker.Source
import SuiteRunner.Session

/-!
# One turn

When its turn comes a test is read, in the tree as it is then, and there are three ways to go on.

* `turn_of_optedOut`, `turn_of_error`, `turn_of_unmarked`: **a marked test is ignored, one that
  cannot be read fails, and only one that is read and not marked is handed to the runner**;
* `Runner.after`: the state and the tree after the runner was handed some tests. Nothing else
  changes them (`turn_after`).
-/

namespace SuiteRunner

/-- The file at `p` can be read and is marked. -/
def OptedOut (t : Tree) (p : Path) : Prop :=
  ∃ content, t.read p = .ok content ∧ Marker.Marked content

/-- The file at `p` can be read and is not marked. -/
def Unmarked (t : Tree) (p : Path) : Prop :=
  ∃ content, t.read p = .ok content ∧ ¬ Marker.Marked content

theorem Unmarked.not_optedOut {t : Tree} {p : Path} (h : Unmarked t p) : ¬ OptedOut t p := by
  obtain ⟨content, hr, hm⟩ := h
  rintro ⟨content', hr', hm'⟩
  rw [hr] at hr'
  cases hr'
  exact hm hm'

theorem Unmarked.ne_error {t : Tree} {p : Path} (h : Unmarked t p) (cause : Fault) :
    t.read p ≠ .error cause := by
  obtain ⟨content, hr, -⟩ := h
  rw [hr]
  exact fun h => nomatch h

/-- **A file goes one of three ways.** -/
theorem optedOut_or_error_of_not_unmarked {t : Tree} {p : Path} (h : ¬ Unmarked t p) :
    OptedOut t p ∨ ∃ cause, t.read p = .error cause := by
  cases hr : t.read p with
  | error cause => exact Or.inr ⟨cause, rfl⟩
  | ok content =>
    by_cases hm : Marker.Marked content
    · exact Or.inl ⟨content, hr, hm⟩
    · exact absurd ⟨content, hr, hm⟩ h

variable {σ : Type}

/-! ## What the runner leaves behind -/

namespace Runner

/-- The state and the tree after `runner` was handed the tests `called`, one after another. -/
def after (runner : Runner σ) (called : List TestFile) (s : σ) (t : Tree) : σ × Tree :=
  called.foldl (fun p test => let r := runner p.1 p.2 test; (r.state, r.tree)) (s, t)

/-- What `runner` answers for `test`, once it was handed the tests `called`. -/
def answerAfter (runner : Runner σ) (s : σ) (t : Tree) (called : List TestFile) (test : TestFile) :
    Option (Except Failure Verdict) :=
  (runner (runner.after called s t).1 (runner.after called s t).2 test).answer?

theorem after_append (runner : Runner σ) (as bs : List TestFile) (s : σ) (t : Tree) :
    runner.after (as ++ bs) s t =
      runner.after bs (runner.after as s t).1 (runner.after as s t).2 :=
  List.foldl_append

end Runner

/-! ## The three ways of a turn -/

namespace Session

variable (runner : Runner σ) (s : σ) (t : Tree) (test : TestFile)

/-- A test that opts out or cannot be read is not handed over. -/
theorem turn_of_inactive (h : test.optsOut t ≠ .ok false) :
    turn runner s t test =
      ⟨some ((test.optsOut t).map fun _ => .ignored), [.examined test], s, t⟩ := by
  unfold turn
  cases ho : test.optsOut t with
  | error failure => rfl
  | ok optsOut =>
    cases optsOut with
    | true => rfl
    | false => exact absurd ho h

/-- Any other test is. -/
theorem turn_of_active (h : test.optsOut t = .ok false) :
    turn runner s t test =
      { (runner s t test).toTurn with
        events := .examined test :: .handed test :: (runner s t test).events } := by
  unfold turn
  rw [h]

theorem turn_of_optedOut (h : OptedOut t test.path) :
    turn runner s t test = ⟨some (.ok .ignored), [.examined test], s, t⟩ := by
  obtain ⟨content, hr, hm⟩ := h
  have ho : test.optsOut t = .ok true := by
    rw [TestFile.optsOut_eq, hr]
    simp only [hm, decide_true]
  rw [turn_of_inactive runner s t test (by simp [ho]), ho]
  rfl

theorem turn_of_error {cause : Fault} (h : t.read test.path = .error cause) :
    turn runner s t test =
      ⟨some (.error (.testUnreadable test.path cause)), [.examined test], s, t⟩ := by
  have ho : test.optsOut t = .error (.testUnreadable test.path cause) := by
    rw [TestFile.optsOut_eq, h]
  rw [turn_of_inactive runner s t test (by simp [ho]), ho]
  rfl

theorem turn_of_unmarked (h : Unmarked t test.path) :
    turn runner s t test =
      { (runner s t test).toTurn with
        events := .examined test :: .handed test :: (runner s t test).events } := by
  obtain ⟨content, hr, hm⟩ := h
  have ho : test.optsOut t = .ok false := by
    rw [TestFile.optsOut_eq, hr]
    simp only [hm, decide_false]
  exact turn_of_active runner s t test ho

/-- The answer for a test that is handed over is the runner's. -/
theorem turn_answer_of_unmarked (h : Unmarked t test.path) :
    (turn runner s t test).answer? = (runner s t test).answer? := by
  rw [turn_of_unmarked runner s t test h]

/-- **The turn of a test that is not handed over** is over when its file was looked at. The answer
is there, and it is no fatal failure. -/
theorem turn_of_not_unmarked (h : ¬ Unmarked t test.path) :
    ∃ answer, turn runner s t test = ⟨some answer, [.examined test], s, t⟩ ∧
      ∀ failure, answer = .error failure → failure.isFatal = false := by
  rcases optedOut_or_error_of_not_unmarked h with ho | ⟨cause, hc⟩
  · exact ⟨_, turn_of_optedOut runner s t test ho, fun failure hf => nomatch hf⟩
  · refine ⟨_, turn_of_error runner s t test hc, ?_⟩
    rintro failure ⟨⟩
    rfl

/-! ## What is seen of a turn -/

/-- The file is looked at first. -/
theorem turn_events : ∃ es, (turn runner s t test).events = .examined test :: es := by
  by_cases h : Unmarked t test.path
  · rw [turn_of_unmarked runner s t test h]
    exact ⟨_, rfl⟩
  · obtain ⟨answer, hturn, -⟩ := turn_of_not_unmarked runner s t test h
    rw [hturn]
    exact ⟨_, rfl⟩

/-- No turn tells a listener anything. -/
theorem turn_reports : reports (turn runner s t test).events = [] := by
  by_cases h : Unmarked t test.path
  · have hr := reports_of_apart (runner s t test).apart
    rw [turn_of_unmarked runner s t test h]
    exact hr
  · obtain ⟨answer, hturn, -⟩ := turn_of_not_unmarked runner s t test h
    rw [hturn]
    rfl

theorem turn_examinations : examinations (turn runner s t test).events = [test] := by
  by_cases h : Unmarked t test.path
  · have he := examinations_of_apart (runner s t test).apart
    rw [turn_of_unmarked runner s t test h]
    exact congrArg (test :: ·) he
  · obtain ⟨answer, hturn, -⟩ := turn_of_not_unmarked runner s t test h
    rw [hturn]
    rfl

theorem turn_calls_of_unmarked (h : Unmarked t test.path) :
    calls (turn runner s t test).events = [test] := by
  have hc := calls_of_apart (runner s t test).apart
  rw [turn_of_unmarked runner s t test h]
  exact congrArg (test :: ·) hc

theorem turn_calls_of_not_unmarked (h : ¬ Unmarked t test.path) :
    calls (turn runner s t test).events = [] := by
  obtain ⟨answer, hturn, -⟩ := turn_of_not_unmarked runner s t test h
  rw [hturn]
  rfl

theorem turn_calls_sublist : (calls (turn runner s t test).events).Sublist [test] := by
  by_cases h : Unmarked t test.path
  · simp only [turn_calls_of_unmarked runner s t test h, List.Sublist.refl]
  · simp only [turn_calls_of_not_unmarked runner s t test h, List.nil_sublist]

/-- **Only the runner changes its state and the tree.** -/
theorem turn_after :
    ((turn runner s t test).state, (turn runner s t test).tree) =
      runner.after (calls (turn runner s t test).events) s t := by
  by_cases h : Unmarked t test.path
  · rw [turn_calls_of_unmarked runner s t test h, turn_of_unmarked runner s t test h]
    rfl
  · obtain ⟨answer, hturn, -⟩ := turn_of_not_unmarked runner s t test h
    rw [turn_calls_of_not_unmarked runner s t test h, hturn]
    rfl

end Session

end SuiteRunner
