import SuiteRunner.Proofs.Session.Turn

/-!
# Turns one after another

A session stands somewhere (`Standing`): with a tally, a state of its runner and a tree. The turn
of a test either lets it go on (`Goes`), by a verdict or by a failure that is not fatal, or it is
the last one (`Stops`).

* `passes_or_stops`: tests all have their turns, or one of them stops the session;
* `runTests_of_passes`, `runTests_of_stops`: what `runTests` makes of that;
* the views of `Passes`: **what is examined, called, told, counted and left behind** while a
  session goes on.
-/

namespace SuiteRunner

/-- What a tally is told about the test of a report. -/
def Report.entry : Report → Tally.Entry
  | finished _ verdict => some verdict
  | errored _ _ => none

namespace Session

variable {σ : Type} {runner : Runner σ} {listener : Listener}

/-- Where a session stands between two turns. -/
structure Standing (σ : Type) where
  /-- What was counted so far. -/
  tally : Tally
  /-- The state of the runner. -/
  state : σ
  /-- The tree. -/
  tree : Tree

/-- The turn that `test` has at `p`. -/
def Standing.turn (p : Standing σ) (runner : Runner σ) (test : TestFile) : Turn σ :=
  Session.turn runner p.state p.tree test

/-- The state and the tree that `tests` leave behind when they had their turns, one after
another. -/
def afterTurns (runner : Runner σ) (tests : List TestFile) (s : σ) (t : Tree) : σ × Tree :=
  tests.foldl (fun p test => let r := turn runner p.1 p.2 test; (r.state, r.tree)) (s, t)

/-- The turn of `test` at `p` lets the session go on to `q`, and `es` happens meanwhile. -/
inductive Goes (runner : Runner σ) (listener : Listener) (p : Standing σ) (test : TestFile) :
    List Event → Standing σ → Prop
  | finished (verdict : Verdict) (h : (p.turn runner test).answer? = some (.ok verdict)) :
      Goes runner listener p test
        ((p.turn runner test).events ++ listener (.finished test verdict))
        ⟨p.tally.record verdict, (p.turn runner test).state, (p.turn runner test).tree⟩
  | errored (failure : Failure) (h : (p.turn runner test).answer? = some (.error failure))
      (hf : failure.isFatal = false) :
      Goes runner listener p test
        ((p.turn runner test).events ++ .noted (.skippedTest test.path failure) ::
          listener (.errored test failure))
        ⟨p.tally.recordError, (p.turn runner test).state, (p.turn runner test).tree⟩

/-- The turn of `test` at `p` is the last one. -/
inductive Stops (runner : Runner σ) (p : Standing σ) (test : TestFile) : Ending → Prop
  | aborted (failure : Failure) (h : (p.turn runner test).answer? = some (.error failure))
      (hf : failure.isFatal = true) : Stops runner p test (.aborted failure)
  | unfinished (h : (p.turn runner test).answer? = none) : Stops runner p test .unfinished

/-- Tests have their turns one after another, from `p` to `q`. -/
inductive Passes (runner : Runner σ) (listener : Listener) :
    Standing σ → List TestFile → List Event → Standing σ → Prop
  | nil (p : Standing σ) : Passes runner listener p [] [] p
  | cons {p q r : Standing σ} {test : TestFile} {tests : List TestFile} {es fs : List Event}
      (h : Goes runner listener p test es q) (hs : Passes runner listener q tests fs r) :
      Passes runner listener p (test :: tests) (es ++ fs) r

theorem goes_or_stops (runner : Runner σ) (listener : Listener) (p : Standing σ)
    (test : TestFile) :
    (∃ es q, Goes runner listener p test es q) ∨ ∃ ending, Stops runner p test ending := by
  cases h : (p.turn runner test).answer? with
  | none => exact Or.inr ⟨_, .unfinished h⟩
  | some answer =>
    cases answer with
    | ok verdict => exact Or.inl ⟨_, _, .finished verdict h⟩
    | error failure =>
      cases hf : failure.isFatal with
      | false => exact Or.inl ⟨_, _, .errored failure h hf⟩
      | true => exact Or.inr ⟨_, .aborted failure h hf⟩

/-- Only a test that is handed over can be the last one. -/
theorem Stops.unmarked {p : Standing σ} {test : TestFile} {ending : Ending}
    (h : Stops runner p test ending) : Unmarked p.tree test.path := by
  refine Classical.byContradiction fun hu => ?_
  obtain ⟨answer, hturn, hmild⟩ := turn_of_not_unmarked runner p.state p.tree test hu
  cases h with
  | aborted failure h hf =>
    rw [Standing.turn, hturn] at h
    rw [hmild failure (Option.some.inj h)] at hf
    cases hf
  | unfinished h =>
    rw [Standing.turn, hturn] at h
    cases h

/-- **All tests have their turns, or one of them stops the session.** -/
theorem passes_or_stops (runner : Runner σ) (listener : Listener) (p : Standing σ)
    (tests : List TestFile) :
    (∃ es q, Passes runner listener p tests es q) ∨
      ∃ pre test post es q ending, tests = pre ++ test :: post ∧
        Passes runner listener p pre es q ∧ Stops runner q test ending := by
  induction tests generalizing p with
  | nil => exact Or.inl ⟨_, _, .nil p⟩
  | cons test tests ih =>
    rcases goes_or_stops runner listener p test with ⟨es, q, hg⟩ | ⟨ending, hs⟩
    · rcases ih q with ⟨fs, r, hp⟩ | ⟨pre, last, post, fs, r, ending, rfl, hp, hs⟩
      · exact Or.inl ⟨_, r, .cons hg hp⟩
      · exact Or.inr ⟨test :: pre, last, post, _, r, ending, rfl, .cons hg hp, hs⟩
    · exact Or.inr ⟨[], test, tests, _, p, ending, rfl, .nil p, hs⟩

/-- A session that goes on stands where the turn left it. -/
theorem Goes.afterTurns_cons {p q : Standing σ} {test : TestFile} {es : List Event}
    (h : Goes runner listener p test es q) (tests : List TestFile) :
    afterTurns runner (test :: tests) p.state p.tree =
      afterTurns runner tests q.state q.tree := by
  cases h <;> rfl

/-- Tests that all have their turns have them in two parts as well. -/
theorem Passes.split {p r : Standing σ} {pre post : List TestFile} {es : List Event}
    (h : Passes runner listener p (pre ++ post) es r) :
    ∃ fs gs q, es = fs ++ gs ∧ Passes runner listener p pre fs q ∧
      Passes runner listener q post gs r := by
  induction pre generalizing p es with
  | nil => exact ⟨[], es, p, rfl, .nil p, h⟩
  | cons test pre ih =>
    rw [List.cons_append] at h
    cases h with
    | cons hg hp =>
      obtain ⟨fs, gs, q, rfl, hpre, hpost⟩ := ih hp
      exact ⟨_, gs, q, (List.append_assoc ..).symm, .cons hg hpre, hpost⟩

/-! ## What comes of it -/

theorem Record.after_after (r : Record σ) (es fs : List Event) :
    (r.after fs).after es = r.after (es ++ fs) := by
  unfold Record.after
  rw [List.append_assoc]

theorem runTests_of_goes {p q : Standing σ} {test : TestFile} {es : List Event}
    (h : Goes runner listener p test es q) (tests : List TestFile) :
    runTests runner listener (test :: tests) p.tally p.state p.tree =
      (runTests runner listener tests q.tally q.state q.tree).after es := by
  cases h with
  | finished verdict h =>
    have h' : (Session.turn runner p.state p.tree test).answer? = some (.ok verdict) := h
    rw [runTests]
    simp only [h']
    rfl
  | errored failure h hf =>
    have h' : (Session.turn runner p.state p.tree test).answer? = some (.error failure) := h
    rw [runTests]
    simp only [h', hf]
    rfl

/-- **While a session goes on, only what follows matters.** -/
theorem runTests_of_passes {p q : Standing σ} {pre : List TestFile} {es : List Event}
    (h : Passes runner listener p pre es q) (tests : List TestFile) :
    runTests runner listener (pre ++ tests) p.tally p.state p.tree =
      (runTests runner listener tests q.tally q.state q.tree).after es := by
  induction h with
  | nil p => rfl
  | cons hg _ ih => rw [List.cons_append, runTests_of_goes hg, ih, Record.after_after]

/-- **When it stops, nothing follows.** -/
theorem runTests_of_stops {p : Standing σ} {test : TestFile} {ending : Ending}
    (h : Stops runner p test ending) (tests : List TestFile) :
    runTests runner listener (test :: tests) p.tally p.state p.tree =
      ⟨ending, (p.turn runner test).events, (p.turn runner test).state,
        (p.turn runner test).tree⟩ := by
  cases h with
  | aborted failure h hf =>
    have h' : (Session.turn runner p.state p.tree test).answer? = some (.error failure) := h
    rw [runTests]
    simp only [h', hf]
    rfl
  | unfinished h =>
    have h' : (Session.turn runner p.state p.tree test).answer? = none := h
    rw [runTests]
    simp only [h']
    rfl

/-! ## Other listeners -/

/-- What is told changes neither the turn nor where the session stands after it. -/
theorem Goes.relisten {listener' : Listener} {p q : Standing σ} {test : TestFile}
    {es : List Event} (h : Goes runner listener p test es q)
    (hl : ∀ r, calls (listener r) = calls (listener' r)) :
    ∃ fs, Goes runner listener' p test fs q ∧ calls fs = calls es := by
  cases h with
  | finished verdict h =>
    refine ⟨_, .finished verdict h, ?_⟩
    rw [calls_append, calls_append, hl]
  | errored failure h hf =>
    refine ⟨_, .errored failure h hf, ?_⟩
    rw [calls_append, calls_append]
    exact congrArg _ (hl _).symm

/-- **A listener has no say in what is done.** -/
theorem runTests_listener (runner : Runner σ) {listener' : Listener}
    (hl : ∀ r, calls (listener r) = calls (listener' r)) (tests : List TestFile)
    (p : Standing σ) :
    let r := runTests runner listener tests p.tally p.state p.tree
    let r' := runTests runner listener' tests p.tally p.state p.tree
    r'.ending = r.ending ∧ calls r'.events = calls r.events ∧ r'.state = r.state ∧
      r'.tree = r.tree := by
  induction tests generalizing p with
  | nil => exact ⟨rfl, rfl, rfl, rfl⟩
  | cons test tests ih =>
    rcases goes_or_stops runner listener p test with ⟨es, q, hg⟩ | ⟨ending, hs⟩
    · obtain ⟨fs, hg', hc⟩ := hg.relisten hl
      obtain ⟨he, hcalls, hstate, htree⟩ := ih q
      rw [runTests_of_goes hg, runTests_of_goes hg']
      refine ⟨he, ?_, hstate, htree⟩
      simp only [Record.after, calls_append, hc, hcalls]
    · rw [runTests_of_stops hs, runTests_of_stops hs]
      exact ⟨rfl, rfl, rfl, rfl⟩

/-! ## What is seen while a session goes on

The listener keeps every report here. -/

section Views

variable {p q : Standing σ} {test : TestFile} {tests : List TestFile} {es : List Event}

theorem Goes.reports_of_ok {verdict : Verdict} (h : Goes runner .recording p test es q)
    (ha : (p.turn runner test).answer? = some (.ok verdict)) :
    reports es = [.finished test verdict] := by
  have hr : reports (p.turn runner test).events = [] := turn_reports runner p.state p.tree test
  cases h with
  | finished verdict' h =>
    rw [ha] at h
    cases h
    rw [reports_append, hr]
    rfl
  | errored failure h hf =>
    rw [ha] at h
    cases h

theorem Goes.reports_of_error {failure : Failure} (h : Goes runner .recording p test es q)
    (ha : (p.turn runner test).answer? = some (.error failure)) :
    reports es = [.errored test failure] := by
  have hr : reports (p.turn runner test).events = [] := turn_reports runner p.state p.tree test
  cases h with
  | finished verdict h =>
    rw [ha] at h
    cases h
  | errored failure' h hf =>
    rw [ha] at h
    cases h
    rw [reports_append, hr]
    rfl

/-- Every turn is told once, and counted as it is told. -/
theorem Goes.reports_eq (h : Goes runner .recording p test es q) :
    ∃ report, reports es = [report] ∧ report.test = test ∧
      q.tally = p.tally.add report.entry := by
  have hg := h
  cases h with
  | finished verdict h => exact ⟨_, hg.reports_of_ok h, rfl, rfl⟩
  | errored failure h hf => exact ⟨_, hg.reports_of_error h, rfl, rfl⟩

theorem Goes.calls_eq (h : Goes runner .recording p test es q) :
    calls es = calls (p.turn runner test).events := by
  cases h with
  | finished verdict h => exact (calls_append ..).trans (List.append_nil _)
  | errored failure h hf => exact (calls_append ..).trans (List.append_nil _)

theorem Goes.examinations_eq (h : Goes runner .recording p test es q) :
    examinations es = [test] := by
  have he : examinations (p.turn runner test).events = [test] :=
    turn_examinations runner p.state p.tree test
  cases h with
  | finished verdict h =>
    rw [examinations_append, he]
    rfl
  | errored failure h hf =>
    rw [examinations_append, he]
    rfl

theorem Goes.after_eq (h : Goes runner .recording p test es q) :
    (q.state, q.tree) = runner.after (calls es) p.state p.tree := by
  rw [h.calls_eq, Standing.turn, ← turn_after]
  cases h with
  | finished verdict h => rfl
  | errored failure h hf => rfl

theorem Passes.reports_test (h : Passes runner .recording p tests es q) :
    (reports es).map Report.test = tests := by
  induction h with
  | nil p => rfl
  | cons hg _ ih =>
    obtain ⟨report, hr, rfl, -⟩ := hg.reports_eq
    rw [reports_append, hr, List.singleton_append, List.map_cons, ih]

theorem Passes.tally_eq (h : Passes runner .recording p tests es q) :
    q.tally = ((reports es).map Report.entry).foldl Tally.add p.tally := by
  induction h with
  | nil p => rfl
  | cons hg _ ih =>
    obtain ⟨report, hr, -, ht⟩ := hg.reports_eq
    rw [ih, reports_append, hr, List.singleton_append, List.map_cons, List.foldl_cons, ht]

theorem Passes.examinations_eq (h : Passes runner .recording p tests es q) :
    examinations es = tests := by
  induction h with
  | nil p => rfl
  | cons hg _ ih => rw [examinations_append, hg.examinations_eq, ih, List.singleton_append]

theorem Passes.calls_sublist (h : Passes runner .recording p tests es q) :
    (calls es).Sublist tests := by
  induction h with
  | nil p => exact List.Sublist.refl _
  | cons hg _ ih =>
    rw [calls_append, hg.calls_eq]
    exact (turn_calls_sublist ..).append ih

/-- **The state and the tree are what the calls left behind.** -/
theorem Passes.after_eq (h : Passes runner .recording p tests es q) :
    (q.state, q.tree) = runner.after (calls es) p.state p.tree := by
  induction h with
  | nil p => rfl
  | cons hg _ ih => rw [ih, calls_append, Runner.after_append, ← hg.after_eq]

end Views

end Session

end SuiteRunner
