import SuiteRunner.Proofs.Session.Passes
import SuiteRunner.Proofs.Suite

/-!
# Whole sessions

A session that finds its suite is the turns of the tests, with the journal's entries around them.

* **`run_cases`**: the suite cannot be listed, or all tests have their turns, or one of them stops
  the session;
* **`run_listener`**: a listener has no say in any of it;
* `calls_around`, `reports_around`, `examinations_around`: the entries around the turns are seen
  by the journal only.
-/

namespace SuiteRunner.Session

variable {σ : Type}

theorem run_of_error {runner : Runner σ} {listener : Listener} {dir : Path} {extension : String}
    {s : σ} {t : Tree} {failure : Failure} (h : Suite.discover t dir extension = .error failure) :
    run runner listener dir extension s t = ⟨.aborted failure, [], s, t⟩ := by
  unfold run
  rw [h]

theorem run_of_ok {runner : Runner σ} {listener : Listener} {dir : Path} {extension : String}
    {s : σ} {t : Tree} {found : Suite.Discovery} (h : Suite.discover t dir extension = .ok found) :
    run runner listener dir extension s t =
      let r := runTests runner listener found.tests .empty s t
      { r with events := found.notes.map .noted ++ r.events ++ closing r.ending } := by
  unfold run
  rw [h]

/-- **The three ways of a session.** -/
theorem run_cases (runner : Runner σ) (listener : Listener) (dir : Path) (extension : String)
    (s : σ) (t : Tree) :
    (∃ failure, Suite.discover t dir extension = .error failure ∧
      run runner listener dir extension s t = ⟨.aborted failure, [], s, t⟩) ∨
    (∃ found es q, Suite.discover t dir extension = .ok found ∧
      Passes runner listener ⟨.empty, s, t⟩ found.tests es q ∧
      run runner listener dir extension s t =
        ⟨.completed q.tally, found.notes.map .noted ++ es ++ closing (.completed q.tally),
          q.state, q.tree⟩) ∨
    ∃ found pre test post es q ending, Suite.discover t dir extension = .ok found ∧
      found.tests = pre ++ test :: post ∧ Passes runner listener ⟨.empty, s, t⟩ pre es q ∧
      Stops runner q test ending ∧
      run runner listener dir extension s t =
        ⟨ending, found.notes.map .noted ++ (es ++ (q.turn runner test).events) ++ closing ending,
          (q.turn runner test).state, (q.turn runner test).tree⟩ := by
  cases hd : Suite.discover t dir extension with
  | error failure => exact Or.inl ⟨failure, rfl, run_of_error hd⟩
  | ok found =>
    refine Or.inr ?_
    rw [run_of_ok hd]
    rcases passes_or_stops runner listener ⟨.empty, s, t⟩ found.tests with
      ⟨es, q, hp⟩ | ⟨pre, test, post, es, q, ending, hsplit, hp, hs⟩
    · refine Or.inl ⟨found, es, q, rfl, hp, ?_⟩
      have hr := runTests_of_passes hp []
      simp only [List.append_nil] at hr
      rw [hr]
      simp only [runTests, Record.after, List.append_nil]
    · refine Or.inr ⟨found, pre, test, post, es, q, ending, rfl, hsplit, hp, hs, ?_⟩
      have hr := runTests_of_passes hp (test :: post)
      simp only at hr
      rw [hsplit, hr, runTests_of_stops hs]
      rfl

/-- A session that completes had all turns. -/
theorem passes_of_completed {runner : Runner σ} {listener : Listener} {dir : Path}
    {extension : String} {s : σ} {t : Tree} {tally : Tally}
    (h : (run runner listener dir extension s t).ending = .completed tally) :
    ∃ found es q, Suite.discover t dir extension = .ok found ∧
      Passes runner listener ⟨.empty, s, t⟩ found.tests es q ∧ q.tally = tally ∧
      (run runner listener dir extension s t).events =
        found.notes.map .noted ++ es ++ closing (.completed tally) := by
  rcases run_cases runner listener dir extension s t with
    ⟨failure, -, hr⟩ | ⟨found, es, q, hd, hp, hr⟩ | ⟨_, _, _, _, _, _, ending, -, -, -, hs, hr⟩
  · rw [hr] at h
    cases h
  · rw [hr] at h
    cases h
    exact ⟨found, es, q, hd, hp, rfl, by rw [hr]⟩
  · rw [hr] at h
    cases hs with
    | aborted failure _ _ => cases h
    | unfinished _ => cases h

/-! ## The entries around the turns -/

theorem noted_apart (notes : List Note) : ∀ e ∈ notes.map Event.noted, e.ofSession = false := by
  intro e he
  obtain ⟨note, -, rfl⟩ := List.mem_map.mp he
  rfl

theorem closing_apart (ending : Ending) : ∀ e ∈ closing ending, e.ofSession = false := by
  cases ending with
  | completed tally =>
    intro e he
    cases List.mem_singleton.mp he
    rfl
  | aborted | unfinished => exact fun e he => absurd he List.not_mem_nil

theorem calls_around (notes : List Note) (es : List Event) (ending : Ending) :
    calls (notes.map .noted ++ es ++ closing ending) = calls es := by
  rw [calls_append, calls_append, calls_of_apart (noted_apart notes),
    calls_of_apart (closing_apart ending), List.nil_append, List.append_nil]

theorem reports_around (notes : List Note) (es : List Event) (ending : Ending) :
    reports (notes.map .noted ++ es ++ closing ending) = reports es := by
  rw [reports_append, reports_append, reports_of_apart (noted_apart notes),
    reports_of_apart (closing_apart ending), List.nil_append, List.append_nil]

theorem examinations_around (notes : List Note) (es : List Event) (ending : Ending) :
    examinations (notes.map .noted ++ es ++ closing ending) = examinations es := by
  rw [examinations_append, examinations_append, examinations_of_apart (noted_apart notes),
    examinations_of_apart (closing_apart ending), List.nil_append, List.append_nil]

/-- **A listener has no say in a session.** -/
theorem run_listener (runner : Runner σ) {listener listener' : Listener}
    (hl : ∀ r, calls (listener r) = calls (listener' r)) (dir : Path) (extension : String) (s : σ)
    (t : Tree) :
    let r := run runner listener dir extension s t
    let r' := run runner listener' dir extension s t
    r'.ending = r.ending ∧ calls r'.events = calls r.events ∧ r'.state = r.state ∧
      r'.tree = r.tree := by
  cases hd : Suite.discover t dir extension with
  | error failure =>
    rw [run_of_error hd, run_of_error hd]
    exact ⟨rfl, rfl, rfl, rfl⟩
  | ok found =>
    obtain ⟨he, hc, hs, ht⟩ := runTests_listener runner hl found.tests ⟨.empty, s, t⟩
    rw [run_of_ok hd, run_of_ok hd]
    refine ⟨he, ?_, hs, ht⟩
    rw [calls_around, calls_around]
    exact hc

/-! ## The last turn of a session that stops -/

section Stop

variable (runner : Runner σ) (q : Standing σ) (test : TestFile) (es : List Event)

theorem reports_last : reports (es ++ (q.turn runner test).events) = reports es := by
  have hr : reports (q.turn runner test).events = [] := turn_reports runner q.state q.tree test
  rw [reports_append, hr, List.append_nil]

theorem examinations_last :
    examinations (es ++ (q.turn runner test).events) = examinations es ++ [test] := by
  have he : examinations (q.turn runner test).events = [test] :=
    turn_examinations runner q.state q.tree test
  rw [examinations_append, he]

end Stop

/-! ## A session to look at -/

/-- The file `c.t` in the directory `s`. -/
def ofLetter (c : UInt8) : TestFile := ⟨⟨[0x73, 0x2F, c, 0x2E, 0x74]⟩⟩

/-- A directory `s` with the files `a.t`, `b.t`, `c.t` and `d.t`, which are empty. -/
def fourTests : Tree where
  home := []
  entries := ([[0x73]], .directory) ::
    [0x61, 0x62, 0x63, 0x64].map fun c => ([[0x73], [c, 0x2E, 0x74]], .file { content := [] })
  nodup := by decide
  named := by decide

/-- While `a.t` runs, `b.t` gets the marker and `c.t` is removed. The answer for `d.t` is
`last`. -/
def meddler (last : Except Failure Verdict) : Runner Unit :=
  Runner.scripted (fun test => if test == ofLetter 0x64 then last else .ok .success) fun test =>
    if test == ofLetter 0x61 then
      [.write (ofLetter 0x62).path Marker.bytes false, .remove (ofLetter 0x63).path]
    else []

/-- The session over the four tests. -/
def meddled (last : Except Failure Verdict) : Record Unit :=
  run (meddler last) .recording ⟨[0x73]⟩ ".t" () fourTests

end SuiteRunner.Session
