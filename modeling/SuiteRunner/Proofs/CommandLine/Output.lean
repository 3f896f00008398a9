import Mathlib
import SuiteRunner.Proofs.CommandLine.Agreement
import SuiteRunner.Proofs.CommandLine.Effective
import SuiteRunner.Proofs.Discovery
import SuiteRunner.Proofs.Session.Aborted

/-!
# What a run prints, and its exit code

The status lines come from the listener while the session goes on, and the tally from counts that
the session kept. They agree, and the exit code says nothing about how the tests came out.

* `run_console`: the status lines are those of the reports that another listener keeps;
* `Passes.mild`: a session goes on only while no call is answered by a fatal failure;
* `Came`, `run_came`: what is told of a test is what came of its file, or of the answer for it,
  after the turns of the tests before it;
* `Outcome`, `Responds`: how a session ends, and what is printed then;
* **`run_output_exact`**: the exit code and the output of a run.
-/

namespace SuiteRunner

namespace Session

variable {σ : Type} {runner : Runner σ} {p q : Standing σ} {test : TestFile}
  {tests : List TestFile} {es : List Event} {color : Bool}

/-! ## Status lines and reports -/

/-- With a runner that shows nothing itself, a turn shows nothing. -/
theorem turn_shown (hquiet : ∀ s t test, shown (runner s t test).events = []) (s : σ) (t : Tree)
    (test : TestFile) : shown (turn runner s t test).events = [] := by
  by_cases ho : test.optsOut t = .ok false
  · rw [turn_of_active runner s t test ho]
    exact hquiet s t test
  · rw [turn_of_inactive runner s t test ho]
    rfl

/-- The status line of a turn is that of the report that another listener keeps. -/
theorem Goes.console (hquiet : ∀ s t test, shown (runner s t test).events = [])
    (h : Goes runner (Console.listener color) p test es q) :
    ∃ fs, Goes runner .recording p test fs q ∧
      shown es = (reports fs).map (Console.statusLine color) := by
  have hs : shown (p.turn runner test).events = [] := turn_shown hquiet p.state p.tree test
  cases h with
  | finished verdict h =>
    have hg : Goes runner .recording p test _ _ := .finished verdict h
    refine ⟨_, hg, ?_⟩
    rw [hg.reports_of_ok h, shown_append, hs]
    rfl
  | errored failure h hf =>
    have hg : Goes runner .recording p test _ _ := .errored failure h hf
    refine ⟨_, hg, ?_⟩
    rw [hg.reports_of_error h, shown_append, hs]
    rfl

theorem runTests_console (hquiet : ∀ s t test, shown (runner s t test).events = [])
    (color : Bool) (tests : List TestFile) (p : Standing σ) :
    shown (runTests runner (Console.listener color) tests p.tally p.state p.tree).events =
      (reports (runTests runner .recording tests p.tally p.state p.tree).events).map
        (Console.statusLine color) := by
  induction tests generalizing p with
  | nil => rfl
  | cons test tests ih =>
    rcases goes_or_stops runner (Console.listener color) p test with ⟨es, q, hg⟩ | ⟨ending, hs⟩
    · obtain ⟨fs, hg', hshown⟩ := hg.console hquiet
      rw [runTests_of_goes hg, runTests_of_goes hg']
      simp only [Record.after, shown_append, reports_append, List.map_append, hshown, ih q]
    · have hr : reports (p.turn runner test).events = [] := turn_reports runner p.state p.tree test
      rw [runTests_of_stops hs, runTests_of_stops hs, hr]
      exact turn_shown hquiet p.state p.tree test

theorem shown_closing (ending : Ending) : shown (closing ending) = [] := by
  cases ending <;> rfl

/-- **A session shows the status lines of the reports that it would tell another listener.** -/
theorem run_console (hquiet : ∀ s t test, shown (runner s t test).events = []) (color : Bool)
    (dir : Path) (extension : String) (s : σ) (t : Tree) :
    shown (run runner (Console.listener color) dir extension s t).events =
      (reports (run runner .recording dir extension s t).events).map
        (Console.statusLine color) := by
  cases hd : Suite.discover t dir extension with
  | error failure =>
    rw [run_of_error hd, run_of_error hd]
    rfl
  | ok found =>
    rw [run_of_ok hd, run_of_ok hd]
    simp only [reports_around, shown_append, CommandLine.shown_noted, shown_closing,
      List.nil_append, List.append_nil]
    exact runTests_console hquiet color found.tests ⟨.empty, s, t⟩

/-! ## Answers while a session goes on -/

/-- The answer for a test that is handed over does not stop the session. -/
theorem Goes.mild (hg : Goes runner .recording p test es q) (hu : Unmarked p.tree test.path)
    {failure : Failure} (ha : (runner p.state p.tree test).answer? = some (.error failure)) :
    failure.isFatal = false := by
  have hturn : (p.turn runner test).answer? = _ :=
    turn_answer_of_unmarked runner p.state p.tree test hu
  rw [ha] at hturn
  cases hg with
  | finished verdict h =>
    rw [hturn] at h
    cases h
  | errored failure' h hf =>
    rw [hturn] at h
    cases h
    exact hf

/-- **No call is answered by a fatal failure while a session goes on.** -/
theorem Passes.mild (hp : Passes runner .recording p tests es q) {called rest : List TestFile}
    (hc : calls es = called ++ test :: rest) {failure : Failure}
    (ha : runner.answerAfter p.state p.tree called test = some (.error failure)) :
    failure.isFatal = false := by
  induction hp generalizing called with
  | nil p => exact absurd hc.symm (List.append_ne_nil_of_right_ne_nil _ (List.cons_ne_nil _ _))
  | @cons p q r first tests es fs hg _ ih =>
    have hafter := hg.after_eq
    rw [calls_append] at hc
    by_cases hu : Unmarked p.tree first.path
    · have hfirst : calls es = [first] :=
        hg.calls_eq.trans (turn_calls_of_unmarked runner p.state p.tree first hu)
      rw [hfirst] at hc hafter
      -- the call is that of this turn, or one of a later turn
      cases called with
      | nil =>
        obtain ⟨rfl, -⟩ := List.cons.inj hc
        exact hg.mild hu ha
      | cons x called =>
        obtain ⟨rfl, hlater⟩ := List.cons.inj hc
        refine ih hlater ?_
        rw [Runner.answerAfter, ← List.singleton_append, Runner.after_append, ← hafter] at ha
        exact ha
    · have hnone : calls es = [] :=
        hg.calls_eq.trans (turn_calls_of_not_unmarked runner p.state p.tree first hu)
      rw [hnone] at hc hafter
      obtain ⟨hstate, htree⟩ : q.state = p.state ∧ q.tree = p.tree := Prod.mk.inj hafter
      rw [← hstate, ← htree] at ha
      exact ih hc ha

/-- The report says what came of its test, when `s` and `t` are the state and the tree as its turn
comes. -/
inductive Came (runner : Runner σ) (s : σ) (t : Tree) : Report → Prop
  /-- The file is marked. -/
  | ignored {test : TestFile} (h : OptedOut t test.path) :
      Came runner s t (.finished test .ignored)
  /-- The file cannot be read. -/
  | unreadable {test : TestFile} {cause : Fault} (h : t.read test.path = .error cause) :
      Came runner s t (.errored test (.testUnreadable test.path cause))
  /-- The runner answers with a verdict. -/
  | finished {test : TestFile} {verdict : Verdict} (hu : Unmarked t test.path)
      (h : (runner s t test).answer? = some (.ok verdict)) :
      Came runner s t (.finished test verdict)
  /-- The runner answers with a failure that is not fatal. -/
  | errored {test : TestFile} {failure : Failure} (hu : Unmarked t test.path)
      (h : (runner s t test).answer? = some (.error failure)) (hf : failure.isFatal = false) :
      Came runner s t (.errored test failure)

theorem Goes.came (hg : Goes runner .recording p test es q) :
    ∃ report, reports es = [report] ∧ report.test = test ∧
      Came runner p.state p.tree report := by
  by_cases hu : Unmarked p.tree test.path
  · have hturn : (p.turn runner test).answer? = _ :=
      turn_answer_of_unmarked runner p.state p.tree test hu
    have hg' := hg
    cases hg with
    | finished verdict h =>
      exact ⟨_, hg'.reports_of_ok h, rfl, .finished hu (hturn.symm.trans h)⟩
    | errored failure h hf =>
      exact ⟨_, hg'.reports_of_error h, rfl, .errored hu (hturn.symm.trans h) hf⟩
  · rcases optedOut_or_error_of_not_unmarked hu with ho | ⟨cause, hc⟩
    · have hturn := congrArg Turn.answer? (turn_of_optedOut runner p.state p.tree test ho)
      exact ⟨_, hg.reports_of_ok hturn, rfl, .ignored ho⟩
    · have hturn := congrArg Turn.answer? (turn_of_error runner p.state p.tree test hc)
      exact ⟨_, hg.reports_of_error hturn, rfl, .unreadable hc⟩

/-- Each report says what came of its test, in the state and the tree that the turns of the tests
before it left behind. -/
def CameInTurn (runner : Runner σ) (s : σ) (t : Tree) (told : List Report) : Prop :=
  Each (fun earlier report =>
    let now := afterTurns runner (earlier.map Report.test) s t
    Came runner now.1 now.2 report) told

theorem Passes.came (hp : Passes runner .recording p tests es q) :
    CameInTurn runner p.state p.tree (reports es) := by
  induction hp with
  | nil p => exact each_nil
  | @cons p q r test tests es fs hg _ ih =>
    obtain ⟨report, hr, rfl, hcame⟩ := hg.came
    rw [reports_append, hr, List.singleton_append]
    refine each_cons.mpr ⟨hcame, ih.imp fun earlier later h => ?_⟩
    rw [List.map_cons, hg.afterTurns_cons]
    exact h

/-- **What is told of a test came of it.** -/
theorem run_came (runner : Runner σ) (dir : Path) (extension : String) (s : σ) (t : Tree) :
    CameInTurn runner s t (reports (run runner .recording dir extension s t).events) := by
  rcases run_cases runner .recording dir extension s t with
    ⟨failure, -, he⟩ | ⟨found, es, q, -, hp, he⟩ |
      ⟨found, pre, test, post, es, q, ending, -, -, hp, -, he⟩
  · rw [he]
    exact each_nil
  · rw [he, reports_around]
    exact hp.came
  · rw [he, reports_around, reports_last]
    exact hp.came

/-- No call among `events` is answered by a fatal failure. -/
def Calm (runner : Runner σ) (s : σ) (t : Tree) (events : List Event) : Prop :=
  ∀ called test rest failure, calls events = called ++ test :: rest →
    runner.answerAfter s t called test = some (.error failure) → failure.isFatal = false

/-- How a session that finds its suite ends: it is calm to the end, or a fatal answer stops it, or
one that never comes. -/
inductive Outcome (runner : Runner σ) (s : σ) (t : Tree) (tests : List TestFile)
    (told : List Report) (events : List Event) : Ending → Prop
  | completed (htold : told.map Report.test = tests) (hcalm : Calm runner s t events) :
      Outcome runner s t tests told events
        (.completed (Tally.ofHistory (told.map Report.entry)))
  | aborted {pre post called : List TestFile} {test : TestFile} {failure : Failure}
      (htests : tests = pre ++ test :: post) (htold : told.map Report.test = pre)
      (hcalls : calls events = called ++ [test])
      (hanswer : runner.answerAfter s t called test = some (.error failure))
      (hfatal : failure.isFatal = true) :
      Outcome runner s t tests told events (.aborted failure)
  | unfinished : Outcome runner s t tests told events .unfinished

theorem outcome_of_ok (runner : Runner σ) (color : Bool) {dir : Path} {extension : String} (s : σ)
    {t : Tree} {found : Suite.Discovery} (hd : Suite.discover t dir extension = .ok found) :
    let r := run runner (Console.listener color) dir extension s t
    Outcome runner s t found.tests (reports (run runner .recording dir extension s t).events)
      r.events r.ending := by
  intro r
  have hl : ∀ x, calls (Listener.recording x) = calls (Console.listener color x) := fun _ => rfl
  obtain ⟨he, hc, -, -⟩ := run_listener runner hl dir extension s t
  have hending : r.ending = _ := he
  have hcalls : calls r.events = _ := hc
  rw [hending]
  rcases run_cases runner .recording dir extension s t with
    ⟨failure, hd', -⟩ | ⟨found', es, q, hd', hp, hr⟩ |
      ⟨found', pre, test, post, es, q, ending, hd', hsplit, hp, hs, hr⟩
  · rw [hd] at hd'
    cases hd'
  · rw [hd] at hd'
    cases hd'
    have htally : q.tally = Tally.ofHistory ((reports es).map Report.entry) := hp.tally_eq
    rw [hr, calls_around] at hcalls
    rw [hr, reports_around, htally]
    refine .completed hp.reports_test fun called test rest failure hsplit ha => ?_
    exact hp.mild (hcalls.symm.trans hsplit) ha
  · rw [hd] at hd'
    cases hd'
    obtain ⟨hlast, -, htold, -⟩ := views_of_stops hp hs (congrArg Record.events hr)
    have hanswer := answerAfter_of_stops hp hs
    rw [hr] at hlast htold hcalls ⊢
    cases hs with
    | aborted failure h hf =>
      exact .aborted hsplit htold (hcalls.trans hlast) (hanswer.trans h) hf
    | unfinished h => exact .unfinished

end Session

namespace CommandLine

variable {σ : Type}

/-! ## Bytes -/

theorem ofString_append (a b : String) :
    Bytes.ofString (a ++ b) = Bytes.ofString a ++ Bytes.ofString b := by
  unfold Bytes.ofString Utf8.encode
  rw [String.toList_append, List.flatMap_append]

/-- Where no child prints to standard output, there is nothing on it but the texts that are
shown. -/
theorem printed_of_shown {es : List Event} (h : ∀ bytes, .relayed .out bytes ∉ es) :
    printed .out es = Bytes.ofString (String.join (shown es)) := by
  induction es with
  | nil => rfl
  | cons e es ih =>
    have hes := ih fun bytes hb => h bytes (List.mem_cons_of_mem e hb)
    unfold printed at hes ⊢
    rw [List.flatMap_cons, hes]
    cases e with
    | shown text =>
      have hshown : shown (.shown text :: es) = text :: shown es := rfl
      rw [hshown, String.join_cons, ofString_append]
      rfl
    | relayed stream bytes =>
      cases stream with
      | out => exact absurd List.mem_cons_self (h bytes)
      | err => rfl
    | examined | handed | reported | noted | child => rfl

/-! ## Runs -/

theorem runner_quiet (host : Supervision.Host σ) (executable : Path) (budgetMs : Nat)
    (s : Supervision.Watched σ) (t : Tree) (test : TestFile) :
    shown (Supervision.runner host executable budgetMs s t test).events = [] :=
  shown_of_ofWatch (Supervision.Watch.follow_ofWatch _ _ _)

/-- A suite is found where the directory can be listed. -/
theorem exists_discover_iff {t : Tree} {dir : Path} {extension : String} :
    (∃ found, Suite.discover t dir extension = .ok found) ↔ ∃ names, t.list dir = .ok names := by
  unfold Suite.discover
  cases t.list dir with
  | ok names => exact ⟨fun _ => ⟨names, rfl⟩, fun _ => ⟨_, rfl⟩⟩
  | error cause => exact ⟨nofun, nofun⟩

theorem validate_of_runSettings {t : Tree} {o : Options} {s : Settings}
    (h : runSettings t o = .ok s) : s.validate = .ok () := by
  obtain ⟨s', -, h⟩ := bind_eq_ok_iff.mp h
  obtain ⟨⟨⟩, hvalid, h⟩ := bind_eq_ok_iff.mp h
  cases h
  exact hvalid

section Run

variable (host : Supervision.Host σ) (state : σ) (color : Bool) (t : Tree) (s : Settings)

/-- The runner of a run. -/
abbrev runnerOf : Runner (Supervision.Watched σ) :=
  Supervision.runner host s.executable s.timeoutMs.toNat

/-- The session of a run. -/
def sessionOf (listener : Listener) : Session.Record (Supervision.Watched σ) :=
  Supervision.session host listener s ⟨0, state⟩ t

/-- What happens in a run. -/
def eventsOf : List Event := (sessionOf host state t s (Console.listener color)).events

/-- How the tests of a run came out, as a listener would have been told. -/
def toldOf : List Report := reports (sessionOf host state t s .recording).events

/-- No executable that a run starts fails fatally. -/
def CalmRun : Prop :=
  Session.Calm (runnerOf host s) ⟨0, state⟩ t (eventsOf host state color t s)

/-- What a run with the settings `s` responds, if it is over. -/
inductive Responds : Response → Prop
  /-- All tests had their turns, and the tally is printed under their lines. -/
  | completed {found : Suite.Discovery}
      (hd : Suite.discover t s.suiteDir s.extension = .ok found)
      (hcalm : CalmRun host state color t s)
      (htold : (toldOf host state t s).map Report.test = found.tests) :
      Responds ⟨0, printed .out (eventsOf host state color t s) ++
        Bytes.ofString (Console.tallyUnder color (shown (eventsOf host state color t s))),
        printed .err (eventsOf host state color t s)⟩
  /-- There is no suite, and nothing happens. -/
  | unlisted {failure : Failure}
      (hd : Suite.discover t s.suiteDir s.extension = .error failure)
      (hnone : eventsOf host state color t s = []) :
      Responds (.ofFailure color failure [] [])
  /-- A fatal failure stops it at a test, and the lines of the tests before are printed. -/
  | aborted {found : Suite.Discovery} {pre post called : List TestFile} {test : TestFile}
      {failure : Failure} (hd : Suite.discover t s.suiteDir s.extension = .ok found)
      (htests : found.tests = pre ++ test :: post)
      (htold : (toldOf host state t s).map Report.test = pre)
      (hcalls : calls (eventsOf host state color t s) = called ++ [test])
      (hanswer : (runnerOf host s).answerAfter ⟨0, state⟩ t called test = some (.error failure))
      (hfatal : failure.isFatal = true) :
      Responds (.ofFailure color failure (printed .out (eventsOf host state color t s))
        (printed .err (eventsOf host state color t s)))

variable {host state color t s} {o : Options} {response : Response}

theorem shown_eventsOf :
    shown (eventsOf host state color t s) =
      (toldOf host state t s).map (Console.statusText color) := by
  rw [← Console.statusLines_eq]
  exact Session.run_console (runner_quiet host s.executable s.timeoutMs.toNat) color s.suiteDir
    s.extension ⟨0, state⟩ t

theorem came_toldOf :
    Session.CameInTurn (runnerOf host s) ⟨0, state⟩ t (toldOf host state t s) :=
  Session.run_came (runnerOf host s) s.suiteDir s.extension ⟨0, state⟩ t

theorem responds_of_ofRecord
    (h : ofRecord color (sessionOf host state t s (Console.listener color)) = some response) :
    Responds host state color t s response := by
  cases hd : Suite.discover t s.suiteDir s.extension with
  | error failure =>
    have hr : sessionOf host state t s (Console.listener color) = _ := Session.run_of_error hd
    have hnone : eventsOf host state color t s = [] := congrArg Session.Record.events hr
    rw [hr] at h
    cases h
    exact .unlisted hd hnone
  | ok found =>
    have ho : Session.Outcome (runnerOf host s) ⟨0, state⟩ t found.tests (toldOf host state t s)
        (eventsOf host state color t s)
        (sessionOf host state t s (Console.listener color)).ending :=
      Session.outcome_of_ok (runnerOf host s) color ⟨0, state⟩ hd
    unfold ofRecord at h
    cases he : (sessionOf host state t s (Console.listener color)).ending with
    | completed tally =>
      rw [he] at h ho
      cases ho with
      | completed htold hcalm =>
        cases h
        rw [Console.tallyText_ofHistory, ← shown_eventsOf]
        exact .completed hd hcalm htold
    | aborted failure =>
      rw [he] at h ho
      cases h
      cases ho with
      | aborted htests htold hcalls hanswer hfatal =>
        exact .aborted hd htests htold hcalls hanswer hfatal
    | unfinished =>
      rw [he] at h
      cases h

/-- **The exit code says that the suite was found and no failure was fatal.** -/
theorem Responds.code_eq_zero_iff (h : Responds host state color t s response) :
    response.code = 0 ↔
      (∃ names, t.list s.suiteDir = .ok names) ∧ CalmRun host state color t s := by
  have hfound : (∃ found, Suite.discover t s.suiteDir s.extension = .ok found) ↔ _ :=
    exists_discover_iff
  rw [← hfound]
  cases h with
  | completed hd hcalm htold => exact ⟨fun _ => ⟨⟨_, hd⟩, hcalm⟩, fun _ => rfl⟩
  | unlisted hd hnone =>
    refine ⟨fun h => absurd h Nat.one_ne_zero, ?_⟩
    rintro ⟨⟨found, hfound⟩, -⟩
    rw [hd] at hfound
    cases hfound
  | aborted hd htests htold hcalls hanswer hfatal =>
    refine ⟨fun h => absurd h Nat.one_ne_zero, ?_⟩
    rintro ⟨-, hcalm⟩
    rw [hcalm _ _ [] _ hcalls hanswer] at hfatal
    cases hfatal

/-- A run that exits with 0 prints a tally. -/
theorem Responds.out_of_zero (h : Responds host state color t s response)
    (hzero : response.code = 0) :
    ∃ found, Suite.discover t s.suiteDir s.extension = .ok found ∧
      (toldOf host state t s).map Report.test = found.tests ∧
      response.out = printed .out (eventsOf host state color t s) ++
        Bytes.ofString (Console.tallyUnder color (shown (eventsOf host state color t s))) := by
  cases h with
  | completed hd hcalm htold => exact ⟨_, hd, htold, rfl⟩
  | unlisted | aborted => exact absurd hzero Nat.one_ne_zero

/-- **A run that exits with 1** has no suite, or is stopped by the last test that is handed over. -/
theorem Responds.out_of_ne_zero (h : Responds host state color t s response)
    (hne : response.code ≠ 0) :
    response.out = printed .out (eventsOf host state color t s) ∧
      ((∃ cause, t.list s.suiteDir = .error cause) ∧
          shown (eventsOf host state color t s) = [] ∨
        ∃ found pre test post called failure,
          Suite.discover t s.suiteDir s.extension = .ok found ∧
          found.tests = pre ++ test :: post ∧ (toldOf host state t s).map Report.test = pre ∧
          calls (eventsOf host state color t s) = called ++ [test] ∧
          (runnerOf host s).answerAfter ⟨0, state⟩ t called test = some (.error failure) ∧
          failure.isFatal = true) := by
  cases h with
  | completed => exact absurd rfl hne
  | unlisted hd hnone =>
    rw [hnone]
    refine ⟨rfl, Or.inl ⟨?_, rfl⟩⟩
    cases hl : t.list s.suiteDir with
    | error cause => exact ⟨cause, rfl⟩
    | ok names =>
      obtain ⟨found, hfound⟩ := exists_discover_iff.mpr ⟨names, hl⟩
      rw [hd] at hfound
      cases hfound
  | aborted hd htests htold hcalls hanswer hfatal =>
    exact ⟨rfl, Or.inr ⟨_, _, _, _, _, _, hd, htests, htold, hcalls, hanswer, hfatal⟩⟩

end Run

theorem respond_of_run (host : Supervision.Host σ) (state : σ) (color : Bool) (t : Tree)
    {args : List Bytes} {o : Options} (hargs : Arguments.parse args = .ok (.perform .run o)) :
    respond host state color t args = run host state color t o := by
  unfold respond
  rw [hargs]

theorem run_of_settings (host : Supervision.Host σ) (state : σ) (color : Bool) {t : Tree}
    {o : Options} {s : Settings} (hs : runSettings t o = .ok s) :
    run host state color t o =
      ofRecord color (sessionOf host state t s (Console.listener color)) := by
  unfold run
  rw [hs]
  rfl

/-- **The exit code and the output of a run that is over.** It exits with 0 if and only if the
settings file loads, the settings with the options in their place are valid, the suite directory can
be listed, and no executable fails fatally; how the tests came out has no part in it. Any other run
exits with 1. What a run shows itself is one status line for each test that came out in some way, in
order. The line shows the path and says what came of the test after the turns of those before it,
and how by its label. A run that exits with 0 has such a line for each test of the suite, and the
tally under them: the number of lines, the number of lines with the label of each verdict, and that
of errors, if there is one. A run that exits with 1 has lines for the tests before the one that
stopped it, and no tally; if it did not get to the suite, it has none. -/
theorem run_output_exact (host : Supervision.Host σ) (state : σ) (color : Bool) (t : Tree)
    {args : List Bytes} {o : Options} (hargs : Arguments.parse args = .ok (.perform .run o))
    {response : Response} (h : respond host state color t args = some response) :
    (response.code = 0 ↔ ∃ loaded names, Settings.load t (fileOf o) = .ok loaded ∧
      (overridden o loaded).validate = .ok () ∧
      t.list (overridden o loaded).suiteDir = .ok names ∧
      CalmRun host state color t (overridden o loaded)) ∧
    (response.code ≠ 0 → response.code = 1) ∧
    (∀ failure, runSettings t o = .error failure → response.out = []) ∧
    ∀ s, runSettings t o = .ok s →
      let events := eventsOf host state color t s
      let told := toldOf host state t s
      shown events = told.map (Console.statusText color) ∧
      Session.CameInTurn (runnerOf host s) ⟨0, state⟩ t told ∧
      (∀ report ∈ told, ∀ name, report.test.path = .ofString name →
        report.test.display = name) ∧
      (∀ x, Console.labelled color x (shown events) = (told.map Report.entry).count x) ∧
      ((∀ bytes, .relayed .out bytes ∉ events) →
        printed .out events = Bytes.ofString (String.join (shown events))) ∧
      (response.code = 0 → ∃ found, Suite.discover t s.suiteDir s.extension = .ok found ∧
        told.map Report.test = found.tests ∧
        response.out = printed .out events ++
          Bytes.ofString (Console.tallyUnder color (shown events))) ∧
      (response.code ≠ 0 → response.out = printed .out events ∧
        ((∃ cause, t.list s.suiteDir = .error cause) ∧ shown events = [] ∨
          ∃ found pre test post called failure,
            Suite.discover t s.suiteDir s.extension = .ok found ∧
            found.tests = pre ++ test :: post ∧ told.map Report.test = pre ∧
            calls events = called ++ [test] ∧
            (runnerOf host s).answerAfter ⟨0, state⟩ t called test = some (.error failure) ∧
            failure.isFatal = true)) := by
  rw [respond_of_run host state color t hargs] at h
  cases hs : runSettings t o with
  | error failure =>
    unfold run at h
    rw [hs] at h
    cases h
    refine ⟨⟨fun h => absurd h Nat.one_ne_zero, ?_⟩, fun _ => rfl, fun _ _ => rfl, nofun⟩
    rintro ⟨loaded, names, hload, hvalid, -⟩
    rw [runSettings_of_load hload, hvalid] at hs
    cases hs
  | ok s =>
    rw [run_of_settings host state color hs] at h
    have hr := responds_of_ofRecord h
    refine ⟨?_, fun hne => ?_, nofun, fun s' hs' => ?_⟩
    · obtain ⟨loaded, hload, -, rfl⟩ := runSettings_eq_ok_iff.mp hs
      rw [hr.code_eq_zero_iff]
      constructor
      · rintro ⟨⟨names, hl⟩, hcalm⟩
        exact ⟨loaded, names, hload, validate_of_runSettings hs, hl, hcalm⟩
      · rintro ⟨loaded', names, hload', -, hl, hcalm⟩
        obtain rfl := Except.ok.inj (hload.symm.trans hload')
        exact ⟨⟨names, hl⟩, hcalm⟩
    · cases hr with
      | completed => exact absurd rfl hne
      | unlisted | aborted => rfl
    · obtain rfl := Except.ok.inj hs'
      refine ⟨shown_eventsOf, came_toldOf, fun _ _ _ => TestFile.display_of_path, fun x => ?_,
        printed_of_shown, hr.out_of_zero, hr.out_of_ne_zero⟩
      rw [shown_eventsOf, Console.labelled_statusTexts]

/-- The arguments for a run of the suite `s`. -/
def runOfSuite : List Bytes := ["run", "--suite", "s"].map Bytes.ofString

/-- Of three tests one is marked, one fails and one cannot be read, and the run exits with 0. Where
the executable cannot be started, the run exits with 1. -/
theorem run_output_exact_marked :
    (∃ response, respond failingHost () false markedSuite runOfSuite = some response ∧
      response.code = 0 ∧ CalmRun failingHost () false markedSuite { suiteDir := ⟨[0x73]⟩ } ∧
      response.out = printed .out
          (eventsOf failingHost () false markedSuite { suiteDir := ⟨[0x73]⟩ }) ++
        Bytes.ofString (Console.tallyUnder false
          ["IGNORED: s/a.js\n", "FAILED: s/b.js.\n",
            "ERROR: s/c.js: cannot read test file s/c.js: Permission denied (os error 13)\n"])) ∧
    ∃ response, respond refusingHost () false markedSuite runOfSuite = some response ∧
      response.code = 1 ∧ ¬ CalmRun refusingHost () false markedSuite { suiteDir := ⟨[0x73]⟩ } := by
  have hargs : Arguments.parse runOfSuite = .ok (.perform .run { suite? := some ⟨[0x73]⟩ }) := by
    cbv
  have hload : Settings.load markedSuite (Path.ofString Settings.fileName) = .ok {} := by cbv
  have hlist : markedSuite.list ⟨[0x73]⟩ =
      .ok [[0x61, 0x2E, 0x6A, 0x73], [0x62, 0x2E, 0x6A, 0x73], [0x63, 0x2E, 0x6A, 0x73]] := by cbv
  have hs : runSettings markedSuite { suite? := some ⟨[0x73]⟩ } =
      .ok { suiteDir := ⟨[0x73]⟩ } := by cbv
  have hl : ∀ r, calls (Listener.silent r) = calls (Console.listener false r) := fun _ => rfl
  constructor
  · have hsilent : (sessionOf failingHost () markedSuite { suiteDir := ⟨[0x73]⟩ } .silent).ending =
        .completed ⟨0, 1, 0, 1, 1⟩ := by cbv
    have hend := (Session.run_listener _ hl _ _ _ _).1.trans hsilent
    have htold : toldOf failingHost () markedSuite { suiteDir := ⟨[0x73]⟩ } =
        [.finished ⟨⟨[0x73, 0x2F, 0x61, 0x2E, 0x6A, 0x73]⟩⟩ .ignored,
          .finished ⟨⟨[0x73, 0x2F, 0x62, 0x2E, 0x6A, 0x73]⟩⟩ .failed,
          .errored ⟨⟨[0x73, 0x2F, 0x63, 0x2E, 0x6A, 0x73]⟩⟩
            (.testUnreadable ⟨[0x73, 0x2F, 0x63, 0x2E, 0x6A, 0x73]⟩ .noAccess)] := by cbv
    have hr := (respond_of_run failingHost () false markedSuite hargs).trans
      (run_of_settings failingHost () false hs)
    unfold ofRecord at hr
    rw [show (sessionOf failingHost () markedSuite { suiteDir := ⟨[0x73]⟩ }
      (Console.listener false)).ending = _ from hend] at hr
    obtain ⟨hcode, -, -, hout⟩ := run_output_exact failingHost () false markedSuite hargs hr
    obtain ⟨loaded, names, hloaded, -, -, hcalm⟩ := hcode.mp rfl
    obtain rfl := Except.ok.inj (hload.symm.trans hloaded)
    obtain ⟨hshown, -, -, -, -, hzero, -⟩ := hout _ hs
    obtain ⟨found, -, -, htext⟩ := hzero rfl
    rw [hshown, htold] at htext
    exact ⟨_, hr, rfl, hcalm, htext⟩
  · have hsilent : (sessionOf refusingHost () markedSuite { suiteDir := ⟨[0x73]⟩ } .silent).ending =
        .aborted (.spawnFailed (Path.ofString "build/cu") .noEntry) := by cbv
    have hend := (Session.run_listener _ hl _ _ _ _).1.trans hsilent
    have hr := (respond_of_run refusingHost () false markedSuite hargs).trans
      (run_of_settings refusingHost () false hs)
    unfold ofRecord at hr
    rw [show (sessionOf refusingHost () markedSuite { suiteDir := ⟨[0x73]⟩ }
      (Console.listener false)).ending = _ from hend] at hr
    obtain ⟨hcode, -, -, -⟩ := run_output_exact refusingHost () false markedSuite hargs hr
    refine ⟨_, hr, rfl, fun hcalm => absurd (hcode.mpr ?_) Nat.one_ne_zero⟩
    exact ⟨{}, _, hload, rfl, hlist, hcalm⟩

end CommandLine

end SuiteRunner
