import Mathlib
import SuiteRunner.Proofs.Discovery
import SuiteRunner.Proofs.Session.Run
import SuiteRunner.Proofs.Tally

/-!
# Tests on their own

All that a session sees of a suite is which names are tests and what is read of their files, which
may be a fault (`Suite.Holds`). With a runner that leaves the tree alone and answers by the path of
a test (`Steady`), one name more, less or other changes nothing for the others.

* `Suite.filter_testNames_congr`: two directories that agree on all names but one have the same
  other tests in the same order, however they are listed;
* `Steady.passes`: what is told and called while a session goes on, as a list over the tests;
* `Steady.filter_congr`: two sessions tell and call alike of the tests that the directories agree
  on;
* **`isolation_exact`**: two sessions over such directories, side by side.
-/

namespace SuiteRunner

open Marker (Marked)

variable {t t' : Tree} {dir : Path} {extension : String} {names names' : List Name} {n f : Name}
  {read : Except Fault Bytes}

namespace Suite

/-! ## What a session sees of a name -/

/-- The name `n` is listed in `dir`, has the suffix and leads to a regular file, links followed, and
`read` is what is read of it: its content, or why it cannot be read. -/
structure Holds (t : Tree) (dir : Path) (extension : String) (n : Name)
    (read : Except Fault Bytes) : Prop where
  listed : ∃ names, t.list dir = .ok names ∧ n ∈ names
  suffix : Bytes.ofString extension <:+ n
  regular : t.kindOf (dir.join ⟨n⟩) = .ok .regular
  holds : t.read (dir.join ⟨n⟩) = read

theorem mem_testNames_iff_holds (hl : t.list dir = .ok names) :
    n ∈ testNames t dir extension names ↔ ∃ read, Holds t dir extension n read := by
  rw [mem_testNames]
  constructor
  · rintro ⟨hmem, hsuffix, hregular⟩
    exact ⟨_, ⟨names, hl, hmem⟩, hsuffix, hregular, rfl⟩
  · rintro ⟨read, ⟨names₀, hl₀, hmem⟩, hsuffix, hregular, -⟩
    rw [hl] at hl₀
    cases hl₀
    exact ⟨hmem, hsuffix, hregular⟩

/-- Names that are listed in both directories and lead to the same kind of entry, of which the same
is read, look the same. -/
theorem holds_congr (hl : t.list dir = .ok names) (hl' : t'.list dir = .ok names')
    (hmem : n ∈ names ↔ n ∈ names')
    (hsame : n ∈ names → t.kindOf (dir.join ⟨n⟩) = t'.kindOf (dir.join ⟨n⟩) ∧
      t.read (dir.join ⟨n⟩) = t'.read (dir.join ⟨n⟩)) :
    Holds t dir extension n read ↔ Holds t' dir extension n read := by
  constructor
  · rintro ⟨⟨names₀, hl₀, hn⟩, hsuffix, hregular, hread⟩
    cases hl.symm.trans hl₀
    obtain ⟨hkind, hsame⟩ := hsame hn
    exact ⟨⟨names', hl', hmem.mp hn⟩, hsuffix, hkind ▸ hregular, hsame ▸ hread⟩
  · rintro ⟨⟨names₀, hl₀, hn⟩, hsuffix, hregular, hread⟩
    cases hl'.symm.trans hl₀
    obtain ⟨hkind, hsame⟩ := hsame (hmem.mpr hn)
    exact ⟨⟨names, hl, hmem.mpr hn⟩, hsuffix, hkind ▸ hregular, hsame ▸ hread⟩

/-- Whether a test opts out goes by what is read of its file. -/
theorem Holds.optsOut_congr (h : Holds t dir extension n read)
    (h' : Holds t' dir extension n read) :
    TestFile.optsOut t ⟨dir.join ⟨n⟩⟩ = TestFile.optsOut t' ⟨dir.join ⟨n⟩⟩ := by
  rw [TestFile.optsOut_eq, TestFile.optsOut_eq, h.holds, h'.holds]

/-- **The other tests are the same ones, in the same order.** -/
theorem filter_testNames_congr (hl : t.list dir = .ok names) (hl' : t'.list dir = .ok names')
    (p : Name → Bool)
    (h : ∀ n, p n = true → ∀ read,
      Holds t dir extension n read ↔ Holds t' dir extension n read) :
    (testNames t dir extension names).filter p =
      (testNames t' dir extension names').filter p := by
  obtain ⟨l, -, -, rfl⟩ := Tree.resolve_of_list hl
  obtain ⟨l', -, -, rfl⟩ := Tree.resolve_of_list hl'
  have hstrict : (testNames t dir extension (t.namesIn l)).Pairwise (List.Lex (· < ·)) :=
    testNames_strict (t.namesIn_nodup l)
  have hstrict' : (testNames t' dir extension (t'.namesIn l')).Pairwise (List.Lex (· < ·)) :=
    testNames_strict (t'.namesIn_nodup l')
  refine (hstrict.filter p).eq_of_mem_iff (hstrict'.filter p) fun n => ?_
  rw [List.mem_filter, List.mem_filter, mem_testNames_iff_holds hl, mem_testNames_iff_holds hl']
  refine and_congr_left fun hp => exists_congr fun read => h n hp read

end Suite

namespace Session

variable {σ : Type} {runner : Runner σ} {answer : Path → Except Failure Verdict}

/-! ## Sessions that leave the tree alone -/

/-- A runner that leaves the tree as it is, answers by the path of a test, and never with a failure
that stops a session. -/
structure Steady (runner : Runner σ) (answer : Path → Except Failure Verdict) : Prop where
  keeps : ∀ s t test, (runner s t test).tree = t
  answers : ∀ s t test, (runner s t test).answer? = some (answer test.path)
  mild : ∀ p failure, answer p = .error failure → failure.isFatal = false

/-- What comes of the turn of `test` in the tree `t`. -/
def answerIn (answer : Path → Except Failure Verdict) (t : Tree) (test : TestFile) :
    Except Failure Verdict := do
  if ← test.optsOut t then .ok .ignored else answer test.path

/-- What is told of it. -/
def reportIn (answer : Path → Except Failure Verdict) (t : Tree) (test : TestFile) : Report :=
  match answerIn answer t test with
  | .ok verdict => .finished test verdict
  | .error failure => .errored test failure

/-- What is told of a test when `read` is what is read of its file. -/
def reportOn (answer : Path → Except Failure Verdict) (test : TestFile) :
    (read : Except Fault Bytes) → Report
  | .error cause => .errored test (.testUnreadable test.path cause)
  | .ok content =>
    if Marked content then .finished test .ignored
    else
      match answer test.path with
      | .ok verdict => .finished test verdict
      | .error failure => .errored test failure

theorem reportIn_of_holds (answer : Path → Except Failure Verdict)
    (h : Suite.Holds t dir extension n read) :
    reportIn answer t ⟨dir.join ⟨n⟩⟩ = reportOn answer ⟨dir.join ⟨n⟩⟩ read := by
  unfold reportIn answerIn
  rw [TestFile.optsOut_eq, h.holds]
  cases read with
  | error cause => rfl
  | ok content =>
    unfold reportOn
    by_cases hm : Marked content
    · simp only [decide_eq_true hm, if_pos hm]
      rfl
    · simp only [decide_eq_false hm, if_neg hm]
      rfl

/-- `test` is handed to the runner in the tree `t`. -/
def handedIn (t : Tree) (test : TestFile) : Bool := (test.optsOut t).toOption == some false

theorem test_reportIn (answer : Path → Except Failure Verdict) (t : Tree) (test : TestFile) :
    (reportIn answer t test).test = test := by
  unfold reportIn
  cases answerIn answer t test <;> rfl

/-- Each test is told of once. -/
theorem map_test_reportIn (answer : Path → Except Failure Verdict) (t : Tree)
    (tests : List TestFile) : (tests.map (reportIn answer t)).map Report.test = tests := by
  rw [List.map_map]
  exact (List.map_congr_left fun test _ => test_reportIn answer t test).trans (List.map_id _)

namespace Steady

theorem turn (h : Steady runner answer) (s : σ) (t : Tree) (test : TestFile) :
    (turn runner s t test).answer? = some (answerIn answer t test) ∧
      calls (Session.turn runner s t test).events = [test].filter (handedIn t) ∧
      (Session.turn runner s t test).tree = t := by
  unfold answerIn handedIn
  cases ho : test.optsOut t with
  | error failure =>
    rw [turn_of_inactive runner s t test (by simp [ho]), List.filter_singleton, ho]
    exact ⟨rfl, rfl, rfl⟩
  | ok optsOut =>
    cases optsOut with
    | true =>
      rw [turn_of_inactive runner s t test (by simp [ho]), List.filter_singleton, ho]
      exact ⟨rfl, rfl, rfl⟩
    | false =>
      have hc := calls_of_apart (runner s t test).apart
      rw [turn_of_active runner s t test ho, List.filter_singleton, ho]
      exact ⟨h.answers s t test, congrArg (test :: ·) hc, h.keeps s t test⟩

theorem not_fatal (h : Steady runner answer) {test : TestFile} {failure : Failure}
    (ha : answerIn answer t test = .error failure) : failure.isFatal = false := by
  unfold answerIn at ha
  rw [TestFile.optsOut_eq] at ha
  cases hr : t.read test.path with
  | error cause =>
    rw [hr] at ha
    cases ha
    rfl
  | ok content =>
    rw [hr] at ha
    simp only [bind, Except.bind] at ha
    split at ha
    · cases ha
    · exact h.mild _ _ ha

/-- One turn is told as it came out, and leaves the tree alone. -/
theorem goes (h : Steady runner answer) {p q : Standing σ} {test : TestFile} {es : List Event}
    (hg : Goes runner .recording p test es q) :
    reports es = [reportIn answer p.tree test] ∧ calls es = [test].filter (handedIn p.tree) ∧
      q.tree = p.tree := by
  obtain ⟨ha, hc, ht⟩ := h.turn p.state p.tree test
  refine ⟨?_, hg.calls_eq.trans hc, ?_⟩
  · unfold reportIn
    cases hi : answerIn answer p.tree test with
    | ok verdict => exact hg.reports_of_ok (ha.trans (congrArg some hi))
    | error failure => exact hg.reports_of_error (ha.trans (congrArg some hi))
  · cases hg with
    | finished verdict _ => exact ht
    | errored failure _ _ => exact ht

theorem not_stops (h : Steady runner answer) {p : Standing σ} {test : TestFile}
    {ending : Ending} : ¬ Stops runner p test ending := by
  obtain ⟨ha, -, -⟩ := h.turn p.state p.tree test
  intro hs
  cases hs with
  | aborted failure hf hfatal =>
    rw [Standing.turn, ha] at hf
    rw [h.not_fatal (Option.some.inj hf)] at hfatal
    cases hfatal
  | unfinished hn =>
    rw [Standing.turn, ha] at hn
    cases hn

/-- **While a session goes on, each test is told, and called, on its own.** -/
theorem passes (h : Steady runner answer) {p q : Standing σ} {tests : List TestFile}
    {es : List Event} (hp : Passes runner .recording p tests es q) :
    reports es = tests.map (reportIn answer p.tree) ∧
      calls es = tests.filter (handedIn p.tree) := by
  induction hp with
  | nil p => exact ⟨rfl, rfl⟩
  | @cons p q r test tests es fs hg hp ih =>
    obtain ⟨hr, hc, ht⟩ := h.goes hg
    rw [ht] at ih
    rw [reports_append, calls_append, hr, hc, ih.1, ih.2, ← List.filter_append]
    exact ⟨rfl, rfl⟩

/-- A session that finds its suite completes. -/
theorem run (h : Steady runner answer) {found : Suite.Discovery}
    (hd : Suite.discover t dir extension = .ok found) (s : σ) :
    let r := run runner .recording dir extension s t
    r.ending = .completed (Tally.ofHistory ((reports r.events).map Report.entry)) ∧
      reports r.events = found.tests.map (reportIn answer t) ∧
      calls r.events = found.tests.filter (handedIn t) := by
  rcases run_cases runner .recording dir extension s t with
    ⟨failure, he, -⟩ | ⟨found', es, q, hd', hp, hr⟩ | ⟨_, _, _, _, _, _, _, -, -, -, hs, -⟩
  · rw [hd] at he
    cases he
  · rw [hd] at hd'
    cases hd'
    have ht : q.tally = Tally.ofHistory ((reports es).map Report.entry) := hp.tally_eq
    obtain ⟨hreports, hcalls⟩ := h.passes hp
    rw [hr]
    simp only [reports_around, calls_around]
    exact ⟨congrArg _ ht, hreports, hcalls⟩
  · exact absurd hs h.not_stops

/-- Each test is told of, by what is read of its file. -/
theorem reportOn_mem (h : Steady runner answer) (hn : Suite.Holds t dir extension n read)
    (s : σ) :
    reportOn answer ⟨dir.join ⟨n⟩⟩ read ∈
      reports (Session.run runner .recording dir extension s t).events := by
  obtain ⟨names, hl, -⟩ := hn.listed
  have hd : Suite.discover t dir extension = _ := Suite.discover_of_list hl
  obtain ⟨-, hr, -⟩ := h.run hd s
  have hmem := (Suite.mem_testNames_iff_holds hl).mpr ⟨read, hn⟩
  rw [hr, ← reportIn_of_holds answer hn, Suite.ofNames_tests (Suite.isName_of_list hl)]
  exact List.mem_map_of_mem (List.mem_map_of_mem hmem)

/-- **Two sessions tell and call alike of the tests that their directories agree on.** -/
theorem filter_congr (h : Steady runner answer) (hl : t.list dir = .ok names)
    (hl' : t'.list dir = .ok names') (p : TestFile → Bool)
    (hp : ∀ n, p ⟨dir.join ⟨n⟩⟩ = true → ∀ read,
      Suite.Holds t dir extension n read ↔ Suite.Holds t' dir extension n read) (s s' : σ) :
    let r := Session.run runner .recording dir extension s t
    let r' := Session.run runner .recording dir extension s' t'
    ((reports r.events).filter fun x => p x.test) = ((reports r'.events).filter fun x => p x.test) ∧
      (calls r.events).filter p = (calls r'.events).filter p := by
  have hd : Suite.discover t dir extension = _ := Suite.discover_of_list hl
  have hd' : Suite.discover t' dir extension = _ := Suite.discover_of_list hl'
  obtain ⟨-, hr, hc⟩ := h.run hd s
  obtain ⟨-, hr', hc'⟩ := h.run hd' s'
  have htests : (Suite.ofNames t dir extension names).tests.filter p =
      (Suite.ofNames t' dir extension names').tests.filter p := by
    rw [Suite.ofNames_tests (Suite.isName_of_list hl),
      Suite.ofNames_tests (Suite.isName_of_list hl'), List.filter_map, List.filter_map]
    exact congrArg _ (Suite.filter_testNames_congr hl hl' _ hp)
  -- what is seen of such a test is what is read of its file
  have hsame : ∀ test ∈ (Suite.ofNames t dir extension names).tests.filter p,
      test.optsOut t = test.optsOut t' := by
    intro test htest
    obtain ⟨hmem, hptest⟩ := List.mem_filter.mp htest
    rw [Suite.ofNames_tests (Suite.isName_of_list hl)] at hmem
    obtain ⟨n, hn, rfl⟩ := List.mem_map.mp hmem
    obtain ⟨read, hholds⟩ := (Suite.mem_testNames_iff_holds hl).mp hn
    exact hholds.optsOut_congr ((hp n hptest read).mp hholds)
  simp only [hr, hr', hc, hc']
  constructor
  · rw [List.filter_map, List.filter_map]
    simp only [Function.comp_def, test_reportIn]
    rw [← htests]
    refine List.map_congr_left fun test htest => ?_
    unfold reportIn answerIn
    rw [hsame test htest]
  · rw [List.filter_filter, List.filter_filter]
    simp only [Bool.and_comm (p _)]
    rw [← List.filter_filter, ← List.filter_filter, ← htests]
    refine List.filter_congr fun test htest => ?_
    unfold handedIn
    rw [hsame test htest]

end Steady

/-! ## Two sessions side by side -/

/-- Reports are counted in two parts. -/
theorem count_entry_filter (rs : List Report) (p : Report → Bool) (x : Tally.Entry) :
    (rs.map Report.entry).count x =
      ((rs.filter fun r => !p r).map Report.entry).count x +
        ((rs.filter p).map Report.entry).count x := by
  have hperm : (rs.filter p ++ rs.filter fun r => !p r).Perm rs := List.filter_append_perm p rs
  rw [← (hperm.map Report.entry).count_eq, List.map_append, List.count_append, Nat.add_comm]

/-- No path is told twice. -/
theorem length_filter_path {rs : List Report} {found : Suite.Discovery}
    (hd : Suite.discover t dir extension = .ok found) (hrs : rs.map Report.test = found.tests)
    (p : Path) : (rs.filter fun x => x.test.path == p).length ≤ 1 := by
  have hnodup : (found.tests.map TestFile.path).Nodup := by
    have hcomponents := Suite.tests_components_nodup hd
    refine List.Pairwise.map _ ?_ (List.pairwise_map.mp hcomponents)
    exact fun a b hab hpath => hab (congrArg Path.components hpath)
  rw [← hrs, List.map_map] at hnodup
  have hcount := List.nodup_iff_count_le_one.mp hnodup p
  rw [List.count, List.countP_map, List.countP_eq_length_filter] at hcount
  exact hcount

/-- **Tests on their own.** Take two trees, listed in whatever order, that agree on all that a
session sees of `dir`, except under the name `f`: any other name is a test in both, of whose file
the same is read, links followed, or in neither. Under `f` there may be anything or nothing in
either. With a runner that leaves the tree alone and answers by the path of a test, never with a
fatal failure, both sessions complete, and tell of each test by what is read of its file: a file
that cannot be read is told with the reason. Reports and calls are the same ones in the same order,
those of `f` left out; `f` has at most one report in each, and the five counts differ by what that
one counts. If the trees agree on `f` too, nothing differs. -/
theorem isolation_exact (h : Steady runner answer) (dir : Path) (extension : String)
    (hl : t.list dir = .ok names) (hl' : t'.list dir = .ok names') (f : Name)
    (hagree : ∀ n, n ≠ f → ∀ read,
      Suite.Holds t dir extension n read ↔ Suite.Holds t' dir extension n read) (s s' : σ) :
    let r := run runner .recording dir extension s t
    let r' := run runner .recording dir extension s' t'
    let own := (reports r.events).filter fun x => x.test.path == dir.join ⟨f⟩
    let own' := (reports r'.events).filter fun x => x.test.path == dir.join ⟨f⟩
    ∃ tally tally', r.ending = .completed tally ∧ r'.ending = .completed tally' ∧
      (∀ n read, Suite.Holds t dir extension n read →
        reportOn answer ⟨dir.join ⟨n⟩⟩ read ∈ reports r.events) ∧
      (∀ n read, Suite.Holds t' dir extension n read →
        reportOn answer ⟨dir.join ⟨n⟩⟩ read ∈ reports r'.events) ∧
      ((reports r.events).filter fun x => !(x.test.path == dir.join ⟨f⟩)) =
        ((reports r'.events).filter fun x => !(x.test.path == dir.join ⟨f⟩)) ∧
      ((calls r.events).filter fun x => !(x.path == dir.join ⟨f⟩)) =
        ((calls r'.events).filter fun x => !(x.path == dir.join ⟨f⟩)) ∧
      own.length ≤ 1 ∧ own'.length ≤ 1 ∧
      (∀ v, tally.count v + (own'.map Report.entry).count (some v) =
        tally'.count v + (own.map Report.entry).count (some v)) ∧
      tally.errored + (own'.map Report.entry).count none =
        tally'.errored + (own.map Report.entry).count none ∧
      ((∀ read, Suite.Holds t dir extension f read ↔ Suite.Holds t' dir extension f read) →
        tally = tally' ∧ reports r.events = reports r'.events ∧
          calls r.events = calls r'.events) := by
  intro r r' own own'
  have hd : Suite.discover t dir extension = _ := Suite.discover_of_list hl
  have hd' : Suite.discover t' dir extension = _ := Suite.discover_of_list hl'
  obtain ⟨he, hr, -⟩ := h.run hd s
  obtain ⟨he', hr', -⟩ := h.run hd' s'
  have htold := (congrArg (List.map Report.test) hr).trans (map_test_reportIn answer t _)
  have htold' := (congrArg (List.map Report.test) hr').trans (map_test_reportIn answer t' _)
  obtain ⟨hreports, hcalls⟩ := h.filter_congr hl hl' (fun x => !(x.path == dir.join ⟨f⟩))
    (fun n hn => hagree n fun hnf => by simp [hnf] at hn) s s'
  -- each count is that of the others, which are the same, and that of `f`
  have hcount : ∀ x : Tally.Entry,
      ((reports r.events).map Report.entry).count x + (own'.map Report.entry).count x =
        ((reports r'.events).map Report.entry).count x + (own.map Report.entry).count x := by
    intro x
    rw [count_entry_filter (reports r.events) (fun x => x.test.path == dir.join ⟨f⟩),
      count_entry_filter (reports r'.events) (fun x => x.test.path == dir.join ⟨f⟩), hreports]
    exact Nat.add_right_comm ..
  refine ⟨_, _, he, he', fun _ _ hn => h.reportOn_mem hn s, fun _ _ hn => h.reportOn_mem hn s',
    hreports, hcalls, length_filter_path hd htold _,
    length_filter_path hd' htold' _, fun v => ?_, ?_, fun hown => ?_⟩
  · rw [Tally.count_ofHistory, Tally.count_ofHistory]
    exact hcount (some v)
  · rw [Tally.errored_ofHistory, Tally.errored_ofHistory]
    exact hcount none
  · obtain ⟨hall, hallCalls⟩ := h.filter_congr hl hl' (fun _ => true) (fun n _ => by
      by_cases hnf : n = f
      · exact hnf ▸ hown
      · exact hagree n hnf) s s'
    rw [List.filter_true, List.filter_true] at hall hallCalls
    exact ⟨congrArg _ (congrArg _ hall), hall, hallCalls⟩

/-- A directory `s` with a file `a.t`, a marked file `b.t`, a link `c.t` to `a.t` and a file `d.t`
that cannot be read. -/
def withFile : Tree where
  home := []
  entries := [([[0x73]], .directory), ([[0x73], [0x61, 0x2E, 0x74]], .file { content := [] }),
    ([[0x73], [0x62, 0x2E, 0x74]], .file { content := Marker.bytes }),
    ([[0x73], [0x63, 0x2E, 0x74]], .link ⟨[0x61, 0x2E, 0x74]⟩),
    ([[0x73], [0x64, 0x2E, 0x74]], .file { content := [], denied? := some .noAccess })]
  nodup := by decide
  named := by decide

/-- The same, listed in another order, with a directory `b.t`. -/
def withDirectory : Tree where
  home := []
  entries := [([[0x73], [0x64, 0x2E, 0x74]], .file { content := [], denied? := some .noAccess }),
    ([[0x73], [0x62, 0x2E, 0x74]], .directory),
    ([[0x73], [0x63, 0x2E, 0x74]], .link ⟨[0x61, 0x2E, 0x74]⟩), ([[0x73]], .directory),
    ([[0x73], [0x61, 0x2E, 0x74]], .file { content := [] })]
  nodup := by decide
  named := by decide

/-- The answers for them: `a.t` fails, and `c.t` is gone when it is run. -/
def byPath (p : Path) : Except Failure Verdict :=
  if p = (ofLetter 0x61).path then .ok .failed else .error (.testUnreadable p .noEntry)

theorem steady_byPath : Steady (Runner.scripted (fun test => byPath test.path) fun _ => [])
    byPath where
  keeps _ _ _ := rfl
  answers _ _ _ := rfl
  mild p failure h := by
    unfold byPath at h
    split at h <;> cases h
    rfl

/-- The marked file is ignored in one session and is not there in the other. In both of them the
file that cannot be read is told as such. -/
theorem isolation_exact_replaced :
    let runner := Runner.scripted (fun test => byPath test.path) fun _ => []
    let r := run runner .recording ⟨[0x73]⟩ ".t" () withFile
    let r' := run runner .recording ⟨[0x73]⟩ ".t" () withDirectory
    r.ending = .completed ⟨0, 1, 0, 1, 2⟩ ∧ r'.ending = .completed ⟨0, 1, 0, 0, 2⟩ ∧
      .errored (ofLetter 0x64) (.testUnreadable (ofLetter 0x64).path .noAccess) ∈
        reports r.events ∧
      ((reports r.events).filter fun x => !(x.test.path == (ofLetter 0x62).path)) =
        ((reports r'.events).filter fun x => !(x.test.path == (ofLetter 0x62).path)) := by
  have hl : withFile.list ⟨[0x73]⟩ =
      .ok [[0x61, 0x2E, 0x74], [0x62, 0x2E, 0x74], [0x63, 0x2E, 0x74], [0x64, 0x2E, 0x74]] := by cbv
  have hl' : withDirectory.list ⟨[0x73]⟩ =
      .ok [[0x64, 0x2E, 0x74], [0x62, 0x2E, 0x74], [0x63, 0x2E, 0x74], [0x61, 0x2E, 0x74]] := by cbv
  have hdenied : Suite.Holds withFile ⟨[0x73]⟩ ".t" [0x64, 0x2E, 0x74] (.error .noAccess) :=
    ⟨⟨_, hl, by decide⟩, by decide, by cbv, by cbv⟩
  obtain ⟨_, _, -, -, htold, -, hreports, -⟩ :=
    isolation_exact steady_byPath ⟨[0x73]⟩ ".t" hl hl' [0x62, 0x2E, 0x74]
      (fun n hn read => Suite.holds_congr hl hl' (by simp only [List.mem_cons]; tauto)
        fun hmem => by
          rcases List.mem_cons.mp hmem with rfl | hmem
          · exact ⟨by cbv, by cbv⟩
          rcases List.mem_cons.mp hmem with rfl | hmem
          · exact absurd rfl hn
          rcases List.mem_cons.mp hmem with rfl | hmem
          · exact ⟨by cbv, by cbv⟩
          cases List.mem_singleton.mp hmem
          exact ⟨by cbv, by cbv⟩) () ()
  exact ⟨by cbv, by cbv, htold _ _ hdenied, hreports⟩

end Session

end SuiteRunner
