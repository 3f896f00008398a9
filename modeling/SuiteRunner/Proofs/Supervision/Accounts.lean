import Mathlib
import SuiteRunner.Proofs.Session.Run
import SuiteRunner.Proofs.Supervision.Turn
import SuiteRunner.Proofs.Supervision.Warnings
import SuiteRunner.Proofs.Tally

/-!
# The warnings of a session

A session that completes leaves an account of each test, in the order of the suite. Its warnings are
those of the accounts, and they tell an operator what became of each test that did not simply end.

* `Accounted`: the three kinds of accounts, of a test that was not read, of one that opted out, and
  of one that was watched over;
* `goes_account`, `passes_accounts`: **each turn leaves one of them**, by the host and the tree that
  the turns before it left behind;
* `Account.Told`: what an account warns of, by how the test came out;
* **`warnings_exact`**: the warnings of a session that completes, test by test, and their number.
-/

namespace SuiteRunner.Supervision

open Session (Standing Goes Passes)
open Watch (Happens Answered QuitsLate follow fresh)

variable {σ : Type} {host : Host σ} {listener : Listener} {s : Settings} {es : List Event}
  {test : TestFile} {p q : Standing (Watched σ)} {now : Watched σ × Tree}

/-! ## Accounts -/

/-- What a session leaves behind of one test. -/
structure Account where
  /-- The test. -/
  test : TestFile
  /-- What it was counted as. -/
  entry : Tally.Entry
  /-- What happened in its turn. -/
  events : List Event

/-- `event` is done to a child. -/
def doneToAny (event : ChildEvent) (es : List Event) : Bool :=
  es.any fun
    | .child _ e => e == event
    | _ => false

theorem doneToAny_iff {event : ChildEvent} :
    doneToAny event es = true ↔ ∃ c, event ∈ doneTo c es := by
  simp only [doneToAny, List.any_eq_true, mem_doneTo]
  constructor
  · rintro ⟨e, he, h⟩
    cases e with
    | child c event' => exact ⟨c, eq_of_beq h ▸ he⟩
    | examined | handed | reported | noted | shown | relayed => cases h
  · rintro ⟨c, h⟩
    exact ⟨_, h, beq_self_eq_true event⟩

/-- The watch over `test` with the settings `s`, on a host that is as `h` says. -/
def taskOf (s : Settings) (h : Watched σ) (test : TestFile) : Task :=
  ⟨s.executable, test, s.timeoutMs.toNat, h.next⟩

/-- The moves that the child of `test` makes when the host and the tree are as `now` says. -/
def movesOf (host : Host σ) (s : Settings) (now : Watched σ × Tree) (test : TestFile) :
    List Move :=
  (host now.1.state now.2 s.executable s.timeoutMs.toNat test).moves

/-- The test of `a` was run when the host and the tree were as `now` says, and the watch over its
child collected `status`. -/
structure Executed (host : Host σ) (listener : Listener) (s : Settings) (now : Watched σ × Tree)
    (a : Account) (status : WaitStatus) : Prop where
  /-- The file could be read, and was not marked. -/
  unmarked : Unmarked now.2 a.test.path
  answered : Answered (taskOf s now.1 a.test) (movesOf host s now a.test) status
  entry_eq : a.entry = some status.verdict
  /-- All that happened is what the watch did, and what was told. -/
  events_eq : a.events = .examined a.test :: .handed a.test ::
    ((follow (taskOf s now.1 a.test) fresh (movesOf host s now a.test)).2 ++
      listener (.finished a.test status.verdict))

/-- The account of a turn that lets a session go on, when the host and the tree were as `now`
says. -/
inductive Accounted (host : Host σ) (listener : Listener) (s : Settings)
    (now : Watched σ × Tree) : Account → Prop
  | unreadable (test : TestFile) (cause : Fault) (h : now.2.read test.path = .error cause) :
      Accounted host listener s now ⟨test, none, .examined test ::
        .noted (.skippedTest test.path (.testUnreadable test.path cause)) ::
          listener (.errored test (.testUnreadable test.path cause))⟩
  | ignored (test : TestFile) (h : OptedOut now.2 test.path) :
      Accounted host listener s now ⟨test, some .ignored,
        .examined test :: listener (.finished test .ignored)⟩
  | executed {a : Account} {status : WaitStatus} (h : Executed host listener s now a status) :
      Accounted host listener s now a

/-! ## Turns -/

/-- A test that is handed over leaves the account of a watch. -/
theorem goes_executed (hu : Unmarked p.tree test.path)
    (h : Goes (runner host s.executable s.timeoutMs.toNat) listener p test es q) :
    ∃ (entry : Tally.Entry) (status : WaitStatus), q.tally = p.tally.add entry ∧
      Executed host listener s (p.state, p.tree) ⟨test, entry, es⟩ status := by
  let k := taskOf s p.state test
  let ms := movesOf host s (p.state, p.tree) test
  have hturn : p.turn (runner host s.executable s.timeoutMs.toNat) test = _ :=
    Session.turn_of_unmarked (runner host s.executable s.timeoutMs.toNat) p.state p.tree test hu
  cases h with
  | finished verdict ha =>
    rw [hturn] at ha ⊢
    have hok : (follow k fresh ms).1.answer? = some (.ok verdict) := ha
    obtain ⟨status, hstatus, rfl⟩ := Watch.answered_of_ok hok
    exact ⟨_, status, rfl, hu, hstatus, rfl, rfl⟩
  | errored failure ha hf =>
    -- what a watch fails with stops the session
    rw [hturn] at ha
    rw [Watch.isFatal_of_stands (Watch.stands_follow k ms) ha] at hf
    cases hf

/-- **A turn that lets a session go on leaves an account.** -/
theorem goes_account (h : Goes (runner host s.executable s.timeoutMs.toNat) listener p test es q) :
    ∃ entry, q.tally = p.tally.add entry ∧
      Accounted host listener s (p.state, p.tree) ⟨test, entry, es⟩ := by
  by_cases hu : Unmarked p.tree test.path
  · obtain ⟨entry, status, htally, hex⟩ := goes_executed hu h
    exact ⟨entry, htally, .executed hex⟩
  · rcases optedOut_or_error_of_not_unmarked hu with ho | ⟨cause, hc⟩
    · have hturn : p.turn (runner host s.executable s.timeoutMs.toNat) test = _ :=
        Session.turn_of_optedOut _ p.state p.tree test ho
      cases h with
      | finished verdict ha =>
        rw [hturn] at ha ⊢
        cases ha
        exact ⟨_, rfl, .ignored test ho⟩
      | errored failure ha hf =>
        rw [hturn] at ha
        cases ha
    · have hturn : p.turn (runner host s.executable s.timeoutMs.toNat) test = _ :=
        Session.turn_of_error _ p.state p.tree test hc
      cases h with
      | finished verdict ha =>
        rw [hturn] at ha
        cases ha
      | errored failure ha hf =>
        rw [hturn] at ha ⊢
        cases ha
        exact ⟨_, rfl, .unreadable test cause hc⟩

/-- **Turns leave one account each, in their order**, each of them by what the turns before it left
behind. -/
theorem passes_accounts {tests : List TestFile}
    (h : Passes (runner host s.executable s.timeoutMs.toNat) listener p tests es q) :
    ∃ as : List Account, as.map Account.test = tests ∧ es = as.flatMap Account.events ∧
      q.tally = (as.map Account.entry).foldl Tally.add p.tally ∧
      Each (fun earlier a => Accounted host listener s
        (Session.afterTurns (runner host s.executable s.timeoutMs.toNat)
          (earlier.map Account.test) p.state p.tree) a) as := by
  induction h with
  | nil p => exact ⟨[], rfl, rfl, rfl, each_nil⟩
  | @cons p q r test tests es fs hg _ ih =>
    obtain ⟨entry, htally, ha⟩ := goes_account hg
    obtain ⟨as, rfl, rfl, hrest, has⟩ := ih
    refine ⟨⟨test, entry, es⟩ :: as, rfl, by rw [List.flatMap_cons], ?_, ?_⟩
    · rw [hrest, htally]
      rfl
    · refine each_cons.mpr ⟨ha, has.imp fun earlier a hacc => ?_⟩
      rw [List.map_cons, hg.afterTurns_cons]
      exact hacc

/-! ## What an account warns of -/

/-- A listener that leaves children and the journal alone. -/
def Aloof (listener : Listener) : Prop := ∀ r, ∀ e ∈ listener r, e.ofWatch = false

theorem Aloof.warnings_eq (hl : Aloof listener) (r : Report) : warnings (listener r) = [] := by
  refine warnings_of_silent fun e he => ?_
  have h := hl r e he
  cases e with
  | noted | relayed | child => cases h
  | examined | handed | reported | shown => rfl

theorem Aloof.doneTo_eq (hl : Aloof listener) (r : Report) (c : Nat) :
    doneTo c (listener r) = [] := by
  rw [doneTo_eq_nil_iff]
  intro event he
  cases hl r _ he

section Executed

variable {a : Account} {status : WaitStatus}

theorem Executed.warnings_eq (hl : Aloof listener)
    (h : Executed host listener s now a status) :
    warnings a.events =
      warnings (follow (taskOf s now.1 a.test) fresh (movesOf host s now a.test)).2 := by
  have hopened : ∀ es : List Event,
      warnings (.examined a.test :: .handed a.test :: es) = warnings es := fun _ => rfl
  rw [h.events_eq, hopened, warnings_append, hl.warnings_eq, List.append_nil]

/-- Something is done to a child in the turn iff it is done to the child of the watch. -/
theorem Executed.doneToAny_iff (hl : Aloof listener)
    (h : Executed host listener s now a status) (event : ChildEvent) :
    doneToAny event a.events = true ↔ event ∈ doneTo now.1.next
      (follow (taskOf s now.1 a.test) fresh (movesOf host s now a.test)).2 := by
  have hdone : ∀ c, doneTo c a.events = doneTo c
      (follow (taskOf s now.1 a.test) fresh (movesOf host s now a.test)).2 := by
    intro c
    have hopened : ∀ es : List Event,
        doneTo c (.examined a.test :: .handed a.test :: es) = doneTo c es := fun _ => rfl
    rw [h.events_eq, hopened, doneTo_append, hl.doneTo_eq, List.append_nil]
  rw [Supervision.doneToAny_iff]
  simp only [hdone]
  constructor
  · rintro ⟨c, hc⟩
    by_cases hk : now.1.next = c
    · exact hk ▸ hc
    · rw [Watch.doneTo_follow_of_ne (taskOf s now.1 a.test) _ hk] at hc
      exact absurd hc List.not_mem_nil
  · exact fun hk => ⟨_, hk⟩

/-- The timer fires in the turn iff it wins the race. -/
theorem Executed.fired_iff (hl : Aloof listener) (h : Executed host listener s now a status) :
    doneToAny .timerFired a.events = true ↔
      Happens (taskOf s now.1 a.test) (movesOf host s now a.test) .ring :=
  (h.doneToAny_iff hl _).trans (Watch.fired_iff_happens (taskOf s now.1 a.test) _)

theorem Executed.killed_iff (hl : Aloof listener) (h : Executed host listener s now a status) :
    doneToAny .killed a.events = doneToAny .timerFired a.events := by
  rw [Bool.eq_iff_iff, h.doneToAny_iff hl, h.doneToAny_iff hl]
  exact h.answered.killed_iff

/-- **The warnings of a test that was run.** -/
theorem Executed.warned (hl : Aloof listener) (h : Executed host listener s now a status) :
    warnings a.events =
      (if doneToAny .timerFired a.events then [.budgetExceeded a.test.path s.timeoutMs.toNat]
        else []) ++
      if status.verdict = .timeout ∧ doneToAny .timerFired a.events = false then
        [.exitedAbnormally a.test.path status] else [] := by
  have hfired : doneToAny .timerFired a.events = decide (.timerFired ∈ doneTo now.1.next
      (follow (taskOf s now.1 a.test) fresh (movesOf host s now a.test)).2) := by
    rw [Bool.eq_iff_iff, h.doneToAny_iff hl, decide_eq_true_iff]
  rw [h.warnings_eq hl, h.answered.warnings_eq, hfired]
  rfl

/-- A test that ended by itself and is warned of did so when its timer had fired. -/
theorem Executed.quit_of_warned (hl : Aloof listener)
    (h : Executed host listener s now a status) (hv : status.verdict ≠ .timeout)
    (hw : warnings a.events ≠ []) :
    doneToAny .timerFired a.events = true ∧
      QuitsLate (taskOf s now.1 a.test) (movesOf host s now a.test) status ∧
      ∀ status', ¬ Happens (taskOf s now.1 a.test) (movesOf host s now a.test)
        (.fall status') := by
  have hfired : doneToAny .timerFired a.events = true := by
    refine by_contra fun hno => hw ?_
    rw [h.warned hl, if_neg hno, if_neg fun hboth => hv hboth.1]
    rfl
  obtain ⟨hquit, hfall⟩ := h.answered.quit_of_ne_timeout hv
  exact ⟨hfired, Watch.quits_late ((h.fired_iff hl).mp hfired) hquit, hfall⟩

end Executed

/-- A test that ended by itself, and whose timer fired all the same. -/
def Account.late (a : Account) : Bool :=
  doneToAny .timerFired a.events && (a.entry == some .success || a.entry == some .failed)

/-- What the account `a` warns of, by how its test came out, when the host and the tree were as
`now` says. -/
structure Account.Told (host : Host σ) (listener : Listener) (s : Settings)
    (now : Watched σ × Tree) (a : Account) : Prop where
  /-- A test that was not read is warned of once. -/
  unreadable : a.entry = none → ∃ cause, now.2.read a.test.path = .error cause ∧
    warnings a.events = [.skippedTest a.test.path (.testUnreadable a.test.path cause)]
  /-- A test that opted out is not warned of. -/
  ignored : a.entry = some .ignored → OptedOut now.2 a.test.path ∧ warnings a.events = []
  /-- A test that was run is warned of if its timer won the race, and if it counts as a timeout
  without that. -/
  executed : ∀ v, a.entry = some v → v ≠ .ignored → ∃ status,
    Executed host listener s now a status ∧ v = status.verdict ∧
    (doneToAny .timerFired a.events = true ↔
      Happens (taskOf s now.1 a.test) (movesOf host s now a.test) .ring) ∧
    warnings a.events =
      (if doneToAny .timerFired a.events then [.budgetExceeded a.test.path s.timeoutMs.toNat]
        else []) ++
      if v = .timeout ∧ doneToAny .timerFired a.events = false then
        [.exitedAbnormally a.test.path status] else []
  /-- A timeout is warned of once, and the warning tells whether a kill was sent. -/
  timeout : a.entry = some .timeout →
    doneToAny .killed a.events = true ∧
      warnings a.events = [.budgetExceeded a.test.path s.timeoutMs.toNat] ∨
    doneToAny .killed a.events = false ∧ ∃ status,
      warnings a.events = [.exitedAbnormally a.test.path status]
  /-- Any other test that was run is warned of only if it ended by itself, after its timer. -/
  ended : ∀ v, a.entry = some v → v = .success ∨ v = .failed → warnings a.events ≠ [] →
    doneToAny .timerFired a.events = true ∧ ∃ status, Executed host listener s now a status ∧
      QuitsLate (taskOf s now.1 a.test) (movesOf host s now a.test) status ∧
      ∀ status', ¬ Happens (taskOf s now.1 a.test) (movesOf host s now a.test) (.fall status')

theorem Accounted.told {a : Account} (hl : Aloof listener)
    (h : Accounted host listener s now a) : a.Told host listener s now := by
  cases h with
  | unreadable test cause hc =>
    refine ⟨fun _ => ⟨cause, hc, ?_⟩, nofun, nofun, nofun, nofun⟩
    have hskip : ∀ es : List Event, warnings (.examined test ::
        .noted (.skippedTest test.path (.testUnreadable test.path cause)) :: es) =
          .skippedTest test.path (.testUnreadable test.path cause) :: warnings es := fun _ => rfl
    rw [hskip, hl.warnings_eq]
  | ignored test ho =>
    have hopened : ∀ es : List Event, warnings (.examined test :: es) = warnings es :=
      fun _ => rfl
    refine ⟨nofun, fun _ => ⟨ho, by rw [hopened, hl.warnings_eq]⟩, ?_, nofun, ?_⟩
    · rintro v ⟨⟩ hv
      exact absurd rfl hv
    · rintro v ⟨⟩ (hv | hv) <;> cases hv
  | @executed _ status h =>
    have hv : ∀ {v}, a.entry = some v → v = status.verdict := by
      intro v hentry
      exact Option.some.inj (hentry.symm.trans h.entry_eq)
    refine ⟨fun hnone => ?_, fun hignored => ?_, fun v hentry _ => ?_, fun htimeout => ?_,
      fun v hentry hv' hw => ?_⟩
    · rw [h.entry_eq] at hnone
      cases hnone
    · exact absurd (hv hignored).symm (WaitStatus.verdict_ne_ignored status)
    · obtain rfl := hv hentry
      exact ⟨status, h, rfl, h.fired_iff hl, h.warned hl⟩
    · have hwarned := h.warned hl
      rw [← hv htimeout] at hwarned
      rw [h.killed_iff hl]
      cases hfired : doneToAny .timerFired a.events with
      | true =>
        rw [hfired] at hwarned
        exact Or.inl ⟨rfl, hwarned⟩
      | false =>
        rw [hfired] at hwarned
        exact Or.inr ⟨rfl, status, hwarned⟩
    · have hne : status.verdict ≠ .timeout := by
        rw [← hv hentry]
        rcases hv' with rfl | rfl <;> decide
      obtain ⟨hfired, hlate, hfall⟩ := h.quit_of_warned hl hne hw
      exact ⟨hfired, status, h, hlate, hfall⟩

/-! ## How many warnings there are -/

/-- **The number of warnings of one test.** -/
theorem Account.Told.length_warnings {a : Account} (h : a.Told host listener s now) :
    (warnings a.events).length =
      [a.entry].count none + [a.entry].count (some .timeout) + [a].countP Account.late := by
  cases he : a.entry with
  | none =>
    obtain ⟨cause, -, hw⟩ := h.unreadable he
    rw [hw]
    simp [Account.late, he]
  | some v =>
    by_cases hv : v = .ignored
    · subst hv
      rw [(h.ignored he).2]
      simp [Account.late, he]
    · obtain ⟨status, -, -, -, hw⟩ := h.executed v he hv
      rw [hw]
      cases hfired : doneToAny .timerFired a.events <;> cases v <;> simp_all [Account.late]

theorem length_flatMap_warnings {as : List Account}
    (h : ∀ a ∈ as, ∃ now, a.Told host listener s now) :
    (as.flatMap fun a => warnings a.events).length =
      (as.map Account.entry).count none + (as.map Account.entry).count (some .timeout) +
        as.countP Account.late := by
  induction as with
  | nil => rfl
  | cons a as ih =>
    obtain ⟨now, hnow⟩ := h a List.mem_cons_self
    have ha := hnow.length_warnings
    have has := ih fun b hb => h b (List.mem_cons_of_mem a hb)
    have hlate : (a :: as).countP Account.late =
        [a].countP Account.late + as.countP Account.late := by
      rw [← List.countP_append, List.singleton_append]
    rw [List.flatMap_cons, List.length_append, ha, has, List.map_cons, hlate,
      Tally.count_cons_add a.entry (as.map Account.entry),
      Tally.count_cons_add a.entry (as.map Account.entry)]
    omega

/-! ## Around the turns -/

/-- No note that is made while a suite is listed is a warning. -/
theorem warnings_notes {t : Tree} {dir : Path} {extension : String} {found : Suite.Discovery}
    (hd : Suite.discover t dir extension = .ok found) :
    warnings (found.notes.map .noted) = [] := by
  have hdebug : ∀ n ∈ found.notes, n.level = .debug := by
    intro n hn
    unfold Suite.discover at hd
    split at hd
    · cases hd
      rcases List.mem_append.mp hn with hn | hn
      · obtain ⟨find, -, hfind⟩ := List.mem_filterMap.mp hn
        cases find <;> cases hfind <;> rfl
      · rw [List.mem_singleton.mp hn]
        rfl
    · cases hd
  rw [warnings, List.filter_eq_nil_iff]
  intro n hn
  obtain ⟨e, he, hnoted⟩ := List.mem_filterMap.mp hn
  obtain ⟨m, hm, rfl⟩ := List.mem_map.mp he
  cases hnoted
  rw [hdebug n hm]
  decide

theorem warnings_flatMap (as : List Account) :
    warnings (as.flatMap Account.events) = as.flatMap fun a => warnings a.events := by
  induction as with
  | nil => rfl
  | cons a as ih => rw [List.flatMap_cons, warnings_append, ih, List.flatMap_cons]

/-- **The warnings of a session that completes** are those of its tests, in the order of the suite,
if the listener leaves children and the journal alone. A test that was not read is warned of once,
and one that opted out not at all. A test that was run is warned of as over its budget iff its timer
won the race, and as ended abnormally iff it counts as a timeout and its timer did not win. So each
timeout has one warning, which tells whether a kill was sent; any other test that was run has one
only if it ended by itself, and its timer had fired before. What is said of a test is said of the
host and the tree as the turns before it left them. The number of warnings is that of the tests that
were not read, of the timeouts, and of the others whose timer fired. -/
theorem warnings_exact (host : Host σ) (hl : Aloof listener) (s : Settings) (h : Watched σ)
    (t : Tree) {tally : Tally} (hdone : (session host listener s h t).ending = .completed tally) :
    let events := (session host listener s h t).events
    ∃ (found : Suite.Discovery) (as : List Account),
      Suite.discover t s.suiteDir s.extension = .ok found ∧ as.map Account.test = found.tests ∧
      tally = Tally.ofHistory (as.map Account.entry) ∧
      events = found.notes.map .noted ++ as.flatMap Account.events ++
        Session.closing (.completed tally) ∧
      warnings events = (as.flatMap fun a => warnings a.events) ∧
      Each (fun earlier a => a.Told host listener s
        (Session.afterTurns (runner host s.executable s.timeoutMs.toNat)
          (earlier.map Account.test) h t)) as ∧
      (warnings events).length = tally.errored + tally.timeout + as.countP Account.late := by
  intro events
  obtain ⟨found, es, q, hd, hp, rfl, hes⟩ := Session.passes_of_completed hdone
  obtain ⟨as, htests, rfl, htally, has⟩ := passes_accounts hp
  have htold := has.imp fun _ _ hacc => hacc.told hl
  have hevents : events = found.notes.map .noted ++ as.flatMap Account.events ++
      Session.closing (.completed q.tally) := hes
  have hwarnings : warnings events = as.flatMap fun a => warnings a.events := by
    rw [hevents, warnings_append, warnings_append, warnings_notes hd, warnings_flatMap]
    exact List.append_nil _
  refine ⟨found, as, hd, htests, htally, hevents, hwarnings, htold, ?_⟩
  have hsome : ∀ a ∈ as, ∃ now, a.Told host listener s now := by
    intro a ha
    obtain ⟨earlier, later, hsplit⟩ := List.append_of_mem ha
    exact ⟨_, htold earlier a later hsplit⟩
  have htimeout : q.tally.timeout = q.tally.count .timeout := rfl
  rw [hwarnings, length_flatMap_warnings hsome, htimeout, htally]
  exact congrArg (· + _) (congrArg₂ (· + ·) (Tally.errored_ofHistory _).symm
    (Tally.count_ofHistory _ _).symm)

/-- The first child ends by itself after it was sent a kill, the second one is killed, and the third
one exits with a code that no test has. While it runs, the fourth test is removed. -/
def chequered : Host Unit := fun s t _ _ test =>
  if test == Session.ofLetter 0x61 then
    ⟨[.start none, .ring, .kill none, .quit (.exit 1), .collect none], s, t⟩
  else if test == Session.ofLetter 0x62 then
    ⟨[.start none, .ring, .kill none, .fall .killed, .collect none], s, t⟩
  else
    ⟨[.start none, .quit (.exit 3), .collect none], s,
      Edit.applyAll t [.remove (Session.ofLetter 0x64).path]⟩

/-- Settings for the four tests. -/
def chequeredSettings : Settings := { suiteDir := ⟨[0x73]⟩, extension := ".t" }

/-- The session over the four tests on this host. -/
def chequeredSession : Session.Record (Watched Unit) :=
  session chequered .recording chequeredSettings ⟨0, ()⟩ Session.fourTests

/-- There are four warnings, and one of them is of a test that was not killed: its child ended after
the timer had fired. -/
theorem warnings_exact_chequered :
    let r := chequeredSession
    r.ending = .completed ⟨0, 1, 2, 0, 1⟩ ∧ (warnings r.events).length = 4 ∧
      ∃ as : List Account,
        as.map Account.test = [0x61, 0x62, 0x63, 0x64].map Session.ofLetter ∧
        warnings r.events = (as.flatMap fun a => warnings a.events) ∧
        as.countP Account.late = 1 ∧ ∃ a ∈ as, ∃ now status,
          Executed chequered .recording chequeredSettings now a status ∧
            QuitsLate (taskOf chequeredSettings now.1 a.test)
              (movesOf chequered chequeredSettings now a.test) status := by
  intro r
  have hl : Aloof Listener.recording := by
    intro report e he
    rw [List.mem_singleton.mp he]
    rfl
  have hdone : chequeredSession.ending = .completed ⟨0, 1, 2, 0, 1⟩ := by cbv
  have hlength : (warnings chequeredSession.events).length = 4 := by cbv
  have htests : Suite.testsIn Session.fourTests chequeredSettings.suiteDir
      chequeredSettings.extension = [0x61, 0x62, 0x63, 0x64].map Session.ofLetter := by cbv
  obtain ⟨found, as, hd, has, -, -, hwarnings, htold, hcount⟩ :=
    warnings_exact chequered hl _ ⟨0, ()⟩ Session.fourTests hdone
  have hsum : 4 = 1 + 2 + as.countP Account.late := hlength.symm.trans hcount
  have hone : as.countP Account.late = 1 := by omega
  refine ⟨hdone, hlength, as, ?_, hwarnings, hone, ?_⟩
  · rw [has, ← htests, Suite.testsIn_of_ok hd]
  · have hpos : 0 < as.countP Account.late := by omega
    obtain ⟨a, ha, hlate⟩ := List.countP_pos_iff.mp hpos
    obtain ⟨hfired, hentry⟩ := Bool.and_eq_true_iff.mp hlate
    obtain ⟨v, hv, hended⟩ : ∃ v, a.entry = some v ∧ (v = .success ∨ v = .failed) := by
      rcases Bool.or_eq_true_iff.mp hentry with h | h
      · exact ⟨_, eq_of_beq h, Or.inl rfl⟩
      · exact ⟨_, eq_of_beq h, Or.inr rfl⟩
    have hrun : v ≠ .ignored := by
      rcases hended with rfl | rfl <;> decide
    obtain ⟨earlier, later, hsplit⟩ := List.append_of_mem ha
    have hnow := htold earlier a later hsplit
    obtain ⟨_, -, -, -, hwarned⟩ := hnow.executed v hv hrun
    have hne : warnings a.events ≠ [] := by
      rw [hwarned, if_pos hfired]
      exact List.cons_ne_nil _ _
    obtain ⟨-, status, hex, hquits, -⟩ := hnow.ended v hv hended hne
    exact ⟨a, ha, _, status, hex, hquits⟩

end SuiteRunner.Supervision
