import Mathlib
import SuiteRunner.Proofs.CommandLine.Lines
import SuiteRunner.Proofs.Session.Run
import SuiteRunner.Proofs.Settings
import SuiteRunner.Proofs.Supervision.Turn
import SuiteRunner.Proofs.Supervision.Verdict

/-!
# Listings and runs

A listing looks at every test of a suite, and a run looks at each one when its turn comes. As long
as the children leave the tree alone, they see the same.

* `Report.Fits`: what a report says of the file of its test;
* `Tells`: what one turn under supervision shows, starts and counts, by its report (`goes_tells`);
  `passes_tells` is the same for turns one after another;
* `listText_of_marks`: a listing, by the reports of a run;
* `run_of_listing_error`, `told_of_completed`: a run where the listing fails, and where it does not;
* **`list_agrees_with_run`**: a listing fails as a run does, and marks every test as the run
  reports it.
-/

namespace SuiteRunner

/-- The test of a report opts out. -/
def Report.isIgnored (r : Report) : Bool := match r.mark with | .ok b => b | .error _ => false

/-- The test of a report was run. -/
def Report.isActive (r : Report) : Bool := match r.mark with | .ok b => !b | .error _ => false

theorem Report.isIgnored_eq (r : Report) : r.isIgnored = (r.entry == some .ignored) := by
  cases r with
  | finished test verdict => cases verdict <;> rfl
  | errored test failure => rfl

theorem Report.of_verdict_ne_ignored {test : TestFile} {v : Verdict} (h : v ≠ .ignored) :
    (finished test v).mark = .ok false := by
  cases v with
  | success | failed | timeout => rfl
  | ignored => exact absurd rfl h

/-- What a report of a run says is true of the file of its test in `t`. -/
inductive Report.Fits (t : Tree) : Report → Prop
  /-- The file is marked. -/
  | ignored {test : TestFile} (h : OptedOut t test.path) : Fits t (.finished test .ignored)
  /-- The file can be read and is not marked. -/
  | active {test : TestFile} {verdict : Verdict} (hv : verdict ≠ .ignored)
      (h : Unmarked t test.path) : Fits t (.finished test verdict)
  /-- The file cannot be read, and the message says why. -/
  | unreadable {test : TestFile} {cause : Fault} {failure : Failure}
      (h : t.read test.path = .error cause)
      (hm : failure.message = "cannot read test file " ++ test.display ++ ": " ++ cause.text) :
      Fits t (.errored test failure)

/-- A report that goes with the mark of a listing is right about the file. -/
theorem Report.fits_of_mark {t : Tree} {r : Report} (h : r.test.optsOut t = r.mark) :
    r.Fits t := by
  rw [TestFile.optsOut_eq] at h
  cases r with
  | finished test verdict =>
    cases hr : t.read test.path with
    | error cause =>
      rw [show (finished test verdict).test = test from rfl, hr] at h
      cases verdict <;> cases h
    | ok content =>
      rw [show (finished test verdict).test = test from rfl, hr] at h
      have hm : decide (Marker.Marked content) = (verdict == .ignored) := by
        cases verdict <;> exact Except.ok.inj h
      by_cases hv : verdict = .ignored
      · subst hv
        exact .ignored ⟨content, hr, of_decide_eq_true hm⟩
      · rw [beq_eq_false_iff_ne.mpr hv] at hm
        exact .active hv ⟨content, hr, of_decide_eq_false hm⟩
  | errored test failure =>
    cases hr : t.read test.path with
    | error cause =>
      rw [show (errored test failure).test = test from rfl, hr] at h
      cases h
      exact .unreadable hr rfl
    | ok content =>
      rw [show (errored test failure).test = test from rfl, hr] at h
      cases h

/-! ## What a run shows and starts -/

/-- The text that the run itself prints. -/
def Event.shown? : Event → Option String
  | shown text => some text
  | _ => none

/-- A test is handed to the runner, or a child is started. -/
def Event.isStart : Event → Bool
  | handed _ | child _ .spawned => true
  | _ => false

/-- The texts that a run itself prints, in order. -/
def shown (es : List Event) : List String := es.filterMap Event.shown?

/-- What a run starts, in order. -/
def starts (es : List Event) : List Event := es.filter Event.isStart

theorem shown_append (as bs : List Event) : shown (as ++ bs) = shown as ++ shown bs :=
  List.filterMap_append

theorem starts_append (as bs : List Event) : starts (as ++ bs) = starts as ++ starts bs :=
  List.filter_append ..

/-- A watch shows nothing. -/
theorem shown_of_ofWatch {es : List Event} (h : ∀ e ∈ es, e.ofWatch = true) : shown es = [] := by
  refine List.filterMap_eq_nil_iff.mpr fun e he => ?_
  have hw := h e he
  cases e with
  | noted | relayed | child => rfl
  | examined | handed | reported | shown => cases hw

/-- What is done to one child starts it and nothing else. -/
theorem starts_of_ofWatch {es : List Event} {c : Nat} (h : ∀ e ∈ es, e.ofWatch = true)
    (ho : ∀ d, c ≠ d → doneTo d es = []) :
    starts es = ((doneTo c es).filter (· == .spawned)).map (.child c) := by
  induction es with
  | nil => rfl
  | cons e es ih =>
    have hes := ih (fun x hx => h x (List.mem_cons_of_mem e hx)) fun d hd => by
      have hnone := ho d hd
      rw [doneTo_cons] at hnone
      exact (List.append_eq_nil_iff.mp hnone).2
    rw [doneTo_cons, List.filter_append, List.map_append, ← hes]
    have hw := h e List.mem_cons_self
    cases e with
    | noted | relayed => rfl
    | child d event =>
      obtain rfl : c = d := by
        refine Classical.byContradiction fun hd => ?_
        exact doneTo_eq_nil_iff.mp (ho d hd) event List.mem_cons_self
      rw [Event.doneTo?, if_pos rfl]
      cases event <;> rfl
    | examined | handed | reported | shown => cases hw

/-! ## Turns under supervision -/

namespace Supervision

open Session (Standing Goes Passes)
open Watch (Stands)

variable {σ : Type} {host : Host σ} {executable : Path} {budgetMs : Nat} {color : Bool}
  {t : Tree} {p q : Standing (Watched σ)} {test : TestFile} {tests : List TestFile}
  {es : List Event} {s : Watched σ}

/-- A child that was collected was started once. -/
theorem Watch.Stands.spawned_once {k : Task} {w : Watch} {past : List ChildEvent}
    (h : Stands k w past) {v : Verdict} (ha : w.answer? = some (.ok v)) :
    past.filter (· == .spawned) = [.spawned] := by
  cases h <;> cases ha <;> simp

/-- A supervised runner that answers with a verdict has run the test, in one child. -/
theorem runner_of_ok {v : Verdict}
    (ha : (runner host executable budgetMs s t test).answer? = some (.ok v)) :
    let r := runner host executable budgetMs s t test
    v ≠ .ignored ∧ shown r.events = [] ∧ starts r.events = [.child s.next .spawned] ∧
      r.state.next = s.next + 1 := by
  intro r
  obtain ⟨k, w, hw, hanswer, hnext, hother⟩ :=
    runner_stands host executable budgetMs s t test
  have hok : w.answer? = some (.ok v) := hanswer.symm.trans ha
  have hwatch : ∀ e ∈ r.events, e.ofWatch = true := Watch.follow_ofWatch _ _ _
  obtain ⟨status, -, -, rfl⟩ := hw.collected_of_ok hok
  refine ⟨WaitStatus.verdict_ne_ignored status, shown_of_ofWatch hwatch, ?_, ?_⟩
  · rw [starts_of_ofWatch hwatch hother, hw.spawned_once hok]
    rfl
  · rw [hnext, Watch.isSome_child_of_ok hw hok, if_pos rfl]

/-- The turn of a test at `p` leads to `q`, and `report` is what it tells, shows, starts and
counts. -/
structure Tells (color : Bool) (t : Tree) (p q : Standing (Watched σ)) (es : List Event)
    (report : Report) : Prop where
  /-- A listing marks the test in the same way. -/
  mark : report.test.optsOut t = report.mark
  /-- The report is counted. -/
  tally : q.tally = p.tally.add report.entry
  /-- Its status line is shown. -/
  shown : shown es = [Console.statusLine color report]
  /-- One child is started if the test is run, and else none. -/
  starts : starts es =
    if report.isActive then [.handed report.test, .child p.state.next .spawned] else []
  /-- The next child has the next number. -/
  next : q.state.next = p.state.next + if report.isActive then 1 else 0
  /-- The tree is as it was. -/
  tree : q.tree = t

/-- A test that opts out or cannot be read is told without being run. -/
theorem tells_of_inactive (hne : test.optsOut p.tree ≠ .ok false)
    (hg : Goes (runner host executable budgetMs) (Console.listener color) p test es q) :
    ∃ report : Report, report.test = test ∧ Tells color p.tree p q es report := by
  have hturn : p.turn (runner host executable budgetMs) test =
      ⟨some ((test.optsOut p.tree).map fun _ => .ignored), [.examined test], p.state, p.tree⟩ :=
    Session.turn_of_inactive _ _ _ _ hne
  cases ho : test.optsOut p.tree with
  | error failure =>
    rw [ho] at hturn
    cases hg with
    | finished verdict ha =>
      rw [hturn] at ha
      cases ha
    | errored failure' ha hf =>
      rw [hturn] at ha ⊢
      cases ha
      exact ⟨.errored test failure, rfl, ho, rfl, rfl, rfl, rfl, rfl⟩
  | ok optsOut =>
    rw [ho] at hturn
    cases hg with
    | finished verdict ha =>
      rw [hturn] at ha ⊢
      cases ha
      obtain rfl : optsOut = true := by
        cases optsOut with
        | true => rfl
        | false => exact absurd ho hne
      exact ⟨.finished test .ignored, rfl, ho, rfl, rfl, rfl, rfl, rfl⟩
    | errored failure' ha hf =>
      rw [hturn] at ha
      cases ha

/-- A test that is run is told with the verdict of its child. -/
theorem tells_of_active (hkeep : (host p.state.state p.tree executable budgetMs test).tree = p.tree)
    (ho : test.optsOut p.tree = .ok false)
    (hg : Goes (runner host executable budgetMs) (Console.listener color) p test es q) :
    ∃ report : Report, report.test = test ∧ Tells color p.tree p q es report := by
  have hturn : p.turn (runner host executable budgetMs) test = _ :=
    Session.turn_of_active _ _ _ _ ho
  cases hg with
  | finished verdict ha =>
    rw [hturn] at ha ⊢
    obtain ⟨hne, hshown, hstarts, hnext⟩ := runner_of_ok ha
    have hmark : (Report.finished test verdict).mark = .ok false :=
      Report.of_verdict_ne_ignored hne
    have hactive : (Report.finished test verdict).isActive = true := by
      unfold Report.isActive
      rw [hmark]
      rfl
    refine ⟨.finished test verdict, rfl, ho.trans hmark.symm, rfl, ?_, ?_, ?_, hkeep⟩
    · rw [shown_append]
      exact congrArg (· ++ [_]) hshown
    · rw [hactive, if_pos rfl, starts_append]
      exact congrArg (fun l => .handed test :: (l ++ [])) hstarts
    · rw [hactive, if_pos rfl]
      exact hnext
  | errored failure ha hf =>
    -- what a watch answers without a verdict would have stopped the run
    rw [hturn] at ha
    obtain ⟨k, w, hw, hanswer, -⟩ := runner_stands host executable budgetMs p.state p.tree test
    rw [Watch.isFatal_of_stands hw (hanswer.symm.trans ha)] at hf
    cases hf

/-- **A turn that lets the session go on tells what a listing says of the test.** -/
theorem goes_tells (hkeep : ∀ s test, (host s t executable budgetMs test).tree = t)
    (hp : p.tree = t)
    (hg : Goes (runner host executable budgetMs) (Console.listener color) p test es q) :
    ∃ report : Report, report.test = test ∧ Tells color t p q es report := by
  subst hp
  by_cases ho : test.optsOut p.tree = .ok false
  · exact tells_of_active (hkeep _ _) ho hg
  · exact tells_of_inactive ho hg

/-- **Turns one after another tell what a listing says**, and start one child for each test that is
run. -/
theorem passes_tells (hkeep : ∀ s test, (host s t executable budgetMs test).tree = t)
    (hp : p.tree = t)
    (h : Passes (runner host executable budgetMs) (Console.listener color) p tests es q) :
    ∃ told : List Report, told.map Report.test = tests ∧
      (∀ report ∈ told, report.test.optsOut t = report.mark) ∧
      q.tally = (told.map Report.entry).foldl Tally.add p.tally ∧
      shown es = told.map (Console.statusLine color) ∧
      starts es = ((told.filter Report.isActive).zipIdx p.state.next).flatMap
        fun x => [.handed x.1.test, .child x.2 .spawned] := by
  induction h with
  | nil p => exact ⟨[], rfl, fun report hr => absurd hr List.not_mem_nil, rfl, rfl, rfl⟩
  | cons hg _ ih =>
    obtain ⟨report, rfl, htells⟩ := goes_tells hkeep hp hg
    obtain ⟨told, htests, hmarks, htally, hshown, hstarts⟩ := ih htells.tree
    refine ⟨report :: told, congrArg (report.test :: ·) htests, ?_, ?_, ?_, ?_⟩
    · exact List.forall_mem_cons.mpr ⟨htells.mark, hmarks⟩
    · rw [htally, htells.tally]
      rfl
    · rw [shown_append, htells.shown, hshown]
      rfl
    · rw [starts_append, htells.starts, hstarts, htells.next, List.filter_cons]
      split
      · rw [List.zipIdx_cons, List.flatMap_cons]
      · rw [Nat.add_zero, List.nil_append]

end Supervision

namespace CommandLine

variable {σ : Type} {color : Bool} {t : Tree} {o : Options} {s : Settings} {told : List Report}

/-! ## What a listing prints -/

/-- **The listing of tests that are marked as they were reported.** -/
theorem listText_of_marks (color : Bool) (s : Settings)
    (h : ∀ report ∈ told, report.test.optsOut t = report.mark) :
    listText color t s (told.map Report.test) =
      if told = [] then Console.emptyText color s.extension s.suiteDir
      else
        String.join (told.map (Console.markText color)) ++
          Console.endText color told.length (told.countP Report.isIgnored) := by
  have hentries : listEntries color t (told.map Report.test) =
      told.map fun report => (Console.markText color report, report.isIgnored) := by
    unfold listEntries
    rw [List.map_map]
    refine List.map_congr_left fun report hr => ?_
    rw [Function.comp_apply, h report hr, ← Console.listLine_eq]
    rfl
  have hempty : (told.map Report.test).isEmpty = true ↔ told = [] := by
    rw [List.isEmpty_iff, List.map_eq_nil_iff]
  unfold listText
  simp only [hentries, hempty, List.map_map, List.countP_map, List.length_map,
    Console.listEnd_eq, Console.emptyList_eq]
  rfl

theorem listing_eq (color : Bool) {found : Suite.Discovery} (hs : settingsFor t o = .ok s)
    (hd : Suite.discover t s.suiteDir s.extension = .ok found) :
    listing color t o = .ok (listText color t s found.tests) := by
  unfold listing
  rw [hs]
  show (Suite.discover t s.suiteDir s.extension >>= _) = _
  rw [hd]
  rfl

theorem listing_of_ok {text : String} (h : listing color t o = .ok text) :
    ∃ s found, settingsFor t o = .ok s ∧ Suite.discover t s.suiteDir s.extension = .ok found ∧
      text = listText color t s found.tests := by
  obtain ⟨s, hs, h⟩ := bind_eq_ok_iff.mp h
  obtain ⟨found, hd, h⟩ := bind_eq_ok_iff.mp h
  exact ⟨s, found, hs, hd, (Except.ok.inj h).symm⟩

theorem listing_of_error {failure : Failure} (h : listing color t o = .error failure) :
    settingsFor t o = .error failure ∨
      ∃ s, settingsFor t o = .ok s ∧
        Suite.discover t s.suiteDir s.extension = .error failure := by
  rcases bind_eq_error_iff.mp h with hs | ⟨s, hs, h⟩
  · exact Or.inl hs
  · rcases bind_eq_error_iff.mp h with hd | ⟨found, -, h⟩
    · exact Or.inr ⟨s, hs, hd⟩
    · cases h

/-! ## Agreement -/

/-- A tally counts what was told. -/
theorem counts_ofHistory {tally : Tally} (h : tally = Tally.ofHistory (told.map Report.entry)) :
    tally.total = told.length ∧ tally.ignored = told.countP Report.isIgnored := by
  subst h
  refine ⟨by rw [Tally.total_ofHistory, List.length_map], ?_⟩
  show (Tally.ofHistory (told.map Report.entry)).count .ignored = _
  rw [Tally.count_ofHistory, List.count, List.countP_map]
  exact List.countP_congr fun report _ => by rw [Report.isIgnored_eq]; rfl

theorem shown_noted (notes : List Note) : shown (notes.map .noted) = [] := by
  refine List.filterMap_eq_nil_iff.mpr fun e he => ?_
  obtain ⟨note, -, rfl⟩ := List.mem_map.mp he
  rfl

theorem starts_noted (notes : List Note) : starts (notes.map .noted) = [] := by
  refine List.filter_eq_nil_iff.mpr fun e he => ?_
  obtain ⟨note, -, rfl⟩ := List.mem_map.mp he
  exact Bool.false_ne_true

section Agreement

variable (host : Supervision.Host σ) (state : σ) (exe? : Option Path) {ms? : Option UInt64}

/-- **A run fails as the listing does**, and nothing happens in it. -/
theorem run_of_listing_error (hms : ms? ≠ some 0) {failure : Failure}
    (h : listing color t o = .error failure) :
    let o' : Options := { o with exe? := exe?, timeoutMs? := ms? }
    run host state color t o' = some (.ofFailure color failure [] []) ∧
      ∀ s, runSettings t o' = .ok s →
        (Supervision.session host (Console.listener color) s ⟨0, state⟩ t).events = [] := by
  intro o'
  unfold run
  rcases listing_of_error h with hs | ⟨s₀, hs, hd⟩
  · have hrun : runSettings t o' = .error failure := runSettings_of_error exe? hms hs
    rw [hrun]
    exact ⟨rfl, nofun⟩
  · obtain ⟨s, hrun, hdir, hext⟩ := runSettings_of_ok exe? hms hs
    rw [← hdir, ← hext] at hd
    have hrecord : Supervision.session host (Console.listener color) s ⟨0, state⟩ t =
        ⟨.aborted failure, [], ⟨0, state⟩, t⟩ := Session.run_of_error hd
    rw [hrun]
    constructor
    · show ofRecord color _ = _
      rw [hrecord]
      rfl
    · rintro s' ⟨⟩
      rw [hrecord]

/-- **What a run that completes reports, a listing has a line for.** -/
theorem told_of_completed {s₀ : Settings} {found : Suite.Discovery} {tally : Tally}
    (hdir : s.suiteDir = s₀.suiteDir) (hext : s.extension = s₀.extension)
    (hd : Suite.discover t s.suiteDir s.extension = .ok found)
    (hkeep : ∀ st test, (host st t s.executable s.timeoutMs.toNat test).tree = t)
    (hend : (Supervision.session host (Console.listener color) s ⟨0, state⟩ t).ending =
      .completed tally) :
    let events := (Supervision.session host (Console.listener color) s ⟨0, state⟩ t).events
    ∃ told : List Report, told.map Report.test = found.tests ∧ (∀ report ∈ told, report.Fits t) ∧
      listText color t s₀ found.tests =
        (if told = [] then Console.emptyText color s.extension s.suiteDir
        else
          String.join (told.map (Console.markText color)) ++
            Console.endText color tally.total tally.ignored) ∧
      shown events = told.map (Console.statusText color) ∧
      starts events = (told.filter Report.isActive).zipIdx.flatMap
        (fun x => [.handed x.1.test, .child x.2 .spawned]) ∧
      tally.total = told.length ∧ tally.ignored = told.countP Report.isIgnored := by
  intro events
  obtain ⟨found', es, q, hd', hp, rfl, hes⟩ := Session.passes_of_completed hend
  obtain rfl : found = found' := Except.ok.inj (hd.symm.trans hd')
  have hevents : events = _ := hes
  obtain ⟨told, htests, hmarks, htally, hshown, hstarts⟩ := Supervision.passes_tells hkeep rfl hp
  obtain ⟨htotal, hignored⟩ := counts_ofHistory htally
  refine ⟨told, htests, fun report hr => Report.fits_of_mark (hmarks report hr), ?_, ?_, ?_,
    htotal, hignored⟩
  · rw [← htests, listText_of_marks color s₀ hmarks, htotal, hignored, hdir, hext]
  · rw [hevents, shown_append, shown_append, shown_noted, hshown, ← Console.statusLines_eq]
    exact List.append_nil _
  · rw [hevents, starts_append, starts_append, starts_noted, hstarts]
    exact List.append_nil _

end Agreement

/-- **A listing and a run agree.** The run has the options of the listing, and may be given another
executable and another budget that is not nothing. If the listing fails, then the run fails in the
same way, and nothing happens in it. If it does not, and the children of a run that completes leave
the tree alone, then both go through the same tests in the same order, and what the run reports of
each fits its file. The listing has a line for each report, with the path and the mark that go with
it, and counts what the tally counts; the run has a status line for each. A path that is a text is
shown as it is. The run hands over the tests that are marked as active, one after another, and
starts one child for each, and starts nothing else. -/
theorem list_agrees_with_run (host : Supervision.Host σ) (state : σ) (color : Bool) (t : Tree)
    (o : Options) (exe? : Option Path) {ms? : Option UInt64} (hms : ms? ≠ some 0) :
    let o' : Options := { o with exe? := exe?, timeoutMs? := ms? }
    let record := fun s => Supervision.session host (Console.listener color) s ⟨0, state⟩ t
    (∀ failure, listing color t o = .error failure →
      let response : Response := ⟨1, [], Bytes.ofString (Console.failureText color failure)⟩
      list color t o = response ∧ run host state color t o' = some response ∧
      (Console.errorText failure).toList <:+: (Console.failureText color failure).toList ∧
      ∀ s, runSettings t o' = .ok s → (record s).events = []) ∧
    ∀ text, listing color t o = .ok text →
      list color t o = ⟨0, Bytes.ofString text, []⟩ ∧
      ∃ s found, runSettings t o' = .ok s ∧
        Suite.discover t s.suiteDir s.extension = .ok found ∧
        run host state color t o' = ofRecord color (record s) ∧
        ((∀ st test, (host st t s.executable s.timeoutMs.toNat test).tree = t) →
          ∀ tally, (record s).ending = .completed tally → ∃ told : List Report,
            told.map Report.test = found.tests ∧
            (∀ report ∈ told, report.Fits t) ∧
            (∀ report ∈ told, ∀ name, report.test.path = .ofString name →
              report.test.display = name) ∧
            text = (if told = [] then Console.emptyText color s.extension s.suiteDir
              else
                String.join (told.map (Console.markText color)) ++
                  Console.endText color tally.total tally.ignored) ∧
            shown (record s).events = told.map (Console.statusText color) ∧
            starts (record s).events = (told.filter Report.isActive).zipIdx.flatMap
              (fun x => [.handed x.1.test, .child x.2 .spawned]) ∧
            tally.total = told.length ∧ tally.ignored = told.countP Report.isIgnored) := by
  intro o' record
  refine ⟨fun failure h => ?_, fun text h => ⟨?_, ?_⟩⟩
  · have hlist : list color t o = .ofFailure color failure [] [] := by
      unfold list
      rw [h]
    obtain ⟨hrun, hnone⟩ := run_of_listing_error host state exe? hms h
    exact ⟨hlist, hrun, Console.errorText_infix color failure, hnone⟩
  · unfold list
    rw [h]
    rfl
  · obtain ⟨s₀, found, hs, hd, rfl⟩ := listing_of_ok h
    obtain ⟨s, hrun, hdir, hext⟩ := runSettings_of_ok exe? hms hs
    rw [← hdir, ← hext] at hd
    refine ⟨s, found, hrun, hd, ?_, fun hkeep tally hend => ?_⟩
    · unfold run
      rw [hrun]
    · obtain ⟨told, htests, hfits, hrest⟩ :=
        told_of_completed host state hdir hext hd hkeep hend
      exact ⟨told, htests, hfits, fun _ _ _ => TestFile.display_of_path, hrest⟩

/-- A directory `s` with a marked file `a.js`, an empty file `b.js`, and a file `c.js` that may not
be read. -/
def markedSuite : Tree where
  home := []
  entries := [([[0x73]], .directory),
    ([[0x73], [0x61, 0x2E, 0x6A, 0x73]], .file { content := Marker.bytes }),
    ([[0x73], [0x62, 0x2E, 0x6A, 0x73]], .file { content := [] }),
    ([[0x73], [0x63, 0x2E, 0x6A, 0x73]], .file { content := [], denied? := some .noAccess })]
  nodup := by decide
  named := by decide

/-- A host on which every child fails, and changes nothing. -/
def failingHost : Supervision.Host Unit :=
  fun s t _ _ _ => ⟨[.start none, .quit (.exit 1), .collect none], s, t⟩

/-- Without the directory both commands fail; with it, three tests are listed as they are reported:
one is ignored, one fails, and one cannot be read. -/
theorem list_agrees_with_run_marked :
    run failingHost () false markedSuite { exe? := some ⟨[0x78]⟩, timeoutMs? := some 5 } =
      some ⟨1, [], Bytes.ofString (Console.failureText false
        (.suiteUnreadable (Path.ofString "tests/js_suite") .noEntry))⟩ ∧
    ∃ (text : String) (s : Settings) (told : List Report),
      listing false markedSuite { suite? := some ⟨[0x73]⟩ } = .ok text ∧
      runSettings markedSuite
        { suite? := some ⟨[0x73]⟩, exe? := some ⟨[0x78]⟩, timeoutMs? := some 5 } = .ok s ∧
      (∀ report ∈ told, report.Fits markedSuite) ∧
      text = (if told = [] then Console.emptyText false s.extension s.suiteDir
        else String.join (told.map (Console.markText false)) ++ Console.endText false 3 1) ∧
      shown (Supervision.session failingHost (Console.listener false) s ⟨0, ()⟩
        markedSuite).events = told.map (Console.statusText false) ∧
      told.length = 3 ∧ told.countP Report.isIgnored = 1 := by
  have hms : (some 5 : Option UInt64) ≠ some 0 := by decide
  constructor
  · exact ((list_agrees_with_run failingHost () false markedSuite {} (some ⟨[0x78]⟩) hms).1 _
      (by cbv)).2.1
  · have hset : settingsFor markedSuite { suite? := some ⟨[0x73]⟩ } =
        .ok { suiteDir := ⟨[0x73]⟩ } := by cbv
    have hfound : Suite.discover markedSuite ⟨[0x73]⟩ ".js" =
        .ok (Suite.ofNames markedSuite ⟨[0x73]⟩ ".js" (markedSuite.namesIn [[0x73]])) := by cbv
    have hlist := listing_eq false hset hfound
    have hsettings : runSettings markedSuite
        { suite? := some ⟨[0x73]⟩, exe? := some ⟨[0x78]⟩, timeoutMs? := some 5 } =
          .ok { suiteDir := ⟨[0x73]⟩, executable := ⟨[0x78]⟩, timeoutMs := 5 } := by cbv
    have hsilent : (Supervision.session failingHost .silent
        { suiteDir := ⟨[0x73]⟩, executable := ⟨[0x78]⟩, timeoutMs := 5 } ⟨0, ()⟩
          markedSuite).ending = .completed ⟨0, 1, 0, 1, 1⟩ := by cbv
    have hl : ∀ r, calls (Listener.silent r) = calls (Console.listener false r) := fun _ => rfl
    have hend := (Session.run_listener _ hl _ _ _ _).1.trans hsilent
    obtain ⟨-, s, found, hs, hd, -, h⟩ := (list_agrees_with_run failingHost () false markedSuite
      { suite? := some ⟨[0x73]⟩ } (some ⟨[0x78]⟩) hms).2 _ hlist
    obtain rfl := Except.ok.inj (hsettings.symm.trans hs)
    obtain ⟨told, -, hfits, -, htext, hshown, -, htotal, hignored⟩ := h (fun _ _ => rfl) _ hend
    exact ⟨_, _, told, hlist, hs, hfits, htext, hshown, htotal.symm, hignored.symm⟩

end CommandLine

end SuiteRunner
