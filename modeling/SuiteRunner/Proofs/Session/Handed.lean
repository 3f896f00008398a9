import Mathlib
import SuiteRunner.Proofs.Session.Run

/-!
# What is handed over

The tests that a session reaches are looked at in the order of the suite, and each of them when
its own turn comes: in the tree that the calls before it left behind.

* `Reaches`: the turn of a test, whether or not it is the last one, and what is told of it;
* `run_reaches`: the turns of the tests before, the turn of a test, and what is behind it;
* **`handed_exact`**: a test that is reached is handed to the runner if and only if its file can
  be read then and is not marked.
-/

namespace SuiteRunner.Session

variable {σ : Type} {runner : Runner σ} {p q : Standing σ} {test : TestFile}
  {tests pre post : List TestFile} {es : List Event}

/-! ## The turn of one test -/

/-- The turn of `test` at `p` is all of `es`: the session goes on behind it, or stops. -/
inductive Reaches (runner : Runner σ) (p : Standing σ) (test : TestFile) : List Event → Prop
  | goes {es : List Event} {q : Standing σ} (h : Goes runner .recording p test es q) :
      Reaches runner p test es
  | stops {ending : Ending} (h : Stops runner p test ending) :
      Reaches runner p test (p.turn runner test).events

theorem Reaches.examined (h : Reaches runner p test es) : ∃ rest, es = .examined test :: rest := by
  obtain ⟨fs, hfs⟩ := turn_events runner p.state p.tree test
  have hturn : (p.turn runner test).events = .examined test :: fs := hfs
  cases h with
  | goes h =>
    cases h with
    | finished verdict h =>
      rw [hturn]
      exact ⟨_, rfl⟩
    | errored failure h hf =>
      rw [hturn]
      exact ⟨_, rfl⟩
  | stops h => exact ⟨fs, hturn⟩

theorem Reaches.calls_eq (h : Reaches runner p test es) :
    calls es = calls (p.turn runner test).events := by
  cases h with
  | goes h => exact h.calls_eq
  | stops h => rfl

/-- **Only a test that is not marked is handed over.** -/
theorem Reaches.mem_calls_iff (h : Reaches runner p test es) :
    test ∈ calls es ↔ Unmarked p.tree test.path := by
  rw [h.calls_eq, Standing.turn]
  by_cases hu : Unmarked p.tree test.path
  · rw [turn_calls_of_unmarked _ _ _ _ hu]
    exact ⟨fun _ => hu, fun _ => List.mem_singleton_self test⟩
  · rw [turn_calls_of_not_unmarked _ _ _ _ hu]
    exact ⟨fun hm => absurd hm List.not_mem_nil, fun h => absurd h hu⟩

/-- A marked test is told as ignored. -/
theorem Reaches.reports_of_optedOut (h : Reaches runner p test es)
    (ho : OptedOut p.tree test.path) : reports es = [.finished test .ignored] := by
  cases h with
  | goes h =>
    refine h.reports_of_ok ?_
    rw [Standing.turn, turn_of_optedOut runner p.state p.tree test ho]
  | stops h => exact absurd ho h.unmarked.not_optedOut

/-- A test that cannot be read is told as one that could not be run, and why. -/
theorem Reaches.reports_of_error (h : Reaches runner p test es) {cause : Fault}
    (hc : p.tree.read test.path = .error cause) :
    reports es = [.errored test (.testUnreadable test.path cause)] := by
  cases h with
  | goes h =>
    refine h.reports_of_error ?_
    rw [Standing.turn, turn_of_error runner p.state p.tree test hc]
  | stops h => exact absurd hc (h.unmarked.ne_error cause)

/-! ## The turn of one test among others -/

theorem Passes.reaches {r : Standing σ}
    (h : Passes runner .recording p (pre ++ test :: post) es r) :
    ∃ fs gs later q, es = fs ++ gs ++ later ∧ Passes runner .recording p pre fs q ∧
      Reaches runner q test gs ∧ (calls later).Sublist post := by
  obtain ⟨fs, hs, q, rfl, hpre, hrest⟩ := h.split
  cases hrest with
  | cons hg hpost =>
    exact ⟨fs, _, _, q, (List.append_assoc ..).symm, hpre, .goes hg, hpost.calls_sublist⟩

/-- **Every test that is reached has its turn after those before it.** A session reaches a test
when all tests before it are told. -/
theorem run_reaches {dir : Path} {extension : String} {s : σ} {t : Tree}
    {found : Suite.Discovery} (hd : Suite.discover t dir extension = .ok found)
    (hsplit : found.tests = pre ++ test :: post)
    (hk : pre.length ≤ (reports (run runner .recording dir extension s t).events).length) :
    ∃ fs gs later q,
      (run runner .recording dir extension s t).events =
        found.notes.map .noted ++ fs ++ gs ++ later ∧
      Passes runner .recording ⟨.empty, s, t⟩ pre fs q ∧ Reaches runner q test gs ∧
      (calls later).Sublist post := by
  rcases run_cases runner .recording dir extension s t with
    ⟨failure, hd', -⟩ | ⟨found', es, q, hd', hp, hr⟩ |
      ⟨found', pre', last, post', es, q, ending, hd', hsplit', hp, hs, hr⟩
  · rw [hd] at hd'
    cases hd'
  · rw [hd] at hd'
    cases hd'
    rw [hsplit] at hp
    obtain ⟨fs, gs, later, q', rfl, hpre, hreach, hlater⟩ := hp.reaches
    refine ⟨fs, gs, later ++ closing (.completed q.tally), q', ?_, hpre, hreach, ?_⟩
    · rw [hr]
      simp only [List.append_assoc]
    · rw [calls_append, calls_of_apart (closing_apart _), List.append_nil]
      exact hlater
  · rw [hd] at hd'
    cases hd'
    rw [hr, reports_around, reports_last] at hk
    have hlen : (reports es).length = pre'.length := by
      rw [← hp.reports_test, List.length_map]
    rw [hlen] at hk
    -- the test is the last one, or stands before it
    have hpref : pre <+: pre' :=
      List.prefix_of_prefix_length_le ⟨_, hsplit.symm⟩ ⟨_, hsplit'.symm⟩ hk
    obtain ⟨mid, rfl⟩ := hpref
    rw [hsplit, List.append_assoc, List.append_cancel_left_eq] at hsplit'
    have hend : closing ending = [] := by
      cases hs <;> rfl
    cases mid with
    | nil =>
      cases hsplit'
      rw [List.append_nil] at hp
      refine ⟨es, _, [], q, ?_, hp, .stops hs, List.nil_sublist _⟩
      rw [hr, hend]
      simp only [List.append_assoc, List.append_nil]
    | cons x mid =>
      cases hsplit'
      obtain ⟨fs, gs, later, q', rfl, hpre, hreach, hlater⟩ := hp.reaches
      refine ⟨fs, gs, later ++ (q.turn runner last).events, q', ?_, hpre, hreach, ?_⟩
      · rw [hr, hend]
        simp only [List.append_assoc, List.append_nil]
      · rw [calls_append]
        have hlast : (calls (q.turn runner last).events).Sublist (last :: post') :=
          (turn_calls_sublist runner q.state q.tree last).trans
            (List.sublist_append_left [last] post')
        exact hlater.append hlast

/-! ## All of a session -/

/-- The files that are opened are those of the tests that are told, and one more if there is one:
that of the test that stops the session. -/
theorem run_examinations (runner : Runner σ) (dir : Path) (extension : String) (s : σ) (t : Tree) :
    let events := (run runner .recording dir extension s t).events
    examinations events = (Suite.testsIn t dir extension).take ((reports events).length + 1) := by
  rcases run_cases runner .recording dir extension s t with
    ⟨failure, hd, hr⟩ | ⟨found, es, q, hd, hp, hr⟩ |
      ⟨found, pre, last, post, es, q, ending, hd, hsplit, hp, hs, hr⟩
  · rw [hr, Suite.testsIn_of_error hd]
    rfl
  · have hlen : (reports es).length = found.tests.length := by
      rw [← hp.reports_test, List.length_map]
    simp only [hr, reports_around, examinations_around, Suite.testsIn_of_ok hd, hlen]
    rw [hp.examinations_eq, List.take_of_length_le (Nat.le_succ _)]
  · have hlen : (reports es).length = pre.length := by
      rw [← hp.reports_test, List.length_map]
    simp only [hr, reports_around, reports_last, examinations_around, examinations_last,
      Suite.testsIn_of_ok hd, hlen]
    rw [hp.examinations_eq, hsplit, List.take_length_add_append]
    rfl

/-- A test is opened before it is handed over. -/
theorem run_calls_sublist (runner : Runner σ) (dir : Path) (extension : String) (s : σ)
    (t : Tree) :
    let events := (run runner .recording dir extension s t).events
    (calls events).Sublist (examinations events) := by
  rcases run_cases runner .recording dir extension s t with
    ⟨failure, hd, hr⟩ | ⟨found, es, q, hd, hp, hr⟩ |
      ⟨found, pre, last, post, es, q, ending, hd, hsplit, hp, hs, hr⟩
  · rw [hr]
    exact List.Sublist.refl _
  · simp only [hr, calls_around, examinations_around]
    rw [hp.examinations_eq]
    exact hp.calls_sublist
  · simp only [hr, calls_around, examinations_around, examinations_last]
    rw [hp.examinations_eq, calls_append]
    exact hp.calls_sublist.append (turn_calls_sublist runner q.state q.tree last)

/-! ## A test and its turn -/

/-- The file of `test` is opened. -/
def opens (test : TestFile) (e : Event) : Bool := e.examined?.any (· == test)

/-- What happens before the file of `test` is opened. -/
def before (test : TestFile) (es : List Event) : List Event := es.takeWhile fun e => !opens test e

theorem before_append {as : List Event} (h : ∀ x ∈ examinations as, (x == test) = false)
    (bs : List Event) : before test (as ++ .examined test :: bs) = as := by
  have hpos : ∀ e ∈ as, (!opens test e) = true := by
    intro e he
    unfold opens
    cases hx : e.examined? with
    | none => rfl
    | some x =>
      have hmem : x ∈ examinations as := List.mem_filterMap.mpr ⟨e, he, hx⟩
      rw [Option.any_some, h x hmem, Bool.not_false]
  have hself : opens test (.examined test) = true := beq_self_eq_true test.path.components
  unfold before
  rw [List.takeWhile_append_of_pos hpos, List.takeWhile_cons, hself]
  exact List.append_nil as

section Turn

variable {s : σ} {t : Tree} {fs gs later : List Event} (notes : List Note)

theorem before_turn (hnodup : ((pre ++ test :: post).map fun x => x.path.components).Nodup)
    (hp : Passes runner .recording ⟨.empty, s, t⟩ pre fs q) (hreach : Reaches runner q test gs) :
    before test (notes.map .noted ++ fs ++ gs ++ later) = notes.map .noted ++ fs := by
  obtain ⟨rest, rfl⟩ := hreach.examined
  rw [List.append_assoc _ (_ :: _)]
  refine before_append (fun x hx => ?_) _
  rw [examinations_append, examinations_of_apart (noted_apart notes), List.nil_append,
    hp.examinations_eq] at hx
  rw [List.map_append, List.nodup_append] at hnodup
  have hne : x.path.components ≠ test.path.components :=
    hnodup.2.2 _ (List.mem_map_of_mem hx) _ (List.mem_map_of_mem List.mem_cons_self)
  have hbeq : (x.path.components == test.path.components) = false := beq_eq_false_iff_ne.mpr hne
  exact hbeq

/-- **Only its own turn can hand a test over.** -/
theorem mem_calls_turn (hnodup : (pre ++ test :: post).Nodup)
    (hp : Passes runner .recording ⟨.empty, s, t⟩ pre fs q) (hreach : Reaches runner q test gs)
    (hlater : (calls later).Sublist post) :
    test ∈ calls (notes.map .noted ++ fs ++ gs ++ later) ↔ Unmarked q.tree test.path := by
  rw [List.nodup_append, List.nodup_cons] at hnodup
  obtain ⟨-, ⟨hpost, -⟩, hpre⟩ := hnodup
  rw [calls_append, calls_append, calls_append, calls_of_apart (noted_apart notes),
    List.nil_append, List.mem_append, List.mem_append, hreach.mem_calls_iff]
  refine ⟨?_, fun h => Or.inl (Or.inr h)⟩
  rintro ((h | h) | h)
  · exact absurd rfl (hpre test (hp.calls_sublist.subset h) test List.mem_cons_self)
  · exact h
  · exact absurd (hlater.subset h) hpost

theorem getElem?_reports_turn (hp : Passes runner .recording ⟨.empty, s, t⟩ pre fs q)
    {report : Report} (hr : reports gs = [report]) :
    (reports (notes.map .noted ++ fs ++ gs ++ later))[pre.length]? = some report := by
  have hlen : (reports fs).length = pre.length := by
    rw [← hp.reports_test, List.length_map]
  rw [reports_append, reports_append, reports_append, reports_of_apart (noted_apart notes),
    List.nil_append, hr, List.append_assoc, List.getElem?_append_right (Nat.le_of_eq hlen), hlen,
    Nat.sub_self]
  rfl

end Turn

/-- **A test is handed over if and only if it is not marked when its turn comes.** The calls are
those of different tests in the order of the suite, and each test is opened before. Whether a test
that is reached is handed over is decided by the tree that the calls before it left behind: its
file can be read there and is not marked. If it is marked, the test is told as ignored, and if it
cannot be read, as one that could not be run. -/
theorem handed_exact (runner : Runner σ) (dir : Path) (extension : String) (s : σ) (t : Tree) :
    let events := (run runner .recording dir extension s t).events
    let tests := Suite.testsIn t dir extension
    (calls events).Sublist tests ∧
    ((calls events).map fun x => x.path.components).Nodup ∧
    (calls events).Sublist (examinations events) ∧
    examinations events = tests.take ((reports events).length + 1) ∧
    ∀ pre test post, tests = pre ++ test :: post → pre.length ≤ (reports events).length →
      let now := (runner.after (calls (before test events)) s t).2
      before test events ++ [.examined test] <+: events ∧
      (reports (before test events)).map Report.test = pre ∧
      (test ∈ calls events ↔ Unmarked now test.path) ∧
      (OptedOut now test.path → test ∉ calls events ∧
        (reports events)[pre.length]? = some (.finished test .ignored)) ∧
      ∀ cause, now.read test.path = .error cause → test ∉ calls events ∧
        (reports events)[pre.length]? = some (.errored test (.testUnreadable test.path cause)) := by
  intro events tests
  have hopened : (calls events).Sublist (examinations events) :=
    run_calls_sublist runner dir extension s t
  have hexam : examinations events = tests.take ((reports events).length + 1) :=
    run_examinations runner dir extension s t
  have hcalls : (calls events).Sublist tests := by
    rw [hexam] at hopened
    exact hopened.trans (List.take_sublist _ _)
  have hcomp : (tests.map fun x => x.path.components).Nodup :=
    Suite.testsIn_components_nodup t dir extension
  have hnodup : tests.Nodup := Suite.testsIn_nodup t dir extension
  refine ⟨hcalls, hcomp.sublist (hcalls.map _), hopened, hexam, ?_⟩
  intro pre test post hsplit hk
  obtain ⟨found, hd, htests⟩ := Suite.discover_of_testsIn hsplit
  obtain ⟨fs, gs, later, q, hes, hp, hreach, hlater⟩ := run_reaches hd htests hk
  have hevents : events = found.notes.map .noted ++ fs ++ gs ++ later := hes
  rw [hsplit] at hcomp hnodup
  have hbefore : before test events = found.notes.map .noted ++ fs := by
    rw [hevents]
    exact before_turn _ hcomp hp hreach
  have hafter : (runner.after (calls (before test events)) s t).2 = q.tree := by
    rw [hbefore, calls_append, calls_of_apart (noted_apart _), List.nil_append]
    exact (congrArg Prod.snd hp.after_eq).symm
  have hmem : test ∈ calls events ↔ Unmarked q.tree test.path := by
    rw [hevents]
    exact mem_calls_turn _ hnodup hp hreach hlater
  have htold : ∀ report, reports gs = [report] →
      (reports events)[pre.length]? = some report := by
    intro report hr
    rw [hevents]
    exact getElem?_reports_turn _ hp hr
  rw [hafter]
  refine ⟨?_, ?_, hmem, fun ho => ⟨?_, ?_⟩, fun cause hc => ⟨?_, ?_⟩⟩
  · obtain ⟨rest, rfl⟩ := hreach.examined
    rw [hbefore, hevents]
    exact ⟨rest ++ later, by simp only [List.append_assoc, List.cons_append, List.nil_append]⟩
  · rw [hbefore, reports_append, reports_of_apart (noted_apart _), List.nil_append]
    exact hp.reports_test
  · exact fun h => (hmem.mp h).not_optedOut ho
  · exact htold _ (hreach.reports_of_optedOut ho)
  · exact fun h => (hmem.mp h).ne_error cause hc
  · exact htold _ (hreach.reports_of_error hc)

theorem handed_exact_meddled :
    let events := (meddled (.ok .failed)).events
    ofLetter 0x61 ∈ calls events ∧
      (ofLetter 0x62 ∉ calls events ∧
        (reports events)[1]? = some (.finished (ofLetter 0x62) .ignored)) ∧
      ofLetter 0x63 ∉ calls events ∧
        (reports events)[2]? = some (.errored (ofLetter 0x63)
          (.testUnreadable (ofLetter 0x63).path .noEntry)) := by
  have h := (handed_exact (meddler (.ok .failed)) ⟨[0x73]⟩ ".t" () fourTests).2.2.2.2
  have htests : Suite.testsIn fourTests ⟨[0x73]⟩ ".t" =
      [ofLetter 0x61, ofLetter 0x62, ofLetter 0x63, ofLetter 0x64] := by cbv
  have hlen : (reports (meddled (.ok .failed)).events).length = 4 := by cbv
  have hone : 1 ≤ (reports (meddled (.ok .failed)).events).length := by omega
  have htwo : 2 ≤ (reports (meddled (.ok .failed)).events).length := by omega
  have ha := h [] (ofLetter 0x61) [ofLetter 0x62, ofLetter 0x63, ofLetter 0x64] htests
    (Nat.zero_le _)
  have hb := h [ofLetter 0x61] (ofLetter 0x62) [ofLetter 0x63, ofLetter 0x64] htests hone
  have hc := h [ofLetter 0x61, ofLetter 0x62] (ofLetter 0x63) [ofLetter 0x64] htests htwo
  exact ⟨ha.2.2.1.mpr ⟨[], by cbv, by decide⟩, hb.2.2.2.1 ⟨Marker.bytes, by cbv, by decide⟩,
    hc.2.2.2.2 .noEntry (by cbv)⟩

end SuiteRunner.Session
