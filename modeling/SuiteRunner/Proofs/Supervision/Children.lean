import Mathlib
import SuiteRunner.Proofs.Session.Run
import SuiteRunner.Proofs.Supervision.Turn

/-!
# Children over a whole session

A session may start any number of children, one after another, and each may end, be killed or be
lost in any order of moves.

* `Lawful`: what must have been done to a child before something is done to it. Every child of a
  watch lives by it (`Watch.Stands.lawful`);
* `Orderly`: a history in which every child is that of a watch, the next one is started only when
  all before are finished with, and nothing is done to a child but in its own test's turn. A turn
  keeps it (`Orderly.turn`), and so does a session (`orderly_session`);
* **`children_exact`**: no two children are under way at any time, kills hit the child of the
  current test only, and no child is left behind.
-/

namespace SuiteRunner.Supervision

open Session (Standing Goes Stops Passes)
open Watch (Stands)

variable {σ : Type} {c d : Nat} {es fs pre post past : List Event}

/-! ## The law of one child -/

/-- What must have been done to a child, and what must not, when `event` is done to it. -/
def Lawful (past : List ChildEvent) : ChildEvent → Prop
  | .spawned => past = []
  | .timerArmed => .spawned ∈ past ∧ .timerArmed ∉ past
  | .timerFired => .spawned ∈ past ∧ .timerArmed ∈ past ∧ .timerFired ∉ past ∧ .timerDropped ∉ past
  | .timerDropped => .spawned ∈ past ∧ .timerArmed ∈ past ∧ .timerDropped ∉ past
  | .killed => .spawned ∈ past ∧ .timerFired ∈ past ∧ .killed ∉ past ∧ ∀ s, .reaped s ∉ past
  | .abandoned => .spawned ∈ past ∧ .killed ∉ past ∧ ∀ s, .reaped s ∉ past
  | .reaped _ => .spawned ∈ past ∧ ∀ s, .reaped s ∉ past

theorem Lawful.spawned_mem {past : List ChildEvent} {event : ChildEvent} (h : Lawful past event)
    (hne : event ≠ .spawned) : .spawned ∈ past := by
  cases event with
  | spawned => exact absurd rfl hne
  | timerArmed | timerFired | timerDropped | killed | abandoned | reaped => exact h.1

/-- **The child of a watch lives by the law.** -/
theorem Watch.Stands.lawful {k : Task} {w : Watch} {events : List ChildEvent}
    (h : Stands k w events) : Each Lawful events := by
  cases h <;> simp [each_cons, each_nil, Lawful]

/-- A child is started and its status was not collected. -/
def Unreaped (c : Nat) (es : List Event) : Prop :=
  .spawned ∈ doneTo c es ∧ ∀ status, .reaped status ∉ doneTo c es

/-- A child was started and collected, and its timer is given up. -/
def Closed (events : List ChildEvent) : Prop :=
  ∃ k w v, Stands k w events ∧ w.answer? = some (.ok v)

theorem Closed.reaped {events : List ChildEvent} (h : Closed events) :
    (∃ status, .reaped status ∈ events) ∧ .timerDropped ∈ events := by
  obtain ⟨k, w, v, hs, ha⟩ := h
  cases hs <;> cases ha <;> simp

/-- A child that was lost had a kill sent to it. -/
theorem Watch.Stands.killed_of_error {k : Task} {w : Watch} {events : List ChildEvent}
    (h : Stands k w events) {failure : Failure} (ha : w.answer? = some (.error failure))
    (hs : .spawned ∈ events) : .killed ∈ events ∨ .abandoned ∈ events := by
  cases h <;> cases ha <;> simp_all

/-! ## The law of all children -/

/-- No child is under way: each that was started is closed. -/
def Idle (es : List Event) : Prop := ∀ c, doneTo c es = [] ∨ Closed (doneTo c es)

/-- The test that was handed over last has the child `c`: since then the session did nothing
else. -/
def Running (c : Nat) (es : List Event) : Prop :=
  ∃ before test since, es = before ++ .handed test :: since ∧
    (∀ e ∈ since, e.ofSession = false) ∧ .spawned ∈ doneTo c since

theorem Running.append (h : Running c es) (past : List Event) : Running c (past ++ es) := by
  obtain ⟨before, test, since, rfl, hsince, hc⟩ := h
  exact ⟨past ++ before, test, since, (List.append_assoc ..).symm, hsince, hc⟩

/-- A history in which children come one after another. -/
structure Orderly (es : List Event) : Prop where
  /-- Each child is that of a watch. -/
  stands : ∀ c, ∃ k w, Stands k w (doneTo c es)
  /-- A child is started when no other is under way. -/
  idle : Each (fun pre e => ∀ c, e = .child c .spawned → Idle pre) es
  /-- What is done to a child is done in the turn of its test. -/
  running : Each (fun pre e => ∀ c event, e = .child c event → event ≠ .spawned → Running c pre) es

theorem orderly_nil : Orderly [] :=
  ⟨fun _ => ⟨⟨⟨[]⟩, ⟨⟨[]⟩⟩, 0, 0⟩, Watch.fresh, .starting⟩, each_nil, each_nil⟩

/-- What is done to no child keeps children in order. -/
theorem Orderly.append_of_apart (h : Orderly es) (hf : ∀ c, doneTo c fs = []) :
    Orderly (es ++ fs) := by
  have hno : ∀ e ∈ fs, ∀ c event, e ≠ .child c event := by
    rintro e he c event rfl
    exact doneTo_eq_nil_iff.mp (hf c) event he
  refine ⟨fun c => ?_, each_append.mpr ⟨h.idle, each_of_mem ?_⟩,
    each_append.mpr ⟨h.running, each_of_mem ?_⟩⟩
  · rw [doneTo_append, hf, List.append_nil]
    exact h.stands c
  · exact fun e he _ c hc => absurd hc (hno e he c .spawned)
  · exact fun e he _ c event hc _ => absurd hc (hno e he c event)

/-- No child is under way, and those with the number `n` and above were not started. -/
structure Settled (n : Nat) (es : List Event) : Prop where
  idle : Idle es
  above : ∀ c, n ≤ c → doneTo c es = []

theorem Settled.append_of_apart {n : Nat} (h : Settled n es) (hf : ∀ c, doneTo c fs = []) :
    Settled n (es ++ fs) := by
  refine ⟨fun c => ?_, fun c hc => ?_⟩
  · rw [doneTo_append, hf, List.append_nil]
    exact h.idle c
  · rw [doneTo_append, hf, List.append_nil]
    exact h.above c hc

/-! ## One turn -/

section Turn

variable {host : Host σ} {executable : Path} {budgetMs : Nat} {listener : Listener}
  {p q : Standing (Watched σ)} {test : TestFile}

/-- What is done to a child in a turn is done after the test was handed over. -/
theorem each_running_turn (p : Standing (Watched σ)) (test : TestFile) :
    Each (fun pre e => ∀ c event, e = .child c event → event ≠ .spawned → Running c pre)
      (p.turn (runner host executable budgetMs) test).events := by
  obtain ⟨k, w, hw, -, -, -, hother⟩ := turn_stands host executable budgetMs p test
  by_cases hu : Unmarked p.tree test.path
  · have hr := Session.turn_of_unmarked (runner host executable budgetMs) p.state p.tree test hu
    have hap := (runner host executable budgetMs p.state p.tree test).apart
    simp only [Standing.turn, hr] at hw hother ⊢
    generalize (runner host executable budgetMs p.state p.tree test).events = es at hw hother hap ⊢
    intro pre e post hs c event he hne
    subst he
    obtain rfl : p.state.next = c := by
      refine Classical.byContradiction fun hc => ?_
      refine doneTo_eq_nil_iff.mp (hother c hc) event ?_
      rw [hs]
      exact List.mem_append_right pre List.mem_cons_self
    have hlaw : Lawful (doneTo p.state.next pre) event := hw.lawful _ _ _ (doneTo_split hs)
    have hspawned := hlaw.spawned_mem hne
    -- the child was started after the first two events of the turn
    obtain _ | ⟨e₁, _ | ⟨e₂, since⟩⟩ := pre
    · cases hspawned
    · cases hs
    · cases hs
      exact ⟨[.examined test], test, since, rfl,
        fun e he => hap e (List.mem_append_left _ he), hspawned⟩
  · obtain ⟨answer, hr, -⟩ := Session.turn_of_not_unmarked (runner host executable budgetMs)
      p.state p.tree test hu
    simp only [Standing.turn, hr]
    refine each_of_mem fun e he _ c event hc => ?_
    rw [List.mem_singleton.mp he] at hc
    cases hc

/-- **A turn keeps children in order.** -/
theorem Orderly.turn (h : Orderly past) (hs : Settled p.state.next past) (host : Host σ)
    (executable : Path) (budgetMs : Nat) (test : TestFile) :
    Orderly (past ++ (p.turn (runner host executable budgetMs) test).events) := by
  obtain ⟨k, w, hw, -, -, -, hother⟩ := turn_stands host executable budgetMs p test
  refine ⟨fun c => ?_, each_append.mpr ⟨h.idle, ?_⟩, each_append.mpr ⟨h.running, ?_⟩⟩
  · by_cases hc : p.state.next = c
    · rw [doneTo_append, ← hc, hs.above _ (Nat.le_refl _)]
      exact ⟨k, w, hw⟩
    · rw [doneTo_append, hother c hc, List.append_nil]
      exact h.stands c
  · rintro pre e post hsplit c rfl
    have hlaw : Each Lawful (doneTo p.state.next _) := hw.lawful
    obtain rfl : p.state.next = c := by
      refine Classical.byContradiction fun hc => ?_
      refine doneTo_eq_nil_iff.mp (hother c hc) .spawned ?_
      rw [hsplit]
      exact List.mem_append_right pre List.mem_cons_self
    have hfirst : doneTo p.state.next pre = [] := hlaw _ _ _ (doneTo_split hsplit)
    intro d
    have hpre : doneTo d pre = [] := by
      by_cases hd : p.state.next = d
      · rw [← hd, hfirst]
      · have hnone := hother d hd
        rw [doneTo_split_of_ne hsplit hd] at hnone
        exact (List.append_eq_nil_iff.mp hnone).1
    rw [doneTo_append, hpre, List.append_nil]
    exact hs.idle d
  · exact (each_running_turn p test).imp fun pre e hrun c event he hne =>
      (hrun c event he hne).append past

/-- **A turn that lets the session go on leaves no child under way.** -/
theorem Settled.goes (h : Settled p.state.next past)
    (hl : ∀ c r, doneTo c (listener r) = [])
    (hg : Goes (runner host executable budgetMs) listener p test es q) :
    Settled q.state.next (past ++ es) := by
  obtain ⟨k, w, hw, hnext, hasked, hfresh, hother⟩ :=
    turn_stands host executable budgetMs p test
  have hes : ∀ c, doneTo c es =
      doneTo c (p.turn (runner host executable budgetMs) test).events := by
    intro c
    cases hg with
    | finished verdict ha => rw [doneTo_append, hl, List.append_nil]
    | errored failure ha hf =>
      rw [doneTo_append, doneTo_cons, hl]
      exact List.append_nil _
  have hstate : q.state.next =
      (p.turn (runner host executable budgetMs) test).state.next := by
    cases hg <;> rfl
  have hclosed : w = Watch.fresh ∨ ∃ v, w.answer? = some (.ok v) := by
    by_cases hu : Unmarked p.tree test.path
    · cases hg with
      | finished verdict ha => exact Or.inr ⟨verdict, (hasked hu).symm.trans ha⟩
      | errored failure ha hf =>
        rw [Watch.isFatal_of_stands hw ((hasked hu).symm.trans ha)] at hf
        cases hf
    · exact Or.inl (hfresh hu)
  rw [hstate, hnext]
  generalize (p.turn (runner host executable budgetMs) test).events = turn at hw hother hes
  rcases hclosed with rfl | ⟨v, hv⟩
  · -- nothing was started: the child with the next number is still to come
    have hnone : ∀ c, doneTo c es = [] := by
      intro c
      rw [hes]
      by_cases hc : p.state.next = c
      · rw [← hc]
        generalize doneTo p.state.next turn = events at hw
        cases hw
        rfl
      · exact hother c hc
    exact h.append_of_apart hnone
  · rw [Watch.isSome_child_of_ok hw hv, if_pos rfl]
    refine ⟨fun c => ?_, fun c hc => ?_⟩
    · rw [doneTo_append, hes]
      by_cases hc : p.state.next = c
      · rw [← hc, h.above _ (Nat.le_refl _), List.nil_append]
        exact Or.inr ⟨k, w, v, hw, hv⟩
      · rw [hother c hc, List.append_nil]
        exact h.idle c
    · rw [doneTo_append, hes, h.above c (by omega), hother c (by omega)]
      rfl

theorem Orderly.goes (h : Orderly past) (hs : Settled p.state.next past)
    (hl : ∀ c r, doneTo c (listener r) = [])
    (hg : Goes (runner host executable budgetMs) listener p test es q) : Orderly (past ++ es) := by
  have hturn := h.turn hs host executable budgetMs test
  cases hg with
  | finished verdict ha =>
    rw [← List.append_assoc]
    exact hturn.append_of_apart fun c => hl c _
  | errored failure ha hf =>
    rw [← List.append_assoc]
    refine hturn.append_of_apart fun c => ?_
    rw [doneTo_cons, hl]
    rfl

/-- Turns one after another keep children in order, and leave none under way. -/
theorem orderly_passes {tests : List TestFile} (h : Orderly past)
    (hs : Settled p.state.next past) (hl : ∀ c r, doneTo c (listener r) = [])
    (hp : Passes (runner host executable budgetMs) listener p tests es q) :
    Orderly (past ++ es) ∧ Settled q.state.next (past ++ es) := by
  induction hp generalizing past with
  | nil p =>
    rw [List.append_nil]
    exact ⟨h, hs⟩
  | cons hg _ ih =>
    rw [← List.append_assoc]
    exact ih (h.goes hs hl hg) (hs.goes hl hg)

end Turn

/-! ## Whole sessions -/

theorem doneTo_noted (c : Nat) (notes : List Note) : doneTo c (notes.map .noted) = [] := by
  rw [doneTo_eq_nil_iff]
  intro event he
  obtain ⟨note, -, h⟩ := List.mem_map.mp he
  cases h

theorem doneTo_closing (c : Nat) (ending : Session.Ending) :
    doneTo c (Session.closing ending) = [] := by
  cases ending <;> rfl

/-- **A session keeps children in order.** One that completes leaves none under way, and one that
is aborted has sent a kill to every child that it did not collect. -/
theorem orderly_session (host : Host σ) {listener : Listener}
    (hl : ∀ c r, doneTo c (listener r) = []) (s : Settings) (h : Watched σ) (t : Tree) :
    let r := session host listener s h t
    Orderly r.events ∧ (∀ tally, r.ending = .completed tally → Idle r.events) ∧
      ∀ failure, r.ending = .aborted failure → ∀ c, Unreaped c r.events →
        .killed ∈ doneTo c r.events ∨ .abandoned ∈ doneTo c r.events := by
  have hstart : ∀ notes : List Note, Orderly (notes.map .noted) ∧
      Settled h.next (notes.map .noted) := by
    intro notes
    refine ⟨orderly_nil.append_of_apart fun c => doneTo_noted c notes, fun c => ?_, fun c _ => ?_⟩
    · exact Or.inl (doneTo_noted c notes)
    · exact doneTo_noted c notes
  intro r
  rcases Session.run_cases (runner host s.executable s.timeoutMs.toNat) listener s.suiteDir
      s.extension h t with
    ⟨failure, hd, hr⟩ | ⟨found, es, q, hd, hp, hr⟩ |
      ⟨found, front, test, rest, es, q, ending, hd, hsplit, hp, hstop, hr⟩
  · have hr : r = _ := hr
    rw [hr]
    refine ⟨orderly_nil, (fun _ h => nomatch h), fun _ _ c hc => ?_⟩
    exact absurd hc.1 List.not_mem_nil
  · have hr : r = _ := hr
    obtain ⟨hord, hset⟩ := orderly_passes (hstart found.notes).1 (hstart found.notes).2 hl hp
    rw [hr]
    refine ⟨hord.append_of_apart fun c => doneTo_closing c _, fun _ _ => ?_,
      fun _ h => nomatch h⟩
    exact (hset.append_of_apart fun c => doneTo_closing c _).idle
  · have hr : r = _ := hr
    obtain ⟨hord, hset⟩ := orderly_passes (hstart found.notes).1 (hstart found.notes).2 hl hp
    have hturn := hord.turn hset host s.executable s.timeoutMs.toNat test
    obtain ⟨k, w, hw, -, hasked, -, hother⟩ :=
      turn_stands host s.executable s.timeoutMs.toNat q test
    rw [hr, ← List.append_assoc]
    refine ⟨hturn.append_of_apart fun c => doneTo_closing c _, fun tally hend => ?_,
      fun failure hend c hc => ?_⟩
    · cases hstop <;> cases hend
    · simp only at hend
      subst hend
      cases hstop with
      | aborted _ ha hf =>
        have hanswer : w.answer? = some (.error failure) :=
          (hasked (Stops.aborted failure ha hf).unmarked).symm.trans ha
        unfold Unreaped at hc
        rw [doneTo_append, doneTo_closing, List.append_nil, doneTo_append] at hc ⊢
        by_cases hn : q.state.next = c
        · subst hn
          rw [hset.above _ (Nat.le_refl _), List.nil_append] at hc ⊢
          exact hw.killed_of_error hanswer hc.1
        · rw [hother c hn, List.append_nil] at hc
          rcases hset.idle c with hnone | hclosed
          · rw [hnone] at hc
            exact absurd hc.1 List.not_mem_nil
          · obtain ⟨⟨status, hreaped⟩, -⟩ := hclosed.reaped
            exact absurd hreaped (hc.2 status)

/-! ## What is known at any time -/

theorem not_unreaped_of_idle (h : Idle es) (c : Nat) : ¬ Unreaped c es := by
  rintro ⟨hs, hn⟩
  rcases h c with hnone | hclosed
  · rw [hnone] at hs
    cases hs
  · obtain ⟨⟨status, hr⟩, -⟩ := hclosed.reaped
    exact hn status hr

/-- Of two children that were started, one is closed before the other one is started. -/
theorem Orderly.reaped_or (h : Orderly fs) (hpre : es <+: fs) (hc : .spawned ∈ doneTo c es)
    (hd : .spawned ∈ doneTo d es) (hne : c ≠ d) : ¬ Unreaped c es ∨ ¬ Unreaped d es := by
  obtain ⟨rest, rfl⟩ := hpre
  obtain ⟨hidle, -⟩ := each_append.mp h.idle
  obtain ⟨pre, post, hsplit⟩ := List.append_of_mem (mem_doneTo.mp hc)
  have hlater : ∀ {x : Nat} {as bs : List Event}, es = as ++ bs → .spawned ∈ doneTo x as →
      Idle as → ¬ Unreaped x es := by
    rintro x as bs rfl hx has ⟨-, hno⟩
    refine not_unreaped_of_idle has x ⟨hx, fun status hr => hno status ?_⟩
    rw [doneTo_append]
    exact List.mem_append_left _ hr
  rw [doneTo_split_of_ne hsplit hne, List.mem_append] at hd
  rcases hd with hd | hd
  · exact Or.inr (hlater hsplit hd (hidle _ _ _ hsplit c rfl))
  · obtain ⟨mid, rest', hmid⟩ := List.append_of_mem (mem_doneTo.mp hd)
    have hsplit' : es = (pre ++ .child c .spawned :: mid) ++ .child d .spawned :: rest' := by
      rw [hsplit, hmid, List.append_assoc, List.cons_append]
    refine Or.inl (hlater hsplit' ?_ (hidle _ _ _ hsplit' d rfl))
    rw [mem_doneTo]
    exact List.mem_append_right pre List.mem_cons_self

/-- A timer that was given up does not fire any more. -/
theorem Orderly.not_timerFired (h : Orderly (pre ++ post)) (hd : .timerDropped ∈ doneTo d pre) :
    .timerFired ∉ doneTo d post := by
  intro hf
  obtain ⟨as, bs, hsplit⟩ := List.append_of_mem hf
  obtain ⟨k, w, hw⟩ := h.stands d
  have hlaw : Lawful (doneTo d pre ++ as) .timerFired :=
    hw.lawful _ _ bs (by rw [doneTo_append, hsplit, List.append_assoc])
  exact hlaw.2.2.2 (List.mem_append_left as hd)

/-- **Children come one after another, and none is left behind.** Whatever children, timers and the
system do in a session: at any time at most one child is started and not collected; what is done to
a child is done in the turn of its own test, and as the law of children has it, so that a kill is
sent once, to a child that was not collected, after its own timer has fired; when a child is
started, those before were collected and their timers given up, and these never fire again. A
session that completes has collected every child, and one that is aborted has sent a kill to every
child that it did not collect. -/
theorem children_exact (host : Host σ) {listener : Listener}
    (hl : ∀ c r, doneTo c (listener r) = []) (s : Settings) (h : Watched σ) (t : Tree) :
    let r := session host listener s h t
    (∀ es, es <+: r.events → ∀ c d, Unreaped c es → Unreaped d es → c = d) ∧
    (∀ pre c event post, r.events = pre ++ .child c event :: post →
      Lawful (doneTo c pre) event ∧ (event ≠ .spawned → Running c pre) ∧
      (event = .spawned → ∀ d, ¬ Unreaped d pre ∧
        (.timerArmed ∈ doneTo d pre →
          .timerDropped ∈ doneTo d pre ∧ .timerFired ∉ doneTo d post))) ∧
    (∀ tally, r.ending = .completed tally → ∀ c, ¬ Unreaped c r.events) ∧
    ∀ failure, r.ending = .aborted failure → ∀ c, Unreaped c r.events →
      .killed ∈ doneTo c r.events ∨ .abandoned ∈ doneTo c r.events := by
  intro r
  obtain ⟨hord, hdone, hfail⟩ := orderly_session host hl s h t
  refine ⟨fun es hpre c d hc hd => ?_, fun pre c event post hsplit => ⟨?_, ?_, ?_⟩,
    fun tally hend => not_unreaped_of_idle (hdone tally hend), hfail⟩
  · refine Classical.byContradiction fun hne => ?_
    rcases hord.reaped_or hpre hc.1 hd.1 hne with hno | hno
    · exact hno hc
    · exact hno hd
  · obtain ⟨k, w, hw⟩ := hord.stands c
    exact hw.lawful _ _ _ (doneTo_split hsplit)
  · exact hord.running pre _ post hsplit c event rfl
  · rintro rfl d
    have hidle : Idle pre := hord.idle pre _ post hsplit c rfl
    refine ⟨not_unreaped_of_idle hidle d, fun harmed => ?_⟩
    rcases hidle d with hnone | hclosed
    · rw [hnone] at harmed
      cases harmed
    · refine ⟨hclosed.reaped.2, fun hf => ?_⟩
      have hord' : Orderly (pre ++ .child c .spawned :: post) := hsplit ▸ hord
      refine hord'.not_timerFired hclosed.reaped.2 ?_
      rw [doneTo_cons]
      exact List.mem_append_right _ hf

/-- A host on which the child of `a.t` fails, that of `b.t` is killed, and those of all others do
what `last` says. -/
def plague (last : List Move) : Host Unit := fun s t _ _ test =>
  if test == Session.ofLetter 0x61 then ⟨[.start none, .quit (.exit 1), .collect none], s, t⟩
  else if test == Session.ofLetter 0x62 then
    ⟨[.start none, .ring, .kill none, .fall .killed, .collect none], s, t⟩
  else ⟨last, s, t⟩

/-- The settings for the four tests. -/
def fourSettings : Settings := { suiteDir := ⟨[0x73]⟩, extension := ".t" }

/-- The session over the four tests on this host. -/
def plagued (last : List Move) : Session.Record (Watched Unit) :=
  session (plague last) .recording fourSettings ⟨0, ()⟩ Session.fourTests

/-- If the kill of the third child is refused, then one is tried as it is given up. If every child
can be collected, then every one is. -/
theorem children_exact_plagued :
    let r := plagued [.start none, .ring, .kill (some .noEntry)]
    (Unreaped 2 r.events ∧ (.killed ∈ doneTo 2 r.events ∨ .abandoned ∈ doneTo 2 r.events) ∧
      ∃ before after, r.events = before ++ .child 1 .killed :: after ∧
        .timerFired ∈ doneTo 1 before ∧ Running 1 before) ∧
    ∀ c, ¬ Unreaped c (plagued [.start none, .quit (.exit 0), .collect none]).events := by
  have hl : ∀ c r, doneTo c (Listener.recording r) = [] := fun _ _ => rfl
  have hsecond : doneTo 1 (plagued [.start none, .ring, .kill (some .noEntry)]).events =
      [.spawned, .timerArmed, .timerFired, .killed, .reaped .killed, .timerDropped] := by cbv
  have hthird : doneTo 2 (plagued [.start none, .ring, .kill (some .noEntry)]).events =
      [.spawned, .timerArmed, .timerFired, .timerDropped, .abandoned] := by cbv
  intro r
  constructor
  · obtain ⟨-, hlaw, -, hfail⟩ := children_exact
      (plague [.start none, .ring, .kill (some .noEntry)]) hl fourSettings ⟨0, ()⟩
      Session.fourTests
    have hunreaped : Unreaped 2 r.events := by simp [Unreaped, r, hthird]
    have hlost := hfail (.waitFailed (Session.ofLetter 0x63).path .noEntry) (by cbv) 2 hunreaped
    have hkilled : .killed ∈ doneTo 1 r.events := by simp [r, hsecond]
    obtain ⟨before, after, hsplit⟩ := List.append_of_mem (mem_doneTo.mp hkilled)
    obtain ⟨hbefore, hrunning, -⟩ := hlaw before 1 .killed after hsplit
    exact ⟨hunreaped, hlost, before, after, hsplit, hbefore.2.1, hrunning (by decide)⟩
  · exact (children_exact (plague [.start none, .quit (.exit 0), .collect none]) hl fourSettings
      ⟨0, ()⟩ Session.fourTests).2.2.1 ⟨2, 1, 1, 0, 0⟩ (by cbv)

end SuiteRunner.Supervision
