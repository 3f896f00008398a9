import SuiteRunner.Proofs.Supervision.Watch
import SuiteRunner.Proofs.Verdict

/-!
# The verdict of a watch

The child may end by itself at any time, the timer may fire at any time, and a kill takes effect at
some time after it was sent. Whatever comes first, the verdict is that of the status which was
collected, and this is the one the child ended with.

* `Happens`: a move happens in the course of others;
* `ends_follow`: **a child ends once, and its status stays what it was then**;
* **`verdict_exact`**: the verdict of a watch, for every order of moves.
-/

namespace SuiteRunner.Supervision

/-- The status that the child ends with in a move. -/
def Move.end? : Move → Option WaitStatus
  | quit status | fall status => some status
  | _ => none

namespace Watch

variable {k : Task} {w w' : Watch} {m m' : Move} {ms : List Move} {es : List Event}
  {status status' : WaitStatus}

/-- The status of a child that has ended, whether or not it was collected. -/
def end? (w : Watch) : Option WaitStatus :=
  match w.child? with
  | some (.ended status) | some (.reaped status) => some status
  | _ => none

/-! ## Moves that happen -/

/-- The move `m` happens in the course of `ms`: it can come when it does. -/
def Happens (k : Task) (ms : List Move) (m : Move) : Prop :=
  ∃ pre post, ms = pre ++ m :: post ∧ Admits k (follow k fresh pre).1 m

theorem happens_concat {last : Move} :
    Happens k (ms ++ [last]) m ↔
      Happens k ms m ∨ last = m ∧ Admits k (follow k fresh ms).1 m := by
  constructor
  · rintro ⟨pre, post, h, ha⟩
    rcases List.eq_nil_or_concat post with rfl | ⟨post, x, rfl⟩
    · obtain ⟨rfl, hlast⟩ := List.append_inj' h rfl
      exact Or.inr ⟨(List.cons.inj hlast).1, ha⟩
    · rw [List.concat_eq_append, ← List.cons_append, ← List.append_assoc] at h
      exact Or.inl ⟨pre, post, (List.append_inj' h rfl).1, ha⟩
  · rintro (⟨pre, post, rfl, ha⟩ | ⟨rfl, ha⟩)
    · exact ⟨pre, post ++ [last], by simp, ha⟩
    · exact ⟨ms, [], rfl, ha⟩

theorem Happens.append (h : Happens k ms m) (rest : List Move) : Happens k (ms ++ rest) m := by
  obtain ⟨pre, post, rfl, ha⟩ := h
  exact ⟨pre, post ++ rest, by simp, ha⟩

theorem signal_of_happens_fall (h : Happens k ms (.fall status)) : status.signal ≠ 0 := by
  obtain ⟨pre, post, -, -, w', es, hs⟩ := h
  cases step_of_eq hs with
  | fell status hdoomed hsignal => exact hsignal

/-! ## The end of the child -/

/-- A child ends in a move only if it has not ended yet. -/
theorem Step.end_of_some (h : Step k w m w' es) (hm : m.end? = some status) :
    w.end? = none ∧ w'.end? = some status := by
  cases h with
  | quit s ha =>
    cases hm
    refine ⟨?_, rfl⟩
    unfold isAlive at ha
    unfold end?
    split at ha <;> simp_all
  | fell s hc hs =>
    cases hm
    refine ⟨?_, rfl⟩
    unfold end?
    rw [hc]
  | _ => cases hm

/-- No other move changes the status that a child ended with. -/
theorem Step.end_of_none {past : List ChildEvent} (h : Step k w m w' es) (hw : Stands k w past)
    (hm : m.end? = none) : w'.end? = w.end? := by
  cases h with
  | started hs =>
    cases hw <;> cases hs
    rfl
  | refused | printed | rang | spared | lost | lostLate => rfl
  | killed hs =>
    unfold end?
    cases w.child? with
    | none => rfl
    | some c => cases c <;> rfl
  | quit | fell => cases hm
  | collected s hs hc | collectedLate s hs hc =>
    unfold end?
    rw [hc]
    rfl

/-- How the child of a watch ended, going by the moves so far. -/
structure Ends (k : Task) (ms : List Move) (w : Watch) : Prop where
  /-- The status is that of every move in which the child ends. -/
  told : ∀ {m status}, m.end? = some status → Happens k ms m → w.end? = some status
  /-- There is such a move. -/
  made : ∀ {status}, w.end? = some status → ∃ m, m.end? = some status ∧ Happens k ms m
  /-- There is one such move. -/
  once : ∀ {m m' status status'}, m.end? = some status → m'.end? = some status' →
    Happens k ms m → Happens k ms m' → m = m'

theorem ends_fresh (k : Task) : Ends k [] fresh where
  told := by
    rintro m status - ⟨pre, post, h, -⟩
    cases pre <;> cases h
  made := fun h => nomatch h
  once := by
    rintro m m' status status' - - ⟨pre, post, h, -⟩
    cases pre <;> cases h

/-- A move in which the child does not end, or which cannot come, changes nothing. -/
theorem Ends.keep (h : Ends k ms w) (hw : w'.end? = w.end?)
    (hlast : m.end? = none ∨ ¬ Admits k (follow k fresh ms).1 m) : Ends k (ms ++ [m]) w' := by
  have hkeep : ∀ {m' status}, m'.end? = some status → Happens k (ms ++ [m]) m' →
      Happens k ms m' := by
    intro m' status hm' hhap
    rcases happens_concat.mp hhap with hhap | ⟨rfl, ha⟩
    · exact hhap
    · rcases hlast with hnone | hno
      · rw [hnone] at hm'
        cases hm'
      · exact absurd ha hno
  refine ⟨fun hm' hhap => ?_, fun hend => ?_, fun hm' hm'' hhap hhap' => ?_⟩
  · rw [hw]
    exact h.told hm' (hkeep hm' hhap)
  · rw [hw] at hend
    obtain ⟨m', hm', hhap⟩ := h.made hend
    exact ⟨m', hm', hhap.append [m]⟩
  · exact h.once hm' hm'' (hkeep hm' hhap) (hkeep hm'' hhap')

/-- A move in which the child ends is the only one: it had not ended before. -/
theorem Ends.add (h : Ends k ms w) (ha : Admits k (follow k fresh ms).1 m)
    (hm : m.end? = some status) (hbefore : w.end? = none) (hafter : w'.end? = some status) :
    Ends k (ms ++ [m]) w' := by
  have hnew : ∀ {m' status'}, m'.end? = some status' → Happens k (ms ++ [m]) m' → m' = m := by
    intro m' status' hm' hhap
    rcases happens_concat.mp hhap with hhap | ⟨rfl, -⟩
    · rw [h.told hm' hhap] at hbefore
      cases hbefore
    · rfl
  refine ⟨fun hm' hhap => ?_, fun hend => ?_, fun hm' hm'' hhap hhap' => ?_⟩
  · rw [hafter, ← hm, ← hm', hnew hm' hhap]
  · refine ⟨m, ?_, happens_concat.mpr (Or.inr ⟨rfl, ha⟩)⟩
    rw [hm, ← hafter, hend]
  · rw [hnew hm' hhap, hnew hm'' hhap']

/-- **A child ends once, and its status stays what it was then.** -/
theorem ends_follow (k : Task) (ms : List Move) : Ends k ms (follow k fresh ms).1 := by
  refine follow_induction (P := fun ms r => Ends k ms r.1) (ends_fresh k) ?_ ?_ ms
  · exact fun ms m h hno => h.keep rfl (Or.inr hno)
  · intro ms m w' es h ha hs
    have hstep := step_of_eq hs
    cases hm : m.end? with
    | none => exact h.keep (hstep.end_of_none (stands_follow k ms) hm) (Or.inl hm)
    | some status =>
      obtain ⟨hbefore, hafter⟩ := hstep.end_of_some hm
      exact h.add ⟨ha, w', es, hs⟩ hm hbefore hafter

/-! ## The verdict -/

/-- A watch that ends with a verdict has collected the child, and the verdict is that of its
status. -/
theorem Stands.collected_of_ok {past : List ChildEvent} (h : Stands k w past) {v : Verdict}
    (ha : w.answer? = some (.ok v)) :
    ∃ status, w.child? = some (.reaped status) ∧ w.timer? = some .dropped ∧
      v = status.verdict := by
  cases h with
  | collected status | collectedLate status =>
    cases ha
    exact ⟨status, rfl, rfl, rfl⟩
  | starting | racing | killing | collecting | refused | lost | spared | lostLate => cases ha

/-- **The verdict is that of the status which the child ended with**, as soon as it has ended and
whatever comes after that. -/
theorem verdict_of_end (hend : (follow k fresh ms).1.end? = some status) (rest : List Move)
    {v : Verdict} (ha : (follow k fresh (ms ++ rest)).1.answer? = some (.ok v)) :
    v = status.verdict := by
  obtain ⟨m, hm, hhap⟩ := (ends_follow k ms).made hend
  have hlater := (ends_follow k (ms ++ rest)).told hm (hhap.append rest)
  obtain ⟨s, hc, -, hv⟩ := (stands_follow k (ms ++ rest)).collected_of_ok ha
  unfold end? at hlater
  rw [hc] at hlater
  cases hlater
  exact hv

/-- A child that has ended in the race is collected, also if the timer is due by then. -/
theorem answer_of_race (hs : (follow k fresh ms).1.stage = .racing)
    (hc : (follow k fresh ms).1.child? = some (.ended status)) :
    (follow k fresh (ms ++ [.collect none])).1.answer? = some (.ok status.verdict) ∧
      (follow k fresh (ms ++ [.ring, .kill none, .collect none])).1.answer? =
        some (.ok status.verdict) := by
  obtain ⟨past, hstands⟩ : ∃ past, Stands k (follow k fresh ms).1 past := ⟨_, stands_follow k ms⟩
  rw [follow_append, follow_append]
  generalize (follow k fresh ms).1 = w at hs hc hstands
  cases hstands <;> cases hs
  cases hc
  exact ⟨rfl, rfl⟩

/-- Were the timer looked at first, it would win against a child that has ended. A kill changes
nothing then. -/
theorem answer_of_timer (hc : w.child? = some (.ended status)) :
    (follow k { w with stage := .killing, timer? := some .fired }
      [.kill none, .collect none]).1.answer? = some (.ok status.verdict) := by
  obtain ⟨stage, child?, timer?⟩ := w
  cases hc
  rfl

/-- **Either side may win the race for a child that ends by itself**, and the verdict is the same:
the wait wins, or the timer wins and the child ends before the kill is sent or takes effect. -/
theorem answer_of_either (hs : (follow k fresh ms).1.stage = .racing)
    (hl : (follow k fresh ms).1.isAlive = true) (status : WaitStatus) :
    ∀ rest ∈ ([[.quit status, .collect none], [.ring, .quit status, .kill none, .collect none],
        [.ring, .kill none, .quit status, .collect none]] : List (List Move)),
      (follow k fresh (ms ++ rest)).1.answer? = some (.ok status.verdict) := by
  obtain ⟨past, hstands⟩ : ∃ past, Stands k (follow k fresh ms).1 past := ⟨_, stands_follow k ms⟩
  intro rest hrest
  rw [follow_append]
  generalize (follow k fresh ms).1 = w at hs hl hstands
  cases hstands <;> cases hs
  rename_i c hc
  rcases hc with rfl | ⟨s, rfl⟩
  · simp only [List.mem_cons, List.not_mem_nil, or_false] at hrest
    rcases hrest with rfl | rfl | rfl <;> rfl
  · cases hl

/-- **The verdict of a watch is that of the status which was collected from the child**, for every
order of the end of the child, the timer, the kill and the collection. A child that ends by itself
before a kill takes effect has its own status, whether or not the timer has fired; one that ends by
the kill is a timeout. As soon as the child has ended, its verdict is settled, and it does not
matter whether the wait or the timer wins: a child that has ended is collected at once, one that
ends by itself has its verdict also if the timer wins and a kill is sent, and it would be no other
verdict if the timer won against a child that has ended. -/
theorem verdict_exact (k : Task) (ms : List Move) :
    let w := (follow k fresh ms).1
    (∀ v, w.answer? = some (.ok v) →
      ∃ status, w.child? = some (.reaped status) ∧ w.timer? = some .dropped ∧
        v = status.verdict ∧ v ≠ .ignored ∧
        (Happens k ms (.quit status) ∧ (∀ s, ¬ Happens k ms (.fall s)) ∨
          Happens k ms (.fall status) ∧ (∀ s, ¬ Happens k ms (.quit s))) ∧
        (∀ s, Happens k ms (.quit s) → s = status ∧ (s.code? = some 0 → v = .success) ∧
          (s.code? = some 1 → v = .failed)) ∧
        ∀ s, Happens k ms (.fall s) → s = status ∧ v = .timeout) ∧
    (∀ status, w.end? = some status → ∀ rest v,
      (follow k fresh (ms ++ rest)).1.answer? = some (.ok v) → v = status.verdict) ∧
    (∀ status, w.stage = .racing → w.child? = some (.ended status) →
      (follow k fresh (ms ++ [.collect none])).1.answer? = some (.ok status.verdict) ∧
        (follow k fresh (ms ++ [.ring, .kill none, .collect none])).1.answer? =
          some (.ok status.verdict)) ∧
    (∀ status, w.stage = .racing → w.isAlive = true →
      ∀ rest ∈ ([[.quit status, .collect none], [.ring, .quit status, .kill none, .collect none],
          [.ring, .kill none, .quit status, .collect none]] : List (List Move)),
        (follow k fresh (ms ++ rest)).1.answer? = some (.ok status.verdict)) ∧
    (∀ status, w.stage = .racing → w.child? = some (.ended status) →
      (follow k { w with stage := .killing, timer? := some .fired }
        [.kill none, .collect none]).1.answer? = some (.ok status.verdict)) ∧
    ∀ raw : Int32,
      let exited := raw.toInt % 128 = 0
      let code := raw.toInt / 256 % 256
      ((⟨raw⟩ : WaitStatus).verdict = .success ↔ exited ∧ code = 0) ∧
        ((⟨raw⟩ : WaitStatus).verdict = .failed ↔ exited ∧ code = 1) ∧
        ((⟨raw⟩ : WaitStatus).verdict = .timeout ↔ ¬ (exited ∧ (code = 0 ∨ code = 1))) := by
  intro w
  refine ⟨fun v ha => ?_, fun status hend rest v => verdict_of_end hend rest,
    fun status => answer_of_race, fun status hs hl => answer_of_either hs hl status,
    fun status _ => answer_of_timer, WaitStatus.verdict_word⟩
  obtain ⟨status, hc, ht, rfl⟩ := (stands_follow k ms).collected_of_ok ha
  have hends := ends_follow k ms
  have hend : w.end? = some status := by
    unfold end?
    rw [hc]
  have hsame : ∀ {m s}, m.end? = some s → Happens k ms m → s = status := by
    intro m s hm h
    have hs := hends.told hm h
    rw [hend] at hs
    exact (Option.some.inj hs).symm
  refine ⟨status, hc, ht, rfl, WaitStatus.verdict_ne_ignored status, ?_, fun s h => ?_,
    fun s h => ?_⟩
  · obtain ⟨m, hm, h⟩ := hends.made hend
    cases m with
    | quit s =>
      cases hm
      exact Or.inl ⟨h, fun s' h' => nomatch hends.once rfl rfl h h'⟩
    | fall s =>
      cases hm
      exact Or.inr ⟨h, fun s' h' => nomatch hends.once rfl rfl h h'⟩
    | start | print | ring | kill | collect => cases hm
  · obtain rfl := hsame rfl h
    exact ⟨rfl, (WaitStatus.verdict_eq_success_iff s).mpr,
      (WaitStatus.verdict_eq_failed_iff s).mpr⟩
  · obtain rfl := hsame rfl h
    exact ⟨rfl, WaitStatus.verdict_of_signal (signal_of_happens_fall h)⟩

/-- A child that ends by itself after a kill was sent to it, one that ends by the kill, and one that
ends before its timer fires. -/
theorem verdict_exact_late_quit :
    let k : Task := ⟨⟨[]⟩, ⟨⟨[]⟩⟩, 1, 0⟩
    let sent : List Move := [.start none, .ring, .kill none]
    let late := follow k fresh (sent ++ [.quit (.exit 1), .collect none])
    let felled := follow k fresh (sent ++ [.fall .killed, .collect none])
    let early := follow k fresh [.start none, .quit (.exit 0), .ring, .kill none, .collect none]
    (late.1.answer? = some (.ok .failed) ∧ late.1.child? = some (.reaped (.exit 1))) ∧
      (felled.1.answer? = some (.ok .timeout) ∧ felled.1.child? = some (.reaped .killed)) ∧
      early.1.answer? = some (.ok .success) := by
  intro k sent late felled early
  obtain ⟨_, hlate, -, -, -, -, hquit, -⟩ :=
    (verdict_exact k (sent ++ [.quit (.exit 1), .collect none])).1 .failed rfl
  obtain ⟨_, hfelled, -, -, -, -, -, hfall⟩ :=
    (verdict_exact k (sent ++ [.fall .killed, .collect none])).1 .timeout rfl
  obtain ⟨rfl, -⟩ := hquit (.exit 1) ⟨sent, [.collect none], rfl, rfl, _, _, rfl⟩
  obtain ⟨rfl, -⟩ := hfall .killed ⟨sent, [.collect none], rfl, rfl, _, _, rfl⟩
  have hrace := (verdict_exact k [.start none, .quit (.exit 0)]).2.2.1 (.exit 0) rfl rfl
  exact ⟨⟨rfl, hlate⟩, ⟨rfl, hfelled⟩, hrace.2⟩

end Watch

end SuiteRunner.Supervision
