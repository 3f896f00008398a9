import SuiteRunner.Proofs.Supervision.Verdict

/-!
# What a watch warns of

A watch warns when the budget of its test is used up, and when a child that was not killed ended in
a way that counts as a timeout. Which of the two an operator sees tells who ended the child.

* `warnings`: the entries of the journal that are for every operator;
* `warnings_follow`: after any moves, the warnings are those that the timer and the collected status
  call for (`calledFor`);
* `fired_iff_happens`: the timer has fired iff the timer won the race in one of the moves;
* **`quits_late`**: a child that ended by itself although its timer fired did so after it;
* **`Answered.warnings_eq`**: the warnings of a watch that answers with a verdict.
-/

namespace SuiteRunner

/-- The entries of the journal that are warnings, in order. -/
def warnings (es : List Event) : List Note := (journal es).filter fun n => n.level == .warning

theorem warnings_append (as bs : List Event) :
    warnings (as ++ bs) = warnings as ++ warnings bs := by
  simp only [warnings, journal, List.filterMap_append, List.filter_append]

/-- What is not noted is not warned of. -/
theorem warnings_of_silent {es : List Event} (h : ∀ e ∈ es, e.noted? = none) :
    warnings es = [] := by
  have hj : journal es = [] := List.filterMap_eq_nil_iff.mpr h
  rw [warnings, hj]
  rfl

namespace Supervision.Watch

variable {k : Task} {w w' : Watch} {m : Move} {ms : List Move} {es : List Event}
  {past : List ChildEvent} {status : WaitStatus} {v : Verdict}

/-! ## Warnings -/

/-- The status that was collected. -/
def reaped? (w : Watch) : Option WaitStatus :=
  match w.child? with
  | some (.reaped status) => some status
  | _ => none

/-- The warnings that a watch calls for, by whether its timer has fired and by the status that was
collected. -/
def calledFor (k : Task) (fired : Bool) (status? : Option WaitStatus) : List Note :=
  (if fired then [.budgetExceeded k.test.path k.budgetMs] else []) ++
    match status? with
    | some status =>
      if status.verdict = .timeout ∧ fired = false then [.exitedAbnormally k.test.path status]
      else []
    | none => []

theorem warnings_close (killed : Bool) :
    warnings (close k status killed).2 =
      if status.verdict = .timeout ∧ killed = false then [.exitedAbnormally k.test.path status]
      else [] := by
  have hsplit : ∀ notes : List Event,
      warnings (.child k.child (.reaped status) :: .child k.child .timerDropped :: notes) =
        warnings notes := fun _ => rfl
  unfold close Task.endNotes
  rw [hsplit]
  cases killed with
  | false => cases status.verdict <;> rfl
  | true => cases status.verdict <;> rfl

theorem warnings_giveUp (killed : Bool) (cause : Fault) :
    warnings (giveUp k w killed cause).2 = [] := by
  cases killed <;> rfl

/-- Nothing was collected from a child that has not been collected. -/
theorem Stands.reaped?_eq_none (h : Stands k w past) (ha : w.answer? = none) :
    w.reaped? = none := by
  cases h with
  | starting => rfl
  | racing hc | killing hc => rcases hc with rfl | ⟨status, rfl⟩ <;> rfl
  | collecting hc => rcases hc with rfl | ⟨status, rfl⟩ <;> rfl
  | refused | collected | collectedLate | lost | spared | lostLate => cases ha

/-- The timer fires in a move iff the timer wins the race in it. -/
theorem Step.fired_iff (hm : Step k w m w' es) :
    .timerFired ∈ doneTo k.child es ↔ m = .ring := by
  cases hm with
  | collected | collectedLate => rw [doneTo_close]; simp
  | spared | lost | lostLate => rw [doneTo_giveUp]; simp
  | started | refused | printed | quit | rang | killed | fell =>
    simp [doneTo_cons, Event.doneTo?]

theorem Stands.not_fired (h : Stands k w past) (hs : w.stage = .racing) :
    .timerFired ∉ past := by
  cases h <;> cases hs
  simp

theorem Stands.fired (h : Stands k w past) (hs : w.stage = .collecting) : .timerFired ∈ past := by
  cases h <;> cases hs
  simp

theorem reaped?_killed (h : w.reaped? = none) (stage : Stage) (timer? : Option Timer) :
    (⟨stage, w.child?.map killChild, timer?⟩ : Watch).reaped? = none := by
  unfold reaped? at h ⊢
  cases hc : w.child? with
  | none => rfl
  | some c =>
    rw [hc] at h
    cases c with
    | running | doomed | ended => rfl
    | reaped status => cases h

/-- **A move adds the warnings that it calls for.** -/
theorem Stands.warnings_step (h : Stands k w past) (ha : w.answer? = none)
    (hm : Step k w m w' es) :
    calledFor k (decide (.timerFired ∈ past)) w.reaped? ++ warnings es =
      calledFor k (decide (.timerFired ∈ past ++ doneTo k.child es)) w'.reaped? := by
  have hnone : w.reaped? = none := h.reaped?_eq_none ha
  have hkeep : m ≠ .ring → decide (.timerFired ∈ past ++ doneTo k.child es) =
      decide (.timerFired ∈ past) := by
    intro hne
    rw [decide_eq_decide, List.mem_append, hm.fired_iff, or_iff_left hne]
  rw [hnone]
  cases hm with
  | rang hs =>
    have hbefore : decide (.timerFired ∈ past) = false := decide_eq_false (h.not_fired hs)
    have hafter : decide (.timerFired ∈ past ++ doneTo k.child [.child k.child .timerFired,
        .noted (.budgetExceeded k.test.path k.budgetMs)]) = true := by simp [doneTo, Event.doneTo?]
    have hring : (⟨.killing, w.child?, some .fired⟩ : Watch).reaped? = none := hnone
    rw [hbefore, hafter, hring]
    rfl
  | collected status hs hc =>
    rw [hkeep (by simp), decide_eq_false (h.not_fired hs), warnings_close]
    rfl
  | collectedLate status hs hc =>
    rw [hkeep (by simp), decide_eq_true (h.fired hs), warnings_close]
    rfl
  | killed hs =>
    rw [hkeep (by simp), reaped?_killed hnone]
    exact List.append_nil _
  | spared cause hs | lost cause hs | lostLate cause hs =>
    have hlost : ∀ killed, (giveUp k w killed cause).1.reaped? = none := fun _ => hnone
    rw [hkeep (by simp), hlost, warnings_giveUp, List.append_nil]
  | refused cause hs =>
    have hover : (⟨.over (.error (.spawnFailed k.executable cause)), w.child?, w.timer?⟩ :
        Watch).reaped? = none := hnone
    rw [hkeep (by simp), hover]
    exact List.append_nil _
  | printed stream bytes hl =>
    rw [hkeep (by simp), hnone]
    exact List.append_nil _
  | started hs | quit status hl | fell status hd hs =>
    rw [hkeep (by simp)]
    exact List.append_nil _

/-- **After any moves the warnings are those that are called for.** -/
theorem warnings_follow (k : Task) (ms : List Move) :
    warnings (follow k fresh ms).2 =
      calledFor k (decide (.timerFired ∈ doneTo k.child (follow k fresh ms).2))
        (follow k fresh ms).1.reaped? := by
  refine follow_induction (P := fun _ r => warnings r.2 =
    calledFor k (decide (.timerFired ∈ doneTo k.child r.2)) r.1.reaped?) rfl ?_ ?_ ms
  · exact fun _ _ h _ => h
  · intro ms m w' es h ha hs
    rw [warnings_append, h, doneTo_append,
      (stands_follow k ms).warnings_step ha (step_of_eq hs)]

/-! ## The race -/

/-- **The timer has fired** iff it won the race in one of the moves. -/
theorem fired_iff_happens (k : Task) (ms : List Move) :
    .timerFired ∈ doneTo k.child (follow k fresh ms).2 ↔ Happens k ms .ring := by
  refine follow_induction (P := fun ms r => .timerFired ∈ doneTo k.child r.2 ↔ Happens k ms .ring)
    ?_ ?_ ?_ ms
  · refine ⟨nofun, ?_⟩
    rintro ⟨pre, post, h, -⟩
    cases pre <;> cases h
  · intro ms m h hno
    rw [h, happens_concat]
    refine ⟨Or.inl, ?_⟩
    rintro (h | ⟨rfl, ha⟩)
    · exact h
    · exact absurd ha hno
  · intro ms m w' es h ha hs
    rw [doneTo_append, List.mem_append, h, happens_concat, (step_of_eq hs).fired_iff]
    refine or_congr_right ⟨fun hm => ⟨hm, ?_⟩, fun hm => hm.1⟩
    subst hm
    exact ⟨ha, w', es, hs⟩

/-- The child ends by itself with `status` in a move after the one in which the timer fires. -/
def QuitsLate (k : Task) (ms : List Move) (status : WaitStatus) : Prop :=
  ∃ pre mid post, ms = pre ++ .ring :: (mid ++ .quit status :: post) ∧
    Admits k (follow k fresh pre).1 .ring ∧
    Admits k (follow k fresh (pre ++ .ring :: mid)).1 (.quit status)

theorem end?_eq_none_of_alive (h : w.isAlive = true) : w.end? = none := by
  unfold isAlive at h
  unfold end?
  split at h <;> simp_all

/-- The timer wins only against a child that is alive. -/
theorem alive_of_admits_ring (h : Admits k w .ring) : w.isAlive = true := by
  obtain ⟨-, w', es, hs⟩ := h
  cases step_of_eq hs with
  | rang hs ha => exact ha

/-- **A child that ends by itself, and whose timer fires, ends after it.** -/
theorem quits_late (hring : Happens k ms .ring) (hquit : Happens k ms (.quit status)) :
    QuitsLate k ms status := by
  obtain ⟨pre, post, rfl, hring⟩ := hring
  obtain ⟨pre', post', heq, hquit⟩ := hquit
  rcases List.append_eq_append_iff.mp heq with ⟨mid, rfl, hmid⟩ | ⟨mid, rfl, hmid⟩
  · cases mid with
    | nil => cases hmid
    | cons m mid =>
      cases hmid
      exact ⟨pre, mid, post', rfl, hring, hquit⟩
  · -- otherwise it had ended when the timer won
    cases mid with
    | nil => cases hmid
    | cons m mid =>
      cases hmid
      have halive := alive_of_admits_ring hring
      have hend := (ends_follow k _).told (m := .quit status) rfl ⟨pre', mid, rfl, hquit⟩
      rw [end?_eq_none_of_alive halive] at hend
      cases hend

/-! ## A watch with a verdict -/

/-- What is known of a watch that answered with the verdict of `status`. -/
structure Answered (k : Task) (ms : List Move) (status : WaitStatus) : Prop where
  /-- The status was collected. -/
  collected : (follow k fresh ms).1.child? = some (.reaped status)
  answer : (follow k fresh ms).1.answer? = some (.ok status.verdict)

theorem answered_of_ok (ha : (follow k fresh ms).1.answer? = some (.ok v)) :
    ∃ status, Answered k ms status ∧ v = status.verdict := by
  obtain ⟨status, hc, -, rfl⟩ := (stands_follow k ms).collected_of_ok ha
  exact ⟨status, ⟨hc, ha⟩, rfl⟩

/-- **The warnings of a watch with a verdict.** -/
theorem Answered.warnings_eq (h : Answered k ms status) :
    warnings (follow k fresh ms).2 =
      calledFor k (decide (.timerFired ∈ doneTo k.child (follow k fresh ms).2)) (some status) := by
  have hreaped : (follow k fresh ms).1.reaped? = some status := by
    unfold reaped?
    rw [h.collected]
  rw [warnings_follow, hreaped]

/-- The kill was sent iff the timer has fired. -/
theorem Answered.killed_iff (h : Answered k ms status) :
    .killed ∈ doneTo k.child (follow k fresh ms).2 ↔
      .timerFired ∈ doneTo k.child (follow k fresh ms).2 := by
  have hstands := stands_follow k ms
  have ha := h.answer
  generalize (follow k fresh ms).1 = w, doneTo k.child (follow k fresh ms).2 = past at *
  cases hstands with
  | collected | collectedLate => simp
  | starting | racing | killing | collecting | refused | lost | spared | lostLate => cases ha

/-- **A child whose verdict is no timeout ended by itself**, whether or not a kill was sent. -/
theorem Answered.quit_of_ne_timeout (h : Answered k ms status) (hv : status.verdict ≠ .timeout) :
    Happens k ms (.quit status) ∧ ∀ s, ¬ Happens k ms (.fall s) := by
  have hends := ends_follow k ms
  have hend : (follow k fresh ms).1.end? = some status := by
    unfold end?
    rw [h.collected]
  have hfall : ∀ s, ¬ Happens k ms (.fall s) := by
    intro s hs
    have hsame := hends.told (m := .fall s) rfl hs
    rw [hend] at hsame
    cases hsame
    exact hv (WaitStatus.verdict_of_signal (signal_of_happens_fall hs))
  obtain ⟨m, hm, hhap⟩ := hends.made hend
  cases m with
  | quit s =>
    cases hm
    exact ⟨hhap, hfall⟩
  | fall s => exact absurd hhap (hfall s)
  | start | print | ring | kill | collect => cases hm

end Supervision.Watch

end SuiteRunner
