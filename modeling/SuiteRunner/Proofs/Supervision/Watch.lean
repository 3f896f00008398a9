import Mathlib.Data.List.Induction
import SuiteRunner.Supervision

/-!
# What a watch goes through

The moves of the child, its timer and the system come one after another, and one that cannot come
when it does changes nothing. So a watch goes through few points, whatever comes.

* `Step`: the moves that can come, with what each makes of the watch and what happens with it;
* `Stands`: the points of a watch, each with all that was done to its child so far;
* **`stands_follow`**: after any moves a watch stands at one of its points.
-/

namespace SuiteRunner.Supervision.Watch

variable {k : Task} {w w' : Watch} {m : Move} {es : List Event}

/-! ## One move -/

/-- The move `m` can come: it makes `w'` of `w`, and `es` happens with it. -/
inductive Step (k : Task) (w : Watch) : Move → Watch → List Event → Prop
  | started (hs : w.stage = .starting) :
      Step k w (.start none) ⟨.racing, some .running, some .armed⟩
        [.child k.child .spawned, .noted (.spawned k.test.path), .child k.child .timerArmed]
  | refused (cause : Fault) (hs : w.stage = .starting) :
      Step k w (.start (some cause))
        { w with stage := .over (.error (.spawnFailed k.executable cause)) } []
  | printed (stream : Stream) (bytes : Bytes) (ha : w.isAlive = true) :
      Step k w (.print stream bytes) w [.relayed stream bytes]
  | quit (status : WaitStatus) (ha : w.isAlive = true) :
      Step k w (.quit status) { w with child? := some (.ended status) } []
  | rang (hs : w.stage = .racing) (ha : w.isAlive = true) :
      Step k w .ring { w with stage := .killing, timer? := some .fired }
        [.child k.child .timerFired, .noted (.budgetExceeded k.test.path k.budgetMs)]
  | killed (hs : w.stage = .killing) :
      Step k w (.kill none) { w with stage := .collecting, child? := w.child?.map killChild }
        [.child k.child .killed]
  | spared (cause : Fault) (hs : w.stage = .killing) :
      Step k w (.kill (some cause)) (giveUp k w false cause).1 (giveUp k w false cause).2
  | fell (status : WaitStatus) (hc : w.child? = some .doomed) (hs : status.signal ≠ 0) :
      Step k w (.fall status) { w with child? := some (.ended status) } []
  | collected (status : WaitStatus) (hs : w.stage = .racing)
      (hc : w.child? = some (.ended status)) :
      Step k w (.collect none) (close k status false).1 (close k status false).2
  | collectedLate (status : WaitStatus) (hs : w.stage = .collecting)
      (hc : w.child? = some (.ended status)) :
      Step k w (.collect none) (close k status true).1 (close k status true).2
  | lost (cause : Fault) (hs : w.stage = .racing) :
      Step k w (.collect (some cause)) (giveUp k w false cause).1 (giveUp k w false cause).2
  | lostLate (cause : Fault) (hs : w.stage = .collecting) :
      Step k w (.collect (some cause)) (giveUp k w true cause).1 (giveUp k w true cause).2

theorem step_of_eq (h : step k w m = some (w', es)) : Step k w m w' es := by
  cases m with
  | start refusal? =>
    cases refusal? with
    | none | some cause =>
      simp only [step] at h
      split at h <;> cases h
      constructor
      assumption
  | print | quit =>
    simp only [step] at h
    split at h <;> cases h
    constructor
    assumption
  | ring =>
    simp only [step] at h
    split at h
    · split at h <;> cases h
      exact .rang ‹_› ‹_›
    · cases h
  | kill refusal? =>
    cases refusal? with
    | none | some cause =>
      simp only [step] at h
      split at h <;> cases h
      constructor
      assumption
  | fall status =>
    simp only [step] at h
    split at h <;> cases h
    rename_i hf
    exact .fell status hf.1 hf.2
  | collect fault? =>
    cases fault? with
    | none =>
      simp only [step] at h
      split at h <;> cases h
      · exact .collected _ ‹_› ‹_›
      · exact .collectedLate _ ‹_› ‹_›
    | some cause =>
      simp only [step] at h
      split at h <;> cases h
      · exact .lost cause ‹_›
      · exact .lostLate cause ‹_›

/-! ## Moves one after another -/

/-- The watch goes on, and the move `m` can come. -/
def Admits (k : Task) (w : Watch) (m : Move) : Prop :=
  w.answer? = none ∧ ∃ w' es, step k w m = some (w', es)

theorem follow_of_over {answer : Except Failure Verdict} (h : w.answer? = some answer)
    (ms : List Move) : follow k w ms = (w, []) := by
  cases ms with
  | nil => rfl
  | cons m ms =>
    unfold follow
    rw [h]

theorem follow_of_step (ha : w.answer? = none) (h : step k w m = some (w', es))
    (ms : List Move) : follow k w (m :: ms) = ((follow k w' ms).1, es ++ (follow k w' ms).2) := by
  rw [follow]
  simp only [ha, h]

theorem follow_of_not_admits (h : ¬ Admits k w m) (ms : List Move) :
    follow k w (m :: ms) = follow k w ms := by
  cases ha : w.answer? with
  | some answer => rw [follow_of_over ha, follow_of_over ha]
  | none =>
    cases hs : step k w m with
    | some r => exact absurd ⟨ha, r.1, r.2, hs⟩ h
    | none =>
      rw [follow]
      simp only [ha, hs]

theorem follow_append (w : Watch) (as bs : List Move) :
    follow k w (as ++ bs) =
      ((follow k (follow k w as).1 bs).1,
        (follow k w as).2 ++ (follow k (follow k w as).1 bs).2) := by
  induction as generalizing w with
  | nil => rfl
  | cons m as ih =>
    rw [List.cons_append]
    by_cases h : Admits k w m
    · obtain ⟨ha, w', es, hs⟩ := h
      rw [follow_of_step ha hs, follow_of_step ha hs, ih w', List.append_assoc]
    · rw [follow_of_not_admits h, follow_of_not_admits h, ih w]

/-- **What holds of a new watch and is kept by every move holds after any moves**: a move that
cannot come has to keep it as well as one that can. -/
theorem follow_induction {P : List Move → Watch × List Event → Prop} (hfresh : P [] (fresh, []))
    (hstill : ∀ ms m, P ms (follow k fresh ms) → ¬ Admits k (follow k fresh ms).1 m →
      P (ms ++ [m]) (follow k fresh ms))
    (hstep : ∀ ms m w' es', P ms (follow k fresh ms) → (follow k fresh ms).1.answer? = none →
      step k (follow k fresh ms).1 m = some (w', es') →
      P (ms ++ [m]) (w', (follow k fresh ms).2 ++ es'))
    (ms : List Move) : P ms (follow k fresh ms) := by
  induction ms using List.reverseRecOn with
  | nil => exact hfresh
  | append_singleton ms m ih =>
    rw [follow_append]
    by_cases h : Admits k (follow k fresh ms).1 m
    · obtain ⟨ha, w', es, hs⟩ := h
      rw [follow_of_step ha hs]
      simpa only [follow, List.append_nil] using hstep ms m w' es ih ha hs
    · rw [follow_of_not_admits h]
      simpa only [follow, List.append_nil] using hstill ms m ih h

/-! ## The points of a watch -/

/-- Where a watch stands, and all that was done to its child so far. -/
inductive Stands (k : Task) : Watch → List ChildEvent → Prop
  | starting : Stands k fresh []
  | racing {c : Child} (hc : c = .running ∨ ∃ status, c = .ended status) :
      Stands k ⟨.racing, some c, some .armed⟩ [.spawned, .timerArmed]
  | killing {c : Child} (hc : c = .running ∨ ∃ status, c = .ended status) :
      Stands k ⟨.killing, some c, some .fired⟩ [.spawned, .timerArmed, .timerFired]
  | collecting {c : Child} (hc : c = .doomed ∨ ∃ status, c = .ended status) :
      Stands k ⟨.collecting, some c, some .fired⟩ [.spawned, .timerArmed, .timerFired, .killed]
  | refused (cause : Fault) :
      Stands k ⟨.over (.error (.spawnFailed k.executable cause)), none, none⟩ []
  | collected (status : WaitStatus) :
      Stands k ⟨.over (.ok status.verdict), some (.reaped status), some .dropped⟩
        [.spawned, .timerArmed, .reaped status, .timerDropped]
  | collectedLate (status : WaitStatus) :
      Stands k ⟨.over (.ok status.verdict), some (.reaped status), some .dropped⟩
        [.spawned, .timerArmed, .timerFired, .killed, .reaped status, .timerDropped]
  | lost (c : Child) (cause : Fault) :
      Stands k ⟨.over (k.lost cause), some c, some .dropped⟩
        [.spawned, .timerArmed, .timerDropped, .abandoned]
  | spared (c : Child) (cause : Fault) :
      Stands k ⟨.over (k.lost cause), some c, some .dropped⟩
        [.spawned, .timerArmed, .timerFired, .timerDropped, .abandoned]
  | lostLate (c : Child) (cause : Fault) :
      Stands k ⟨.over (k.lost cause), some c, some .dropped⟩
        [.spawned, .timerArmed, .timerFired, .killed, .timerDropped]

theorem doneTo_endNotes (c : Nat) (status : WaitStatus) (killed : Bool) :
    doneTo c (k.endNotes status killed) = [] := by
  unfold Task.endNotes
  split <;> rfl

theorem doneTo_close (status : WaitStatus) (killed : Bool) :
    doneTo k.child (close k status killed).2 = [.reaped status, .timerDropped] := by
  have h : doneTo k.child (k.endNotes status killed) = [] := doneTo_endNotes k.child status killed
  simp [close, doneTo_cons, Event.doneTo?, h]

theorem doneTo_giveUp (killed : Bool) (cause : Fault) :
    doneTo k.child (giveUp k w killed cause).2 =
      if killed then [.timerDropped] else [.timerDropped, .abandoned] := by
  cases killed <;> simp [giveUp, doneTo, Event.doneTo?]

/-- **A move leads from one point of a watch to another.** -/
theorem Stands.step {past : List ChildEvent} (h : Stands k w past) (ha : w.answer? = none)
    (hm : Step k w m w' es) : Stands k w' (past ++ doneTo k.child es) := by
  cases h with
  | starting =>
    cases hm with
    | started hs => simpa [doneTo_cons, Event.doneTo?] using .racing (Or.inl rfl)
    | refused cause hs => exact .refused cause
    | _ => simp_all [fresh, isAlive]
  | racing hc =>
    cases hm with
    | printed stream bytes hl => simpa [doneTo_cons, Event.doneTo?] using .racing hc
    | quit status hl => simpa using .racing (Or.inr ⟨status, rfl⟩)
    | rang hs ha => simpa [doneTo_cons, Event.doneTo?] using .killing hc
    | collected status hs hc =>
      rw [doneTo_close]
      exact .collected status
    | lost cause hs =>
      rw [doneTo_giveUp]
      exact .lost _ cause
    | _ => simp_all
  | killing hc =>
    cases hm with
    | printed stream bytes hl => simpa [doneTo_cons, Event.doneTo?] using .killing hc
    | quit status hl => simpa using .killing (Or.inr ⟨status, rfl⟩)
    | killed hs =>
      rcases hc with rfl | ⟨status, rfl⟩
      · simpa [doneTo_cons, Event.doneTo?] using .collecting (Or.inl rfl)
      · simpa [doneTo_cons, Event.doneTo?] using .collecting (Or.inr ⟨status, rfl⟩)
    | spared cause hs =>
      rw [doneTo_giveUp]
      exact .spared _ cause
    | _ => simp_all
  | collecting hc =>
    cases hm with
    | printed stream bytes hl => simpa [doneTo_cons, Event.doneTo?] using .collecting hc
    | quit status hl => simpa using .collecting (Or.inr ⟨status, rfl⟩)
    | fell status hd hs => simpa using .collecting (Or.inr ⟨status, rfl⟩)
    | collectedLate status hs hc =>
      rw [doneTo_close]
      exact .collectedLate status
    | lostLate cause hs =>
      rw [doneTo_giveUp]
      exact .lostLate _ cause
    | _ => simp_all
  | refused | collected | collectedLate | lost | spared | lostLate => cases ha

/-- **After any moves a watch stands at one of its points.** -/
theorem stands_follow (k : Task) (ms : List Move) :
    Stands k (follow k fresh ms).1 (doneTo k.child (follow k fresh ms).2) := by
  refine follow_induction (P := fun _ r => Stands k r.1 (doneTo k.child r.2)) .starting ?_ ?_ ms
  · exact fun _ _ h _ => h
  · intro ms m w' es h ha hs
    simp only [doneTo_append]
    exact h.step ha (step_of_eq hs)

end SuiteRunner.Supervision.Watch
