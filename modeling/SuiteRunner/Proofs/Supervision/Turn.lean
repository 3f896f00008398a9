import SuiteRunner.Proofs.Event
import SuiteRunner.Proofs.Session.Passes
import SuiteRunner.Proofs.Supervision.Watch

/-!
# Turns under supervision

A test that is handed to the runner gets a watch over a child of its own, and the turn of any other
test does nothing to children. What a watch answers is fatal, unless it is the verdict of a child
that was collected.

* **`turn_stands`**: what a turn does to children, and the number of the next child;
* `isFatal_of_stands`: no watch answers with a failure that leaves the run going.
-/

namespace SuiteRunner.Supervision

open Session (Standing)

variable {σ : Type}

namespace Watch

variable {k : Task} {w w' : Watch} {m : Move} {es : List Event} {past : List ChildEvent}

theorem Step.doneTo_of_ne (h : Step k w m w' es) {c : Nat} (hc : k.child ≠ c) :
    doneTo c es = [] := by
  cases h with
  | spared cause hs | lost cause hs | lostLate cause hs =>
    simp [giveUp, doneTo_cons, Event.doneTo?, hc]
  | collected s hs hd | collectedLate s hs hd =>
    simp [close, doneTo_cons, Event.doneTo?, hc, doneTo_endNotes]
  | _ => simp [doneTo_cons, Event.doneTo?, hc]

/-- A watch acts on its own child only. -/
theorem doneTo_follow_of_ne (k : Task) (ms : List Move) {c : Nat} (hc : k.child ≠ c) :
    doneTo c (follow k fresh ms).2 = [] := by
  refine follow_induction (P := fun _ r => doneTo c r.2 = []) rfl ?_ ?_ ms
  · exact fun _ _ h _ => h
  · intro ms m w' es h _ hs
    rw [doneTo_append, h, (step_of_eq hs).doneTo_of_ne hc, List.append_nil]

/-- **A watch answers by a verdict or by a failure that stops the run.** -/
theorem isFatal_of_stands (h : Stands k w past) {failure : Failure}
    (ha : w.answer? = some (.error failure)) : failure.isFatal = true := by
  cases h <;> cases ha <;> rfl

theorem isSome_child_of_ok (h : Stands k w past) {v : Verdict}
    (ha : w.answer? = some (.ok v)) : w.child?.isSome = true := by
  cases h <;> cases ha <;> rfl

end Watch

open Watch (Stands)

/-- What a supervised runner answers and does is what a watch over the next child does. -/
theorem runner_stands (host : Host σ) (executable : Path) (budgetMs : Nat) (s : Watched σ)
    (t : Tree) (test : TestFile) :
    let r := runner host executable budgetMs s t test
    ∃ k w, Stands k w (doneTo s.next r.events) ∧ r.answer? = w.answer? ∧
      r.state.next = s.next + (if w.child?.isSome then 1 else 0) ∧
      ∀ c, s.next ≠ c → doneTo c r.events = [] := by
  intro r
  let k : Task := ⟨executable, test, budgetMs, s.next⟩
  let moves := (host s.state t executable budgetMs test).moves
  exact ⟨k, (Watch.fresh.follow k moves).1, Watch.stands_follow k moves, rfl, rfl,
    fun c hc => Watch.doneTo_follow_of_ne k moves hc⟩

/-- **What a turn does to children**: what a watch does to the next one. The turn of a test that is
not handed over is that of a watch before anything happened. -/
theorem turn_stands (host : Host σ) (executable : Path) (budgetMs : Nat)
    (p : Standing (Watched σ)) (test : TestFile) :
    let r := p.turn (runner host executable budgetMs) test
    ∃ k w, Stands k w (doneTo p.state.next r.events) ∧
      r.state.next = p.state.next + (if w.child?.isSome then 1 else 0) ∧
      (Unmarked p.tree test.path → r.answer? = w.answer?) ∧
      (¬ Unmarked p.tree test.path → w = Watch.fresh) ∧
      ∀ c, p.state.next ≠ c → doneTo c r.events = [] := by
  intro r
  by_cases hu : Unmarked p.tree test.path
  · obtain ⟨k, w, hw, ha, hn, ho⟩ := runner_stands host executable budgetMs p.state p.tree test
    have hr : r = _ := Session.turn_of_unmarked (runner host executable budgetMs) p.state p.tree
      test hu
    rw [hr]
    refine ⟨k, w, ?_, hn, fun _ => ha, fun hnot => absurd hu hnot, fun c hc => ?_⟩
    · simpa [doneTo_cons, Event.doneTo?] using hw
    · simpa [doneTo_cons, Event.doneTo?] using ho c hc
  · obtain ⟨answer, hr, -⟩ := Session.turn_of_not_unmarked (runner host executable budgetMs)
      p.state p.tree test hu
    have hr : r = _ := hr
    rw [hr]
    exact ⟨⟨executable, test, budgetMs, p.state.next⟩, Watch.fresh, .starting, rfl,
      fun h => absurd h hu, fun _ => rfl, fun c _ => rfl⟩

end SuiteRunner.Supervision
