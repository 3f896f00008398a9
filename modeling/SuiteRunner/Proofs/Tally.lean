import SuiteRunner.Tally

/-!
# What a tally counts

A tally is told one entry for each test. **Every count is a number of entries**: of a verdict
(`count_ofHistory`), of tests that could not be read (`errored_ofHistory`), and of all entries
(`total_ofHistory`).
-/

namespace SuiteRunner.Tally

/-- A history counts its first entry and the others. -/
theorem count_cons_add (e : Entry) (es : List Entry) (x : Entry) :
    (e :: es).count x = [e].count x + es.count x := by
  rw [← List.count_append, List.singleton_append]

theorem count_add (t : Tally) (e : Entry) (v : Verdict) :
    (t.add e).count v = t.count v + [e].count (some v) := by
  cases e with
  | none => cases v <;> rfl
  | some w => cases w <;> cases v <;> rfl

theorem errored_add (t : Tally) (e : Entry) :
    (t.add e).errored = t.errored + [e].count none := by
  cases e with
  | none => rfl
  | some w => cases w <;> rfl

theorem total_add (t : Tally) (e : Entry) : (t.add e).total = t.total + 1 := by
  cases e with
  | none => rfl
  | some w =>
    cases w <;> simp only [add, record, total] <;> omega

theorem count_foldl_add (es : List Entry) (t : Tally) (v : Verdict) :
    (es.foldl add t).count v = t.count v + es.count (some v) := by
  induction es generalizing t with
  | nil => rfl
  | cons e es ih => rw [List.foldl_cons, ih, count_add, count_cons_add e es, Nat.add_assoc]

theorem errored_foldl_add (es : List Entry) (t : Tally) :
    (es.foldl add t).errored = t.errored + es.count none := by
  induction es generalizing t with
  | nil => rfl
  | cons e es ih => rw [List.foldl_cons, ih, errored_add, count_cons_add e es, Nat.add_assoc]

theorem total_foldl_add (es : List Entry) (t : Tally) :
    (es.foldl add t).total = t.total + es.length := by
  induction es generalizing t with
  | nil => rfl
  | cons e es ih =>
    rw [List.foldl_cons, ih, total_add, List.length_cons]
    omega

theorem count_ofHistory (es : List Entry) (v : Verdict) :
    (ofHistory es).count v = es.count (some v) := by
  have h : empty.count v = 0 := by cases v <;> rfl
  rw [ofHistory, count_foldl_add, h, Nat.zero_add]

theorem errored_ofHistory (es : List Entry) : (ofHistory es).errored = es.count none :=
  (errored_foldl_add es empty).trans (Nat.zero_add _)

theorem total_ofHistory (es : List Entry) : (ofHistory es).total = es.length :=
  (total_foldl_add es empty).trans (Nat.zero_add _)

end SuiteRunner.Tally
