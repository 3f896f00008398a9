import Mathlib
import SuiteRunner.Proofs.Tally
import SuiteRunner.Proofs.Text.Digits
import SuiteRunner.Tally.Ledger

/-!
# What a summary tells

A tally forgets the order of what it was told, and its summary forgets nothing more.

* `Ledger.toList_ofHistory`: the map of a ledger has an entry for each verdict, and none is ever
  lost or added; so **a ledger says what a tally says** (`Ledger.tally_ofHistory`,
  `Ledger.summary_eq`);
* `ofHistory_eq_iff_perm`: **two histories with one tally are the same but for their order**;
* `summary_injective`: two tallies with one summary are the same. Each number in the text ends
  where its word starts (`counted_inj`), and the total gives away the count that may be left out;
* **`summary_tells_history`**: all of this for histories.
-/

namespace SuiteRunner

theorem Verdict.mem_all (v : Verdict) : v ∈ all := by
  cases v <;> decide

/-! ## Counts in a map -/

namespace Ledger

variable {es : List Tally.Entry}

theorem getElem?_empty (v : Verdict) : empty.counts[v]? = some 0 := by
  refine Std.TreeMap.getElem?_ofList_of_mem Std.ReflCmp.compare_self ?_ ?_
  · decide
  · exact List.mem_map.mpr ⟨v, v.mem_all, rfl⟩

theorem getElem?_add {l : Ledger} {f : Verdict → Nat} (h : ∀ v, l.counts[v]? = some (f v))
    (e : Tally.Entry) (v : Verdict) :
    (l.add e).counts[v]? = some (f v + [e].count (some v)) := by
  cases e with
  | none => exact h v
  | some w =>
    show (l.counts.alter w _)[v]? = _
    rw [Std.TreeMap.getElem?_alter, h w, h v]
    by_cases hw : w = v
    · subst hw
      simp
    · simp [hw]

/-- **No entry is lost, and each counts its verdict.** -/
theorem getElem?_foldl_add {l : Ledger} {f : Verdict → Nat} (h : ∀ v, l.counts[v]? = some (f v))
    (es : List Tally.Entry) (v : Verdict) :
    (es.foldl add l).counts[v]? = some (f v + es.count (some v)) := by
  induction es generalizing l f with
  | nil => exact h v
  | cons e es ih =>
    rw [List.foldl_cons, ih (getElem?_add h e), Tally.count_cons_add e es, Nat.add_assoc]

theorem getElem?_ofHistory (es : List Tally.Entry) (v : Verdict) :
    (ofHistory es).counts[v]? = some (es.count (some v)) :=
  (getElem?_foldl_add getElem?_empty es v).trans (congrArg some (Nat.zero_add _))

theorem errored_foldl_add (l : Ledger) (es : List Tally.Entry) :
    (es.foldl add l).errored = l.errored + es.count none := by
  induction es generalizing l with
  | nil => rfl
  | cons e es ih =>
    have hadd : (l.add e).errored = l.errored + [e].count none := by
      cases e <;> rfl
    rw [List.foldl_cons, ih, hadd, Tally.count_cons_add e es, Nat.add_assoc]

theorem errored_ofHistory (es : List Tally.Entry) : (ofHistory es).errored = es.count none :=
  (errored_foldl_add empty es).trans (Nat.zero_add _)

/-- **The map has the four entries, in order, and no others.** -/
theorem toList_ofHistory (es : List Tally.Entry) :
    (ofHistory es).counts.toList = Verdict.all.map fun v => (v, es.count (some v)) := by
  have hsorted : (ofHistory es).counts.toList.Pairwise fun a b => compare a.1 b.1 = .lt :=
    Std.TreeMap.ordered_keys_toList
  have hranks : Verdict.all.Pairwise fun v w => compare v w = .lt := by decide
  have hall : (Verdict.all.map fun v => (v, es.count (some v))).Pairwise
      fun a b => compare a.1 b.1 = .lt := List.pairwise_map.mpr hranks
  have hne : ∀ a b : Verdict × Nat, compare a.1 b.1 = .lt → a ≠ b := by
    rintro a _ hlt rfl
    rw [Std.compare_self] at hlt
    cases hlt
  have hmem : ∀ a, a ∈ (ofHistory es).counts.toList ↔
      a ∈ Verdict.all.map fun v => (v, es.count (some v)) := by
    rintro ⟨v, n⟩
    rw [Std.TreeMap.mem_toList_iff_getElem?_eq_some, getElem?_ofHistory, List.mem_map]
    constructor
    · rintro ⟨⟩
      exact ⟨v, v.mem_all, rfl⟩
    · rintro ⟨w, -, ⟨⟩⟩
      rfl
  have hperm := (List.perm_ext_iff_of_nodup (hsorted.imp (hne _ _)) (hall.imp (hne _ _))).mpr hmem
  have hasymm : ∀ a b : Verdict × Nat, compare a.1 b.1 = .lt → compare b.1 a.1 ≠ .lt :=
    fun a b h => Std.OrientedCmp.not_lt_of_lt h
  exact hperm.eq_of_pairwise (fun a b _ _ hab hba => absurd hba (hasymm a b hab)) hsorted hall

theorem count_ofHistory (es : List Tally.Entry) (v : Verdict) :
    (ofHistory es).count v = es.count (some v) := by
  unfold count
  rw [Std.TreeMap.getD_eq_getD_getElem?, getElem?_ofHistory, Option.getD_some]

/-- **A field for each verdict says as much as the map.** -/
theorem tally_ofHistory (es : List Tally.Entry) :
    (ofHistory es).counts.toList = (Verdict.all.map fun v => (v, (Tally.ofHistory es).count v)) ∧
    (∀ v, (ofHistory es).count v = (Tally.ofHistory es).count v) ∧
    (ofHistory es).errored = (Tally.ofHistory es).errored ∧
    (ofHistory es).total = (Tally.ofHistory es).total := by
  have hcount : ∀ v, (Tally.ofHistory es).count v = es.count (some v) := Tally.count_ofHistory es
  refine ⟨?_, fun v => ?_, ?_, ?_⟩
  · simp only [toList_ofHistory, hcount]
  · rw [count_ofHistory, hcount]
  · rw [errored_ofHistory, Tally.errored_ofHistory]
  · unfold total
    rw [toList_ofHistory, errored_ofHistory, List.map_map, Tally.total, Tally.errored_ofHistory]
    simp only [← hcount]
    simp only [Verdict.all, List.map_cons, List.map_nil, List.sum_cons, List.sum_nil, Tally.count,
      Function.comp_apply]
    omega

theorem total_ofHistory (es : List Tally.Entry) : (ofHistory es).total = es.length := by
  rw [(tally_ofHistory es).2.2.2, Tally.total_ofHistory]

/-- **A summary from a map is that from fields.** -/
theorem summary_eq (es : List Tally.Entry) :
    (ofHistory es).summary = (Tally.ofHistory es).summary := by
  obtain ⟨-, hcount, herr, htotal⟩ := tally_ofHistory es
  have hall : (Verdict.all.map fun v => s!"{(ofHistory es).count v} {v.tallyLabel}") =
      Verdict.all.map (Tally.ofHistory es).part :=
    List.map_congr_left fun v _ => by rw [hcount, Tally.part]
  have hne : Verdict.all.map (Tally.ofHistory es).part ≠ [] := List.cons_ne_nil _ _
  unfold summary parts Tally.summary Tally.erroredPart
  rw [hall, htotal, herr]
  split
  · rw [List.append_nil, String.append_empty]
  · rw [String.intercalate_append_of_ne_nil hne (List.cons_ne_nil _ _),
      String.intercalate_singleton]
    simp only [String.append_assoc]
    rfl

end Ledger

namespace Tally

variable {es fs : List Entry} {t u : Tally}

/-! ## Histories with one tally -/

/-- The counts are all that there is to a tally. -/
theorem ext_count (h : ∀ v, t.count v = u.count v) (he : t.errored = u.errored) : t = u := by
  have hs := h .success
  have hf := h .failed
  have ht := h .timeout
  have hi := h .ignored
  cases t
  cases u
  simp_all only [count]

/-- **A tally tells a history but for its order.** -/
theorem ofHistory_eq_iff_perm : ofHistory es = ofHistory fs ↔ es.Perm fs := by
  rw [List.perm_iff_count]
  constructor
  · intro h e
    cases e with
    | none => rw [← errored_ofHistory, ← errored_ofHistory, h]
    | some v => rw [← count_ofHistory, ← count_ofHistory, h]
  · intro h
    refine ext_count (fun v => ?_) ?_
    · rw [count_ofHistory, count_ofHistory, h]
    · rw [errored_ofHistory, errored_ofHistory, h]

/-! ## Texts of numbers -/

/-- Numbers, each with a word behind it. -/
def counted (ns : List Nat) (words : List String) : List Char :=
  (List.zipWith (fun n w => Nat.toDigits 10 n ++ w.toList) ns words).flatten

/-- A number ends where something else than a digit comes. -/
theorem toDigits_append_inj {m n : Nat} {xs ys : List Char}
    (hx : ∀ c ∈ xs.head?, c.isDigit = false) (hy : ∀ c ∈ ys.head?, c.isDigit = false)
    (h : Nat.toDigits 10 m ++ xs = Nat.toDigits 10 n ++ ys) : m = n ∧ xs = ys := by
  have hdigits : ∀ k, ∀ c ∈ Nat.toDigits 10 k, c.isDigit = true := fun k c hc =>
    Nat.isDigit_of_mem_toDigits (by decide) (by decide) hc
  have hruns := congrArg (List.takeWhile Char.isDigit) h
  rw [takeWhile_run (hdigits m) hx, takeWhile_run (hdigits n) hy] at hruns
  have hrests := congrArg (List.dropWhile Char.isDigit) h
  rw [dropWhile_run (hdigits m) hx, dropWhile_run (hdigits n) hy] at hrests
  have hnumbers := congrArg (ofDigits? 10) hruns
  rw [ofDigits?_toDigits (by decide) (by decide), ofDigits?_toDigits (by decide) (by decide)]
    at hnumbers
  exact ⟨Option.some.inj hnumbers, hrests⟩

/-- **Words that start with no digit keep the numbers apart**, whatever comes behind the last
word. -/
theorem counted_inj {words : List String}
    (hwords : ∀ w ∈ words, ∃ c cs, w.toList = c :: cs ∧ c.isDigit = false) {ms ns : List Nat}
    (hm : ms.length = words.length) (hn : ns.length = words.length) {xs ys : List Char}
    (h : counted ms words ++ xs = counted ns words ++ ys) : ms = ns := by
  induction words generalizing ms ns with
  | nil => rw [List.length_eq_zero_iff.mp hm, List.length_eq_zero_iff.mp hn]
  | cons w words ih =>
    obtain ⟨m, ms, rfl⟩ := List.exists_cons_of_length_eq_add_one hm
    obtain ⟨n, ns, rfl⟩ := List.exists_cons_of_length_eq_add_one hn
    obtain ⟨c, cs, hw, hc⟩ := hwords w List.mem_cons_self
    have hstep : ∀ k ks zs, counted (k :: ks) (w :: words) ++ zs =
        Nat.toDigits 10 k ++ (w.toList ++ (counted ks words ++ zs)) := fun k ks zs => by
      simp only [counted, List.zipWith_cons_cons, List.flatten_cons, List.append_assoc]
    have hend : ∀ zs : List Char, ∀ d ∈ (w.toList ++ zs).head?, d.isDigit = false := by
      intro zs d hd
      rw [hw] at hd
      cases hd
      exact hc
    rw [hstep, hstep] at h
    obtain ⟨rfl, hrest⟩ := toDigits_append_inj (hend _) (hend _) h
    rw [ih (fun v hv => hwords v (List.mem_cons_of_mem w hv)) (Nat.succ.inj hm) (Nat.succ.inj hn)
      (List.append_cancel_left hrest)]

/-! ## Summaries -/

/-- The words of a summary, each behind its number. -/
def summaryWords : List String :=
  [" tests run: ", " successful, ", " failed, ", " timed-out, ", " ignored"]

theorem toList_summary (t : Tally) :
    t.summary.toList =
      counted [t.total, t.success, t.failed, t.timeout, t.ignored] summaryWords ++
        t.erroredPart.toList := by
  simp [summary, part, Verdict.all, Verdict.tallyLabel, count, counted, summaryWords,
    ToString.toString, Nat.repr]

/-- **A summary tells its tally.** -/
theorem summary_injective (h : t.summary = u.summary) : t = u := by
  have htext := congrArg String.toList h
  rw [toList_summary, toList_summary] at htext
  have hwords : ∀ w ∈ summaryWords, ∃ c cs, w.toList = c :: cs ∧ c.isDigit = false := by
    intro w hw
    simp only [summaryWords, List.mem_cons, List.not_mem_nil, or_false] at hw
    rcases hw with rfl | rfl | rfl | rfl | rfl <;> exact ⟨_, _, rfl, rfl⟩
  have hnumbers := counted_inj hwords rfl rfl htext
  simp only [List.cons.injEq, and_true] at hnumbers
  obtain ⟨htotal, hs, hf, ht, hi⟩ := hnumbers
  -- the total is there in any case, so the count that may be left out is what is missing in it
  have he : t.errored = u.errored := by
    unfold total at htotal
    omega
  refine ext_count (fun v => ?_) he
  cases v with
  | success => exact hs
  | failed => exact hf
  | timeout => exact ht
  | ignored => exact hi

/-- **What a summary tells of a history.** Two histories have one tally, and one summary, if and
only if one is the other in another order. The tally counts each verdict and the tests that could
not be read, and its total is the length of the history, so only the tally of nothing is that of
an empty history. Kept in a map, the counts are four entries, one for each verdict, and all that is
asked of the map has the same answer. -/
theorem summary_tells_history (es fs : List Entry) :
    List.TFAE [es.Perm fs, ofHistory es = ofHistory fs,
      (ofHistory es).summary = (ofHistory fs).summary,
      (Ledger.ofHistory es).counts.toList = (Ledger.ofHistory fs).counts.toList ∧
        (Ledger.ofHistory es).errored = (Ledger.ofHistory fs).errored] ∧
    (Ledger.ofHistory es).counts.toList =
      (Verdict.all.map fun v => (v, (ofHistory es).count v)) ∧
    (∀ v, (ofHistory es).count v = es.count (some v)) ∧
    (ofHistory es).errored = es.count none ∧ (ofHistory es).total = es.length ∧
    (ofHistory es = empty ↔ es = []) ∧
    (∀ v, (Ledger.ofHistory es).count v = es.count (some v)) ∧
    (Ledger.ofHistory es).errored = es.count none ∧
    (Ledger.ofHistory es).total = es.length ∧
    (Ledger.ofHistory es).summary = (ofHistory es).summary := by
  refine ⟨?_, ?_, count_ofHistory es, errored_ofHistory es, total_ofHistory es, ?_,
    Ledger.count_ofHistory es, Ledger.errored_ofHistory es, Ledger.total_ofHistory es,
    Ledger.summary_eq es⟩
  · tfae_have 1 ↔ 2 := ofHistory_eq_iff_perm.symm
    tfae_have 2 → 3 := fun h => congrArg summary h
    tfae_have 3 → 2 := summary_injective
    tfae_have 2 → 4 := fun h => by
      obtain ⟨hes, -, heserr, -⟩ := Ledger.tally_ofHistory es
      obtain ⟨hfs, -, hfserr, -⟩ := Ledger.tally_ofHistory fs
      rw [hes, hfs, heserr, hfserr, h]
      exact ⟨rfl, rfl⟩
    tfae_have 4 → 1 := fun ⟨hcounts, herr⟩ => by
      rw [Ledger.errored_ofHistory, Ledger.errored_ofHistory] at herr
      rw [Ledger.toList_ofHistory, Ledger.toList_ofHistory] at hcounts
      refine List.perm_iff_count.mpr fun e => ?_
      cases e with
      | none => exact herr
      | some v => exact congrArg Prod.snd (List.map_inj_left.mp hcounts v v.mem_all)
    tfae_finish
  · exact (Ledger.tally_ofHistory es).1
  · rw [show empty = ofHistory [] from rfl, ofHistory_eq_iff_perm, List.perm_nil]

/-- A test that could not be read is told at the end, and only if there is one. -/
example :
    (ofHistory [some .failed, none]).summary =
      "2 tests run: 0 successful, 1 failed, 0 timed-out, 0 ignored, 1 errored" := by
  cbv

end Tally

end SuiteRunner
