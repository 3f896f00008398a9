import Mathlib
import SuiteRunner.Proofs.Discovery
import SuiteRunner.Proofs.Path.Normal

/-!
# Test files compared

Test files are compared by the components of their paths, and so are they hashed. Files that are the
same need not be written the same way.

* the order of test files is total, and agrees with their equality (`compare_eq_eq_iff`);
* `same_iff_normalize`: files are the same iff the normal forms of their paths are the same bytes;
* `Distinct.length_eq`: a list that has each file of another once is as long as there are normal
  forms in it. `distinct_eraseDups`, `distinct_ofList`: duplicates taken out by equality, or by
  hashing, leave such a list;
* `sort_filter`: files that are the same keep their order when they are sorted;
* **`comparison_coherent`**: all of this, for every path and every list of paths.
-/

namespace SuiteRunner

/-! ## Components in order -/

namespace Path.Component

instance : Std.TransOrd Component :=
  inferInstanceAs (Std.TransCmp (compareLex (compareOn rank) (compareOn text)))

theorem eq_of_rank_of_text {a b : Component} (hrank : a.rank = b.rank) (htext : a.text = b.text) :
    a = b := by
  cases a <;> cases b <;> simp_all [rank, text]

instance : Std.LawfulEqOrd Component where
  compare_self := compare_self _
  eq_of_compare {a b} h := by
    have h : compareLex (compareOn rank) (compareOn text) a b = .eq := h
    obtain ⟨hrank, htext⟩ := compareLex_eq_eq.mp h
    exact eq_of_rank_of_text (Std.LawfulEqOrd.eq_of_compare hrank)
      (Std.LawfulEqOrd.eq_of_compare htext)

end Path.Component

namespace TestFile

variable {a b c t : TestFile} {ts us : List TestFile}

/-! ## Order, equality and hashes -/

theorem compare_eq (a b : TestFile) :
    compare a b = compare a.path.components b.path.components := rfl

theorem beq_iff : (a == b) = true ↔ a.path.components = b.path.components := by
  show (a.path.components == b.path.components) = true ↔ _
  exact beq_iff_eq

instance : Std.TransOrd TestFile :=
  inferInstanceAs (Std.TransCmp (compareOn fun a : TestFile => a.path.components))

/-- **The order of test files has their equality.** -/
theorem compare_eq_eq_iff : compare a b = .eq ↔ (a == b) = true := by
  rw [compare_eq, Std.LawfulEqOrd.compare_eq_iff_eq, beq_iff]

instance : EquivBEq TestFile where
  rfl := beq_iff.mpr rfl
  symm h := beq_iff.mpr (beq_iff.mp h).symm
  trans h h' := beq_iff.mpr ((beq_iff.mp h).trans (beq_iff.mp h'))

instance : LawfulHashable TestFile where
  hash_eq a b h := by
    show hash a.path.components = hash b.path.components
    rw [beq_iff.mp h]

/-- **Files are the same** iff the normal forms of their paths are the same bytes. -/
theorem same_iff_normalize : (a == b) = true ↔ a.path.normalize = b.path.normalize :=
  beq_iff.trans Path.normalize_eq_iff.symm

/-! ## Each file once -/

/-- `us` has each file of `ts` once, and no other. -/
structure Distinct (ts us : List TestFile) : Prop where
  apart : us.Pairwise fun a b => (a == b) = false
  contains_iff : ∀ t, us.contains t = true ↔ ts.contains t = true

theorem contains_iff_normalize :
    ts.contains t = true ↔ t.path.normalize ∈ ts.map fun x => x.path.normalize := by
  rw [List.contains_iff_exists_mem_beq, List.mem_map]
  exact exists_congr fun x => and_congr_right fun _ => same_iff_normalize.trans eq_comm

theorem mem_normalize_of_contains (h : ∀ t, us.contains t = true → ts.contains t = true) {p : Path}
    (hp : p ∈ us.map fun x => x.path.normalize) : p ∈ ts.map fun x => x.path.normalize := by
  obtain ⟨t, -, rfl⟩ := List.mem_map.mp hp
  exact contains_iff_normalize.mp (h t (contains_iff_normalize.mpr hp))

/-- **There are as many different files as there are normal forms.** -/
theorem Distinct.length_eq (h : Distinct ts us) :
    us.length = (ts.map fun t => t.path.normalize).toFinset.card := by
  have hnodup : (us.map fun t => t.path.normalize).Nodup := by
    refine List.pairwise_map.mpr (h.apart.imp ?_)
    intro a b hab heq
    rw [same_iff_normalize.mpr heq] at hab
    cases hab
  have hsame : (us.map fun t => t.path.normalize).toFinset =
      (ts.map fun t => t.path.normalize).toFinset := by
    ext p
    rw [List.mem_toFinset, List.mem_toFinset]
    constructor
    · exact mem_normalize_of_contains fun t => (h.contains_iff t).mp
    · exact mem_normalize_of_contains fun t => (h.contains_iff t).mpr
  rw [← hsame, List.toFinset_card_of_nodup hnodup, List.length_map]

theorem contains_of_mem (h : t ∈ ts) : ts.contains t = true :=
  List.contains_iff_exists_mem_beq.mpr ⟨t, h, BEq.rfl⟩

/-- A file stays when those that are the same as another one go. -/
theorem contains_filter_iff (h : ¬ (t == a) = true) :
    (ts.filter fun b => !b == a).contains t = true ↔ ts.contains t = true := by
  rw [List.contains_iff_exists_mem_beq, List.contains_iff_exists_mem_beq]
  constructor
  · rintro ⟨c, hc, htc⟩
    exact ⟨c, (List.mem_filter.mp hc).1, htc⟩
  · rintro ⟨c, hc, htc⟩
    refine ⟨c, List.mem_filter.mpr ⟨hc, ?_⟩, htc⟩
    rw [← BEq.congr_left htc]
    simpa using h

/-- Taking duplicates out behind the first of them leaves each file once. -/
theorem distinct_eraseDups (ts : List TestFile) : Distinct ts ts.eraseDups := by
  -- on the number of files: those that are the same as the first one go at once
  generalize hn : ts.length = n
  induction n using Nat.strongRecOn generalizing ts with
  | ind n ih =>
    cases ts with
    | nil => exact ⟨List.Pairwise.nil, fun t => Iff.rfl⟩
    | cons a ts =>
      have hlt : (ts.filter fun b => !b == a).length < n := by
        have := List.length_filter_le (fun b => !b == a) ts
        rw [List.length_cons] at hn
        omega
      obtain ⟨hapart, hcontains⟩ := ih _ hlt _ rfl
      rw [List.eraseDups_cons]
      refine ⟨List.pairwise_cons.mpr ⟨?_, hapart⟩, fun t => ?_⟩
      · intro b hb
        have hkept := (hcontains b).mp (contains_of_mem hb)
        obtain ⟨c, hc, hbc⟩ := List.contains_iff_exists_mem_beq.mp hkept
        have hca := (List.mem_filter.mp hc).2
        rw [BEq.comm, BEq.congr_left hbc]
        simpa using hca
      · rw [List.contains_cons, List.contains_cons, Bool.or_eq_true, Bool.or_eq_true,
          hcontains t]
        exact or_congr_right' fun hta => contains_filter_iff hta

/-- Putting files into a hash set leaves each of them once. -/
theorem distinct_ofList (ts : List TestFile) : Distinct ts (Std.HashSet.ofList ts).toList := by
  refine ⟨Std.HashSet.distinct_toList, fun t => ?_⟩
  rw [Std.HashSet.contains_toList, Std.HashSet.contains_ofList]

/-! ## Sorting -/

theorem le_iff : le a b = true ↔ compare a b ≠ .gt := by
  unfold le
  cases compare a b <;> simp

theorem le_trans (a b c : TestFile) (hab : le a b = true) (hbc : le b c = true) :
    le a c = true :=
  Std.TransCmp.isLE_trans hab hbc

theorem le_total (a b : TestFile) : (le a b || le b a) = true := isLE_total a b

theorem sort_perm (ts : List TestFile) : (sort ts).Perm ts := List.mergeSort_perm ts le

theorem sort_pairwise (ts : List TestFile) : (sort ts).Pairwise fun a b => compare a b ≠ .gt :=
  (List.pairwise_mergeSort le_trans le_total ts).imp le_iff.mp

/-- **Files that are the same keep their order** when they are sorted. -/
theorem sort_filter (ts : List TestFile) (t : TestFile) :
    (sort ts).filter (· == t) = ts.filter (· == t) := by
  have hsorted : (ts.filter (· == t)).Pairwise fun a b => le a b = true := by
    refine List.pairwise_of_forall_mem_list fun a ha b hb => ?_
    have hab : (a == b) = true :=
      BEq.trans (List.mem_filter.mp ha).2 (BEq.symm (List.mem_filter.mp hb).2)
    rw [le_iff, compare_eq_eq_iff.mpr hab]
    nofun
  have hsub : (ts.filter (· == t)).Sublist (sort ts) :=
    List.sublist_mergeSort le_trans le_total hsorted List.filter_sublist
  have hkept := hsub.filter (· == t)
  simp only [List.filter_filter, Bool.and_self] at hkept
  exact (hkept.eq_of_length ((sort_perm ts).filter _).length_eq.symm).symm

/-! ## Coherence -/

/-- **Order, equality and hashes of test files go together.** The order is total, two files stand at
the same place iff they are equal, and then they have the same hash. They are equal iff the normal
forms of their paths are the same bytes. In one directory, however its path is written, files are in
the bytewise order of their names. So in every list there are as many different files by hashing as
by comparing, as many as there are normal forms. Sorted, the list has the same files in order, and
equal ones as they were. -/
theorem comparison_coherent :
    (∀ a b c : TestFile,
      (compare a b = .eq ↔ (a == b) = true) ∧ compare b a = (compare a b).swap ∧
      (compare a b ≠ .gt → compare b c ≠ .gt → compare a c ≠ .gt) ∧
      ((a == b) = true → hash a = hash b) ∧
      ((a == b) = true ↔ a.path.normalize = b.path.normalize)) ∧
    (∀ (dir : Path) (m n : Name), isName m = true → isName n = true →
      (compare (⟨dir.join ⟨m⟩⟩ : TestFile) ⟨dir.join ⟨n⟩⟩ = .lt ↔ List.Lex (· < ·) m n) ∧
      (compare (⟨dir.join ⟨m⟩⟩ : TestFile) ⟨dir.join ⟨n⟩⟩ = .eq ↔ m = n) ∧
      (compare (⟨dir.join ⟨m⟩⟩ : TestFile) ⟨dir.join ⟨n⟩⟩ = .gt ↔ List.Lex (· < ·) n m)) ∧
    ∀ ts : List TestFile,
      (Std.HashSet.ofList ts).size = ts.eraseDups.length ∧
      ts.eraseDups.length = (ts.map fun t => t.path.normalize).toFinset.card ∧
      (sort ts).Perm ts ∧ (sort ts).Pairwise (fun a b => compare a b ≠ .gt) ∧
      ∀ t, (sort ts).filter (· == t) = ts.filter (· == t) := by
  refine ⟨fun a b c => ⟨compare_eq_eq_iff, Std.OrientedCmp.eq_swap, ?_, hash_eq,
    same_iff_normalize⟩, fun dir m n hm hn => ?_, fun ts => ⟨?_, (distinct_eraseDups ts).length_eq,
    sort_perm ts, sort_pairwise ts, sort_filter ts⟩⟩
  · intro hab hbc
    exact le_iff.mp (le_trans a b c (le_iff.mpr hab) (le_iff.mpr hbc))
  · rw [compare_join_name dir hm hn, ← compare_eq_lt_iff m n, ← compare_eq_lt_iff n m]
    exact ⟨Iff.rfl, Std.LawfulEqOrd.compare_eq_iff_eq, Std.OrientedCmp.gt_iff_lt⟩
  · rw [← Std.HashSet.length_toList, (distinct_ofList ts).length_eq,
      (distinct_eraseDups ts).length_eq]

/-- Two spellings of one path, and names in a directory that is written with a slash. -/
theorem comparison_coherent_spellings :
    let a : TestFile := ⟨⟨[0x73, 0x2F, 0x2F, 0x2E, 0x2F, 0x78, 0x2F]⟩⟩
    let b : TestFile := ⟨⟨[0x73, 0x2F, 0x78]⟩⟩
    let c : TestFile := ⟨⟨[0x73, 0x2F, 0x2E, 0x2E]⟩⟩
    (a == b) = true ∧ a.path.normalize = b.path.normalize ∧ hash a = hash b ∧
      compare c a ≠ .gt ∧ compare a b ≠ .gt ∧ compare c b ≠ .gt ∧
      compare (⟨Path.join ⟨[0x73, 0x2F]⟩ ⟨[0x78, 0x2E]⟩⟩ : TestFile)
        ⟨Path.join ⟨[0x73, 0x2F]⟩ ⟨[0x78]⟩⟩ = .gt := by
  obtain ⟨hfiles, hnames, -⟩ := comparison_coherent
  intro a b c
  have hab : (a == b) = true := by decide
  have hca : compare c a ≠ .gt := by decide
  obtain ⟨hcmp, -, -, hhash, hnormal⟩ := hfiles a b b
  have hle : compare a b ≠ .gt := by
    rw [hcmp.mpr hab]
    nofun
  exact ⟨hab, hnormal.mp hab, hhash hab, hca, hle, (hfiles c a b).2.2.1 hca hle,
    (hnames ⟨[0x73, 0x2F]⟩ [0x78, 0x2E] [0x78] (by decide) (by decide)).2.2.mpr (by decide)⟩

end TestFile

end SuiteRunner
