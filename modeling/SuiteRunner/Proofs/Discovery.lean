import Mathlib
import SuiteRunner.Proofs.Lookup

/-!
# The suite of a directory

Tests are put in order by the components of their paths. All tests of a suite are in one directory,
so this is the bytewise order of their names, however the path of the directory is written.

* `compare_join_name`: which of two tests comes first;
* `testNames`: the names of the tests of a directory, in order; `mem_testNames` says which these
  are, and `testNames_strict` that each is there once;
* **`discover_exact`**: the tests of a directory, for every tree, path and suffix.
-/

namespace SuiteRunner

/-! ## The order of tests -/

namespace Path

theorem Component.compare_self (c : Component) : compare c c = .eq := by
  show compareLex (compareOn rank) (compareOn text) c c = .eq
  rw [compareLex_eq_eq]
  exact ⟨Std.ReflCmp.compare_self, Std.ReflCmp.compare_self⟩

theorem Component.compare_name (a b : Name) : compare (name a) (name b) = compare a b := rfl

/-- **Behind the same components names are compared as they are.** -/
theorem compare_concat_name (cs : List Component) (a b : Name) :
    compare (cs ++ [.name a]) (cs ++ [.name b]) = compare a b := by
  induction cs with
  | nil =>
    rw [List.nil_append, List.nil_append, List.compare_cons_cons,
      Component.compare_name]
    exact Ordering.then_eq ..
  | cons c cs ih =>
    rw [List.cons_append, List.cons_append, List.compare_cons_cons,
      Component.compare_self, ih]
    rfl

end Path

/-- Byte strings are compared bytewise. -/
theorem compare_eq_lt_iff (a b : Bytes) : compare a b = .lt ↔ List.Lex (· < ·) a b := by
  induction a generalizing b with
  | nil => cases b <;> simp
  | cons x as ih =>
    cases b with
    | nil => simp
    | cons y bs =>
      rw [List.compare_cons_cons, List.cons_lex_cons_iff, ← ih, Ordering.then_eq_lt,
        Std.compare_eq_lt, Std.compare_eq_iff_eq]

/-- Of two values in order, one is at most the other. -/
theorem isLE_total {α : Type} [Ord α] [Std.OrientedOrd α] (a b : α) :
    ((compare a b).isLE || (compare b a).isLE) = true := by
  have hswap : compare b a = (compare a b).swap := Std.OrientedCmp.eq_swap
  rw [hswap]
  cases compare a b <;> rfl

/-- `a` stands before `b` or is `b`. -/
def nameLe (a b : Name) : Bool := (compare a b).isLE

theorem nameLe_trans (a b c : Name) (hab : nameLe a b = true) (hbc : nameLe b c = true) :
    nameLe a c = true :=
  Std.TransCmp.isLE_trans hab hbc

theorem nameLe_total (a b : Name) : (nameLe a b || nameLe b a) = true := isLE_total a b

theorem lex_of_nameLe {a b : Name} (h : nameLe a b = true) (hne : a ≠ b) :
    List.Lex (· < ·) a b := by
  rw [← compare_eq_lt_iff]
  unfold nameLe at h
  cases hc : compare a b with
  | lt => rfl
  | eq => exact absurd (Std.LawfulEqCmp.eq_of_compare hc) hne
  | gt =>
    rw [hc] at h
    cases h

theorem nameLe_antisymm {a b : Name} (hab : nameLe a b = true) (hba : nameLe b a = true) :
    a = b :=
  Std.LawfulEqCmp.eq_of_compare (Std.OrientedCmp.isLE_antisymm hab hba)

/-- **Tests in one directory are compared as their names are.** -/
theorem TestFile.compare_join_name (dir : Path) {a b : Name} (ha : isName a = true)
    (hb : isName b = true) :
    compare (⟨dir.join ⟨a⟩⟩ : TestFile) ⟨dir.join ⟨b⟩⟩ = compare a b := by
  show compare (dir.join ⟨a⟩).components (dir.join ⟨b⟩).components = _
  rw [Path.components_join_name dir ha, Path.components_join_name dir hb,
    Path.compare_concat_name]

/-- So they are in the order of their names. -/
theorem TestFile.le_join_name (dir : Path) {a b : Name} (ha : isName a = true)
    (hb : isName b = true) :
    TestFile.le ⟨dir.join ⟨a⟩⟩ ⟨dir.join ⟨b⟩⟩ = nameLe a b := by
  unfold TestFile.le nameLe
  rw [TestFile.compare_join_name dir ha hb]

namespace Suite

variable {t t' : Tree} {dir : Path} {extension : String} {names names' : List Name} {n : Name}

/-! ## The names of the tests -/

/-- The names of the tests of a directory, in order. -/
def testNames (t : Tree) (dir : Path) (extension : String) (names : List Name) : List Name :=
  (names.filter fun n => (find t dir (Bytes.ofString extension) n).test?.isSome).mergeSort nameLe

theorem isSome_test?_iff {suffix : Bytes} :
    (find t dir suffix n).test?.isSome = true ↔
      suffix <:+ n ∧ t.kindOf (dir.join ⟨n⟩) = .ok .regular := by
  unfold find
  rw [← List.isSuffixOf_iff_suffix]
  split
  · rename_i h
    simp only [h, true_and]
    split <;> simp_all [Find.test?]
  · rename_i h
    simp [h, Find.test?]

theorem mem_testNames :
    n ∈ testNames t dir extension names ↔
      n ∈ names ∧ Bytes.ofString extension <:+ n ∧ t.kindOf (dir.join ⟨n⟩) = .ok .regular := by
  unfold testNames
  rw [List.mem_mergeSort, List.mem_filter, isSome_test?_iff]

theorem testNames_strict (h : names.Nodup) :
    (testNames t dir extension names).Pairwise (List.Lex (· < ·)) := by
  have hsorted : (testNames t dir extension names).Pairwise fun a b => nameLe a b = true :=
    List.pairwise_mergeSort nameLe_trans nameLe_total _
  have hnodup : (testNames t dir extension names).Nodup :=
    (List.mergeSort_perm _ _).nodup_iff.mpr (h.filter _)
  exact (hsorted.and hnodup).imp fun ⟨hle, hne⟩ => lex_of_nameLe hle hne

/-- **The tests are those of the names, in the order of the names.** -/
theorem ofNames_tests (h : ∀ n ∈ names, isName n = true) :
    (ofNames t dir extension names).tests =
      (testNames t dir extension names).map fun n => ⟨dir.join ⟨n⟩⟩ := by
  have hfinds : (names.map (find t dir (Bytes.ofString extension))).filterMap Find.test? =
      (names.filter fun n => (find t dir (Bytes.ofString extension) n).test?.isSome).map
        fun n => ⟨dir.join ⟨n⟩⟩ := by
    clear h
    induction names with
    | nil => rfl
    | cons n names ih =>
      rw [List.map_cons, List.filterMap_cons, List.filter_cons, ih]
      cases hf : (find t dir (Bytes.ofString extension) n).test? with
      | none => rfl
      | some test =>
        rw [find_test hf]
        rfl
  unfold ofNames testNames TestFile.sort
  simp only [hfinds]
  refine (List.map_mergeSort fun a ha b hb => ?_).symm
  exact (TestFile.le_join_name dir (h a (List.mem_filter.mp ha).1)
    (h b (List.mem_filter.mp hb).1)).symm

/-! ## Listings in another order -/

theorem testNames_of_perm (hkind : ∀ p, t'.kindOf p = t.kindOf p) (h : names'.Perm names) :
    testNames t' dir extension names' = testNames t dir extension names := by
  have hfind : ∀ n, find t' dir (Bytes.ofString extension) n =
      find t dir (Bytes.ofString extension) n := fun n => by
    unfold find
    simp only [hkind]
  unfold testNames
  simp only [hfind]
  have hperm := ((List.mergeSort_perm _ nameLe).trans (h.filter _)).trans
    (List.mergeSort_perm (names.filter fun n =>
      (find t dir (Bytes.ofString extension) n).test?.isSome) nameLe).symm
  refine hperm.eq_of_pairwise (fun a b _ _ => nameLe_antisymm) ?_ ?_
  · exact List.pairwise_mergeSort nameLe_trans nameLe_total _
  · exact List.pairwise_mergeSort nameLe_trans nameLe_total _

theorem isName_of_list (h : t.list dir = .ok names) : ∀ n ∈ names, isName n = true := by
  obtain ⟨l, -, -, rfl⟩ := Tree.resolve_of_list h
  exact fun n => Tree.isName_of_mem_namesIn

theorem discover_of_list (h : t.list dir = .ok names) :
    discover t dir extension = .ok (ofNames t dir extension names) := by
  unfold discover
  rw [h]

/-- **The order in which a directory is listed has no part in its suite.** -/
theorem discover_of_perm (hh : t'.home = t.home) (h : t'.entries.Perm t.entries) (dir : Path)
    (extension : String) :
    (discover t' dir extension).map (·.tests) = (discover t dir extension).map (·.tests) := by
  rcases Tree.list_of_perm hh h dir with ⟨cause, hl', hl⟩ | ⟨names, names', hl', hl, hperm⟩
  · unfold discover
    rw [hl', hl]
  · rw [discover_of_list hl', discover_of_list hl]
    simp only [Except.map]
    rw [ofNames_tests (isName_of_list hl'), ofNames_tests (isName_of_list hl),
      testNames_of_perm (Tree.kindOf_of_perm hh h) hperm]

/-- **The tests of a directory.** If it cannot be listed, that is the failure. Otherwise the names
are those of the entries right below the place that the path leads to, and the tests are the paths
of those names that have the suffix and lead to a regular file, each once and in bytewise order. A
path of a test is that of the directory and the name, with a slash between if there is none. An
entry that is no link is what its name leads to, so a file is a test, whether or not it can be read,
and a directory never is. The order in which the tree lists its entries has no part in this. -/
theorem discover_exact (t : Tree) (dir : Path) (extension : String) :
    (∀ cause, t.list dir = .error cause →
      discover t dir extension = .error (.suiteUnreadable dir cause)) ∧
    (∀ names, t.list dir = .ok names → ∃ (l : Place) (found : Discovery) (kept : List Name),
      t.resolve true dir = .ok l ∧ (∀ n, n ∈ names ↔ ∃ e, t.entry? (l ++ [n]) = some e) ∧
      discover t dir extension = .ok found ∧
      found.tests = kept.map (fun n => ⟨dir.join ⟨n⟩⟩) ∧
      (∀ n ∈ names, (dir.join ⟨n⟩).bytes =
        dir.bytes ++ (if dir.bytes.getLast? = some Path.slash then [] else [Path.slash]) ++ n) ∧
      kept.Pairwise (List.Lex (· < ·)) ∧
      (∀ n, n ∈ kept ↔ n ∈ names ∧ Bytes.ofString extension <:+ n ∧
        ∃ place file, t.resolve true (dir.join ⟨n⟩) = .ok place ∧
          t.entry? place = some (.file file)) ∧
      (∀ n e, t.entry? (l ++ [n]) = some e → (∀ target, e ≠ .link target) → n ∈ kept →
        ∃ file, e = .file file) ∧
      ∀ n file, t.entry? (l ++ [n]) = some (.file file) → Bytes.ofString extension <:+ n →
        n.length ≤ Tree.nameLimit → Tree.checkPath (dir.join ⟨n⟩) = .ok () → n ∈ kept) ∧
    ∀ t' : Tree, t'.home = t.home → t'.entries.Perm t.entries →
      (discover t' dir extension).map (·.tests) = (discover t dir extension).map (·.tests) := by
  refine ⟨fun cause h => ?_, fun names h => ?_,
    fun t' hh hp => discover_of_perm hh hp dir extension⟩
  · unfold discover
    rw [h]
  · obtain ⟨l, hr, hl, hnames⟩ := Tree.resolve_of_list h
    have hlisted : ∀ n, n ∈ names ↔ ∃ e, t.entry? (l ++ [n]) = some e := fun n => by
      rw [hnames, Tree.mem_namesIn]
    have hname := isName_of_list h
    have hkept : ∀ n, n ∈ testNames t dir extension names ↔
        n ∈ names ∧ Bytes.ofString extension <:+ n ∧
          ∃ place file, t.resolve true (dir.join ⟨n⟩) = .ok place ∧
            t.entry? place = some (.file file) := fun n => by
      rw [mem_testNames, Tree.kindOf_eq_regular_iff]
    refine ⟨l, _, testNames t dir extension names, hr, hlisted, discover_of_list h,
      ofNames_tests hname, ?_, ?_, hkept, ?_, ?_⟩
    · exact fun n hn => Path.join_name_bytes (Tree.bytes_ne_nil_of_resolve hr) (hname n hn)
    · exact testNames_strict (hnames ▸ t.namesIn_nodup l)
    · intro n e he hlink hn
      obtain ⟨hmem, -, place, file, hplace, hfile⟩ := (hkept n).mp hn
      rw [Tree.eq_of_resolve_join_name hr hl (hname n hmem) he hlink hplace, he] at hfile
      exact ⟨file, Option.some.inj hfile⟩
    · intro n file he hsuffix hshort hpath
      have hmem : n ∈ names := (hlisted n).mpr ⟨_, he⟩
      refine (hkept n).mpr ⟨hmem, hsuffix, l ++ [n], file, ?_, he⟩
      exact Tree.resolve_join_name hr hl (hname n hmem) hshort hpath he nofun

/-- A directory `s` with a file `b.t` that cannot be read, a link `a.t` to it, a directory `c.t`,
and a link `d.t` to itself. -/
def mixedSuite : Tree where
  home := []
  entries := [([[0x73]], .directory),
    ([[0x73], [0x62, 0x2E, 0x74]], .file { content := [], denied? := some .noAccess }),
    ([[0x73], [0x61, 0x2E, 0x74]], .link ⟨[0x62, 0x2E, 0x74]⟩),
    ([[0x73], [0x63, 0x2E, 0x74]], .directory),
    ([[0x73], [0x64, 0x2E, 0x74]], .link ⟨[0x64, 0x2E, 0x74]⟩)]
  nodup := by decide
  named := by decide

/-- The same tree, listed the other way round. -/
def mixedSuiteBackwards : Tree :=
  { mixedSuite with
    entries := mixedSuite.entries.reverse
    nodup := by decide
    named := by decide }

/-- The file and the link to it are tests, and no other entry is. -/
theorem discover_exact_mixed :
    (∃ (found : Discovery) (kept : List Name), discover mixedSuite ⟨[0x73, 0x2F]⟩ ".t" = .ok found ∧
      found.tests = kept.map (fun n => ⟨Path.join ⟨[0x73, 0x2F]⟩ ⟨n⟩⟩) ∧
      [0x62, 0x2E, 0x74] ∈ kept ∧ [0x61, 0x2E, 0x74] ∈ kept ∧ [0x63, 0x2E, 0x74] ∉ kept ∧
      [0x64, 0x2E, 0x74] ∉ kept) ∧
    discover mixedSuite ⟨[0x74]⟩ ".t" = .error (.suiteUnreadable ⟨[0x74]⟩ .noEntry) ∧
    (discover mixedSuiteBackwards ⟨[0x73, 0x2F]⟩ ".t").map (·.tests) =
      (discover mixedSuite ⟨[0x73, 0x2F]⟩ ".t").map (·.tests) := by
  refine ⟨?_, (discover_exact mixedSuite ⟨[0x74]⟩ ".t").1 .noEntry (by cbv),
    (discover_exact mixedSuite ⟨[0x73, 0x2F]⟩ ".t").2.2 mixedSuiteBackwards rfl
      (List.reverse_perm _)⟩
  obtain ⟨l, found, kept, hr, -, hd, htests, -, -, hkept, hother, hfile⟩ :=
    (discover_exact mixedSuite ⟨[0x73, 0x2F]⟩ ".t").2.1
      [[0x62, 0x2E, 0x74], [0x61, 0x2E, 0x74], [0x63, 0x2E, 0x74], [0x64, 0x2E, 0x74]] (by cbv)
  have hplace : mixedSuite.resolve true ⟨[0x73, 0x2F]⟩ = .ok [[0x73]] := by cbv
  obtain rfl : [[0x73]] = l := Except.ok.inj (hplace.symm.trans hr)
  have hlink : mixedSuite.resolve true (Path.join ⟨[0x73, 0x2F]⟩ ⟨[0x61, 0x2E, 0x74]⟩) =
      .ok [[0x73], [0x62, 0x2E, 0x74]] := by cbv
  have hloop : mixedSuite.resolve true (Path.join ⟨[0x73, 0x2F]⟩ ⟨[0x64, 0x2E, 0x74]⟩) =
      .error .tooManyLinks := by cbv
  refine ⟨found, kept, hd, htests, ?_, ?_, fun hn => ?_, fun hn => ?_⟩
  · exact hfile _ _ rfl (by decide) (by decide) rfl
  · exact (hkept _).mpr ⟨by decide, by decide, _, _, hlink, rfl⟩
  · obtain ⟨file, h⟩ := hother _ .directory rfl (fun _ h => by cases h) hn
    cases h
  · obtain ⟨-, -, place, file, h, -⟩ := (hkept _).mp hn
    rw [hloop] at h
    cases h

end Suite

end SuiteRunner
