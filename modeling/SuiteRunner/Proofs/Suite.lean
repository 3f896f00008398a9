import SuiteRunner.Proofs.Path
import SuiteRunner.Suite

/-!
# What discovery finds

A directory is listed once, and each of its names is at most one test.

* `namesIn_nodup`, `isName_of_mem_namesIn`: a directory lists names, and none of them twice;
* **`tests_components_nodup`**: no two tests of a suite are the same file by their paths.
-/

namespace SuiteRunner

namespace Tree

theorem nameBelow?_eq_some {l k : Place} {n : Name} (h : nameBelow? l k = some n) :
    k = l ++ [n] := by
  unfold nameBelow? at h
  split at h
  · rename_i m hm
    split at h
    · rename_i hl
      obtain ⟨ys, rfl⟩ := List.getLast?_eq_some_iff.mp hm
      rw [List.dropLast_concat] at hl
      rw [hl, Option.some.inj h]
    · cases h
  · cases h

theorem namesIn_nodup (t : Tree) (l : Place) : (t.namesIn l).Nodup := by
  have h : t.entries.Pairwise fun a b => a.1 ≠ b.1 := List.pairwise_map.mp t.nodup
  unfold namesIn
  refine List.Pairwise.filterMap _ ?_ h
  intro a b hab n hn m hm hnm
  apply hab
  rw [nameBelow?_eq_some hn, nameBelow?_eq_some hm, hnm]

theorem isName_of_mem_namesIn {t : Tree} {l : Place} {n : Name} (h : n ∈ t.namesIn l) :
    isName n = true := by
  obtain ⟨e, he, hn⟩ := List.mem_filterMap.mp h
  have hall := t.named e he
  rw [nameBelow?_eq_some hn, List.all_append, Bool.and_eq_true] at hall
  simpa using hall.2

/-- A path that can be listed leads to a directory, and its names are listed. -/
theorem resolve_of_list {t : Tree} {p : Path} {names : List Name} (h : t.list p = .ok names) :
    ∃ l, t.resolve true p = .ok l ∧ t.isDirectoryAt l = true ∧ names = t.namesIn l := by
  unfold list at h
  cases hr : t.resolve true p with
  | error cause =>
    rw [hr] at h
    cases h
  | ok l =>
    rw [hr] at h
    simp only [bind, Except.bind] at h
    split at h
    · exact ⟨l, rfl, ‹_›, (Except.ok.inj h).symm⟩
    · cases h

end Tree

namespace Suite

/-- The tests of a directory, in order; none if it cannot be listed. -/
def testsIn (t : Tree) (dir : Path) (extension : String) : List TestFile :=
  match discover t dir extension with
  | .ok found => found.tests
  | .error _ => []

theorem find_test {t : Tree} {dir : Path} {suffix : Bytes} {n : Name} {test : TestFile}
    (h : (find t dir suffix n).test? = some test) : test = ⟨dir.join ⟨n⟩⟩ := by
  unfold find at h
  split at h
  · simp only at h
    split at h
    · exact (Option.some.inj h).symm
    · cases h
    · cases h
  · cases h

/-- **No two tests of a suite are the same.** -/
theorem tests_components_nodup {t : Tree} {dir : Path} {extension : String} {found : Discovery}
    (h : discover t dir extension = .ok found) :
    (found.tests.map fun x => x.path.components).Nodup := by
  unfold discover at h
  cases hl : t.list dir with
  | error cause =>
    rw [hl] at h
    cases h
  | ok names =>
    rw [hl] at h
    obtain ⟨l, -, -, rfl⟩ := Tree.resolve_of_list hl
    cases Except.ok.inj h
    have hperm := (List.mergeSort_perm
      (((t.namesIn l).map (find t dir (Bytes.ofString extension))).filterMap Find.test?)
      TestFile.le).map fun x => x.path.components
    refine hperm.nodup_iff.mpr ?_
    unfold List.Nodup
    rw [List.filterMap_map, List.pairwise_map]
    -- the names are names, and different ones: joining keeps them apart
    have hnames : (t.namesIn l).Pairwise fun a b => isName a = true ∧ isName b = true ∧ a ≠ b :=
      List.Pairwise.imp_of_mem
        (fun ha hb hab => ⟨Tree.isName_of_mem_namesIn ha, Tree.isName_of_mem_namesIn hb, hab⟩)
        (t.namesIn_nodup l)
    refine List.Pairwise.filterMap _ ?_ hnames
    rintro a b ⟨ha, hb, hab⟩ x hx y hy hxy
    rw [find_test hx, find_test hy] at hxy
    exact hab (Path.components_join_name_inj ha hb hxy)

/-- Discovery fails in one way. -/
theorem discover_error {t : Tree} {dir : Path} {extension : String} {failure : Failure}
    (h : discover t dir extension = .error failure) :
    ∃ cause, failure = .suiteUnreadable dir cause := by
  unfold discover at h
  split at h
  · cases h
  · rename_i cause _
    exact ⟨cause, (Except.error.inj h).symm⟩

theorem testsIn_of_ok {t : Tree} {dir : Path} {extension : String} {found : Discovery}
    (h : discover t dir extension = .ok found) : testsIn t dir extension = found.tests := by
  unfold testsIn
  rw [h]

theorem testsIn_of_error {t : Tree} {dir : Path} {extension : String} {failure : Failure}
    (h : discover t dir extension = .error failure) : testsIn t dir extension = [] := by
  unfold testsIn
  rw [h]

/-- Where there is a test, the suite was found. -/
theorem discover_of_testsIn {t : Tree} {dir : Path} {extension : String} {pre post : List TestFile}
    {test : TestFile} (h : testsIn t dir extension = pre ++ test :: post) :
    ∃ found, discover t dir extension = .ok found ∧ found.tests = pre ++ test :: post := by
  cases hd : discover t dir extension with
  | ok found => exact ⟨found, rfl, by rw [← h, testsIn_of_ok hd]⟩
  | error failure =>
    rw [testsIn_of_error hd] at h
    exact absurd h.symm (List.append_ne_nil_of_right_ne_nil _ (List.cons_ne_nil _ _))

theorem testsIn_components_nodup (t : Tree) (dir : Path) (extension : String) :
    ((testsIn t dir extension).map fun x => x.path.components).Nodup := by
  cases h : discover t dir extension with
  | ok found =>
    rw [testsIn_of_ok h]
    exact tests_components_nodup h
  | error failure =>
    rw [testsIn_of_error h]
    exact List.nodup_nil

theorem testsIn_nodup (t : Tree) (dir : Path) (extension : String) :
    (testsIn t dir extension).Nodup := by
  refine List.Pairwise.of_map (fun x => x.path.components) ?_
    (testsIn_components_nodup t dir extension)
  rintro a _ hne rfl
  exact hne rfl

theorem tests_nodup {t : Tree} {dir : Path} {extension : String} {found : Discovery}
    (h : discover t dir extension = .ok found) : found.tests.Nodup := by
  rw [← testsIn_of_ok h]
  exact testsIn_nodup t dir extension

end Suite

end SuiteRunner
