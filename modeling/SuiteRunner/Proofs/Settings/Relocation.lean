import Mathlib
import SuiteRunner.Proofs.Lookup.Relocation
import SuiteRunner.Proofs.Settings.Load

/-!
# A settings file is read from its own directory

The paths in a settings file are written from the directory of the file, and used from the current
one. Anchoring puts the parent of the file's path in front of them. That is surgery on bytes, and
the tree has links; yet both lead to the same place.

* `leadsAs_anchoredToFile`: a relative path leads, anchored, where it leads from the directory;
* **`loaded_paths_lead_as_written`**: so do the paths of loaded settings.
-/

namespace SuiteRunner.Settings

open SuiteRunner.Tree (LeadsAs)

variable {t : Tree} {file p : Path}

theorem nul_not_mem_of_resolve {l : Place} (h : t.resolve true file = .ok l) : 0 ∉ file.bytes := by
  intro hz
  have hcheck := (Tree.resolve_eq_ok_iff.mp h).1
  unfold Tree.checkPath at hcheck
  rw [if_pos hz] at hcheck
  cases hcheck

/-- **An anchored path leads where it leads from the directory** that the last name of the file's
path is looked up in. -/
theorem leadsAs_anchoredToFile (h : t.kindOf file = .ok .regular) :
    ∃ D, t.directoryOf file = .ok (.taken D) ∧ t.isDirectoryAt D = true ∧
      ∀ p : Path, p.isAbsolute = false → p.bytes ≠ [] → LeadsAs t (anchoredToFile file p) D p := by
  obtain ⟨place, f, hr, he⟩ := Tree.kindOf_eq_regular_iff.mp h
  have hne : Path.pieces file.bytes ≠ [] := List.splitOn_ne_nil Path.slash file.bytes
  obtain ⟨front, n, hp⟩ : ∃ front n, Path.pieces file.bytes = front ++ [n] :=
    ⟨_, _, (List.dropLast_concat_getLast hne).symm⟩
  obtain ⟨D, links, hD, hdir, hw⟩ := Tree.exists_directoryOf hp hr
  have hn := Tree.not_idle_of_file hw he
  refine ⟨D, hD, hdir, fun p hrel h0 => ?_⟩
  rw [Tree.directoryOf_eq hp] at hD
  by_cases hfront : front = []
  · -- a file in the current directory: nothing is put in front
    subst hfront
    have hnone : ∀ base, file.parent = some base → base.bytes = [] := by
      intro base hbase
      rw [Path.parent_of_single hp hn] at hbase
      exact congrArg Path.bytes (Option.some.inj hbase).symm
    have hhome : D = t.home := by
      rw [Tree.walk_nil, Tree.startOf, Path.isAbsolute_of_single hp hn,
        if_neg Bool.false_ne_true] at hD
      cases hD
      rfl
    rw [anchoredToFile_of_no_parent hnone, hhome]
    exact fun _ _ => ⟨rfl, rfl⟩
  · obtain ⟨base, hparent, hstands⟩ := Path.parent_of_last hp hn hfront
    rw [anchoredToFile_of_parent hparent hstands.ne_nil hrel]
    exact Tree.leadsAs_join hstands (nul_not_mem_of_resolve hr) hD hrel h0

/-- **The paths of loaded settings lead where they lead from the directory of the file.** That is
the place that the path of the file leads through, up to its last name, whatever links there are on
the way. An absolute path stays as it was written, and so does not depend on the directory. -/
theorem loaded_paths_lead_as_written {s : Settings} (hfile : t.kindOf file = .ok .regular)
    (hload : load t file = .ok s) :
    ∃ text raw D, t.read file = .ok (Utf8.encode text) ∧ ofText? text = some raw ∧
      t.directoryOf file = .ok (.taken D) ∧ t.isDirectoryAt D = true ∧
      (raw.suiteDir.isAbsolute = true → s.suiteDir = raw.suiteDir) ∧
      (raw.executable.isAbsolute = true → s.executable = raw.executable) ∧
      (raw.suiteDir.isAbsolute = false → raw.suiteDir.bytes ≠ [] →
        LeadsAs t s.suiteDir D raw.suiteDir) ∧
      (raw.executable.isAbsolute = false → 1 < raw.executable.components.length →
        LeadsAs t s.executable D raw.executable) := by
  obtain ⟨D, hD, hdir, hleads⟩ := leadsAs_anchoredToFile hfile
  obtain ⟨place, f, hr, he⟩ := Tree.kindOf_eq_regular_iff.mp hfile
  generalize hresult : Except.ok s = r at hload
  cases load_eq_iff.mp hload with
  | missing h =>
    have hentry : t.entryOf file = .ok (.file f) :=
      bind_eq_ok_iff.mpr ⟨place, hr, by rw [he]⟩
    exact absurd hentry (h _)
  | @loaded text raw hread hraw hbudget hext =>
    obtain rfl := Except.ok.inj hresult
    refine ⟨text, raw, D, hread, hraw, hD, hdir, fun habs => ?_, fun habs => ?_,
      fun hrel h0 => ?_, fun hrel hparts => ?_⟩
    · rw [suiteDir_anchorToFile, anchoredToFile_of_absolute file habs]
    · rw [executable_anchorToFile, anchoredToFile_of_absolute file habs, ite_self]
    · rw [suiteDir_anchorToFile]
      exact hleads _ hrel h0
    · have hbare : isBare raw.executable = false := by
        simpa [isBare] using hparts
      have h0 : raw.executable.bytes ≠ [] := by
        intro h0
        have hempty : raw.executable = ⟨[]⟩ := congrArg Path.mk h0
        rw [hempty] at hparts
        exact absurd hparts (by decide)
      rw [executable_anchorToFile, hbare, if_neg Bool.false_ne_true]
      exact hleads _ hrel h0
  | _ => cases hresult

/-- A directory `a` with a settings file `c`, a suite `s`, an executable `x` and a directory `b` in
it, and a link `l` to `b`. -/
def linkedTree : Tree where
  home := []
  entries := [([[0x61]], .directory), ([[0x61], [0x62]], .directory),
    ([[0x61], [0x63]], .file
      { content := Bytes.ofString "suite_dir = \"s\"\nexecutable = \"./x\"\n" }),
    ([[0x61], [0x73]], .directory), ([[0x61], [0x78]], .file { content := [], executable := true }),
    ([[0x6C]], .link ⟨[0x61, 0x2F, 0x62]⟩)]
  nodup := by decide
  named := by decide

/-- Up from behind the link is the directory that the link leads to, and its suite is found there:
not what `l/..` would be if it were crossed out. -/
theorem loaded_paths_lead_as_written_linked :
    ∃ s, load linkedTree (Path.ofString "l/../c") = .ok s ∧
      linkedTree.directoryOf (Path.ofString "l/../c") = .ok (.taken [[0x61]]) ∧
      linkedTree.locate true s.suiteDir =
        (linkedTree.startingAt [[0x61]]).locate true (Path.ofString "s") ∧
      linkedTree.locate true s.executable =
        (linkedTree.startingAt [[0x61]]).locate true (Path.ofString "./x") ∧
      linkedTree.locate true s.suiteDir = .ok (.taken [[0x61], [0x73]]) := by
  have hload : load linkedTree (Path.ofString "l/../c") = .ok
      { suiteDir := Path.ofString "l/../s", executable := Path.ofString "l/.././x" } := by cbv
  have hread : linkedTree.read (Path.ofString "l/../c") =
      .ok (Utf8.encode "suite_dir = \"s\"\nexecutable = \"./x\"\n".toList) := by cbv
  have hfields : ofText? "suite_dir = \"s\"\nexecutable = \"./x\"\n".toList =
      some { suiteDir := Path.ofString "s", executable := Path.ofString "./x" } := by cbv
  have hplace : linkedTree.directoryOf (Path.ofString "l/../c") = .ok (.taken [[0x61]]) := by cbv
  have hsuite : linkedTree.locate true (Path.ofString "l/../s") =
      .ok (.taken [[0x61], [0x73]]) := by cbv
  have hsuite' : (linkedTree.startingAt [[0x61]]).locate true (Path.ofString "s") =
      .ok (.taken [[0x61], [0x73]]) := by cbv
  have hexe : linkedTree.locate true (Path.ofString "l/.././x") =
      .ok (.taken [[0x61], [0x78]]) := by cbv
  have hexe' : (linkedTree.startingAt [[0x61]]).locate true (Path.ofString "./x") =
      .ok (.taken [[0x61], [0x78]]) := by cbv
  obtain ⟨text, raw, D, htext, hraw, hD, -, -, -, hleads, hleads'⟩ :=
    loaded_paths_lead_as_written (t := linkedTree) (by cbv) hload
  obtain rfl := Utf8.encode_injective (Except.ok.inj (htext.symm.trans hread))
  obtain rfl := Option.some.inj (hfields.symm.trans hraw)
  obtain rfl : [[0x61]] = D := Tree.Spot.taken.inj (Except.ok.inj (hplace.symm.trans hD))
  have hfree : ∀ l, ¬ Tree.Limited (.ok (.taken l)) := fun l h => by
    rcases h with h | h <;> cases h
  refine ⟨_, hload, hplace, (hleads (by decide) (by decide) ?_ ?_).1,
    (hleads' (by decide) (by decide) ?_ ?_).1, hsuite⟩
  · exact hsuite ▸ hfree _
  · exact hsuite' ▸ hfree _
  · exact hexe ▸ hfree _
  · exact hexe' ▸ hfree _

end SuiteRunner.Settings
