import Mathlib
import SuiteRunner.Machine.Image
import SuiteRunner.Proofs.Path.Bare
import SuiteRunner.Proofs.Settings.Load

/-!
# The executable of a settings file

An executable that looks like a name is left as it is, to be looked for among the installed
programs. Any other relative one is looked up from the directory of the file.

* `executable_anchored`, `executable_kept`: what becomes of it;
* `find_of_slash`: an executable with a slash is not looked for among the installed programs;
* **`executable_anchored_exact`**: which bytes are anchored and which are not, and what follows from
  it for how they are started.
-/

namespace SuiteRunner

open SuiteRunner.Path (slash dot NameLike)

namespace Machine

/-- **An executable with a slash** is the file at that path, wherever programs are installed. -/
theorem find_of_slash {p : Path} (h : slash ∈ p.bytes) (t : Tree) (arguments : List Bytes) :
    find t p arguments = load t p arguments := if_pos h

end Machine

namespace Settings

variable {t : Tree} {file base : Path} {text : List Char} {raw s : Settings}

theorem executable_of_load (hread : t.read file = .ok (Utf8.encode text))
    (hraw : ofText? text = some raw) (hload : load t file = .ok s) :
    s.executable =
      if isBare raw.executable then raw.executable else anchoredToFile file raw.executable := by
  rw [load_of_parsed hread hraw] at hload
  obtain ⟨⟨⟩, -, h⟩ := bind_eq_ok_iff.mp hload
  rw [← Except.ok.inj h, executable_anchorToFile]

theorem isBare_iff {p : Path} (hrel : p.isAbsolute = false) :
    isBare p = true ↔ NameLike p.bytes := by
  rw [isBare, decide_eq_true_iff]
  exact Path.components_le_one_iff hrel

/-! ## The two cases -/

/-- A relative executable that does not look like a name is joined to the parent of the file. -/
theorem executable_anchored (hread : t.read file = .ok (Utf8.encode text))
    (hraw : ofText? text = some raw) (hload : load t file = .ok s)
    (hparent : file.parent = some base) (h0 : base.bytes ≠ [])
    (hrel : raw.executable.isAbsolute = false) (hname : ¬ NameLike raw.executable.bytes) :
    s.executable = base.join raw.executable := by
  rw [executable_of_load hread hraw hload, if_neg fun h => hname ((isBare_iff hrel).mp h)]
  exact anchoredToFile_of_parent hparent h0 hrel

/-- Any other executable stays as it is. -/
theorem executable_kept (hread : t.read file = .ok (Utf8.encode text))
    (hraw : ofText? text = some raw) (hload : load t file = .ok s)
    (h : raw.executable.isAbsolute = true ∨ NameLike raw.executable.bytes) :
    s.executable = raw.executable := by
  rw [executable_of_load hread hraw hload]
  cases habs : raw.executable.isAbsolute with
  | true =>
    rw [anchoredToFile_of_absolute file habs]
    split <;> rfl
  | false =>
    rw [habs] at h
    have hname : NameLike raw.executable.bytes := h.resolve_left Bool.false_ne_true
    rw [if_pos ((isBare_iff habs).mpr hname)]

theorem nameLike_of_no_slash {bs : Bytes} (h : slash ∉ bs) : NameLike bs :=
  ⟨bs, [], h, fun _ => rfl, ⟨[], by simp, rfl⟩, (List.append_nil bs).symm⟩

/-- With bytes in front of it, a path is another one. -/
theorem ne_append {front gap bs : Bytes} (h0 : front ≠ []) : bs ≠ front ++ gap ++ bs := by
  intro h
  have hlen := congrArg List.length h
  have hpos := List.length_pos_iff.mpr h0
  rw [List.length_append, List.length_append] at hlen
  omega

/-! ## Which executables are anchored -/

/-- **Which executables are anchored.** In a settings file with a parent that is not empty, the
executable gets the parent, and one slash, put in front of it exactly if it is relative and does not
look like a name: a string without a slash, with nothing behind it but slashes with a dot each or
none. Any other executable stays as it is, byte by byte. So one that was anchored has a slash and is
never looked for among the installed programs; one without a slash is never anchored; and a relative
one with a slash that stays as it is ends in a slash or in a slash and a dot, and leads to no
regular file in whatever tree. -/
theorem executable_anchored_exact (hread : t.read file = .ok (Utf8.encode text))
    (hraw : ofText? text = some raw) (hload : load t file = .ok s)
    (hparent : file.parent = some base) (h0 : base.bytes ≠ []) :
    (s.executable.bytes = base.bytes ++
        (if base.bytes.getLast? = some slash then [] else [slash]) ++ raw.executable.bytes ↔
      raw.executable.isAbsolute = false ∧ ¬ NameLike raw.executable.bytes) ∧
    (raw.executable.isAbsolute = false →
      (s.executable = base.join raw.executable ↔ ¬ NameLike raw.executable.bytes)) ∧
    (raw.executable.isAbsolute = true ∨ NameLike raw.executable.bytes →
      s.executable = raw.executable) ∧
    (s.executable ≠ raw.executable → slash ∈ s.executable.bytes ∧
      ∀ (t' : Tree) (arguments : List Bytes),
        Machine.find t' s.executable arguments = Machine.load t' s.executable arguments) ∧
    (slash ∉ raw.executable.bytes → s.executable = raw.executable) ∧
    (raw.executable.isAbsolute = false → slash ∈ raw.executable.bytes →
      s.executable = raw.executable →
      (∃ front, raw.executable.bytes = front ++ [slash] ∨
        raw.executable.bytes = front ++ [slash, dot]) ∧
      ∀ t' : Tree, t'.kindOf raw.executable ≠ .ok .regular) := by
  have hanchored := executable_anchored hread hraw hload hparent h0
  have hkept := executable_kept hread hraw hload
  -- the executable is not the same if it was anchored, so the two cases exclude each other
  have hcases : raw.executable.isAbsolute = false ∧ ¬ NameLike raw.executable.bytes ∨
      raw.executable.isAbsolute = true ∨ NameLike raw.executable.bytes := by
    cases raw.executable.isAbsolute <;> by_cases h : NameLike raw.executable.bytes <;> simp [h]
  refine ⟨⟨fun h => ?_, fun ⟨hrel, hname⟩ => ?_⟩, fun hrel => ⟨fun h hname => ?_, hanchored hrel⟩,
    hkept, fun hne => ?_, fun h => hkept (Or.inr (nameLike_of_no_slash h)), fun hrel hs h => ?_⟩
  · refine hcases.resolve_right fun hkeep => ?_
    rw [hkept hkeep] at h
    exact ne_append h0 h
  · rw [hanchored hrel hname]
    exact Path.join_bytes h0 hrel
  · rw [hkept (Or.inr hname)] at h
    exact ne_append h0 ((congrArg Path.bytes h).trans (Path.join_bytes h0 hrel))
  · obtain ⟨hrel, hname⟩ := hcases.resolve_right fun hkeep => hne (hkept hkeep)
    have hslash : slash ∈ s.executable.bytes := by
      rw [hanchored hrel hname, Path.join_bytes h0 hrel]
      refine List.mem_append_right _ ?_
      by_contra hno
      exact hname (nameLike_of_no_slash hno)
    exact ⟨hslash, Machine.find_of_slash hslash⟩
  · have hname : NameLike raw.executable.bytes := by
      by_contra hname
      rw [hanchored hrel hname] at h
      exact ne_append h0 ((congrArg Path.bytes h).symm.trans (Path.join_bytes h0 hrel))
    obtain ⟨n, tail, hn, -, htail, hbytes⟩ := hname
    have hne : tail ≠ [] := by
      rintro rfl
      rw [hbytes, List.append_nil] at hs
      exact hn hs
    obtain ⟨front, hfront⟩ := htail.ends hne
    have hends : raw.executable.bytes = (n ++ front) ++ [slash] ∨
        raw.executable.bytes = (n ++ front) ++ [slash, dot] := by
      rw [hbytes, List.append_assoc, List.append_assoc]
      exact hfront.imp (congrArg (n ++ ·)) (congrArg (n ++ ·))
    exact ⟨⟨n ++ front, hends⟩, Tree.not_file_of_tail hends⟩

/-- A directory `d` with two settings files: the executable of one is a path, and that of the other
looks like a name. -/
def twoFilesTree : Tree where
  home := []
  entries := [([[0x64]], .directory),
    ([[0x64], [0x61]], .file { content := Bytes.ofString "executable = \"./x\"" }),
    ([[0x64], [0x6B]], .file { content := Bytes.ofString "executable = \"x//.\"" })]
  nodup := by decide
  named := by decide

theorem executable_anchored_exact_two_files :
    (∃ s, load twoFilesTree (Path.ofString "d/a") = .ok s ∧
      s.executable = Path.ofString "d/./x" ∧
      ∀ t arguments, Machine.find t s.executable arguments =
        Machine.load t s.executable arguments) ∧
    ∃ s, load twoFilesTree (Path.ofString "d/k") = .ok s ∧
      s.executable = Path.ofString "x//." ∧ ∀ t : Tree, t.kindOf s.executable ≠ .ok .regular := by
  have hparent : ∀ n ∈ ["d/a", "d/k"], (Path.ofString n).parent = some (Path.ofString "d") := by
    decide
  constructor
  · have hload : load twoFilesTree (Path.ofString "d/a") = .ok
        { suiteDir := Path.ofString "d/tests/js_suite", executable := Path.ofString "d/./x" } := by
      cbv
    have hread : twoFilesTree.read (Path.ofString "d/a") =
        .ok (Utf8.encode "executable = \"./x\"".toList) := by cbv
    have hraw : ofText? "executable = \"./x\"".toList =
        some { executable := Path.ofString "./x" } := by cbv
    obtain ⟨-, -, -, hfind, -, -⟩ :=
      executable_anchored_exact hread hraw hload (hparent _ (by decide)) (by decide)
    exact ⟨_, hload, rfl, (hfind (by decide)).2⟩
  · have hload : load twoFilesTree (Path.ofString "d/k") = .ok
        { suiteDir := Path.ofString "d/tests/js_suite", executable := Path.ofString "x//." } := by
      cbv
    have hread : twoFilesTree.read (Path.ofString "d/k") =
        .ok (Utf8.encode "executable = \"x//.\"".toList) := by cbv
    have hraw : ofText? "executable = \"x//.\"".toList =
        some { executable := Path.ofString "x//." } := by cbv
    obtain ⟨-, -, -, -, -, hkind⟩ :=
      executable_anchored_exact hread hraw hload (hparent _ (by decide)) (by decide)
    exact ⟨_, hload, rfl, (hkind (by decide) (by decide) rfl).2⟩

end Settings

end SuiteRunner
