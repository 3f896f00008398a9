import Mathlib
import SuiteRunner.Proofs.Settings
import SuiteRunner.Proofs.Text.Utf8

/-!
# What the path of a settings file stands for

Several things can be wrong with a settings file at once, and one of them is reported. `Loads` says
which, as one rule for each result; a rule asks that nothing was wrong that is looked at earlier.

* `load_of_text`: a file that is a text is read, checked, and then anchored;
* `anchoredTo_anchorToFile`: anchoring puts the directory of the file in front of relative paths;
* **`load_exact`**: loading follows the rules.
-/

namespace SuiteRunner.Settings

variable {t : Tree} {file : Path} {text : List Char} {raw s : Settings}

/-! ## Rules -/

/-- `r` is what the path `file` stands for in the tree `t`. -/
inductive Loads (t : Tree) (file : Path) : (r : Except Failure Settings) → Prop
  /-- The path leads to no entry. -/
  | missing (h : ∀ e, t.entryOf file ≠ .ok e) : Loads t file (.ok standard)
  /-- It leads to something that cannot be read. -/
  | unreadable {e : Entry} {cause : Fault} (he : t.entryOf file = .ok e)
      (h : t.read file = .error cause) : Loads t file (.error (.settings (.unreadable cause)))
  /-- It leads to bytes that are no text. -/
  | notText {bytes : Bytes} (h : t.read file = .ok bytes) (hno : ∀ cs, bytes ≠ Utf8.encode cs) :
      Loads t file (.error (.settings (.unreadable .notText)))
  /-- The text is no settings file. -/
  | malformed {text : List Char} (h : t.read file = .ok (Utf8.encode text))
      (hno : ofText? text = none) : Loads t file (.error (.settings .malformed))
  /-- The budget is nothing. -/
  | zeroTimeout {text : List Char} {raw : Settings} (h : t.read file = .ok (Utf8.encode text))
      (hraw : ofText? text = some raw) (hbudget : raw.timeoutMs = 0) :
      Loads t file (.error (.settings .zeroTimeout))
  /-- There is a budget, and the suffix is empty. -/
  | emptyExtension {text : List Char} {raw : Settings} (h : t.read file = .ok (Utf8.encode text))
      (hraw : ofText? text = some raw) (hbudget : raw.timeoutMs ≠ 0) (hext : raw.extension = "") :
      Loads t file (.error (.settings .emptyExtension))
  /-- Nothing is wrong. -/
  | loaded {text : List Char} {raw : Settings} (h : t.read file = .ok (Utf8.encode text))
      (hraw : ofText? text = some raw) (hbudget : raw.timeoutMs ≠ 0) (hext : raw.extension ≠ "") :
      Loads t file (.ok (raw.anchorToFile file))

/-! ## Steps of loading -/

theorem load_of_missing (h : ∀ e, t.entryOf file ≠ .ok e) : load t file = .ok standard := by
  have hno : t.reaches file = false := by
    unfold Tree.reaches
    cases he : t.entryOf file with
    | error cause => rfl
    | ok e => exact absurd he (h e)
  unfold load
  rw [hno, if_neg Bool.false_ne_true]

/-- A path that leads to something stands for what is in the file. -/
theorem load_of_reached {e : Entry} (h : t.entryOf file = .ok e) :
    load t file = (do
      let s ← parse (← readText t file)
      s.validate
      .ok (s.anchorToFile file)) := by
  have hyes : t.reaches file = true := by
    unfold Tree.reaches
    rw [h]
    rfl
  unfold load
  rw [hyes, if_pos rfl]

theorem entryOf_of_read {bytes : Bytes} (h : t.read file = .ok bytes) :
    ∃ e, t.entryOf file = .ok e := by
  obtain ⟨e, he, -⟩ := bind_eq_ok_iff.mp h
  exact ⟨e, he⟩

theorem load_of_text (h : t.read file = .ok (Utf8.encode text)) :
    load t file = (do
      let s ← parse text
      s.validate
      .ok (s.anchorToFile file)) := by
  obtain ⟨e, he⟩ := entryOf_of_read h
  have hread : readText t file = .ok text := by
    unfold readText
    rw [h]
    simp only [Utf8.decode?_encode]
  rw [load_of_reached he, hread]
  rfl

/-- Settings that a file is are checked, and then anchored. -/
theorem load_of_parsed (h : t.read file = .ok (Utf8.encode text)) (hraw : ofText? text = some raw) :
    load t file = (do
      raw.validate
      .ok (raw.anchorToFile file)) := by
  have hparse : parse text = .ok raw := by
    unfold parse
    rw [hraw]
  rw [load_of_text h, hparse]
  rfl

theorem Loads.eq {r : Except Failure Settings} (h : Loads t file r) : load t file = r := by
  cases h with
  | missing h => exact load_of_missing h
  | unreadable he h =>
    rw [load_of_reached he]
    unfold readText
    rw [h]
    rfl
  | notText h hno =>
    obtain ⟨e, he⟩ := entryOf_of_read h
    rw [load_of_reached he]
    unfold readText
    rw [h]
    simp only [Utf8.decode?_eq_none_iff.mpr hno]
    rfl
  | malformed h hno =>
    rw [load_of_text h]
    unfold parse
    rw [hno]
    rfl
  | zeroTimeout h hraw hbudget =>
    rw [load_of_parsed h hraw]
    unfold validate
    rw [if_pos hbudget]
    rfl
  | emptyExtension h hraw hbudget hext =>
    rw [load_of_parsed h hraw]
    unfold validate
    rw [if_neg hbudget, if_pos hext]
    rfl
  | loaded h hraw hbudget hext =>
    rw [load_of_parsed h hraw, validate_eq_ok_iff.mpr ⟨hbudget, hext⟩]
    rfl

/-- One of the rules applies to any path. -/
theorem exists_loads (t : Tree) (file : Path) : ∃ r, Loads t file r := by
  cases he : t.entryOf file with
  | error cause => exact ⟨_, .missing fun e h => by rw [he] at h; cases h⟩
  | ok e =>
    cases hr : t.read file with
    | error cause => exact ⟨_, .unreadable he hr⟩
    | ok bytes =>
      cases hd : Utf8.decode? bytes with
      | none => exact ⟨_, .notText hr (Utf8.decode?_eq_none_iff.mp hd)⟩
      | some text =>
        rw [Utf8.decode?_eq_some_iff.mp hd] at hr
        cases hraw : ofText? text with
        | none => exact ⟨_, .malformed hr hraw⟩
        | some raw =>
          by_cases hbudget : raw.timeoutMs = 0
          · exact ⟨_, .zeroTimeout hr hraw hbudget⟩
          · by_cases hext : raw.extension = ""
            · exact ⟨_, .emptyExtension hr hraw hbudget hext⟩
            · exact ⟨_, .loaded hr hraw hbudget hext⟩

/-- **Loading follows the rules.** -/
theorem load_eq_iff {r : Except Failure Settings} : load t file = r ↔ Loads t file r := by
  obtain ⟨r', h'⟩ := exists_loads t file
  refine ⟨fun h => ?_, Loads.eq⟩
  rw [← h, h'.eq]
  exact h'

/-! ## What anchoring changes -/

/-- `p` looked up from the directory of `file`. -/
def anchoredToFile (file p : Path) : Path :=
  match baseOf? file with
  | some base => anchored base p
  | none => p

theorem suiteDir_anchorToFile (file : Path) (s : Settings) :
    (s.anchorToFile file).suiteDir = anchoredToFile file s.suiteDir := by
  unfold anchorToFile anchoredToFile
  cases baseOf? file <;> rfl

theorem executable_anchorToFile (file : Path) (s : Settings) :
    (s.anchorToFile file).executable =
      if isBare s.executable then s.executable else anchoredToFile file s.executable := by
  unfold anchorToFile anchoredToFile
  cases baseOf? file <;> simp [anchorTo]

theorem extension_anchorToFile (file : Path) (s : Settings) :
    (s.anchorToFile file).extension = s.extension := by
  unfold anchorToFile
  cases baseOf? file <;> rfl

theorem timeoutMs_anchorToFile (file : Path) (s : Settings) :
    (s.anchorToFile file).timeoutMs = s.timeoutMs := by
  unfold anchorToFile
  cases baseOf? file <;> rfl

theorem baseOf?_eq_some_iff {base : Path} :
    baseOf? file = some base ↔ file.parent = some base ∧ base.bytes ≠ [] := by
  unfold baseOf?
  rw [Option.filter_eq_some_iff]
  simp

/-- A relative path is joined to the parent of the file. -/
theorem anchoredToFile_of_parent {base p : Path} (hparent : file.parent = some base)
    (h0 : base.bytes ≠ []) (hrel : p.isAbsolute = false) :
    anchoredToFile file p = base.join p := by
  unfold anchoredToFile anchored
  rw [baseOf?_eq_some_iff.mpr ⟨hparent, h0⟩]
  simp only [hrel, if_neg Bool.false_ne_true]

theorem anchoredToFile_of_absolute {p : Path} (file : Path) (h : p.isAbsolute = true) :
    anchoredToFile file p = p := by
  unfold anchoredToFile
  split
  · unfold anchored
    rw [if_pos h]
  · rfl

/-- A file in the current directory leaves paths as they are. -/
theorem anchoredToFile_of_no_parent (h : ∀ base, file.parent = some base → base.bytes = [])
    (p : Path) : anchoredToFile file p = p := by
  unfold anchoredToFile
  split
  · rename_i base hbase
    obtain ⟨hparent, h0⟩ := baseOf?_eq_some_iff.mp hbase
    exact absurd (h base hparent) h0
  · rfl

/-- `p` is `raw`, looked up from the directory of `file`: the parent of `file` in front of it, with
one slash between them, if it is relative and there is a parent. -/
structure LookedUpFrom (file raw p : Path) : Prop where
  joined : ∀ base, file.parent = some base → base.bytes ≠ [] → raw.isAbsolute = false →
    p.bytes = base.bytes ++
      (if base.bytes.getLast? = some Path.slash then [] else [Path.slash]) ++ raw.bytes
  kept : raw.isAbsolute = true ∨ (∀ base, file.parent = some base → base.bytes = []) → p = raw

theorem lookedUpFrom_anchoredToFile (file raw : Path) :
    LookedUpFrom file raw (anchoredToFile file raw) where
  joined base hparent h0 hrel := by
    rw [anchoredToFile_of_parent hparent h0 hrel]
    exact Path.join_bytes h0 hrel
  kept h := by
    rcases h with habs | hnone
    · exact anchoredToFile_of_absolute file habs
    · exact anchoredToFile_of_no_parent hnone raw

/-- The settings `s` are `raw`, with their paths looked up from the directory of `file`. An
executable with at most one component is looked up among the installed programs. -/
structure AnchoredTo (file : Path) (raw s : Settings) : Prop where
  suiteDir : LookedUpFrom file raw.suiteDir s.suiteDir
  executable : 1 < raw.executable.components.length →
    LookedUpFrom file raw.executable s.executable
  bare : raw.executable.components.length ≤ 1 → s.executable = raw.executable
  extension : s.extension = raw.extension
  timeoutMs : s.timeoutMs = raw.timeoutMs

theorem anchoredTo_anchorToFile (file : Path) (raw : Settings) :
    AnchoredTo file raw (raw.anchorToFile file) where
  suiteDir := by
    rw [suiteDir_anchorToFile]
    exact lookedUpFrom_anchoredToFile file raw.suiteDir
  executable h := by
    have hbare : isBare raw.executable = false := by simpa [isBare] using h
    rw [executable_anchorToFile, hbare, if_neg Bool.false_ne_true]
    exact lookedUpFrom_anchoredToFile file raw.executable
  bare h := by
    have hbare : isBare raw.executable = true := by simpa [isBare] using h
    rw [executable_anchorToFile, hbare, if_pos rfl]
  extension := extension_anchorToFile file raw
  timeoutMs := timeoutMs_anchorToFile file raw

/-! ## Loading -/

/-- **Loading a settings file.** It follows the rules, so of several things that are wrong the one
that is looked at first is reported, and each of them is a problem of the settings. A path that
leads to no entry stands for the standard settings as they are. From a file come the suffix and the
budget that are written in it, and its two paths, with the parent of the file in front of them and
no other change. Settings that are loaded can be honoured. Loading only looks at the tree. -/
theorem load_exact (t : Tree) (file : Path) :
    (∀ r, load t file = r ↔ Loads t file r) ∧
    (∀ failure, load t file = .error failure → ∃ problem, failure = .settings problem) ∧
    (∀ text raw s, t.read file = .ok (Utf8.encode text) → ofText? text = some raw →
      load t file = .ok s → AnchoredTo file raw s) ∧
    ∀ s, load t file = .ok s →
      s.validate = .ok () ∧ s.extension ≠ "" ∧ 0 < s.timeoutMs.toNat := by
  refine ⟨fun r => load_eq_iff, fun failure h => ?_, fun text raw s ht hraw h => ?_, fun s h => ?_⟩
  · cases load_eq_iff.mp h <;> exact ⟨_, rfl⟩
  · rw [load_of_parsed ht hraw] at h
    obtain ⟨⟨⟩, -, h⟩ := bind_eq_ok_iff.mp h
    exact Except.ok.inj h ▸ anchoredTo_anchorToFile file raw
  · have hvalid := validate_of_load h
    obtain ⟨hbudget, hext⟩ := validate_eq_ok_iff.mp hvalid
    refine ⟨hvalid, hext, Nat.pos_of_ne_zero fun h0 => hbudget ?_⟩
    exact UInt64.toNat_inj.mp h0

/-- A directory `d` with a file `z` that has two things wrong, a file `k` that has none, a file `b`
that is no text and a file `u` that cannot be read; a link `g` to nothing, and a link `o` to
itself. -/
def spoiledTree : Tree where
  home := []
  entries := [([[0x64]], .directory),
    ([[0x64], [0x7A]], .file { content := Bytes.ofString "extension = \"\"\ntimeout_ms = 0\n" }),
    ([[0x64], [0x6B]], .file { content := Bytes.ofString "timeout_ms = 5" }),
    ([[0x64], [0x62]], .file { content := [0xFF] }),
    ([[0x64], [0x75]], .file { content := [], denied? := some .noAccess }),
    ([[0x67]], .link ⟨[0x78]⟩), ([[0x6F]], .link ⟨[0x6F]⟩)]
  nodup := by decide
  named := by decide

/-- The budget is looked at before the suffix, and what cannot be read before both. Nothing is where
nothing is, behind a link to nothing or to itself, below a file, and at a path with a zero byte. -/
theorem load_exact_spoiled :
    load spoiledTree (Path.ofString "d") = .error (.settings (.unreadable .isDirectory)) ∧
    load spoiledTree (Path.ofString "d/u") = .error (.settings (.unreadable .noAccess)) ∧
    load spoiledTree (Path.ofString "d/b") = .error (.settings (.unreadable .notText)) ∧
    load spoiledTree (Path.ofString "d/z") = .error (.settings .zeroTimeout) ∧
    (∀ p ∈ ["x", "g", "o", "d/z/c", "d\x00"],
      load spoiledTree (Path.ofString p) = .ok standard) ∧
    ∃ s, load spoiledTree (Path.ofString "d/k") = .ok s ∧ 0 < s.timeoutMs.toNat ∧
      s.timeoutMs = 5 ∧ LookedUpFrom (Path.ofString "d/k") standard.suiteDir s.suiteDir := by
  have hrules := fun p => (load_exact spoiledTree (Path.ofString p)).1
  refine ⟨?_, ?_, ?_, ?_, fun p hp => ?_, ?_⟩
  · exact (hrules "d" _).mpr (.unreadable (e := .directory) (by cbv) (by cbv))
  · have hentry : spoiledTree.entryOf (Path.ofString "d/u") =
        .ok (.file { content := [], denied? := some .noAccess }) := by cbv
    exact (hrules "d/u" _).mpr (.unreadable hentry (by cbv))
  · have hread : spoiledTree.read (Path.ofString "d/b") = .ok [0xFF] := by cbv
    exact (hrules "d/b" _).mpr (.notText hread (Utf8.decode?_eq_none_iff.mp rfl))
  · have hread : spoiledTree.read (Path.ofString "d/z") =
        .ok (Utf8.encode "extension = \"\"\ntimeout_ms = 0\n".toList) := by cbv
    have hraw : ofText? "extension = \"\"\ntimeout_ms = 0\n".toList =
        some { extension := "", timeoutMs := 0 } := by cbv
    exact (hrules "d/z" _).mpr (.zeroTimeout hread hraw rfl)
  · refine (hrules p _).mpr (.missing fun e he => ?_)
    have hnone : (spoiledTree.entryOf (Path.ofString p)).toOption = none := by
      simp only [List.mem_cons, List.not_mem_nil, or_false] at hp
      obtain rfl | rfl | rfl | rfl | rfl := hp <;> cbv
    rw [he] at hnone
    cases hnone
  · have hread : spoiledTree.read (Path.ofString "d/k") =
        .ok (Utf8.encode "timeout_ms = 5".toList) := by cbv
    have hraw : ofText? "timeout_ms = 5".toList = some { timeoutMs := 5 } := by cbv
    have hload := (hrules "d/k" _).mpr (.loaded hread hraw (by decide) (by decide))
    have hanchored := (load_exact spoiledTree (Path.ofString "d/k")).2.2.1 _ _ _ hread hraw hload
    obtain ⟨-, -, hpos⟩ := (load_exact spoiledTree (Path.ofString "d/k")).2.2.2 _ hload
    exact ⟨_, hload, hpos, hanchored.timeoutMs, hanchored.suiteDir⟩

end SuiteRunner.Settings
