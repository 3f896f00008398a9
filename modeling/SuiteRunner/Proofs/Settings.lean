import SuiteRunner.CommandLine
import SuiteRunner.Proofs.Lookup

/-!
# The settings that commands work with

A settings file that loads can be honoured, whatever is in it, and no option but the budget can
change that.

* `SettingName.ofText?_eq_some_iff`: each setting has one name in files;
* `validate_of_load`: a loaded file can be honoured;
* **`runSettings_eq`**: a run works with the settings of a listing, but for the executable and the
  budget.
-/

namespace SuiteRunner

namespace SettingName

variable {n : SettingName} {k : List Char}

theorem ofText?_text (n : SettingName) : ofText? n.text.toList = some n := by
  cases n <;> decide

/-- Each setting has one name in files. -/
theorem ofText?_eq_some_iff : ofText? k = some n ↔ k = n.text.toList := by
  refine ⟨fun h => ?_, fun h => h ▸ ofText?_text n⟩
  have hfound := List.find?_some h
  exact (eq_of_beq hfound).symm

theorem ofText?_eq_none_iff : ofText? k = none ↔ ∀ n : SettingName, k ≠ n.text.toList := by
  rw [Option.eq_none_iff_forall_ne_some]
  exact forall_congr' fun n => not_congr ofText?_eq_some_iff

end SettingName

namespace Settings

variable {s : Settings} {t : Tree} {file : Path}

theorem validate_anchorToFile (file : Path) (s : Settings) :
    (s.anchorToFile file).validate = s.validate := by
  unfold anchorToFile
  split <;> rfl

/-- **A loaded file can be honoured.** -/
theorem validate_of_load (h : load t file = .ok s) : s.validate = .ok () := by
  unfold load at h
  split at h
  · obtain ⟨text, -, h⟩ := bind_eq_ok_iff.mp h
    obtain ⟨raw, -, h⟩ := bind_eq_ok_iff.mp h
    obtain ⟨⟨⟩, hvalid, h⟩ := bind_eq_ok_iff.mp h
    rw [← Except.ok.inj h, validate_anchorToFile, hvalid]
  · rw [← Except.ok.inj h]
    rfl

theorem validate_eq_ok_iff : s.validate = .ok () ↔ s.timeoutMs ≠ 0 ∧ s.extension ≠ "" := by
  unfold validate
  split
  · simp [*]
  · split <;> simp [*]

end Settings

namespace CommandLine

variable {t : Tree} {o : Options} {s : Settings}

theorem validate_of_settingsFor (h : settingsFor t o = .ok s) : s.validate = .ok () := by
  obtain ⟨loaded, hl, h⟩ := bind_eq_ok_iff.mp h
  have hvalid : loaded.validate = .ok () := Settings.validate_of_load hl
  rw [← Except.ok.inj h]
  exact hvalid

/-- **A run works with the settings of a listing**, but for the executable and the budget that its
own options give. A budget that is not nothing can always be honoured. -/
theorem runSettings_eq (t : Tree) (o : Options) (exe? : Option Path) {ms? : Option UInt64}
    (hms : ms? ≠ some 0) :
    runSettings t { o with exe? := exe?, timeoutMs? := ms? } =
      (settingsFor t o).map fun s =>
        { s with executable := exe?.getD s.executable, timeoutMs := ms?.getD s.timeoutMs } := by
  have hsame : settingsFor t { o with exe? := exe?, timeoutMs? := ms? } = settingsFor t o := rfl
  unfold runSettings
  rw [hsame]
  cases hs : settingsFor t o with
  | error failure => rfl
  | ok s =>
    obtain ⟨hbudget, hext⟩ := Settings.validate_eq_ok_iff.mp (validate_of_settingsFor hs)
    have hvalid : ({ s with
        executable := exe?.getD s.executable
        timeoutMs := ms?.getD s.timeoutMs } : Settings).validate = .ok () := by
      refine Settings.validate_eq_ok_iff.mpr ⟨?_, hext⟩
      cases ms? with
      | none => exact hbudget
      | some ms => exact fun h0 => hms (congrArg some h0)
    simp only [bind, Except.bind, hvalid, Except.map]

theorem runSettings_of_error (exe? : Option Path) {ms? : Option UInt64} (hms : ms? ≠ some 0)
    {failure : Failure} (h : settingsFor t o = .error failure) :
    runSettings t { o with exe? := exe?, timeoutMs? := ms? } = .error failure := by
  rw [runSettings_eq t o exe? hms, h]
  rfl

theorem runSettings_of_ok (exe? : Option Path) {ms? : Option UInt64} (hms : ms? ≠ some 0)
    (h : settingsFor t o = .ok s) :
    ∃ s', runSettings t { o with exe? := exe?, timeoutMs? := ms? } = .ok s' ∧
      s'.suiteDir = s.suiteDir ∧ s'.extension = s.extension := by
  rw [runSettings_eq t o exe? hms, h]
  exact ⟨_, rfl, rfl, rfl⟩

end CommandLine

end SuiteRunner
