import Mathlib
import SuiteRunner.Proofs.CommandLine.Arguments
import SuiteRunner.Proofs.Settings.Origin

/-!
# Where the settings of a run come from

An option comes before the settings file, and the file before the standard settings.

* `Effective`: where one setting comes from; there is one value that it can have
  (`Effective.unique`);
* `effective_overridden`: what was loaded, with the options in its place, comes from there;
* **`runSettings_exact`**: so does a run, and only for a file that loads and a budget that is not
  nothing. A listing looks for the same tests.
-/

namespace SuiteRunner.CommandLine

open Settings (standard Says LookedUp)

variable {t : Tree} {o o' : Options} {n : SettingName} {x y : Setting} {s s' loaded : Settings}

/-- The option for a setting, with its value as it is. There is none for the suffix. -/
def optionFor (o : Options) : SettingName → Option Setting
  | .suiteDir => o.suite?.map .suiteDir
  | .executable => o.exe?.map .executable
  | .extension => none
  | .timeoutMs => o.timeoutMs?.map .timeoutMs

/-- The setting `n` of a run is `x`. -/
inductive Effective (t : Tree) (o : Options) (n : SettingName) : Setting → Prop
  /-- Its option says so. -/
  | option {x : Setting} (h : optionFor o n = some x) : Effective t o n x
  /-- There is no option for it, and the settings file says so: what is in the file, or is standard
  if the file does not give it, is looked up from the directory of the file. -/
  | file {text : List Char} {fs : Toml.Fields} {x y : Setting} (ho : optionFor o n = none)
      (hread : t.read (fileOf o) = .ok (Utf8.encode text)) (hdoc : Toml.ofText? text = some fs)
      (hx : Says fs n x) (hy : LookedUp (fileOf o) x y) : Effective t o n y
  /-- There is no option for it and no file, and it is standard. -/
  | standard (ho : optionFor o n = none) (hno : ∀ e, t.entryOf (fileOf o) ≠ .ok e) :
      Effective t o n (standard.get n)

theorem Effective.unique (hx : Effective t o n x) (hy : Effective t o n y) : x = y := by
  cases hx with
  | option h =>
    cases hy with
    | option h' => exact Option.some.inj (h.symm.trans h')
    | file ho | standard ho =>
      rw [h] at ho
      cases ho
  | file ho hread hdoc hx hl =>
    cases hy with
    | option h =>
      rw [h] at ho
      cases ho
    | file _ hread' hdoc' hx' hl' =>
      rw [hread] at hread'
      obtain rfl := Utf8.encode_injective (Except.ok.inj hread')
      rw [hdoc] at hdoc'
      cases hdoc'
      rw [hx.unique hx'] at hl
      exact hl.unique hl'
    | standard _ hno =>
      obtain ⟨e, he⟩ := Settings.entryOf_of_read hread
      exact absurd he (hno e)
  | standard ho hno =>
    cases hy with
    | option h =>
      rw [h] at ho
      cases ho
    | file _ hread =>
      obtain ⟨e, he⟩ := Settings.entryOf_of_read hread
      exact absurd he (hno e)
    | standard => rfl

/-- Only the option for it, and the file, decide a setting. -/
theorem Effective.of_same (hfile : fileOf o' = fileOf o) (ho : optionFor o' n = optionFor o n)
    (h : Effective t o n x) : Effective t o' n x := by
  cases h with
  | option h => exact .option (ho.trans h)
  | file h hread hdoc hx hl =>
    rw [← hfile] at hread hl
    exact .file (ho.trans h) hread hdoc hx hl
  | standard h hno =>
    rw [← hfile] at hno
    exact .standard (ho.trans h) hno

/-! ## Settings that were loaded -/

/-- The settings with the options of a run in their place. -/
def overridden (o : Options) (s : Settings) : Settings where
  suiteDir := o.suite?.getD s.suiteDir
  executable := o.exe?.getD s.executable
  extension := s.extension
  timeoutMs := o.timeoutMs?.getD s.timeoutMs

theorem settingsFor_of_load (h : Settings.load t (fileOf o) = .ok loaded) :
    settingsFor t o = .ok { loaded with suiteDir := o.suite?.getD loaded.suiteDir } := by
  unfold settingsFor
  rw [h]
  rfl

theorem runSettings_of_load (h : Settings.load t (fileOf o) = .ok loaded) :
    runSettings t o = (overridden o loaded).validate.map fun _ => overridden o loaded := by
  unfold runSettings
  rw [settingsFor_of_load h]
  show (do (overridden o loaded).validate; .ok (overridden o loaded)) = _
  cases (overridden o loaded).validate <;> rfl

/-- A file that does not load is not mended by an option. -/
theorem runSettings_of_load_error {failure : Failure}
    (h : Settings.load t (fileOf o) = .error failure) : runSettings t o = .error failure := by
  unfold runSettings settingsFor
  rw [h]
  rfl

theorem get_overridden (o : Options) (s : Settings) (n : SettingName) :
    (overridden o s).get n = (optionFor o n).getD (s.get n) := by
  obtain ⟨config?, suite?, exe?, timeoutMs?⟩ := o
  cases n with
  | suiteDir => cases suite? <;> rfl
  | executable => cases exe? <;> rfl
  | extension => rfl
  | timeoutMs => cases timeoutMs? <;> rfl

/-- **A setting comes from its option, or else from what was loaded.** -/
theorem effective_overridden (h : Settings.load t (fileOf o) = .ok loaded) (n : SettingName) :
    Effective t o n ((overridden o loaded).get n) := by
  rw [get_overridden]
  cases ho : optionFor o n with
  | some x => exact .option ho
  | none =>
    rcases Settings.load_cases h with ⟨hno, rfl⟩ | ⟨text, fs, hread, hdoc, hsays⟩
    · exact .standard ho hno
    · obtain ⟨x, hx, hlooked⟩ := hsays n
      exact .file ho hread hdoc hx hlooked

theorem effective_iff (h : Settings.load t (fileOf o) = .ok loaded) :
    Effective t o n x ↔ (overridden o loaded).get n = x := by
  refine ⟨fun hx => (effective_overridden h n).unique hx, ?_⟩
  rintro rfl
  exact effective_overridden h n

/-- What was loaded has a suffix, so only the budget can be wrong. -/
theorem runSettings_eq_ok_iff :
    runSettings t o = .ok s ↔ ∃ loaded, Settings.load t (fileOf o) = .ok loaded ∧
      (overridden o loaded).timeoutMs ≠ 0 ∧ s = overridden o loaded := by
  cases h : Settings.load t (fileOf o) with
  | error failure => simp [runSettings_of_load_error h]
  | ok loaded =>
    have hext : (overridden o loaded).extension ≠ "" :=
      (Settings.validate_eq_ok_iff.mp (Settings.validate_of_load h)).2
    have hvalid :
        (overridden o loaded).validate = .ok () ↔ (overridden o loaded).timeoutMs ≠ 0 := by
      rw [Settings.validate_eq_ok_iff]
      exact and_iff_left hext
    rw [runSettings_of_load h]
    constructor
    · intro hs
      cases hv : (overridden o loaded).validate with
      | error failure =>
        rw [hv] at hs
        cases hs
      | ok u =>
        rw [hv] at hs
        exact ⟨loaded, rfl, hvalid.mp hv, (Except.ok.inj hs).symm⟩
    · rintro ⟨loaded', hl, hms, rfl⟩
      cases hl
      rw [hvalid.mpr hms]
      rfl

/-- A run that does not get to its suite has a problem with its settings. -/
theorem problem_of_runSettings {failure : Failure} (h : runSettings t o = .error failure) :
    ∃ problem, failure = .settings problem := by
  cases hl : Settings.load t (fileOf o) with
  | error failure' =>
    rw [runSettings_of_load_error hl] at h
    cases h
    cases Settings.load_eq_iff.mp hl <;> exact ⟨_, rfl⟩
  | ok loaded =>
    rw [runSettings_of_load hl] at h
    unfold Settings.validate at h
    split at h
    · cases h
      exact ⟨_, rfl⟩
    · split at h
      · cases h
        exact ⟨_, rfl⟩
      · cases h

theorem listing_of_load (color : Bool) (h : Settings.load t (fileOf o) = .ok loaded) :
    listing color t o =
      (Suite.discover t (overridden o loaded).suiteDir (overridden o loaded).extension).map
        fun found => listText color t (overridden o loaded) found.tests := by
  unfold listing
  rw [settingsFor_of_load h]
  show (do
    let found ← Suite.discover t (overridden o loaded).suiteDir (overridden o loaded).extension
    .ok (listText color t (overridden o loaded) found.tests)) = _
  cases Suite.discover t (overridden o loaded).suiteDir (overridden o loaded).extension <;> rfl

theorem list_of_load (color : Bool) (h : Settings.load t (fileOf o) = .ok loaded) :
    list color t o =
      match Suite.discover t (overridden o loaded).suiteDir (overridden o loaded).extension with
      | .ok found => .ofText (listText color t (overridden o loaded) found.tests)
      | .error failure => .ofFailure color failure [] [] := by
  unfold list
  rw [listing_of_load color h]
  cases Suite.discover t (overridden o loaded).suiteDir (overridden o loaded).extension <;> rfl

/-! ## Runs -/

variable {σ : Type}

/-- **The settings of a run.** A run gets to its suite if and only if the settings file loads and
the budget is not nothing. Then each setting is the value of its option as it is; without the option
it is what the file says, or the standard if the file does not give it, looked up from the directory
of the file; and without a file it is the standard as it is. An option has no part in the other
settings. A file that does not load fails in the same way with any options, a budget of nothing is
always a problem with the settings, and no session is started with it or with an empty suffix. A
listing looks for tests with the same suite directory and suffix. Every combination of options can
be asked for. -/
theorem runSettings_exact (host : Supervision.Host σ) (state : σ) (color : Bool) (t : Tree)
    (o : Options) :
    let record := fun s => Supervision.session host (Console.listener color) s ⟨0, state⟩ t
    ((∃ s, runSettings t o = .ok s) ↔
      (∃ s, Settings.load t (fileOf o) = .ok s) ∧
        ∃ ms, Effective t o .timeoutMs (.timeoutMs ms) ∧ 0 < ms.toNat) ∧
    (∀ s, runSettings t o = .ok s →
      run host state color t o = ofRecord color (record s) ∧
      (∀ n x, Effective t o n x ↔ s.get n = x) ∧ 0 < s.timeoutMs.toNat ∧ s.extension ≠ "" ∧
      ∀ o' s', fileOf o' = fileOf o → runSettings t o' = .ok s' →
        ∀ n, optionFor o' n = optionFor o n → s'.get n = s.get n) ∧
    (∀ failure, runSettings t o = .error failure →
      run host state color t o = some (.ofFailure color failure [] []) ∧
        ∃ problem, failure = .settings problem) ∧
    (∀ failure, Settings.load t (fileOf o) = .error failure → runSettings t o = .error failure) ∧
    (o.timeoutMs? = some 0 → ∃ problem, runSettings t o = .error (.settings problem)) ∧
    (∀ loaded, Settings.load t (fileOf o) = .ok loaded →
      ∃ s : Settings, (∀ n x, Effective t o n x ↔ s.get n = x) ∧
        list color t o =
          match Suite.discover t s.suiteDir s.extension with
          | .ok found => .ofText (listText color t s found.tests)
          | .error failure => .ofFailure color failure [] []) ∧
    (o.PathsGiven →
      respond host state color t (Subcommand.run.word :: o.words) = run host state color t o) := by
  intro record
  have hpos : ∀ ms : UInt64, ms ≠ 0 ↔ 0 < ms.toNat := fun ms => by
    rw [Nat.pos_iff_ne_zero, ne_eq, ne_eq, ← UInt64.toNat_inj]
    rfl
  refine ⟨?_, fun s hs => ?_, fun failure hf => ?_, fun _ => runSettings_of_load_error,
    fun hzero => ?_, fun loaded hl => ?_, fun hpaths => ?_⟩
  · constructor
    · rintro ⟨s, hs⟩
      obtain ⟨loaded, hl, hms, rfl⟩ := runSettings_eq_ok_iff.mp hs
      exact ⟨⟨loaded, hl⟩, _, effective_overridden hl .timeoutMs, (hpos _).mp hms⟩
    · rintro ⟨⟨loaded, hl⟩, ms, hms, h0⟩
      have hget := (effective_iff hl).mp hms
      refine ⟨_, runSettings_eq_ok_iff.mpr ⟨loaded, hl, ?_, rfl⟩⟩
      rw [Setting.timeoutMs.inj hget]
      exact (hpos ms).mpr h0
  · obtain ⟨loaded, hl, hms, rfl⟩ := runSettings_eq_ok_iff.mp hs
    refine ⟨?_, fun n x => effective_iff hl, (hpos _).mp hms, ?_, ?_⟩
    · unfold run
      rw [hs]
    · exact (Settings.validate_eq_ok_iff.mp (Settings.validate_of_load hl)).2
    · intro o' s' hfile hs' n ho
      obtain ⟨loaded', hl', -, rfl⟩ := runSettings_eq_ok_iff.mp hs'
      exact ((effective_iff hl').mp ((effective_overridden hl n).of_same hfile ho))
  · refine ⟨?_, problem_of_runSettings hf⟩
    unfold run
    rw [hf]
  · cases hs : runSettings t o with
    | ok s =>
      obtain ⟨loaded, -, hms, -⟩ := runSettings_eq_ok_iff.mp hs
      unfold overridden at hms
      rw [hzero] at hms
      exact absurd rfl hms
    | error failure =>
      obtain ⟨problem, rfl⟩ := problem_of_runSettings hs
      exact ⟨problem, rfl⟩
  · exact ⟨overridden o loaded, fun n x => effective_iff hl, list_of_load color hl⟩
  · unfold respond
    rw [Arguments.parse_words hpaths]

/-- A directory `d` with a settings file `c` that gives an executable. -/
def configuredTree : Tree where
  home := []
  entries := [([[0x64]], .directory),
    ([[0x64], [0x63]], .file { content := Bytes.ofString "executable = \"x/y\"" })]
  nodup := by decide
  named := by decide

/-- A host on which no executable can be started. -/
def refusingHost : Supervision.Host Unit := fun s t _ _ _ => ⟨[.start (some .noEntry)], s, t⟩

/-- The settings file `d/c`, the suite `s` and a budget. -/
def suiteGiven (ms : UInt64) : Options where
  config? := some (Path.ofString "d/c")
  suite? := some ⟨[0x73]⟩
  timeoutMs? := some ms

/-- The suite is that of the option and not looked up from `d`, the executable is looked up from
there, and the suffix is standard. -/
theorem runSettings_exact_configured :
    (∃ s, runSettings configuredTree (suiteGiven 5) = .ok s ∧
      s.get .suiteDir = .suiteDir ⟨[0x73]⟩ ∧
      s.get .executable = .executable (Path.ofString "d/x/y") ∧
      s.get .extension = .extension ".js" ∧ s.get .timeoutMs = .timeoutMs 5) ∧
    (∃ problem, runSettings configuredTree (suiteGiven 0) = .error (.settings problem)) ∧
    respond refusingHost () false configuredTree
        (Subcommand.run.word :: (suiteGiven 5).words) =
      run refusingHost () false configuredTree (suiteGiven 5) := by
  obtain ⟨hreach, hok, -, -, -, -, hwords⟩ :=
    runSettings_exact refusingHost () false configuredTree (suiteGiven 5)
  obtain ⟨-, -, -, -, hzero, -, -⟩ :=
    runSettings_exact refusingHost () false configuredTree (suiteGiven 0)
  have hpaths : (suiteGiven 5).PathsGiven := by
    rintro p (⟨⟨⟩⟩ | ⟨⟨⟩⟩ | h)
    · decide
    · decide
    · cases h
  have hload : Settings.load configuredTree (Path.ofString "d/c") = .ok
      { suiteDir := Path.ofString "d/tests/js_suite", executable := Path.ofString "d/x/y" } := by
    cbv
  have hread : configuredTree.read (Path.ofString "d/c") =
      .ok (Utf8.encode "executable = \"x/y\"".toList) := by cbv
  have hdoc : Toml.ofText? "executable = \"x/y\"".toList =
      some [("executable".toList, .text "x/y".toList)] := by cbv
  have hparent : (Path.ofString "d/c").parent = some ⟨[0x64]⟩ := by cbv
  have hexe : Effective configuredTree (suiteGiven 5) .executable
      (.executable (Path.ofString "d/x/y")) := by
    refine .file rfl hread hdoc (.given rfl rfl) (.executable (by cbv) ⟨?_, ?_⟩)
    · intro base hbase _ _
      cases hparent.symm.trans hbase
      cbv
    · rintro (h | h)
      · cases h
      · exact absurd (h _ hparent) (List.cons_ne_nil _ _)
  have hms : Effective configuredTree (suiteGiven 5) .timeoutMs (.timeoutMs 5) := .option rfl
  obtain ⟨s, hs⟩ := hreach.mpr ⟨⟨_, hload⟩, 5, hms, by decide⟩
  obtain ⟨-, hget, -⟩ := hok s hs
  exact ⟨⟨s, hs, (hget _ _).mp (.option rfl), (hget _ _).mp hexe,
    (hget _ _).mp (.file rfl hread hdoc (.omitted rfl) (.extension _)), (hget _ _).mp hms⟩,
    hzero rfl, hwords hpaths⟩

end SuiteRunner.CommandLine
