import Mathlib
import SuiteRunner.Proofs.Settings.Load
import SuiteRunner.Proofs.Toml.Document

/-!
# What a settings file says

A file may give any of the settings, in any order, with fields of other names between them. What it
does not give is standard.

* `foldlM_readField?_perm`: the order of fields with different names does not matter;
* `ofFields?_given`: what is given replaces the standard settings;
* **`file_overlays_standard`**: a file with a line for each field stands for the settings that it
  gives over the standard ones, looked up from its directory.
-/

namespace SuiteRunner.Settings

variable {s : Settings} {x y : Setting} {n : SettingName} {f f' : Toml.Key × Toml.Value}
  {fs fs' others : Toml.Fields}

/-! ## The order of fields -/

theorem put_comm (h : x.name ≠ y.name) : (s.put x).put y = (s.put y).put x := by
  cases x <;> cases y <;> first | rfl | exact absurd rfl h

theorem name_of_settingOfToml? {v : Toml.Value} (h : settingOfToml? n v = some x) :
    x.name = n := by
  unfold settingOfToml? at h
  split at h
  · cases n <;> cases h <;> rfl
  · unfold Setting.ofNat? at h
    split at h
    · rename_i hn
      obtain rfl := Option.some.inj h
      exact hn.1.symm
    · cases h
  · cases h

theorem readField?_of_other (h : ∀ n : SettingName, f.1 ≠ n.text.toList) :
    readField? s f = some s := by
  unfold readField?
  rw [SettingName.ofText?_eq_none_iff.mpr h]

theorem readField?_of_name (h : f.1 = n.text.toList) :
    readField? s f = (settingOfToml? n f.2).map s.put := by
  unfold readField?
  rw [SettingName.ofText?_eq_some_iff.mpr h]

/-- A field that is refused is refused in any place. -/
theorem readField?_comm (h : f.1 ≠ f'.1) :
    (readField? s f).bind (readField? · f') = (readField? s f').bind (readField? · f) := by
  by_cases hf : ∃ n : SettingName, f.1 = n.text.toList
  · obtain ⟨n, hn⟩ := hf
    by_cases hf' : ∃ n : SettingName, f'.1 = n.text.toList
    · obtain ⟨n', hn'⟩ := hf'
      simp only [readField?_of_name hn, readField?_of_name hn']
      cases hx : settingOfToml? n f.2 with
      | none => cases settingOfToml? n' f'.2 <;> rfl
      | some x =>
        cases hy : settingOfToml? n' f'.2 with
        | none => rfl
        | some y =>
          refine congrArg some (put_comm ?_)
          rw [name_of_settingOfToml? hx, name_of_settingOfToml? hy]
          rintro rfl
          exact h (hn.trans hn'.symm)
    · simp only [readField?_of_other (not_exists.mp hf'), Option.bind_some, Option.bind_fun_some]
  · simp only [readField?_of_other (not_exists.mp hf), Option.bind_some, Option.bind_fun_some]

/-- **The order of fields does not matter**, if no two have one name. -/
theorem foldlM_readField?_perm (h : fs.Perm fs') (hnodup : (fs.map Prod.fst).Nodup) :
    ∀ s, fs.foldlM readField? s = fs'.foldlM readField? s := by
  induction h with
  | nil => exact fun _ => rfl
  | cons f _ ih =>
    intro s
    rw [List.foldlM_cons, List.foldlM_cons]
    exact congrArg _ (funext (ih (List.nodup_cons.mp hnodup).2))
  | swap f f' l =>
    intro s
    have hne : f'.1 ≠ f.1 := fun h => (List.nodup_cons.mp hnodup).1 (h ▸ List.mem_cons_self)
    simp only [List.foldlM_cons, ← bind_assoc]
    exact congrArg (· >>= _) (readField?_comm hne)
  | trans h₁ _ ih₁ ih₂ =>
    exact fun s => (ih₁ hnodup s).trans (ih₂ ((h₁.map Prod.fst).nodup_iff.mp hnodup) s)

/-! ## The fields of a file -/

/-- The settings that a file gives: a text for each path and for the suffix, and a number of
milliseconds. -/
structure Given where
  suiteDir? : Option (List Char) := none
  executable? : Option (List Char) := none
  extension? : Option (List Char) := none
  timeoutMs? : Option UInt64 := none

namespace Given

/-- The field that gives a setting, if there is a value for it. -/
def field? (n : SettingName) (v? : Option Toml.Value) : Toml.Fields :=
  (v?.map fun v => (n.text.toList, v)).toList

/-- The fields of what is given. -/
def fields (g : Given) : Toml.Fields :=
  field? .suiteDir (g.suiteDir?.map .text) ++ (field? .executable (g.executable?.map .text) ++
    (field? .extension (g.extension?.map .text) ++
      field? .timeoutMs (g.timeoutMs?.map fun n => .integer n.toNat)))

/-- The standard settings, with what is given in their place. -/
def overStandard (g : Given) : Settings where
  suiteDir := (g.suiteDir?.map fun cs => ⟨Utf8.encode cs⟩).getD standard.suiteDir
  executable := (g.executable?.map fun cs => ⟨Utf8.encode cs⟩).getD standard.executable
  extension := (g.extension?.map String.ofList).getD standard.extension
  timeoutMs := g.timeoutMs?.getD standard.timeoutMs

end Given

/-! ## Reading -/

/-- Fields with names that no setting has. -/
def Foreign (others : Toml.Fields) : Prop :=
  ∀ f ∈ others, ∀ n : SettingName, f.1 ≠ n.text.toList

/-- A value that is given is put, and without one nothing changes. -/
theorem foldlM_field? {α : Type} {value : α → Toml.Value} {setting : α → Setting}
    (h : ∀ a, settingOfToml? n (value a) = some (setting a)) (a? : Option α) (s : Settings) :
    (Given.field? n (a?.map value)).foldlM readField? s =
      some (a?.elim s fun a => s.put (setting a)) := by
  cases a? with
  | none => rfl
  | some a =>
    show (readField? s (n.text.toList, value a)).bind some = _
    rw [readField?_of_name rfl, h a]
    rfl

theorem foldlM_others (hothers : Foreign others) (s : Settings) :
    others.foldlM readField? s = some s := by
  induction others with
  | nil => rfl
  | cons f others ih =>
    rw [List.foldlM_cons, readField?_of_other (hothers f List.mem_cons_self)]
    exact ih fun g hg => hothers g (List.mem_cons_of_mem f hg)

theorem settingOfToml?_budget (m : UInt64) :
    settingOfToml? .timeoutMs (.integer m.toNat) = some (.timeoutMs m) := by
  have hlt : m.toNat < UInt64.size := m.toNat_lt
  show Setting.ofNat? .timeoutMs m.toNat = _
  simp [Setting.ofNat?, hlt]

/-- What is given replaces the standard settings. -/
theorem foldlM_fields (g : Given) : g.fields.foldlM readField? standard = some g.overStandard := by
  have hsuite : ∀ cs, settingOfToml? .suiteDir (.text cs) = some (.suiteDir ⟨Utf8.encode cs⟩) :=
    fun _ => rfl
  have hexe : ∀ cs, settingOfToml? .executable (.text cs) = some (.executable ⟨Utf8.encode cs⟩) :=
    fun _ => rfl
  have hext : ∀ cs, settingOfToml? .extension (.text cs) = some (.extension (String.ofList cs)) :=
    fun _ => rfl
  unfold Given.fields
  simp only [List.foldlM_append, foldlM_field? hsuite, foldlM_field? hexe, foldlM_field? hext,
    foldlM_field? settingOfToml?_budget, Option.bind_eq_bind, Option.bind_some]
  obtain ⟨suite?, exe?, ext?, ms?⟩ := g
  cases suite? <;> cases exe? <;> cases ext? <;> cases ms? <;> rfl

/-- Each setting is given once at most, under its name. -/
theorem names_sublist (g : Given) :
    (g.fields.map Prod.fst).Sublist (SettingName.all.map fun n => n.text.toList) := by
  have hone : ∀ n v?, ((Given.field? n v?).map Prod.fst).Sublist [n.text.toList] := by
    intro n v?
    cases v? with
    | none => exact List.nil_sublist _
    | some v => exact List.Sublist.refl _
  simp only [Given.fields, List.map_append]
  exact (hone _ _).append ((hone _ _).append ((hone _ _).append (hone _ _)))

/-- **What a file gives replaces the standard settings**, whatever other fields are in it and in
whatever order. -/
theorem ofFields?_given {g : Given} (hothers : Foreign others)
    (hnodup : (fs.map Prod.fst).Nodup) (hfs : fs.Perm (g.fields ++ others)) :
    ofFields? fs = some g.overStandard := by
  unfold ofFields?
  rw [foldlM_readField?_perm hfs hnodup, List.foldlM_append, foldlM_fields]
  exact foldlM_others hothers _

/-- The names of what is given and of further fields are all different. -/
theorem nodup_of_perm {g : Given} (hothers : Foreign others)
    (hnodup : (others.map Prod.fst).Nodup) (hfs : fs.Perm (g.fields ++ others)) :
    (fs.map Prod.fst).Nodup := by
  have hall : (SettingName.all.map fun n => n.text.toList).Nodup := by decide
  rw [(hfs.map Prod.fst).nodup_iff, List.map_append, List.nodup_append]
  refine ⟨hall.sublist (names_sublist g), hnodup, fun k hk k' hk' => ?_⟩
  obtain ⟨n, -, rfl⟩ := List.mem_map.mp ((names_sublist g).subset hk)
  obtain ⟨f, hf, rfl⟩ := List.mem_map.mp hk'
  exact (hothers f hf n).symm

/-! ## Loading -/

/-- What is given can be honoured. -/
structure Given.CanBeHonoured (g : Given) : Prop where
  extension : g.extension? ≠ some []
  timeoutMs : g.timeoutMs? ≠ some 0

theorem validate_overStandard {g : Given} (hg : g.CanBeHonoured) :
    g.overStandard.validate = .ok () := by
  refine validate_eq_ok_iff.mpr ⟨?_, ?_⟩
  · show g.timeoutMs?.getD standard.timeoutMs ≠ 0
    cases hms : g.timeoutMs? with
    | none => decide
    | some n => exact fun h0 => hg.timeoutMs (hms.trans (congrArg some h0))
  · show (g.extension?.map String.ofList).getD standard.extension ≠ ""
    cases hext : g.extension? with
    | none => decide
    | some cs =>
      intro hempty
      have hnil : cs = [] := String.ofList_inj.mp hempty
      exact hg.extension (hnil ▸ hext)

/-- The settings of a file with a line for each field. -/
theorem load_lines {t : Tree} {file : Path} {g : Given} {text : List Char}
    (hg : g.CanBeHonoured) (hothers : Foreign others) (hnodup : (others.map Prod.fst).Nodup)
    (hfs : fs.Perm (g.fields ++ others)) (htext : Toml.Lines fs text)
    (hread : t.read file = .ok (Utf8.encode text)) :
    load t file = .ok (g.overStandard.anchorToFile file) := by
  have hdistinct := nodup_of_perm hothers hnodup hfs
  have hraw : ofText? text = some g.overStandard := by
    unfold ofText?
    rw [Toml.ofText?_lines htext hdistinct]
    exact ofFields?_given hothers hdistinct hfs
  rw [load_of_parsed hread hraw, validate_overStandard hg]
  rfl

/-- **A settings file.** It has a line for each field: for those settings that it gives, and for
further fields with other names, in any order. It loads, and the settings are the standard ones with
exactly what is given in their place, looked up from the directory of the file; the standard paths
are looked up from there as well. A file with the same fields in another order, however their values
are written, stands for the same settings. -/
theorem file_overlays_standard {t : Tree} {file : Path} {g : Given} {text : List Char}
    (hg : g.CanBeHonoured) (hothers : Foreign others) (hnodup : (others.map Prod.fst).Nodup)
    (hfs : fs.Perm (g.fields ++ others)) (htext : Toml.Lines fs text)
    (hread : t.read file = .ok (Utf8.encode text)) :
    ∃ s, load t file = .ok s ∧ AnchoredTo file g.overStandard s ∧
      ∀ t' fs' text', fs'.Perm fs → Toml.Lines fs' text' →
        t'.read file = .ok (Utf8.encode text') → load t' file = .ok s :=
  ⟨_, load_lines hg hothers hnodup hfs htext hread, anchoredTo_anchorToFile file g.overStandard,
    fun _ _ _ hperm htext' hread' =>
      load_lines hg hothers hnodup (hperm.trans hfs) htext' hread'⟩

/-- A directory `d` with a settings file `c` that gives no suite and no suffix. -/
def writtenTree : Tree where
  home := []
  entries := [([[0x64]], .directory), ([[0x64], [0x63]], .file ⟨Bytes.ofString
    ("hue = \"\\\"\"\r\ntimeout_ms = 9223372036854775807\n7-x = -5\n" ++
      "executable = \"./\\u00e9\""), false, none⟩)]
  nodup := by decide
  named := by decide

/-- The largest budget that can be written, an executable with an escaped letter, and two further
fields, one of them in front. The suite is looked up from the directory of the file. -/
theorem file_overlays_standard_shuffled :
    ∃ s, load writtenTree (Path.ofString "d/c") = .ok s ∧
      s.suiteDir.bytes = Bytes.ofString "d/tests/js_suite" ∧
      s.executable.bytes = Bytes.ofString "d/./é" ∧
      s.extension = ".js" ∧ s.timeoutMs = 9223372036854775807 := by
  have hhue : Toml.Plain (.text ['"']) ['"', '\\', '"', '"'] :=
    .text ⟨_, .cons (.short (by decide)) .nil, rfl⟩
  have hexe : Toml.Plain (.text ['.', '/', 'é'])
      ['"', '.', '/', '\\', 'u', '0', '0', 'e', '9', '"'] :=
    .text ⟨_, .cons (.bare (by decide))
      (.cons (.bare (by decide)) (.cons (.four (by decide)) .nil)), rfl⟩
  have hlines := Toml.Lines.line (k := ['h', 'u', 'e']) (b := ['\r', '\n']) (by decide) hhue
    (by decide) (.line (k := "timeout_ms".toList) (b := ['\n']) (by decide)
      (.integer (i := 9223372036854775807) (by decide)) (by decide)
      (.line (k := ['7', '-', 'x']) (b := ['\n']) (by decide)
        (.integer (i := -5) (by decide)) (by decide)
        (.last (k := "executable".toList) (by decide) hexe)))
  have hothers : Foreign [(['h', 'u', 'e'], .text ['"']), (['7', '-', 'x'], .integer (-5))] := by
    intro f hf n
    simp only [List.mem_cons, List.not_mem_nil, or_false] at hf
    rcases hf with rfl | rfl <;> cases n <;> decide
  -- the last line moves to the front, and the first one behind the second
  have horder : ∀ f₁ f₂ f₃ f₄ : Toml.Key × Toml.Value,
      ([f₁, f₂, f₃] ++ [f₄]).Perm ([f₄, f₂] ++ [f₁, f₃]) := fun _ _ _ _ =>
    List.perm_append_comm.trans (.cons _ (.swap _ _ _))
  have hparent : (Path.ofString "d/c").parent = some ⟨[0x64]⟩ := by cbv
  obtain ⟨s, hload, hs, -⟩ := file_overlays_standard
    (g := { executable? := some ['.', '/', 'é'], timeoutMs? := some 9223372036854775807 })
    ⟨by decide, by decide⟩ hothers (by decide) (horder _ _ _ _) hlines
    (by cbv : writtenTree.read (Path.ofString "d/c") = _)
  refine ⟨s, hload, ?_, ?_, hs.extension, hs.timeoutMs⟩
  · rw [hs.suiteDir.joined _ hparent (List.cons_ne_nil _ _) (by cbv)]
    cbv
  · rw [(hs.executable (by cbv)).joined _ hparent (List.cons_ne_nil _ _) (by cbv)]
    cbv

end SuiteRunner.Settings
