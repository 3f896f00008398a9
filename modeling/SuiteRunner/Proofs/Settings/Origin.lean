import Mathlib
import SuiteRunner.Proofs.Settings.File
import SuiteRunner.Proofs.Toml.Table

/-!
# Where a setting of a file comes from

A settings file says something of each setting, if only that it is standard.

* `Settings.get`: one setting of several;
* `Says`: what the fields of a file say of a setting; `ofFields?_says` that reading a file finds it;
* `LookedUp`: a setting with its path looked up from the directory of a file;
* **`load_cases`**: the settings that a path stands for are standard, or are what the file at the
  path says of them, looked up from its directory.
-/

namespace SuiteRunner.Settings

variable {s raw : Settings} {n : SettingName} {x y : Setting} {fs : Toml.Fields} {t : Tree}
  {file : Path}

/-- One of the settings. -/
def get (s : Settings) : SettingName → Setting
  | .suiteDir => .suiteDir s.suiteDir
  | .executable => .executable s.executable
  | .extension => .extension s.extension
  | .timeoutMs => .timeoutMs s.timeoutMs

theorem get_put_self (s : Settings) (x : Setting) : (s.put x).get x.name = x := by
  cases x <;> rfl

theorem get_put_of_ne (s : Settings) (h : x.name ≠ n) : (s.put x).get n = s.get n := by
  cases x <;> cases n <;> first | rfl | exact absurd rfl h

/-! ## What a file says -/

/-- The fields `fs` say that the setting `n` is `x`: they give it this value, or they give it none
and it is the standard one. -/
inductive Says (fs : Toml.Fields) (n : SettingName) : Setting → Prop
  | given {v : Toml.Value} {x : Setting} (h : fs.lookup n.text.toList = some v)
      (hx : settingOfToml? n v = some x) : Says fs n x
  | omitted (h : fs.lookup n.text.toList = none) : Says fs n (standard.get n)

theorem Says.unique (hx : Says fs n x) (hy : Says fs n y) : x = y := by
  cases hx with
  | given h hx =>
    cases hy with
    | given h' hy =>
      rw [h] at h'
      cases h'
      exact Option.some.inj (hx.symm.trans hy)
    | omitted h' =>
      rw [h] at h'
      cases h'
  | omitted h =>
    cases hy with
    | given h' hy =>
      rw [h] at h'
      cases h'
    | omitted h' => rfl

/-- **What is read is what the field of a setting gives**, or what was there before. -/
theorem foldlM_readField?_get (hfs : fs.Distinct) (h : fs.foldlM readField? s = some raw)
    (n : SettingName) :
    (fs.lookup n.text.toList = none → raw.get n = s.get n) ∧
      ∀ v, fs.lookup n.text.toList = some v → settingOfToml? n v = some (raw.get n) := by
  induction fs generalizing s with
  | nil =>
    cases h
    exact ⟨fun _ => rfl, fun v hv => nomatch hv⟩
  | cons f fs ih =>
    obtain ⟨hf, hfs⟩ := List.nodup_cons.mp hfs
    rw [List.foldlM_cons] at h
    obtain ⟨s', hs', hrest⟩ := Option.bind_eq_some_iff.mp h
    obtain ⟨hnone, hsome⟩ := ih hfs hrest
    rw [List.lookup_cons]
    by_cases hname : f.1 = n.text.toList
    · -- no field behind this one has its name
      have hlast : fs.lookup n.text.toList = none := by
        refine List.lookup_eq_none_iff.mpr fun g hg => ?_
        rw [bne_iff_ne, ← hname]
        exact fun hgf => hf (hgf ▸ List.mem_map_of_mem hg)
      rw [readField?_of_name hname] at hs'
      obtain ⟨x, hx, rfl⟩ := Option.map_eq_some_iff.mp hs'
      have hget : raw.get n = x := by
        rw [hnone hlast, ← name_of_settingOfToml? hx, get_put_self]
      simp only [hname, beq_self_eq_true, reduceCtorEq, false_implies, true_and]
      rintro v ⟨⟩
      rw [hx, hget]
    · have hkeep : s'.get n = s.get n := by
        by_cases hother : ∃ m : SettingName, f.1 = m.text.toList
        · obtain ⟨m, hm⟩ := hother
          rw [readField?_of_name hm] at hs'
          obtain ⟨x, hx, rfl⟩ := Option.map_eq_some_iff.mp hs'
          refine get_put_of_ne s ?_
          rw [name_of_settingOfToml? hx]
          rintro rfl
          exact hname hm
        · rw [readField?_of_other (not_exists.mp hother)] at hs'
          rw [Option.some.inj hs']
      have hne : (n.text.toList == f.1) = false := beq_eq_false_iff_ne.mpr (Ne.symm hname)
      simp only [hne, ← hkeep]
      exact ⟨hnone, hsome⟩

/-- **Reading a file finds what it says.** -/
theorem ofFields?_says (hfs : fs.Distinct) (h : ofFields? fs = some raw) (n : SettingName) :
    Says fs n (raw.get n) := by
  obtain ⟨hnone, hsome⟩ := foldlM_readField?_get hfs h n
  cases hl : fs.lookup n.text.toList with
  | none =>
    rw [hnone hl]
    exact .omitted hl
  | some v => exact .given hl (hsome v hl)

/-! ## Looking up from the directory of a file -/

/-- The setting `y` is `x`, with its path looked up from the directory of `file`. An executable with
at most one component stays as it is. -/
inductive LookedUp (file : Path) : Setting → Setting → Prop
  | suiteDir {p q : Path} (h : LookedUpFrom file p q) : LookedUp file (.suiteDir p) (.suiteDir q)
  | executable {p q : Path} (hp : 1 < p.components.length) (h : LookedUpFrom file p q) :
      LookedUp file (.executable p) (.executable q)
  | bare {p : Path} (hp : p.components.length ≤ 1) : LookedUp file (.executable p) (.executable p)
  | extension (e : String) : LookedUp file (.extension e) (.extension e)
  | timeoutMs (ms : UInt64) : LookedUp file (.timeoutMs ms) (.timeoutMs ms)

theorem LookedUpFrom.unique {p q q' : Path} (h : LookedUpFrom file p q)
    (h' : LookedUpFrom file p q') : q = q' := by
  by_cases hkept : p.isAbsolute = true ∨ ∀ base, file.parent = some base → base.bytes = []
  · rw [h.kept hkept, h'.kept hkept]
  · obtain ⟨hrel, hbase⟩ := not_or.mp hkept
    obtain ⟨base, hbase⟩ := not_forall.mp hbase
    obtain ⟨hparent, h0⟩ := Classical.not_imp.mp hbase
    have hrel := Bool.eq_false_iff.mpr hrel
    have hbytes : q.bytes = q'.bytes := by
      rw [h.joined base hparent h0 hrel, h'.joined base hparent h0 hrel]
    exact congrArg Path.mk hbytes

theorem LookedUp.unique {z : Setting} (hy : LookedUp file x y) (hz : LookedUp file x z) :
    y = z := by
  cases hy with
  | suiteDir h =>
    cases hz with
    | suiteDir h' => rw [h.unique h']
  | executable hp h =>
    cases hz with
    | executable _ h' => rw [h.unique h']
    | bare hp' => exact absurd hp (Nat.not_lt.mpr hp')
  | bare hp =>
    cases hz with
    | executable hp' _ => exact absurd hp' (Nat.not_lt.mpr hp)
    | bare _ => rfl
  | extension e =>
    cases hz
    rfl
  | timeoutMs ms =>
    cases hz
    rfl

theorem AnchoredTo.lookedUp (h : AnchoredTo file raw s) (n : SettingName) :
    LookedUp file (raw.get n) (s.get n) := by
  cases n with
  | suiteDir => exact .suiteDir h.suiteDir
  | executable =>
    show LookedUp file (.executable raw.executable) (.executable s.executable)
    by_cases hp : 1 < raw.executable.components.length
    · exact .executable hp (h.executable hp)
    · have hp := Nat.not_lt.mp hp
      rw [h.bare hp]
      exact .bare hp
  | extension =>
    show LookedUp file (.extension raw.extension) (.extension s.extension)
    rw [h.extension]
    exact .extension _
  | timeoutMs =>
    show LookedUp file (.timeoutMs raw.timeoutMs) (.timeoutMs s.timeoutMs)
    rw [h.timeoutMs]
    exact .timeoutMs _

/-! ## Loading -/

/-- **Where loaded settings come from.** -/
theorem load_cases (h : load t file = .ok s) :
    ((∀ e, t.entryOf file ≠ .ok e) ∧ s = standard) ∨
      ∃ text fs, t.read file = .ok (Utf8.encode text) ∧ Toml.ofText? text = some fs ∧
        ∀ n, ∃ x, Says fs n x ∧ LookedUp file x (s.get n) := by
  cases load_eq_iff.mp h with
  | missing hno => exact Or.inl ⟨hno, rfl⟩
  | @loaded text raw hread hraw _ _ =>
    obtain ⟨fs, hdoc, hfs⟩ := Option.bind_eq_some_iff.mp hraw
    refine Or.inr ⟨text, fs, hread, hdoc, fun n => ⟨raw.get n, ?_, ?_⟩⟩
    · exact ofFields?_says (Toml.distinct_of_ofText? hdoc) hfs n
    · exact (anchoredTo_anchorToFile file raw).lookedUp n

end SuiteRunner.Settings
