import SuiteRunner.Settings
import SuiteRunner.Toml.Reader

/-!
# The text of a settings file

A settings file is a TOML document, from which `HarnessConfig` is deserialized: a field that is
missing keeps its standard value, and fields with other names are skipped.
-/

namespace SuiteRunner.Settings

/-- The setting `n` with a TOML value for its value: a string for a path or the suffix, an integer
that is not negative for the budget. -/
def settingOfToml? (n : SettingName) : Toml.Value → Option Setting
  | .text cs => Setting.ofChars? n cs
  | .integer (.ofNat k) => Setting.ofNat? n k
  | _ => none

/-- Read one more field into settings. -/
def readField? (s : Settings) (f : Toml.Key × Toml.Value) : Option Settings :=
  match SettingName.ofText? f.1 with
  | none => some s
  | some n => (settingOfToml? n f.2).map s.put

/-- The settings that the fields of a document are. -/
def ofFields? (fs : Toml.Fields) : Option Settings := fs.foldlM readField? standard

/-- **The settings that the text of a file is.** -/
def ofText? (cs : List Char) : Option Settings := do ofFields? (← Toml.ofText? cs)

end SuiteRunner.Settings
