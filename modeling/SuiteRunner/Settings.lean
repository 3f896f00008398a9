import SuiteRunner.Failure

/-!
# Settings

What a run works with (`HarnessConfig`): where the test files are, what runs them, which files
count, and how long each may take.

* `Settings.put`: the settings with one of them replaced;
* `Settings.validate`: no run honours a budget of nothing or an empty suffix (`validate`);
* `Settings.anchorTo`: relative paths looked up from another directory (`anchor_to`).
-/

namespace SuiteRunner

/-- The settings of a run. -/
structure Settings where
  /-- The directory with the test files. -/
  suiteDir : Path := Path.ofString "tests/js_suite"
  /-- The executable under test, which gets a test file as its argument. -/
  executable : Path := Path.ofString "build/cu"
  /-- The suffix that the name of a test file has. -/
  extension : String := ".js"
  /-- The budget of a test, in milliseconds. -/
  timeoutMs : UInt64 := 100
  deriving DecidableEq, Repr

/-- One setting with a value for it. -/
inductive Setting where
  | suiteDir (p : Path)
  | executable (p : Path)
  | extension (s : String)
  | timeoutMs (n : UInt64)
  deriving DecidableEq, Repr

/-- The four settings, without values. -/
inductive SettingName where
  | suiteDir
  | executable
  | extension
  | timeoutMs
  deriving DecidableEq, Repr

/-- The names of the settings in files, in the order in which they are written. -/
def SettingName.all : List SettingName := [suiteDir, executable, extension, timeoutMs]

/-- The name of a setting in files. -/
def SettingName.text : SettingName → String
  | suiteDir => "suite_dir"
  | executable => "executable"
  | extension => "extension"
  | timeoutMs => "timeout_ms"

/-- The setting that a name in a file means; none for other names. -/
def SettingName.ofText? (name : List Char) : Option SettingName :=
  all.find? fun n => n.text.toList == name

/-- Which setting a value is for. -/
def Setting.name : Setting → SettingName
  | suiteDir _ => .suiteDir
  | executable _ => .executable
  | extension _ => .extension
  | timeoutMs _ => .timeoutMs

/-- The setting `n` with a text for its value; the budget has none. -/
def Setting.ofChars? (n : SettingName) (cs : List Char) : Option Setting :=
  match n with
  | .suiteDir => some (.suiteDir ⟨Utf8.encode cs⟩)
  | .executable => some (.executable ⟨Utf8.encode cs⟩)
  | .extension => some (.extension (String.ofList cs))
  | .timeoutMs => none

/-- The setting `n` with a number for its value: the budget, in 64 bits. -/
def Setting.ofNat? (n : SettingName) (value : Nat) : Option Setting :=
  if n = .timeoutMs ∧ value < UInt64.size then some (.timeoutMs (UInt64.ofNat value)) else none

namespace Settings

/-- The name of the settings file (`CONFIG_FILE_NAME`). -/
def fileName : String := "cutest.toml"

/-- The settings without a file. -/
def standard : Settings := {}

/-- The settings with one of them replaced. -/
def put (s : Settings) : Setting → Settings
  | .suiteDir p => { s with suiteDir := p }
  | .executable p => { s with executable := p }
  | .extension e => { s with extension := e }
  | .timeoutMs n => { s with timeoutMs := n }

/-- Settings that a run behaves in the same way with: paths are compared by their components. -/
def same (s t : Settings) : Bool :=
  s.suiteDir.same t.suiteDir && s.executable.same t.executable && s.extension == t.extension &&
    s.timeoutMs == t.timeoutMs

/-- The budget in seconds and nanoseconds. -/
def timeout (s : Settings) : Nat × Nat :=
  (s.timeoutMs.toNat / 1000, s.timeoutMs.toNat % 1000 * 1000000)

/-- Settings that a run can honour. The budget is looked at first. -/
def validate (s : Settings) : Except Failure Unit :=
  if s.timeoutMs = 0 then .error (.settings .zeroTimeout)
  else if s.extension = "" then .error (.settings .emptyExtension)
  else .ok ()

/-- An executable with at most one component is looked up among the installed programs, and stays
as it is. -/
def isBare (executable : Path) : Bool := executable.components.length ≤ 1

/-- `p` looked up from `base`. -/
def anchored (base p : Path) : Path := if p.isAbsolute then p else base.join p

/-- The settings with relative paths looked up from `base`. -/
def anchorTo (base : Path) (s : Settings) : Settings :=
  { s with
    suiteDir := anchored base s.suiteDir
    executable := if isBare s.executable then s.executable else anchored base s.executable }

/-- The directory that relative paths in the settings file `file` are looked up from; none if it is
the current directory. -/
def baseOf? (file : Path) : Option Path := file.parent.filter (·.bytes != [])

/-- Settings read from `file`, with its relative paths looked up from the directory of the file. -/
def anchorToFile (file : Path) (s : Settings) : Settings :=
  match baseOf? file with
  | some base => s.anchorTo base
  | none => s

end Settings

end SuiteRunner
