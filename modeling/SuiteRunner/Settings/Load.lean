import SuiteRunner.Settings.File
import SuiteRunner.Tree.Lookup

/-!
# Loading a settings file

Model of the `load` of `HarnessConfig`. The file need not be there: without it the standard settings
hold. With it, the first of these causes that applies is reported: it cannot be read as text, it is
no settings file, its budget is nothing, its suffix is empty.
-/

namespace SuiteRunner.Settings

/-- The text of the settings file `file`. -/
def readText (t : Tree) (file : Path) : Except Failure (List Char) :=
  match t.read file with
  | .error cause => .error (.settings (.unreadable cause))
  | .ok bytes =>
    match Utf8.decode? bytes with
    | none => .error (.settings (.unreadable .notText))
    | some text => .ok text

/-- The settings in the file `file`, with relative paths as they are written there. -/
def parse (text : List Char) : Except Failure Settings :=
  match ofText? text with
  | none => .error (.settings .malformed)
  | some s => .ok s

/-- **The settings that the path `file` stands for.** -/
def load (t : Tree) (file : Path) : Except Failure Settings :=
  if t.reaches file then do
    let s ← parse (← readText t file)
    s.validate
    .ok (s.anchorToFile file)
  else .ok standard

end SuiteRunner.Settings
