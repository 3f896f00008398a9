import SuiteRunner.Machine.Utility.Condition
import SuiteRunner.Machine.Utility.Files
import SuiteRunner.Machine.Utility.Names
import SuiteRunner.Machine.Utility.Process
import SuiteRunner.Machine.Utility.Text

/-!
# The installed utilities

The utilities by their names. Some of them a shell also knows by itself.
-/

namespace SuiteRunner.Machine.Utility

/-- The utilities that a shell knows by itself. -/
def known : List (String × Utility) :=
  [("[", bracket), ("echo", echo), ("false", fail), ("kill", kill), ("printf", printf),
   ("pwd", pwd), ("test", test), ("true", succeed)]

/-- **The utilities** by their names. -/
def all : List (String × Utility) :=
  known ++
  [("basename", basename), ("cat", cat), ("chmod", chmod), ("cp", cp), ("dirname", dirname),
   ("ln", ln), ("ls", ls), ("mkdir", mkdir), ("mv", mv), ("rm", rm), ("rmdir", rmdir), ("sed", sed),
   ("sleep", sleep), ("touch", touch), ("yes", yes)]

/-- The utility with a name, in a list of them. -/
def named? (us : List (String × Utility)) (name : List Char) : Option Utility :=
  (us.find? fun u => u.1.toList == name).map (·.2)

end SuiteRunner.Machine.Utility
