import SuiteRunner.CommandLine
import SuiteRunner.Machine.Host

/-!
# The program

`main`: the command line on a machine of its own. Standard input holds a script that makes the files
of the working directory; the arguments say what is done there.
-/

namespace SuiteRunner.Main

/-- All that a stream delivers. -/
partial def readAll (input : IO.FS.Stream) (before : ByteArray) : IO ByteArray := do
  let part ← input.read 65536
  if part.isEmpty then return before else readAll input (before ++ part)

/-- Print bytes. -/
def print (output : IO.FS.Stream) (bs : Bytes) : IO Unit := do
  output.write ⟨bs.toArray⟩
  output.flush

/-- Colours are asked for. -/
def wantsColor : IO Bool := do
  match ← IO.getEnv "CLICOLOR_FORCE" with
  | some v => return v != "0"
  | none => return false

end SuiteRunner.Main

open SuiteRunner in
/-- Perform the command of the arguments. -/
def main (args : List String) : IO UInt32 := do
  let script ← Main.readAll (← IO.getStdin) ByteArray.empty
  let (machine, tree) := Machine.prepare {} Machine.startingTree script.toList
  let color ← Main.wantsColor
  match CommandLine.respond Machine.host machine color tree (args.map Bytes.ofString) with
  | none => return 1
  | some r =>
    Main.print (← IO.getStdout) r.out
    Main.print (← IO.getStderr) r.err
    return UInt32.ofNat r.code
