import SuiteRunner.Machine.Shell
import SuiteRunner.Supervision

/-!
# Machines as hosts

A machine is a host for supervision: an executable is started on it (the `spawn` of `Watchdog`), and
what happens up to the end of the process or of its budget are the moves that the watch over it gets
to see.

* `Machine.host`: what comes of starting an executable on a test;
* `Machine.startingTree`: the tree that a machine starts with;
* `Machine.prepare`: a machine and a tree after a script was run on them.
-/

namespace SuiteRunner.Machine

open Supervision (Host Life Move)

/-- The time that the start of a program takes, in milliseconds. -/
def startTime : Nat := 1

/-- What goes on for more steps than this never ends. -/
def stepLimit : Nat := 4000

/-- The names of the installed programs. -/
def programs : List String := shellNames ++ finderName :: Utility.all.map (·.1)

/-- **The tree that a machine starts with**: the installed programs, and nothing in the working
directory. -/
def startingTree : Tree := disk programs

/-- The variables that a process starts with. -/
def startingVariables : List (List Char × List Char) :=
  [("PATH".toList, List.intercalate [':'] (searchPath.map fun p => Shell.charsOf p.bytes))]

/-- The world of a new process that is killed after `budgetMs?`, if anybody does that. -/
def worldFor (m : Machine) (t : Tree) (executable : Path) (budgetMs? : Option Nat) : World where
  machine := { m with nextId := m.nextId + 1 }
  tree := t
  deadline? := budgetMs?.map (m.clock + ·)
  process :=
    { id := m.nextId
      name := Shell.charsOf executable.bytes
      bindings := startingVariables
      exported := startingVariables.map (·.1)
      out := .own .out
      err := .own .err }

/-- Run a program from its start to its end. -/
def runFromStart (image : Image) : Act Nat := do
  Act.pass startTime
  runImage stepLimit image

/-- How a process ended by itself; none if its time was up first. -/
def statusOfRun : Except Stop Nat → Option WaitStatus
  | .ok status | .error (.exit status) | .error (.back status) => some (.exit status)
  | .error (.signal n) => some (.signaled n)
  | .error (.leave _) | .error (.again _) => some (.exit 0)
  | .error .late => none

/-- The moves that a watch sees of a process, after its start. -/
def movesOf (printed : List (Stream × Bytes)) (status? : Option WaitStatus) : List Move :=
  printed.map (fun p => .print p.1 p.2) ++
    match status? with
    | some status => [.quit status, .collect none]
    | none => [.ring, .kill none, .fall .killed, .collect none]

/-- The program that an executable is when it is started on a test. -/
def imageFor (t : Tree) (executable : Path) (test : TestFile) : Except Fault Image :=
  if 0 ∈ executable.bytes ∨ 0 ∈ test.path.bytes then .error .nulInArgument
  else find t executable [test.path.bytes]

/-- **What comes of starting an executable on a test.** -/
def host : Host Machine := fun m t executable budgetMs test =>
  match imageFor t executable test with
  | .error cause => ⟨[.start (some cause)], m, t⟩
  | .ok image =>
    let (result, w) := (runFromStart image).run.run (worldFor m t executable (some budgetMs))
    ⟨.start none :: movesOf w.printed.reverse (statusOfRun result), w.machine,
      { w.tree with home := t.home }⟩

/-- A machine and a tree after a script was run on them. What it prints is lost. -/
def prepare (m : Machine) (t : Tree) (script : Bytes) : Machine × Tree :=
  let image : Image := ⟨"sh".toList, [Bytes.ofString "sh", Bytes.ofString "-c", script]⟩
  let (_, w) := (runFromStart image).run.run (worldFor m t (Path.ofString "sh") none)
  (w.machine, { w.tree with home := t.home })

end SuiteRunner.Machine
