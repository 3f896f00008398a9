import SuiteRunner.Event
import SuiteRunner.Shell.Command
import SuiteRunner.Tree.Edit

/-!
# Machines

A machine stands for the system that `Watchdog` starts executables on. It runs processes on a tree,
in a time of its own: nothing takes time on it but starting a program and sleeping. What a process
does is an action (`Machine.Act`) on the world as the process sees it.

* `Machine`: what stays between two runs;
* `Machine.World`: the world of a running process;
* `Machine.Stop`: why a process does not go on.
-/

namespace SuiteRunner

/-- A machine between two runs. -/
structure Machine where
  /-- The time in milliseconds. -/
  clock : Nat := 0
  /-- The number of the next process. -/
  nextId : Nat := 2
  /-- The processes that nobody waits for, and when they end; none for one that does not. -/
  strays : List (Nat × Option Nat) := [(1, none)]

namespace Machine

/-- The process `id` is left, and it has not ended yet. -/
def isAlive (m : Machine) (id : Nat) : Bool :=
  m.strays.any fun p => p.1 == id && (p.2.map fun e => decide (m.clock < e)).getD true

/-- Where output goes. -/
inductive Sink where
  /-- To the stream that the first process was started with. -/
  | own (s : Stream)
  /-- To the end of a file. -/
  | file (l : Place)
  /-- To a pipe. -/
  | pipe (n : Nat)
  /-- Nowhere. -/
  | nowhere
  deriving Repr

/-- A process. -/
structure Process where
  /-- Its number. -/
  id : Nat
  /-- The name of what it runs. -/
  name : List Char
  /-- The arguments that it got. -/
  arguments : List (List Char) := []
  /-- The variables that have values. -/
  bindings : List (List Char × List Char) := []
  /-- The variables that the programs it starts get too. -/
  exported : List (List Char) := []
  /-- The names that stand for commands. -/
  functions : List (List Char × Shell.Command) := []
  /-- The status of the last command. -/
  status : Nat := 0
  /-- The processes that it started and did not wait for, with the statuses that they end with,
  the latest first. -/
  jobs : List (Nat × Nat) := []
  /-- The line of the command that it runs. -/
  line : Nat := 1
  /-- How many loops it is in. -/
  loops : Nat := 0
  /-- The signals that it does not heed. -/
  unheeded : List Nat := []
  /-- It ends when a command fails. -/
  strict : Bool := false
  /-- Where its output goes. -/
  out : Sink
  /-- Where its complaints go. -/
  err : Sink
  /-- What it can still read. -/
  input : Bytes := []

/-- The world of a running process. -/
structure World where
  /-- The machine. -/
  machine : Machine
  /-- The files. -/
  tree : Tree
  /-- When the first process is killed; none if nobody does that. -/
  deadline? : Option Nat
  /-- What is printed, the latest first. -/
  printed : List (Stream × Bytes) := []
  /-- What is in the pipes. -/
  pipes : List Bytes := []
  /-- The process itself. -/
  process : Process

/-- Why a process does not go on. -/
inductive Stop where
  /-- It ends with a status. -/
  | exit (status : Nat)
  /-- A signal ends the first process. -/
  | signal (n : Nat)
  /-- Its time is up. -/
  | late
  /-- It leaves so many loops. -/
  | leave (loops : Nat)
  /-- It starts the next round of a loop, so many levels up. -/
  | again (loops : Nat)
  /-- It goes back from a function. -/
  | back (status : Nat)
  deriving DecidableEq, Repr

/-- What a process does. -/
abbrev Act := ExceptT Stop (StateM World)

namespace Act

/-- The process. -/
def process : Act Process := do return (← get).process

/-- Change the process. -/
def setProcess (f : Process → Process) : Act Unit :=
  modify fun w => { w with process := f w.process }

/-- The tree. -/
def tree : Act Tree := do return (← get).tree

/-- Put another tree in the place of the tree. -/
def setTree (t : Tree) : Act Unit := modify fun w => { w with tree := t }

/-- Let time pass. Nothing happens after the deadline. -/
def pass (ms : Nat) : Act Unit := do
  let w ← get
  let clock := w.machine.clock + ms
  match w.deadline? with
  | none => set { w with machine := { w.machine with clock } }
  | some d =>
    set { w with machine := { w.machine with clock := min clock d } }
    if d < clock then throw .late

/-- Never go on: the deadline comes first. -/
def stall {α : Type} : Act α := do
  let w ← get
  set { w with machine := { w.machine with clock := w.deadline?.getD w.machine.clock } }
  throw .late

/-- The number of a new process. -/
def newId : Act Nat := do
  let w ← get
  set { w with machine := { w.machine with nextId := w.machine.nextId + 1 } }
  return w.machine.nextId

/-- Nobody waits for the process `id`, which ends at a time or does not. -/
def leaveBehind (id : Nat) (end? : Option Nat) : Act Unit :=
  modify fun w => { w with machine := { w.machine with strays := (id, end?) :: w.machine.strays } }

/-- Write to a sink. -/
def put (sink : Sink) (bytes : Bytes) : Act Unit := do
  if bytes = [] then return
  match sink with
  | .own s => modify fun w => { w with printed := (s, bytes) :: w.printed }
  | .file l =>
    let t ← tree
    match t.entry? l with
    | some e => setTree (t.set l (e.mapFile fun f => { f with content := f.content ++ bytes }))
    | none => return
  | .pipe n =>
    modify fun w => { w with pipes := w.pipes.modify n (· ++ bytes) }
  | .nowhere => return

/-- Write characters to the output. -/
def say (cs : List Char) : Act Unit := do put (← process).out (Shell.bytesOf cs)

/-- Write a line of complaint. -/
def complain (cs : List Char) : Act Unit := do
  put (← process).err (Shell.bytesOf cs ++ Bytes.ofString "\n")

/-- Run `act`, and answer what is written to the pipe that `act` gets. -/
def collect {α : Type} (act : Sink → Act α) : Act (α × Bytes) := do
  let n := (← get).pipes.length
  modify fun w => { w with pipes := w.pipes ++ [[]] }
  let a ← act (.pipe n)
  return (a, ((← get).pipes[n]?).getD [])

/-- The path that characters are. -/
def pathOf (cs : List Char) : Path := ⟨Shell.bytesOf cs⟩

/-- The words for a fault. -/
def reason : Fault → String
  | .system n => Fault.systemText n
  | f => f.text

/-- Make a change of the tree that may be refused. -/
def change (f : Tree → Option Tree) : Act Bool := do
  match f (← tree) with
  | some t =>
    setTree t
    return true
  | none => return false

end Act

end Machine

end SuiteRunner
