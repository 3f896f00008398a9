import SuiteRunner.Machine.Shell.Process

/-!
# Redirections

The streams of a process are files, or each other, for as long as a command runs.

* `redirectTo`, `duplicate`: one redirection; it may be refused;
* `keepingStreams`: an action after which the streams are as before.
-/

namespace SuiteRunner.Machine

open SuiteRunner.Shell

open Act

/-- The stream with a number of a process. -/
def sinkOf (p : Process) : Nat → Option Sink
  | 1 => some p.out
  | 2 => some p.err
  | _ => none

/-- The process with another sink for the stream with a number. -/
def withSink (p : Process) (n : Nat) (sink : Sink) : Process :=
  match n with
  | 1 => { p with out := sink }
  | 2 => { p with err := sink }
  | _ => p

/-- A complaint of the shell: it tells the script and the line. -/
def complainInScript (words : List Char) : Act Unit := do
  let p ← process
  complain (p.name ++ s!": {p.line}: ".toList ++ words)

/-- The words of the shell for a fault; `missing` are those for a path that leads nowhere. -/
def reasonOr (missing : String) (cause : Fault) : List Char :=
  (if cause = .noEntry ∨ cause = .notDirectory then missing else reason cause).toList

/-- Open a file for writing. -/
def openSink (p : Path) (overwrite : Bool) : Act (Except Fault Sink) := do
  let t ← tree
  match t.fileSpot? p with
  | none => return .error (match t.locate true p with
      | .ok _ => .isDirectory
      | .error cause => cause)
  | some (l, e) =>
    setTree (t.set l (if overwrite then e.mapFile ({ · with content := [] }) else e))
    return .ok (.file l)

/-- Read from or write to a file. -/
def redirectTo (stream : Nat) (opening : Opening) (target : List Char) : Act Bool := do
  let p := pathOf target
  match opening with
  | .read =>
    match (← tree).read p with
    | .ok content =>
      setProcess fun q => if stream = 0 then { q with input := content } else q
      return true
    | .error cause =>
      complainInScript
        ("cannot open ".toList ++ target ++ ": ".toList ++ reasonOr "No such file" cause)
      return false
  | opening =>
    match ← openSink p (opening == .overwrite) with
    | .ok sink =>
      setProcess fun q => withSink q stream sink
      return true
    | .error cause =>
      complainInScript
        ("cannot create ".toList ++ target ++ ": ".toList ++
          reasonOr "Directory nonexistent" cause)
      return false

/-- The stream `stream` is the stream `source`. -/
def duplicate (stream source : Nat) : Act Bool := do
  let p ← process
  match sinkOf p source with
  | some sink =>
    setProcess fun q => withSink q stream sink
    return true
  | none => return source == 0

/-- Run `act`, and then take the streams of the process back that it had before. -/
def keepingStreams {α : Type} (readsAnew : Bool) (act : Act α) : Act α := do
  let p ← process
  ending act (setProcess fun q =>
    { q with out := p.out, err := p.err, input := if readsAnew then p.input else q.input })

/-- A redirection gives a process something else to read. -/
def readsAnew : Redirection → Bool
  | .file 0 .. | .copy 0 _ => true
  | _ => false


end SuiteRunner.Machine
