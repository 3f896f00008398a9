import SuiteRunner.Machine.World

/-!
# Processes of a shell

A shell runs commands in its own process, in copies of it, and in new ones.

* `Act.isolated`: in a copy, of which nothing stays but what was read;
* `Act.spawned`: in a new process that is waited for;
* `Act.detached`: in a new process that nobody waits for.
-/

namespace SuiteRunner.Machine

namespace Act

/-- Do `last` after `act`, whether it goes on or not. -/
def ending {α : Type} (act : Act α) (last : Act Unit) : Act α := do
  try
    let a ← act
    last
    return a
  catch stop =>
    last
    throw stop

/-- The status of an action that the end of the process, or of a function, ends. -/
def caught (act : Act Nat) : Act Nat :=
  tryCatch act fun
    | .exit status | .back status => pure status
    | .leave _ | .again _ => pure 0
    | stop => throw stop

/-- Run `act` in a copy of the process: what it reads is gone, and all else stays as it was. -/
def isolated (act : Act Nat) : Act Nat := do
  let before ← get
  let status ← caught act
  modify fun w => { w with
    process := { before.process with input := w.process.input, status }
    tree := { w.tree with home := before.tree.home } }
  return status

/-- Run `act` in a new process. It is left behind if the time is up. -/
def spawned (act : Act Nat) : Act Nat := do
  let id ← newId
  isolated do
    setProcess fun p => { p with id }
    tryCatch act fun
      | .signal n => pure (128 + n)
      | .late => do
        leaveBehind id none
        throw .late
      | stop => throw stop

/-- Run `act` in a process that nobody waits for. -/
def detached (act : Act Nat) : Act Unit := do
  let id ← newId
  let before ← get
  set { before with deadline? := none }
  let end? ← tryCatch
    (do
      let status ← isolated do
        setProcess fun p => { p with input := [] }
        act
      return some (status, (← get).machine.clock))
    fun _ => pure none
  modify fun w => { w with
    machine := { w.machine with clock := before.machine.clock }
    deadline? := before.deadline?
    process := { before.process with
      jobs := (id, (end?.map (·.1)).getD 0) :: before.process.jobs, status := 0 }
    tree := { w.tree with home := before.tree.home } }
  leaveBehind id (end?.map (·.2))

/-- Wait for the process `id`, if it has not ended. -/
def await (id : Nat) : Act Nat := do
  let w ← get
  match w.machine.strays.find? (·.1 == id) with
  | some (_, some e) => pass (e - w.machine.clock)
  | some (_, none) => stall
  | none => pure ()
  return (w.process.jobs.lookup id).getD 127

end Act

end SuiteRunner.Machine
