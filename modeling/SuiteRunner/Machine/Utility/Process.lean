import SuiteRunner.Machine.Utility.Basic

/-!
# Utilities for processes

Time passes, and signals are sent.

* `Utility.millisecondsOf?`: the time that a text says;
* `Utility.send`: what a signal does to a process.
-/

namespace SuiteRunner.Machine.Utility

open Act

/-! ## Time -/

/-- The milliseconds that a text in seconds is. -/
def millisecondsOf? (cs : List Char) : Option Nat :=
  let (cs, unit) := match cs.getLast? with
    | some 's' => (cs.dropLast, 1)
    | some 'm' => (cs.dropLast, 60)
    | some 'h' => (cs.dropLast, 3600)
    | some 'd' => (cs.dropLast, 86400)
    | _ => (cs, 1)
  let whole := cs.takeWhile Char.isDigit
  match cs.drop whole.length with
  | [] => if whole = [] then none else some (leadingNumber whole * 1000 * unit)
  | '.' :: part =>
    if part.all Char.isDigit && !(whole ++ part).isEmpty then
      some (leadingNumber (whole ++ (part ++ ['0', '0', '0']).take 3) * unit)
    else none
  | _ => none

/-- Wait. -/
def sleep : Utility := fun arguments => do
  if arguments.any (· == "infinity".toList) then stall
  match arguments.mapM millisecondsOf? with
  | some (t :: ts) =>
    pass (ts.foldl (· + ·) t)
    return 0
  | _ =>
    complain "sleep: invalid time interval".toList
    return 1

/-- Print without end. Nobody looks at what is printed. -/
def yes : Utility := fun _ => stall

/-! ## Signals -/

/-- The number of a signal by its name or number. -/
def signalOf? (cs : List Char) : Option Nat :=
  if cs != [] && cs.all Char.isDigit then some (numberOf cs).toNat
  else
    let name := "SIG" ++ String.ofList
      (if "SIG".toList.isPrefixOf cs then cs.drop 3 else cs)
    (List.range 32).find? fun n => WaitStatus.signalName n == some name

/-- What a signal does to a process that has not said otherwise. -/
def isHarmless (n : Nat) : Bool := [0, 17, 18, 23, 28].contains n

/-- Signals that stop a process until another one lets it go on. -/
def isStopping (n : Nat) : Bool := [19, 20, 21, 22].contains n

/-- Send a signal to a process. -/
def send (n : Nat) (target : List Char) : Act Nat := do
  let id := (numberOf target).toNat
  let p ← process
  if id = p.id then
    if isHarmless n || (p.unheeded.contains n && n != 9 && n != 19) then return 0
    if isStopping n then stall
    throw (.signal n)
  let w ← get
  if w.machine.isAlive id then
    if !isHarmless n && !isStopping n then
      set { w with machine := { w.machine with strays := w.machine.strays.filter (·.1 != id) } }
    return 0
  else
    complain "kill: No such process".toList
    return 1

/-- Send a signal to processes. -/
def kill : Utility := fun arguments => do
  let (signal?, targets) := match arguments with
    | ['-', 's'] :: s :: targets => (signalOf? s, targets)
    | ['-', '-'] :: targets => (some 15, targets)
    | ('-' :: s) :: targets => (signalOf? s, targets)
    | targets => (some 15, targets)
  match signal?, targets with
  | some n, _ :: _ => eachOf targets (send n)
  | _, _ =>
    complain "kill: invalid signal".toList
    return 2

end SuiteRunner.Machine.Utility
