import SuiteRunner.Machine.Expansion
import SuiteRunner.Machine.Shell.Redirection
import SuiteRunner.Machine.Utility

/-!
# Commands of the shell itself

What no program could do for a shell: change its variables, its directory, its arguments.

* `ownCommands`: these commands by their names;
* `statusOf`: the status that the argument of an exit says.
-/

namespace SuiteRunner.Machine

open SuiteRunner.Shell
open Act

/-- The number of levels that an argument says, one if there is none. -/
def levelsOf (arguments : List (List Char)) : Nat :=
  match arguments with
  | a :: _ => max 1 (Utility.numberOf a).toNat
  | [] => 1

/-- The largest number that an argument may say. -/
def numberLimit : Nat := 2147483647

/-- The status that the first argument of the command `name` says, or that of the last command. An
argument that is no number ends the script. -/
def statusOf (name : List Char) (arguments : List (List Char)) : Act Nat := do
  match arguments with
  | [] => return (← process).status
  | a :: _ =>
    let n := (Utility.numberOf a).toNat
    if a != [] && a.all Char.isDigit && n ≤ numberLimit then return n % 256
    else
      complainInScript (name ++ ": Illegal number: ".toList ++ a)
      throw (.exit 2)

/-- Read a line into variables: a word for each, and all that is left for the last. -/
def readLine : Utility := fun arguments => do
  let p ← process
  let names := (Utility.options arguments).2
  let line := p.input.takeWhile (· != 0x0A)
  let ended := line.length < p.input.length
  let words := ((charsOf line).splitOnP isSeparator).filter (· != [])
  let rec put : List (List Char) → List (List Char) → Process → Process
    | [], _, q => q
    | [n], ws, q => assign q n (List.intercalate [' '] ws)
    | n :: ns, ws, q => put ns ws.tail (assign q n (ws.headD []))
  setProcess fun q => put names words { q with input := q.input.drop (line.length + 1) }
  return if ended then 0 else 1

/-- Set options and arguments. -/
def setOptions : Utility := fun arguments => do
  let rec go : List (List Char) → Process → Process
    | [], p => p
    | ['-', '-'] :: rest, p => { p with arguments := rest }
    | ('-' :: letters) :: rest, p => go rest (if letters.contains 'e' then
        { p with strict := true } else p)
    | ('+' :: letters) :: rest, p => go rest (if letters.contains 'e' then
        { p with strict := false } else p)
    | rest, p => { p with arguments := rest }
  setProcess (go arguments)
  return 0

/-- Give variables values, or none. -/
def exportAll : Utility := fun arguments => do
  let put := fun (p : Process) (a : List Char) =>
    let name := a.takeWhile (· != '=')
    let p := { p with exported := name :: p.exported }
    if name.length < a.length then assign p name (a.drop (name.length + 1)) else p
  setProcess fun p => arguments.foldl put p
  return 0

/-- Say which signals are heeded. Those with a command of their own are not. -/
def trap : Utility := fun arguments => do
  match arguments with
  | ['-'] :: signals =>
    let ns := signals.filterMap Utility.signalOf?
    setProcess fun p => { p with unheeded := p.unheeded.filter fun n => !ns.contains n }
    return 0
  | _ :: signals =>
    let ns := signals.filterMap Utility.signalOf?
    setProcess fun p => { p with unheeded := ns ++ p.unheeded }
    return 0
  | [] => return 0

/-- Take the values of variables away. -/
def unset : Utility := fun arguments => do
  setProcess fun p => { p with
    bindings := p.bindings.filter fun v => !arguments.contains v.1
    functions := p.functions.filter fun f => !arguments.contains f.1 }
  return 0

/-- Go to another directory. -/
def changeDirectory : Utility := fun arguments => do
  match arguments with
  | target :: _ =>
    let t ← tree
    match t.resolve true (pathOf target) with
    | .ok l =>
      if t.isDirectoryAt l then
        setTree { t with home := l }
        return 0
    | .error _ => pure ()
    complainInScript ("cd: can't cd to ".toList ++ target)
    return 2
  | [] => return 0

/-- Drop arguments. -/
def shift : Utility := fun arguments => do
  let n := levelsOf arguments
  let p ← process
  if p.arguments.length < n then
    complainInScript "shift: can't shift that many".toList
    throw (.exit 2)
  setProcess fun q => { q with arguments := q.arguments.drop n }
  return 0

/-- Wait for processes. -/
def wait : Utility := fun arguments => do
  match arguments with
  | [] =>
    (← process).jobs.forM fun j => do
      let _ ← await j.1
    return 0
  | ids => ids.foldlM (fun _ id => await (Utility.numberOf id).toNat) 0

/-- The commands that only a shell has. -/
def ownCommands : List (String × Utility) :=
  [(":", Utility.succeed), ("cd", changeDirectory), ("export", exportAll), ("read", readLine),
   ("set", setOptions), ("shift", shift), ("trap", trap), ("umask", Utility.succeed),
   ("unset", unset), ("wait", wait)]

/-- Commands that end the script when their redirections fail. -/
def isSpecial (name : List Char) : Bool :=
  [".", ":", "break", "continue", "eval", "exec", "exit", "export", "return", "set", "shift",
    "trap", "unset"].any fun n => n.toList == name


end SuiteRunner.Machine
