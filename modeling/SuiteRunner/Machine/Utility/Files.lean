import SuiteRunner.Machine.Utility.Basic

/-!
# Utilities for files

Files and directories are made, removed, copied and renamed, and what is there is listed.
-/

namespace SuiteRunner.Machine.Utility

open Act

/-- Remove files. -/
def rm : Utility := fun arguments => do
  let (letters, files) := options arguments
  let force := letters.contains 'f'
  let deep := letters.contains 'r' || letters.contains 'R'
  eachOf files fun file => do
    let p := pathOf file
    let t ← tree
    match t.resolve false p with
    | .error cause =>
      if force && cause = .noEntry then return 0
      complainAbout "rm" "cannot remove" file (reason cause)
      return 1
    | .ok l =>
      if t.isDirectoryAt l && !deep then
        complainAbout "rm" "cannot remove" file (reason .isDirectory)
        return 1
      let (t, done) := t.remove p
      setTree t
      return if done then 0 else 1

/-- Make directories. -/
def mkdir : Utility := fun arguments => do
  let (letters, files) := options arguments
  eachOf files fun file => do
    let p := pathOf file
    if letters.contains 'p' then
      let (t, done) := (← tree).makeDirectories p
      setTree t
      return if done then 0 else 1
    else if ← change (·.makeDirectory p) then return 0
    else
      complainAbout "mkdir" "cannot create directory" file
        (reasonFor (← tree) false p "File exists")
      return 1

/-- Remove empty directories. -/
def rmdir : Utility := fun arguments => do
  let (_, files) := options arguments
  eachOf files fun file => do
    let p := pathOf file
    let t ← tree
    match t.resolve false p with
    | .error cause =>
      complainAbout "rmdir" "failed to remove" file (reason cause)
      return 1
    | .ok l =>
      if !t.isDirectoryAt l then
        complainAbout "rmdir" "failed to remove" file (reason .notDirectory)
        return 1
      else if !(t.namesIn l).isEmpty then
        complainAbout "rmdir" "failed to remove" file "Directory not empty"
        return 1
      else
        let (t, done) := t.remove p
        setTree t
        return if done then 0 else 1

/-- Make files that are not there. -/
def touch : Utility := fun arguments => do
  let (_, files) := options arguments
  eachOf files fun file => do
    let p := pathOf file
    if (← tree).isDirectory p then return 0
    else if ← change (·.append p []) then return 0
    else
      complainAbout "touch" "cannot touch" file (reasonFor (← tree) true p "Permission denied")
      return 1

/-- Give files the right to be executed, or take it away. -/
def chmod : Utility := fun arguments => do
  match arguments with
  | [] | [_] => return 1
  | mode :: files =>
    let executable := mode.contains 'x' && !mode.contains '-' ||
      ['1', '3', '5', '7'].any fun d => (mode.drop (mode.length - 3)).head? == some d
    eachOf files fun file => do
      let p := pathOf file
      if !(← tree).reaches p then return 1
      else if ← change (·.setExecutable p executable) then return 0
      else return 0

/-- Where a file goes that is put at `target`: into it, if it is a directory. -/
def destination (t : Tree) (file target : List Char) : List Char :=
  if t.isDirectory (pathOf target) then
    let name := ((file.reverse.dropWhile (· == '/')).takeWhile (· != '/')).reverse
    Shell.charsOf ((pathOf target).join (pathOf name)).bytes
  else target

/-- Give files other names. -/
def mv : Utility := fun arguments => do
  let (_, arguments) := options arguments
  match lastOf arguments with
  | none =>
    complain "mv: missing file operand".toList
    return 1
  | some (files, target) =>
    eachOf files fun file => do
      let p := pathOf file
      let q := pathOf (destination (← tree) file target)
      if ← change (·.rename p q) then return 0
      else
        complainAbout "mv" "cannot stat" file (reasonFor (← tree) false p "Invalid argument")
        return 1

/-- Copy files. -/
def cp : Utility := fun arguments => do
  let (_, arguments) := options arguments
  match lastOf arguments with
  | none =>
    complain "cp: missing file operand".toList
    return 1
  | some (files, target) =>
    eachOf files fun file => do
      let t ← tree
      let q := pathOf (destination t file target)
      match t.entryOf (pathOf file) with
      | .ok (.file f) =>
        let isNew := !t.reaches q
        match f.read with
        | .ok content =>
          if ← change fun t => do
              let t ← t.write q content
              if isNew then t.setExecutable q f.executable else some t then return 0
          else return 1
        | .error cause =>
          complainAbout "cp" "cannot open" file (reason cause)
          return 1
      | .ok _ => return 1
      | .error cause =>
        complainAbout "cp" "cannot stat" file (reason cause)
        return 1

/-- Make links. -/
def ln : Utility := fun arguments => do
  let (letters, arguments) := options arguments
  match lastOf arguments with
  | some ([file], target) =>
    let q := pathOf (destination (← tree) file target)
    if letters.contains 'f' then
      match (← tree).resolve false q with
      | .ok _ => setTree ((← tree).remove q).1
      | .error _ => pure ()
    if letters.contains 's' then
      return if ← change (·.link q (pathOf file)) then 0 else 1
    else
      match (← tree).entryOf (pathOf file) with
      | .ok (.file f) =>
        if (← tree).reaches q then return 1
        else if ← change (·.edit (fun _ => f) q) then return 0
        else return 1
      | _ => return 1
  | _ => return 1

/-- Print the names in directories, and the paths of other files. -/
def ls : Utility := fun arguments => do
  let (_, files) := options arguments
  let shown := fun names : List (List Char) =>
    ((names.filter fun n => n.head? != some '.').mergeSort fun a b => (compare a b).isLE).flatMap
      (· ++ ['\n'])
  eachOf (if files.isEmpty then [['.']] else files) fun file => do
    let t ← tree
    match t.resolve true (pathOf file) with
    | .error cause =>
      complainAbout "ls" "cannot access" file (reason cause)
      return 2
    | .ok l =>
      say (if t.isDirectoryAt l then shown ((t.namesIn l).map Shell.charsOf) else file ++ ['\n'])
      return 0

end SuiteRunner.Machine.Utility
