import SuiteRunner.Tree.Lookup

/-!
# Changing a tree by paths

What a program does to files: each change answers the new tree, or none if the system refuses it.

* `Tree.makeDirectory`, `Tree.makeDirectories`: one directory, or one with its parents;
* `Tree.write`, `Tree.append`: a file's content. A link is followed, and what it leads to is made
  if it is not there;
* `Tree.link`, `Tree.remove`, `Tree.rename`: links are not followed;
* `Edit`, `Edit.apply`: a change as a value. A refused edit may have changed something before.
-/

namespace SuiteRunner

namespace Tree

/-- The pieces of a path without the empty ones at its end. -/
def trimmedPieces (p : Path) : List Bytes :=
  ((Path.pieces p.bytes).reverse.dropWhile (· == [])).reverse

/-- `p` ends in a slash. -/
def endsInSlash (p : Path) : Bool := p.bytes.getLast? == some Path.slash

/-- The last piece of `p` names an entry: it is no dot and no two dots. -/
def namesEntry (p : Path) : Bool :=
  match (trimmedPieces p).getLast? with
  | none => false
  | some n => n != [] && n != [Path.dot] && n != [Path.dot, Path.dot]

/-- Where the entry that `p` names is or could be: slashes at the end do not count, and a link is
not followed. -/
def slot? (t : Tree) (p : Path) : Option Spot :=
  if namesEntry p then
    match checkPath p with
    | .ok () => (t.walk false linkLimit (t.startOf p) (trimmedPieces p)).toOption
    | .error _ => none
  else none

/-! ## Directories -/

/-- `p` is a directory, links followed. -/
def isDirectory (t : Tree) (p : Path) : Bool :=
  match t.entryOf p with
  | .ok e => e == .directory
  | .error _ => false

/-- A new directory. -/
def makeDirectory (t : Tree) (p : Path) : Option Tree :=
  match t.slot? p with
  | some (.free l) => some (t.set l .directory)
  | _ => none

/-- `p`, its parent, the parent of that, and so on; a path has no more of them than bytes. -/
def lineage : Nat → Path → List Path
  | 0, _ => []
  | fuel + 1, p => p :: (match p.parent with | some q => lineage fuel q | none => [])

/-- Make the directories of a list one by one, until one is refused. -/
def makeEach (t : Tree) : List Path → Tree × Bool
  | [] => (t, true)
  | p :: ps =>
    if p.bytes = [] || t.isDirectory p then t.makeEach ps
    else
      match t.makeDirectory p with
      | some t => t.makeEach ps
      | none => (t, false)

/-- A directory with its parents, where they are not there yet; whether all are. -/
def makeDirectories (t : Tree) (p : Path) : Tree × Bool :=
  if p.bytes = [] then (t, true)
  else
    match checkPath p with
    | .error _ => (t, false)
    | .ok () => t.makeEach (lineage (p.bytes.length + 1) p).reverse

/-- The directories that `p` needs above it. -/
def makeParents (t : Tree) (p : Path) : Tree × Bool :=
  match p.parent with
  | some q => t.makeDirectories q
  | none => (t, true)

/-! ## Files and links -/

/-- The place of the file that is written to by the path `p`, and what it holds; none if there can
be no file. A device holds nothing and keeps nothing. -/
def fileSpot? (t : Tree) (p : Path) : Option (Place × Entry) :=
  match t.locate true p with
  | .ok (.free l) => some (l, .file { content := [] })
  | .ok (.taken l) =>
    match t.entry? l with
    | some .directory | none => none
    | some e => some (l, e)
  | .error _ => none

/-- Change the file `p`, which is made empty first if it is not there. -/
def edit (t : Tree) (change : File → File) (p : Path) : Option Tree :=
  (t.fileSpot? p).map fun (l, e) => t.set l (e.mapFile change)

/-- The file `p` with `content`. -/
def write (t : Tree) (p : Path) (content : Bytes) : Option Tree :=
  t.edit (fun f => { f with content }) p

/-- The file `p` with `content` at its end. -/
def append (t : Tree) (p : Path) (content : Bytes) : Option Tree :=
  t.edit (fun f => { f with content := f.content ++ content }) p

/-- A file with the right to be executed, or without. -/
def setExecutable (t : Tree) (p : Path) (executable : Bool) : Option Tree :=
  t.edit (fun f => { f with executable }) p

/-- A new link to `target`. -/
def link (t : Tree) (p target : Path) : Option Tree :=
  if target.bytes = [] ∨ 0 ∈ target.bytes ∨ target.bytes.length ≥ pathLimit ∨ endsInSlash p then
    none
  else
    match t.slot? p with
    | some (.free l) => some (t.set l (.link target))
    | _ => none

/-- The tree without what is below `l`. -/
def clear (t : Tree) (l : Place) : Tree := t.removeIf fun k => isUnder l k && k != l

/-- The tree without the entry `p`; a directory goes with what is in it. A directory that is not
named by its own name loses only what is in it, and that is no success. -/
def remove (t : Tree) (p : Path) : Tree × Bool :=
  match t.resolve false p with
  | .error _ => (t, false)
  | .ok l =>
    if !t.isDirectoryAt l then (t.erase l, true)
    else if t.slot? p = some (.taken l) then (t.erase l, true)
    else (t.clear l, false)

/-- The entry `p` under the name `q`, in the place of what `q` named. A directory takes the place
only of an empty directory, and nothing else takes the place of a directory; none moves into
itself. -/
def rename (t : Tree) (p q : Path) : Option Tree :=
  match t.slot? p, t.slot? q with
  | some (.taken l), some spot =>
    let isDir := t.isDirectoryAt l
    let k := match spot with | .taken k => k | .free k => k
    if !isDir && (endsInSlash p || endsInSlash q) then none
    else if k = l then some t
    else if isDir && isUnder l k then none
    else
      match spot with
      | .free _ => some (t.move l k)
      | .taken _ =>
        if isDir then
          if t.isDirectoryAt k && (t.namesIn k).isEmpty then some (t.move l k) else none
        else if t.isDirectoryAt k then none
        else some (t.move l k)
  | _, _ => none

end Tree

/-! ## Edits -/

/-- A change of a tree. -/
inductive Edit where
  /-- A file that can be read, with its parent directories. -/
  | write (p : Path) (content : Bytes) (executable : Bool)
  /-- A directory with its parents. -/
  | makeDirectory (p : Path)
  /-- A link with its parent directories. -/
  | link (p target : Path)
  /-- Remove an entry and what is in it. -/
  | remove (p : Path)
  /-- Give an entry another path. -/
  | rename (p q : Path)
  deriving DecidableEq, Repr

namespace Edit

/-- The tree after one more step that may be refused. -/
def attempt (t : Tree) (r : Option Tree) : Tree × Bool :=
  match r with
  | some t => (t, true)
  | none => (t, false)

/-- A step in the directory of `p`, which is made first. -/
def inParents (t : Tree) (p : Path) (f : Tree → Option Tree) : Tree × Bool :=
  match t.makeParents p with
  | (t, true) => attempt t (f t)
  | (t, false) => (t, false)

/-- The tree after an edit, and whether the edit succeeded. -/
def apply (t : Tree) : Edit → Tree × Bool
  | write p content executable =>
    inParents t p fun t => t.edit (fun _ => { content, executable }) p
  | makeDirectory p => t.makeDirectories p
  | link p target => inParents t p fun t => t.link p target
  | remove p => t.remove p
  | rename p q => attempt t (t.rename p q)

/-- The tree after edits one after another, refused or not. -/
def applyAll (t : Tree) (es : List Edit) : Tree := es.foldl (fun t e => (apply t e).1) t

end Edit

end SuiteRunner
