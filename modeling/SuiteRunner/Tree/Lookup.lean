import SuiteRunner.Marker
import SuiteRunner.Tree

/-!
# Looking up paths

A path is followed piece by piece. A link on the way is followed from the directory it is in; two
dots lead to the parent of the directory that was reached, not of the one that was written.

* `Tree.walk`: where pieces lead from a directory;
* `Tree.locate`: where a path leads, which may be to a place where an entry could be made;
* `Tree.resolve`: where a path leads to an entry;
* `Tree.list`, `Tree.kindOf`, `Tree.read`, `Tree.openFile`: what is there, for `read_dir`,
  `metadata`, `read_to_string` and the reader of `is_ignored`.
-/

namespace SuiteRunner.Tree

/-- The most links that are followed for one path. -/
def linkLimit : Nat := 40

/-- The most bytes of a name. -/
def nameLimit : Nat := 255

/-- A path has fewer bytes than this. -/
def pathLimit : Nat := 4096

/-- Where a path leads. -/
inductive Spot where
  /-- To an entry. -/
  | taken (l : Place)
  /-- To a name that is not there, in a directory that is. -/
  | free (l : Place)
  deriving DecidableEq, Repr

/-- Where the pieces `todo` lead from the place `l`. An empty piece stands between two slashes or
after the last one, and like a dot it asks for a directory. The last piece, if it is a link, is
followed only if `follow` says so. -/
def walk (t : Tree) (follow : Bool) (links : Nat) (l : Place) (todo : List Bytes) :
    Except Fault Spot :=
  match todo with
  | [] => .ok (.taken l)
  | piece :: rest =>
    match t.entry? l with
    | none => .error .noEntry
    | some .directory =>
      if piece = [] ∨ piece = [Path.dot] then walk t follow links l rest
      else if piece = [Path.dot, Path.dot] then walk t follow links l.dropLast rest
      else if piece.length > nameLimit then .error .nameTooLong
      else
        match t.entry? (l ++ [piece]) with
        | none => if rest = [] then .ok (.free (l ++ [piece])) else .error .noEntry
        | some (.link target) =>
          if rest = [] ∧ follow = false then .ok (.taken (l ++ [piece]))
          else
            match links with
            | 0 => .error .tooManyLinks
            | links + 1 =>
              if target.bytes = [] then .error .noEntry
              else
                walk t follow links (if target.isAbsolute then [] else l)
                  (Path.pieces target.bytes ++ rest)
        | some _ => walk t follow links (l ++ [piece]) rest
    | some _ => .error .notDirectory
termination_by (links, todo.length)

/-- Where a path starts. -/
def startOf (t : Tree) (p : Path) : Place := if p.isAbsolute then [] else t.home

/-- A path that can be looked up at all: it has a byte, no zero byte, and is not too long. -/
def checkPath (p : Path) : Except Fault Unit :=
  if 0 ∈ p.bytes then .error .nulInPath
  else if p.bytes = [] then .error .noEntry
  else if p.bytes.length ≥ pathLimit then .error .nameTooLong
  else .ok ()

/-- Where `p` leads. -/
def locate (t : Tree) (follow : Bool) (p : Path) : Except Fault Spot := do
  checkPath p
  t.walk follow linkLimit (t.startOf p) (Path.pieces p.bytes)

/-- The place of the entry that `p` leads to. -/
def resolve (t : Tree) (follow : Bool) (p : Path) : Except Fault Place := do
  match ← t.locate follow p with
  | .taken l => .ok l
  | .free _ => .error .noEntry

/-- The entry that `p` leads to, links followed. -/
def entryOf (t : Tree) (p : Path) : Except Fault Entry := do
  match t.entry? (← t.resolve true p) with
  | some e => .ok e
  | none => .error .noEntry

/-- `p` leads to an entry, links followed. -/
def reaches (t : Tree) (p : Path) : Bool := (t.entryOf p).toBool

/-! ## What is there -/

/-- A regular file, or anything else. -/
inductive Kind where
  | regular
  | other
  deriving DecidableEq, Repr

/-- What kind of entry `p` leads to, links followed. -/
def kindOf (t : Tree) (p : Path) : Except Fault Kind := do
  match ← t.entryOf p with
  | .file .. => .ok .regular
  | _ => .ok .other

/-- The names in the directory `p`, in the order of the tree. -/
def list (t : Tree) (p : Path) : Except Fault (List Name) := do
  let l ← t.resolve true p
  if t.isDirectoryAt l then .ok (t.namesIn l) else .error .notDirectory

/-- The content of the file `p`. -/
def read (t : Tree) (p : Path) : Except Fault Bytes := do
  match ← t.entryOf p with
  | .file f => f.read
  | .null => .ok []
  | .directory => .error .isDirectory
  | .link _ => .error .tooManyLinks

/-- The number of bytes that are read at a time, less one. -/
def chunkSize : Nat := 8191

/-- A reader of the file `p`. A file that is denied cannot be opened. A directory can be opened,
and the first read fails. -/
def openFile (t : Tree) (p : Path) : Except Fault (Marker.Source Fault) := do
  match ← t.entryOf p with
  | .file f => f.read.map (.ofContent chunkSize)
  | .null => .ok (.ofContent chunkSize [])
  | .directory => .ok ⟨[], some .isDirectory⟩
  | .link _ => .error .tooManyLinks

end SuiteRunner.Tree
