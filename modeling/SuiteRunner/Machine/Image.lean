import SuiteRunner.Tree.Edit

/-!
# Programs on a tree

What starting an executable means: a file is the image of a program of its own, or a script whose
first line names the program that reads it.

* `Machine.load`: the program that a file is, and its arguments;
* `Machine.find`: an executable named by a path, or by a name that is looked for among the
  installed programs;
* `Machine.disk`: a tree with the installed programs and an empty working directory.
-/

namespace SuiteRunner.Machine

/-- What the image of a program starts with. -/
def magic : Bytes := [0x7F, 0x45, 0x4C, 0x46, 0x80]

/-- The image of a program. -/
def imageOf (name : String) : Bytes := magic ++ Bytes.ofString name

/-- The names under which the shell is installed. -/
def shellNames : List String := ["sh", "dash", "bash"]

/-- The name of the program that looks for another one and runs it. -/
def finderName : String := "env"

/-- A program with its arguments. -/
structure Image where
  /-- The name of the program. -/
  program : List Char
  /-- What it was started as, and its arguments. -/
  arguments : List Bytes
  deriving Repr

/-- The byte of `#`. -/
def hash : UInt8 := 0x23

/-- The byte of `!`. -/
def bang : UInt8 := 0x21

/-- The byte of a space or of a tab. -/
def isGap (b : UInt8) : Bool := b == 0x20 || b == 0x09

/-- The number of bytes in which the first line of a script names a program. -/
def headLength : Nat := 255

/-- The program that the first line of a script names, and one argument for it. -/
def interpreter? (content : Bytes) : Option (Path × Option Bytes) :=
  match content.take headLength with
  | a :: b :: rest =>
    if a = hash ∧ b = bang then
      let line := (rest.takeWhile (· != 0x0A)).dropWhile isGap
      let line := (line.reverse.dropWhile isGap).reverse
      let name := line.takeWhile fun b => !isGap b
      let argument := (line.drop name.length).dropWhile isGap
      if name = [] then none
      else some (⟨name⟩, if argument = [] then none else some argument)
    else none
  | _ => none

/-- The program that a file with this content is. -/
def programIn? (content : Bytes) : Option (List Char) :=
  if magic.isPrefixOf content then Utf8.decode? (content.drop magic.length) else none

/-- The most scripts that one script may be read by. -/
def scriptLimit : Nat := 5

/-- What comes of starting the file `p` as `self` with arguments. -/
def loadWith (t : Tree) : Nat → (p : Path) → (self : Bytes) → List Bytes → Except Fault Image
  | 0, _, _, _ => .error .tooManyLinks
  | fuel + 1, p, self, arguments => do
    match ← t.entryOf p with
    | .file f =>
      if f.executable then
        match programIn? f.content, interpreter? f.content with
        | some name, _ => .ok ⟨name, self :: arguments⟩
        | none, some (q, extra?) =>
          loadWith t fuel q q.bytes (extra?.toList ++ p.bytes :: arguments)
        | none, none => .error .notExecutable
      else .error .noAccess
    | _ => .error .noAccess

/-- **What comes of starting the file `p`** with arguments. -/
def load (t : Tree) (p : Path) (arguments : List Bytes) : Except Fault Image :=
  loadWith t (scriptLimit + 1) p p.bytes arguments

/-- Where programs are installed. -/
def searchPath : List Path :=
  ["/usr/local/sbin", "/usr/local/bin", "/usr/sbin", "/usr/bin", "/sbin", "/bin"].map Path.ofString

/-- What comes of starting the first executable of a name in directories. One that must not be
executed counts only if there is no other; `denied` says that there was one. -/
def search (t : Tree) (name : Path) (arguments : List Bytes) :
    (denied : Bool) → List Path → Except Fault Image
  | denied, [] => .error (if denied then .noAccess else .noEntry)
  | denied, dir :: dirs =>
    match loadWith t (scriptLimit + 1) (dir.join name) name.bytes arguments with
    | .ok image => .ok image
    | .error cause =>
      if cause = .noEntry ∨ cause = .notDirectory then search t name arguments denied dirs
      else if cause = .noAccess then search t name arguments true dirs
      else .error cause

/-- **What comes of starting the executable `p`** with arguments. A name without a slash is looked
for among the installed programs. -/
def find (t : Tree) (p : Path) (arguments : List Bytes) : Except Fault Image :=
  if Path.slash ∈ p.bytes then load t p arguments
  else if p.bytes = [] then .error .noEntry
  else if p.bytes.length > Tree.nameLimit then .error .nameTooLong
  else search t p arguments false searchPath

/-! ## The disk -/

/-- A tree with nothing in it but a working directory and the directories above it. -/
def bareDisk (home : Place) : Tree :=
  (List.range home.length).foldl (fun t n => t.set (home.take (n + 1)) .directory)
    ⟨home, [], List.nodup_nil, by simp⟩

/-- The place with names. -/
def placeOf (names : List String) : Place := names.map Bytes.ofString

/-- **A tree with the installed programs** and an empty working directory. -/
def disk (programs : List String) : Tree :=
  let t := bareDisk (placeOf ["tmp", "suite", "w"])
  let t := t.set (placeOf ["dev"]) .directory
  let t := t.set (placeOf ["dev", "null"]) .null
  let t := t.set (placeOf ["usr"]) .directory
  let t := t.set (placeOf ["usr", "bin"]) .directory
  let t := t.set (placeOf ["bin"]) (.link (Path.ofString "usr/bin"))
  programs.foldl (fun t n => t.set (placeOf ["usr", "bin", n]) (.file ⟨imageOf n, true, none⟩)) t

end SuiteRunner.Machine
