import SuiteRunner.Fault
import SuiteRunner.Path

/-!
# File trees

The file system that a run works on: a tree of directories, files and links as plain data, a list of
entries, each at a place. A place is the list of names that leads to it from the root. The order of
the list is the order in which directories are listed; no rule may depend on it. A file may be one
that cannot be opened, whatever is in it.

* `Tree.entry?`, `Tree.namesIn`: what is at a place, and the names in a directory;
* `Tree.set`, `Tree.erase`, `Tree.move`: the changes, each of which keeps one entry per place, and
  at places that can be named only.
-/

namespace SuiteRunner

/-- The name of an entry in its directory. -/
abbrev Name := Bytes

/-- An entry can have the name `n`: it is not empty, has no slash, and is no dot and no two
dots. -/
def isName (n : Bytes) : Bool :=
  n != [] && !n.contains Path.slash && n != [Path.dot] && n != [Path.dot, Path.dot]

/-- The names that lead to an entry from the root. -/
abbrev Place := List Name

/-- A regular file. -/
structure File where
  /-- What it holds. -/
  content : Bytes
  /-- It may be executed. -/
  executable : Bool := false
  /-- Why it cannot be opened for reading, if it cannot. -/
  denied? : Option Fault := none
  deriving DecidableEq, Repr

/-- What is read of a file. -/
def File.read (f : File) : Except Fault Bytes :=
  match f.denied? with
  | none => .ok f.content
  | some cause => .error cause

/-- What is at a place. -/
inductive Entry where
  /-- A regular file, whether or not it can be read. -/
  | file (file : File)
  /-- A directory. -/
  | directory
  /-- A symbolic link. -/
  | link (target : Path)
  /-- A device that is always empty. -/
  | null
  deriving DecidableEq, Repr

/-- A file after a change; anything else as it was. -/
def Entry.mapFile (change : File → File) : Entry → Entry
  | .file f => .file (change f)
  | e => e

/-- A tree, and the directory in it that relative paths start from. -/
structure Tree where
  /-- Where relative paths start. -/
  home : Place
  /-- The entries below the root. -/
  entries : List (Place × Entry)
  /-- There is one entry at a place. -/
  nodup : (entries.map (·.1)).Nodup
  /-- Only names lead to an entry. -/
  named : ∀ e ∈ entries, e.1.all isName = true

namespace Tree

/-! ## Looking -/

/-- What is at `l`. The root is a directory. -/
def entry? (t : Tree) (l : Place) : Option Entry :=
  if l = [] then some .directory else t.entries.lookup l

/-- There is a directory at `l`. -/
def isDirectoryAt (t : Tree) (l : Place) : Bool := t.entry? l == some .directory

/-- The name of `k` in the directory `l`, if it is right below it. -/
def nameBelow? (l k : Place) : Option Name :=
  match k.getLast? with
  | some n => if k.dropLast = l then some n else none
  | none => none

/-- The names in the directory `l`, in the order of the tree. -/
def namesIn (t : Tree) (l : Place) : List Name :=
  t.entries.filterMap fun e => nameBelow? l e.1

/-! ## Changing -/

/-- The tree without what is at a place that satisfies `p`. -/
def removeIf (t : Tree) (p : Place → Bool) : Tree where
  home := t.home
  entries := t.entries.filter fun e => !p e.1
  nodup := t.nodup.sublist (List.Sublist.map _ List.filter_sublist)
  named := fun e he => t.named e (List.mem_filter.mp he).1

/-- The entries of a tree with `e` at `l`. -/
def entriesWith (t : Tree) (l : Place) (e : Entry) : List (Place × Entry) :=
  (t.removeIf (· == l)).entries ++ [(l, e)]

theorem entriesWith_nodup (t : Tree) (l : Place) (e : Entry) :
    ((t.entriesWith l e).map (·.1)).Nodup := by
  unfold entriesWith
  rw [List.map_append, List.nodup_append]
  refine ⟨(t.removeIf (· == l)).nodup, by simp, ?_⟩
  intro a ha b hb
  simp only [removeIf, List.mem_map, List.mem_filter] at ha
  obtain ⟨x, ⟨_, hx⟩, rfl⟩ := ha
  simp only [List.map_cons, List.map_nil, List.mem_singleton] at hb
  subst hb
  simpa using hx

theorem entriesWith_named (t : Tree) {l : Place} (hl : l.all isName = true) (e : Entry) :
    ∀ x ∈ t.entriesWith l e, x.1.all isName = true := by
  intro x hx
  rcases List.mem_append.mp hx with hx | hx
  · exact (t.removeIf (· == l)).named x hx
  · rw [List.mem_singleton.mp hx]
    exact hl

/-- The tree with `e` at `l`; as it was if `l` is no place for an entry. -/
def set (t : Tree) (l : Place) (e : Entry) : Tree :=
  if hl : l.all isName = true then
    ⟨t.home, t.entriesWith l e, t.entriesWith_nodup l e, t.entriesWith_named hl e⟩
  else t

/-- `k` is `l` or below it. -/
def isUnder (l k : Place) : Bool := l.isPrefixOf k

/-- The tree without `l` and what is below it. -/
def erase (t : Tree) (l : Place) : Tree := t.removeIf (isUnder l)

/-- The place of `k` when `source` has become `target`. -/
def moved (source target k : Place) : Place :=
  if isUnder source k then target ++ k.drop source.length else k

theorem moved_injective {source target a b : Place} (ha : isUnder target a = false)
    (hb : isUnder target b = false) (h : moved source target a = moved source target b) :
    a = b := by
  have under : ∀ k, isUnder target (target ++ k) = true := fun k => by
    simp [isUnder]
  unfold moved at h
  split at h <;> split at h
  · rename_i h₁ h₂
    simp only [isUnder, List.isPrefixOf_iff_prefix] at h₁ h₂
    obtain ⟨x, rfl⟩ := h₁
    obtain ⟨y, rfl⟩ := h₂
    simp only [List.drop_left, List.append_cancel_left_eq] at h
    rw [h]
  · rw [← h, under] at hb; cases hb
  · rw [h, under] at ha; cases ha
  · exact h

/-- The entries of a tree with what was at `source` and below now at `target`, in the place of what
was there. -/
def movedEntries (t : Tree) (source target : Place) : List (Place × Entry) :=
  (t.erase target).entries.map fun e => (moved source target e.1, e.2)

theorem movedEntries_nodup (t : Tree) (source target : Place) :
    ((t.movedEntries source target).map (·.1)).Nodup := by
  have h := (t.erase target).nodup
  unfold movedEntries
  rw [List.map_map]
  have : (((fun x : Place × Entry => x.1) ∘ fun e => (moved source target e.1, e.2)) =
      moved source target ∘ fun x : Place × Entry => x.1) := rfl
  rw [this, ← List.map_map]
  unfold List.Nodup at h ⊢
  rw [List.pairwise_map]
  refine List.Pairwise.imp_of_mem ?_ h
  intro a b ha hb hab hm
  have free : ∀ k ∈ (t.erase target).entries.map (·.1), isUnder target k = false := by
    intro k hk
    simp only [erase, removeIf, List.mem_map, List.mem_filter] at hk
    obtain ⟨x, ⟨_, hx⟩, rfl⟩ := hk
    simpa using hx
  exact hab (moved_injective (free a ha) (free b hb) hm)

theorem movedEntries_named (t : Tree) (source : Place) {target : Place}
    (ht : target.all isName = true) :
    ∀ x ∈ t.movedEntries source target, x.1.all isName = true := by
  intro x hx
  obtain ⟨y, hy, rfl⟩ := List.mem_map.mp hx
  have hn := (t.erase target).named y hy
  show (moved source target y.1).all isName = true
  unfold moved
  split
  · rw [List.all_append, ht, Bool.true_and]
    exact List.all_eq_true.mpr fun n h => List.all_eq_true.mp hn n (List.mem_of_mem_drop h)
  · exact hn

/-- The tree with what was at `source` and below now at `target`, in the place of what was there;
as it was if `target` is no place for an entry. Relative paths start from the same directory as
before, wherever it went. -/
def move (t : Tree) (source target : Place) : Tree :=
  if ht : target.all isName = true then
    ⟨moved source target t.home, t.movedEntries source target, t.movedEntries_nodup source target,
      t.movedEntries_named source ht⟩
  else t

end Tree

end SuiteRunner
