import SuiteRunner.Proofs.Lookup
import SuiteRunner.Proofs.Path.Parent

/-!
# Looking up from the directory of a file

A path that is joined to the directory part of another one leads where it would lead from the
directory that the other one leads through. The two are looked up with different numbers of links
left, so this holds as long as neither runs out of them, and neither path is too long.

* `directoryOf`: where the last name of a path is looked up;
* `walk_eq_of_enough`: the number of links that may be followed matters only when it runs out;
* **`leadsAs_join`**: what is joined to the directory part of a path is looked up from there.
-/

namespace SuiteRunner.Tree

variable {t : Tree} {l : Place} {links : Nat}

/-! ## Limits -/

/-- Looking up ran into a limit: too many links, or too long a path or name. -/
def Limited (r : Except Fault Spot) : Prop :=
  r = .error .tooManyLinks ∨ r = .error .nameTooLong

/-- More links change nothing where there were enough. -/
theorem walk_add_links {follow : Bool} {todo : List Bytes} (extra : Nat)
    (h : t.walk follow links l todo ≠ .error .tooManyLinks) :
    t.walk follow (links + extra) l todo = t.walk follow links l todo := by
  fun_induction t.walk follow links l todo with
  | case1 => rw [walk]
  | case9 => exact absurd rfl h
  | case10 l piece rest hl hdot hup hlen target ht hlast links htarget =>
    rw [Nat.succ_add, walk]
    simp [*]
  | case11 l piece rest hl hdot hup hlen target ht hlast links htarget ih =>
    rw [Nat.succ_add, walk]
    simpa [*] using ih h
  | _ =>
    rw [walk]
    simp [*]

/-- **How many links may be followed matters only where they run out.** -/
theorem walk_eq_of_enough {follow : Bool} {links' : Nat} {todo : List Bytes}
    (h : t.walk follow links l todo ≠ .error .tooManyLinks)
    (h' : t.walk follow links' l todo ≠ .error .tooManyLinks) :
    t.walk follow links l todo = t.walk follow links' l todo := by
  rw [← walk_add_links links' h, ← walk_add_links links h', Nat.add_comm]

/-! ## Along the directory part -/

/-- What is followed by a piece is a directory. -/
theorem isDirectoryAt_of_walk {follow : Bool} {piece : Bytes} {rest : List Bytes} {spot : Spot}
    (h : t.walk follow links l (piece :: rest) = .ok spot) : t.isDirectoryAt l = true := by
  rw [walk] at h
  unfold isDirectoryAt
  split at h
  · cases h
  · simp [*]
  · cases h

/-- Idle pieces lead nowhere from a directory. -/
theorem walk_idle {follow : Bool} {idle : List Bytes} (hl : t.isDirectoryAt l = true)
    (hidle : ∀ x ∈ idle, Path.Idle x) (rest : List Bytes) :
    t.walk follow links l (idle ++ rest) = t.walk follow links l rest := by
  have hdir : t.entry? l = some .directory := eq_of_beq hl
  induction idle with
  | nil => rfl
  | cons x idle ih =>
    have hx : x = [] ∨ x = [Path.dot] := hidle x List.mem_cons_self
    rw [List.cons_append, walk, hdir]
    simp only [if_pos hx]
    exact ih fun y hy => hidle y (List.mem_cons_of_mem x hy)

/-- Where the last name of `p` is looked up: where the pieces before it lead. -/
def directoryOf (t : Tree) (p : Path) : Except Fault Spot :=
  t.walk true linkLimit (t.startOf p) (Path.pieces p.bytes).dropLast

/-- The tree, with relative paths looked up from `l`. -/
def startingAt (t : Tree) (l : Place) : Tree := { t with home := l }

theorem walk_startingAt (t : Tree) (home : Place) (follow : Bool) (links : Nat) (l : Place)
    (todo : List Bytes) :
    (t.startingAt home).walk follow links l todo = t.walk follow links l todo := by
  have hentry : ∀ l, Tree.entry? (t.startingAt home) l = t.entry? l := fun _ => rfl
  exact walk_congr hentry follow links l todo

section Directory

variable {p : Path} {front : List Bytes} {n : Bytes} {D place : Place}

theorem directoryOf_eq (hp : Path.pieces p.bytes = front ++ [n]) :
    t.directoryOf p = t.walk true linkLimit (t.startOf p) front := by
  unfold directoryOf
  rw [hp, List.dropLast_concat]

/-- **A path that leads to something leads through a directory**, from which its last piece is
followed. -/
theorem exists_directoryOf (hp : Path.pieces p.bytes = front ++ [n])
    (hr : t.resolve true p = .ok place) :
    ∃ D links, t.directoryOf p = .ok (.taken D) ∧ t.isDirectoryAt D = true ∧
      t.walk true links D [n] = .ok (.taken place) := by
  obtain ⟨-, hw⟩ := resolve_eq_ok_iff.mp hr
  rw [hp] at hw
  rcases leadsOn t linkLimit (t.startOf p) front with ⟨links, D, h⟩ | h
  · rw [h] at hw
    refine ⟨D, links, ?_, isDirectoryAt_of_walk hw, hw⟩
    rw [directoryOf_eq hp, ← List.append_nil front, h, walk_nil]
  · exact absurd hw (h _ _)

/-- The last piece of the path of a regular file is a name. -/
theorem not_idle_of_file {file : File}
    (hw : t.walk true links D [n] = .ok (.taken place))
    (he : t.entry? place = some (.file file)) : ¬ Path.Idle n := by
  intro hn
  have hdir := isDirectoryAt_of_walk hw
  have hidle : ∀ x ∈ [n], Path.Idle x := by simpa using hn
  have hnil : t.walk true links D ([n] ++ []) = t.walk true links D [] := walk_idle hdir hidle []
  rw [List.append_nil, hw, walk_nil] at hnil
  cases hnil
  rw [eq_of_beq hdir] at he
  cases he

end Directory

/-! ## Joined paths -/

/-- The path `p` leads where `q` leads from the directory `D`, unless one of them runs into a
limit. -/
def LeadsAs (t : Tree) (p : Path) (D : Place) (q : Path) : Prop :=
  ¬ Limited (t.locate true p) → ¬ Limited ((t.startingAt D).locate true q) →
    t.locate true p = (t.startingAt D).locate true q ∧ t.entryOf p = (t.startingAt D).entryOf q

section Join

variable {p base q : Path} {front : List Bytes} {D : Place}

theorem LeadsAs.of_locate
    (h : ¬ Limited (t.locate true p) → ¬ Limited ((t.startingAt D).locate true q) →
      t.locate true p = (t.startingAt D).locate true q) : LeadsAs t p D q := by
  intro hp hq
  have heq := h hp hq
  refine ⟨heq, ?_⟩
  unfold entryOf resolve
  rw [heq]
  rfl

theorem locate_of_nul (h : 0 ∈ p.bytes) : t.locate true p = .error .nulInPath := by
  unfold locate checkPath
  rw [if_pos h]
  rfl

/-- A path with bytes, none of them zero, is followed unless it is too long. -/
theorem locate_of_not_limited (hnul : 0 ∉ p.bytes) (h0 : p.bytes ≠ [])
    (h : ¬ Limited (t.locate true p)) :
    t.locate true p = t.walk true linkLimit (t.startOf p) (Path.pieces p.bytes) := by
  unfold locate checkPath at h ⊢
  rw [if_neg hnul, if_neg h0] at h ⊢
  split at h
  · exact absurd (Or.inr rfl) h
  · rename_i hlen
    rw [if_neg hlen]
    rfl

/-- Behind the directory part, a path is followed from the directory. -/
theorem walk_join (hbase : Path.StandsFor base p front)
    (hw : t.walk true linkLimit (t.startOf p) front = .ok (.taken D)) (hq : q.isAbsolute = false) :
    ∃ links, t.walk true linkLimit (t.startOf (base.join q)) (Path.pieces (base.join q).bytes) =
      t.walk true links D (Path.pieces q.bytes) := by
  obtain ⟨core, idle, rfl, hidle, hjoin⟩ := hbase.pieces_join
  have hstart : t.startOf (base.join q) = t.startOf p := by
    unfold startOf
    rw [Path.isAbsolute_join hbase.ne_nil hq, hbase.isAbsolute_eq]
  rw [hstart, hjoin q hq]
  rcases leadsOn t linkLimit (t.startOf p) core with ⟨links, l, h⟩ | h
  · -- the idle pieces behind the core lead nowhere else
    rw [h] at hw
    have hl : l = D := by
      cases idle with
      | nil =>
        rw [walk_nil] at hw
        cases hw
        rfl
      | cons x idle =>
        have hnil : t.walk true links l (x :: idle ++ []) = t.walk true links l [] :=
          walk_idle (isDirectoryAt_of_walk hw) hidle []
        rw [List.append_nil, hw, walk_nil] at hnil
        cases hnil
        rfl
    exact ⟨links, hl ▸ h _⟩
  · exact absurd hw (h _ _)

/-- **What is joined to the directory part of a path** leads where it leads from there. -/
theorem leadsAs_join (hbase : Path.StandsFor base p front) (hnul : 0 ∉ p.bytes)
    (hw : t.walk true linkLimit (t.startOf p) front = .ok (.taken D)) (hq : q.isAbsolute = false)
    (h0 : q.bytes ≠ []) : LeadsAs t (base.join q) D q := by
  refine LeadsAs.of_locate fun hlimit hlimit' => ?_
  have hbytes := Path.join_bytes hbase.ne_nil hq
  by_cases hz : 0 ∈ q.bytes
  · rw [locate_of_nul hz, locate_of_nul (by rw [hbytes]; exact List.mem_append_right _ hz)]
  · have hz' : 0 ∉ (base.join q).bytes := by
      rw [hbytes]
      intro hmem
      rcases List.mem_append.mp hmem with hmem | hmem
      · rcases List.mem_append.mp hmem with hmem | hmem
        · exact hnul (hbase.mem_of_mem 0 hmem (by decide))
        · split at hmem
          · cases hmem
          · cases List.mem_singleton.mp hmem
      · exact hz hmem
    have h0' : (base.join q).bytes ≠ [] := by
      rw [hbytes]
      exact List.append_ne_nil_of_right_ne_nil _ h0
    have hstart : (t.startingAt D).startOf q = D := by
      unfold startOf
      rw [hq, if_neg Bool.false_ne_true]
      rfl
    obtain ⟨links, hjoin⟩ := walk_join hbase hw hq
    have heq := locate_of_not_limited hz' h0' hlimit
    have heq' := locate_of_not_limited hz h0 hlimit'
    rw [hjoin] at heq
    rw [hstart, walk_startingAt] at heq'
    rw [heq] at hlimit ⊢
    rw [heq'] at hlimit' ⊢
    exact walk_eq_of_enough (fun h => hlimit (Or.inl h)) fun h => hlimit' (Or.inl h)

end Join

end SuiteRunner.Tree
