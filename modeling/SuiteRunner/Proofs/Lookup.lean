import SuiteRunner.Proofs.Suite

/-!
# Looking up what a directory holds

A path is followed piece by piece, so where it leads with a name behind it depends only on where it
led before. The order in which a tree lists its entries has no part in it.

* `mem_namesIn`: a directory lists the names of the entries right below it;
* `resolve_of_perm`, `list_of_perm`: in another order a path leads to the same place, and a
  directory has the same names;
* **`resolve_join_name`**: the path of a directory and the name of an entry lead to that entry,
  unless it is a link.
-/

namespace SuiteRunner

/-! ## Steps that may fail -/

section Bind

variable {ε α β : Type} {x : Except ε α} {f : α → Except ε β}

theorem bind_eq_ok_iff {b : β} : (x >>= f) = .ok b ↔ ∃ a, x = .ok a ∧ f a = .ok b := by
  cases x with
  | error e => exact ⟨nofun, fun ⟨a, h, _⟩ => nomatch h⟩
  | ok a =>
    refine ⟨fun h => ⟨a, rfl, h⟩, ?_⟩
    rintro ⟨a', h, hf⟩
    cases h
    exact hf

theorem bind_eq_error_iff {e : ε} :
    (x >>= f) = .error e ↔ x = .error e ∨ ∃ a, x = .ok a ∧ f a = .error e := by
  cases x with
  | error e' =>
    constructor
    · rintro ⟨⟩
      exact Or.inl rfl
    · rintro (⟨⟨⟩⟩ | ⟨a, h, -⟩)
      · rfl
      · cases h
  | ok a =>
    refine ⟨fun h => Or.inr ⟨a, rfl, h⟩, ?_⟩
    rintro (h | ⟨a', h, hf⟩)
    · cases h
    · cases h
      exact hf

end Bind

/-! ## Paths of names -/

namespace Path

theorem join_name_bytes {dir : Path} (h0 : dir.bytes ≠ []) {n : Name} (hn : isName n = true) :
    (dir.join ⟨n⟩).bytes =
      dir.bytes ++ (if dir.bytes.getLast? = some slash then [] else [slash]) ++ n :=
  join_bytes h0 (isAbsolute_name hn)

theorem isAbsolute_join_name {dir : Path} (h0 : dir.bytes ≠ []) {n : Name}
    (hn : isName n = true) : (dir.join ⟨n⟩).isAbsolute = dir.isAbsolute :=
  isAbsolute_join h0 (isAbsolute_name hn)

end Path

namespace Tree

variable {t t' : Tree} {l : Place} {n : Name}

/-! ## What is right below a directory -/

theorem entry?_concat (t : Tree) (l : Place) (n : Name) :
    t.entry? (l ++ [n]) = t.entries.lookup (l ++ [n]) := by
  unfold entry?
  rw [if_neg (List.append_ne_nil_of_right_ne_nil l (List.cons_ne_nil n []))]

theorem nameBelow?_concat (l : Place) (n : Name) : nameBelow? l (l ++ [n]) = some n := by
  unfold nameBelow?
  rw [List.getLast?_concat]
  simp only [List.dropLast_concat, if_true]

/-- **A directory lists what is right below it.** -/
theorem mem_namesIn : n ∈ t.namesIn l ↔ ∃ e, t.entry? (l ++ [n]) = some e := by
  rw [← Option.isSome_iff_exists, entry?_concat, List.lookup_isSome_iff]
  unfold namesIn
  rw [List.mem_filterMap]
  refine exists_congr fun e => and_congr_right fun _ => ?_
  rw [beq_iff_eq]
  exact ⟨fun h => (nameBelow?_eq_some h).symm, fun h => h ▸ nameBelow?_concat l n⟩

/-! ## Trees in another order -/

/-- In a table with one value for each key, looking a key up is finding it. -/
theorem lookup_eq_some_iff_mem {α β : Type} [BEq α] [LawfulBEq α] {es : List (α × β)}
    (h : (es.map (·.1)).Nodup) {a : α} {b : β} : es.lookup a = some b ↔ (a, b) ∈ es := by
  induction es with
  | nil => simp
  | cons e es ih =>
    obtain ⟨x, y⟩ := e
    obtain ⟨hx, hes⟩ := List.nodup_cons.mp h
    rw [List.lookup_cons, List.mem_cons]
    split
    · rename_i hax
      obtain rfl := eq_of_beq hax
      have hno : (a, b) ∉ es := fun hmem => hx (List.mem_map.mpr ⟨_, hmem, rfl⟩)
      simp [hno, eq_comm]
    · rename_i hax
      have hne : a ≠ x := fun heq => by simp [heq] at hax
      simp [hne, ih hes]

theorem entry?_of_perm (h : t'.entries.Perm t.entries) (l : Place) : t'.entry? l = t.entry? l := by
  unfold entry?
  split
  · rfl
  · refine Option.ext fun e => ?_
    rw [lookup_eq_some_iff_mem t'.nodup, lookup_eq_some_iff_mem t.nodup, h.mem_iff]

/-- A path leads where the entries say. -/
theorem walk_congr (h : ∀ l, t'.entry? l = t.entry? l) (follow : Bool) (links : Nat) (l : Place)
    (todo : List Bytes) : t'.walk follow links l todo = t.walk follow links l todo := by
  fun_induction t.walk follow links l todo with
  | case11 l piece rest hl hdot hup hlen target ht hlast links htarget ih =>
    rw [walk]
    simpa [*] using ih
  | case1 => rw [walk]
  | _ =>
    rw [walk]
    simp [*]

/-! ## Paths with a name behind them -/

/-- The pieces `as` lead from `l` to one place, from which all that comes behind them is followed,
or there is no entry behind them at all. -/
def LeadsOn (t : Tree) (links : Nat) (l : Place) (as : List Bytes) : Prop :=
  (∃ links' l', ∀ bs, t.walk true links l (as ++ bs) = t.walk true links' l' bs) ∨
    ∀ bs l', t.walk true links l (as ++ bs) ≠ .ok (.taken l')

theorem LeadsOn.of_eq {links links' : Nat} {l' : Place} {as as' : List Bytes}
    (h : LeadsOn t links' l' as')
    (heq : ∀ bs, t.walk true links l (as ++ bs) = t.walk true links' l' (as' ++ bs)) :
    LeadsOn t links l as := by
  unfold LeadsOn at h ⊢
  simp only [heq]
  exact h

/-- **Where pieces lead does not depend on what comes behind them.** -/
theorem leadsOn (t : Tree) (links : Nat) (l : Place) (as : List Bytes) : LeadsOn t links l as := by
  fun_induction t.walk true links l as with
  | case1 links l => exact Or.inl ⟨links, l, fun bs => rfl⟩
  | case3 links l piece rest hl hdot ih | case4 links l rest hl hdot ih
  | case12 links l piece rest hl hdot hup hlen e he hlink ih =>
    refine ih.of_eq fun bs => ?_
    rw [List.cons_append, walk]
    simp [*]
  | case11 l piece rest hl hdot hup hlen target ht hlast links htarget ih =>
    refine ih.of_eq fun bs => ?_
    rw [List.cons_append, walk]
    simp [*]
  | case6 links l piece hl hdot hup hlen he =>
    refine Or.inr fun bs l' => ?_
    rw [List.cons_append, walk]
    simp only [*, if_false]
    split <;> nofun
  | case8 links l piece rest hl hdot hup hlen target ht hlast => cases hlast.2
  | _ =>
    refine Or.inr fun bs l' => ?_
    rw [List.cons_append, walk]
    simp [*]

theorem resolve_eq_ok_iff {follow : Bool} {p : Path} :
    t.resolve follow p = .ok l ↔ checkPath p = .ok () ∧
      t.walk follow linkLimit (t.startOf p) (Path.pieces p.bytes) = .ok (.taken l) := by
  unfold resolve locate
  rw [bind_eq_ok_iff]
  constructor
  · rintro ⟨spot, hspot, h⟩
    obtain ⟨⟨⟩, hc, hw⟩ := bind_eq_ok_iff.mp hspot
    cases spot with
    | taken l' =>
      cases h
      exact ⟨hc, hw⟩
    | free l' => cases h
  · rintro ⟨hc, hw⟩
    exact ⟨.taken l, bind_eq_ok_iff.mpr ⟨(), hc, hw⟩, rfl⟩

theorem bytes_ne_nil_of_resolve {follow : Bool} {p : Path} (h : t.resolve follow p = .ok l) :
    p.bytes ≠ [] := by
  intro h0
  have hc := (resolve_eq_ok_iff.mp h).1
  unfold checkPath at hc
  simp [h0] at hc

theorem walk_nil (t : Tree) (follow : Bool) (links : Nat) (l : Place) :
    t.walk follow links l [] = .ok (.taken l) := by
  rw [walk]

/-- An empty piece leads nowhere else. -/
theorem eq_of_walk_empty {follow : Bool} {links : Nat} {l' : Place}
    (h : t.walk follow links l' [[]] = .ok (.taken l)) : l' = l := by
  rw [walk] at h
  split at h
  · cases h
  · rw [if_pos (Or.inl rfl), walk_nil] at h
    cases h
    rfl
  · cases h

/-- What comes behind the path of a directory is followed from the directory. -/
theorem walk_join_name {dir : Path} (hr : t.resolve true dir = .ok l) (hn : isName n = true) :
    ∃ links, t.walk true linkLimit (t.startOf (dir.join ⟨n⟩)) (Path.pieces (dir.join ⟨n⟩).bytes) =
      t.walk true links l [n] := by
  have h0 := bytes_ne_nil_of_resolve hr
  obtain ⟨-, hw⟩ := resolve_eq_ok_iff.mp hr
  have hstart : t.startOf (dir.join ⟨n⟩) = t.startOf dir := by
    unfold startOf
    rw [Path.isAbsolute_join_name h0 hn]
  have hpieces : Path.pieces n = [n] := List.splitOn_eq_singleton (isName_iff.mp hn).2.1
  rw [hstart]
  by_cases hslash : dir.bytes.getLast? = some Path.slash
  · -- the path of the directory ends in an empty piece, and the name takes its place
    obtain ⟨a, ha⟩ := List.getLast?_eq_some_iff.mp hslash
    have hjoin : (dir.join ⟨n⟩).bytes = a ++ Path.slash :: n := by
      rw [Path.join_name_bytes h0 hn, if_pos hslash, ha, List.append_nil, List.append_assoc]
      rfl
    rw [ha, Path.pieces_append_slash] at hw
    rw [hjoin, Path.pieces_append_slash, hpieces]
    rcases leadsOn t linkLimit (t.startOf dir) (Path.pieces a) with ⟨links, l', h⟩ | h
    · rw [h] at hw
      obtain rfl : l' = l := eq_of_walk_empty hw
      exact ⟨links, h [n]⟩
    · exact absurd hw (h _ _)
  · have hjoin : (dir.join ⟨n⟩).bytes = dir.bytes ++ Path.slash :: n := by
      rw [Path.join_name_bytes h0 hn, if_neg hslash, List.append_assoc]
      rfl
    rw [hjoin, Path.pieces_append_slash, hpieces]
    rw [← List.append_nil (Path.pieces dir.bytes)] at hw
    rcases leadsOn t linkLimit (t.startOf dir) (Path.pieces dir.bytes) with ⟨links, l', h⟩ | h
    · rw [h, walk_nil] at hw
      cases hw
      exact ⟨links, h [n]⟩
    · exact absurd hw (h _ _)

/-- A name that is not too long leads to its entry, unless that is a link. -/
theorem walk_name (links : Nat) (hl : t.isDirectoryAt l = true) (hn : isName n = true) {e : Entry}
    (he : t.entry? (l ++ [n]) = some e) (hlink : ∀ target, e ≠ .link target) :
    t.walk true links l [n] =
      if n.length > nameLimit then .error .nameTooLong else .ok (.taken (l ++ [n])) := by
  obtain ⟨hne, -, hdot, hup⟩ := isName_iff.mp hn
  have hdir : t.entry? l = some .directory := by simpa [isDirectoryAt] using hl
  rw [walk]
  simp only [hdir, he]
  rw [if_neg (not_or.mpr ⟨hne, hdot⟩), if_neg hup]
  cases e with
  | link target => exact absurd rfl (hlink target)
  | file | directory | null => simp only [walk_nil]

/-- **The path of a directory and the name of an entry lead to that entry**, unless it is a link, or
the name or the path is too long. -/
theorem resolve_join_name {dir : Path} (hr : t.resolve true dir = .ok l)
    (hl : t.isDirectoryAt l = true) (hn : isName n = true) (hshort : n.length ≤ nameLimit)
    (hpath : checkPath (dir.join ⟨n⟩) = .ok ()) {e : Entry} (he : t.entry? (l ++ [n]) = some e)
    (hlink : ∀ target, e ≠ .link target) : t.resolve true (dir.join ⟨n⟩) = .ok (l ++ [n]) := by
  obtain ⟨links, hw⟩ := walk_join_name hr hn
  refine resolve_eq_ok_iff.mpr ⟨hpath, ?_⟩
  rw [hw, walk_name links hl hn he hlink, if_neg (Nat.not_lt.mpr hshort)]

/-- They lead to nothing else. -/
theorem eq_of_resolve_join_name {dir : Path} (hr : t.resolve true dir = .ok l)
    (hl : t.isDirectoryAt l = true) (hn : isName n = true) {e : Entry}
    (he : t.entry? (l ++ [n]) = some e) (hlink : ∀ target, e ≠ .link target) {place : Place}
    (hplace : t.resolve true (dir.join ⟨n⟩) = .ok place) : place = l ++ [n] := by
  obtain ⟨links, hw⟩ := walk_join_name hr hn
  obtain ⟨-, h⟩ := resolve_eq_ok_iff.mp hplace
  rw [hw, walk_name links hl hn he hlink] at h
  split at h
  · cases h
  · cases h
    rfl

/-! ## What is found -/

/-- A path is that of a regular file if it leads to one. -/
theorem kindOf_eq_regular_iff {p : Path} :
    t.kindOf p = .ok .regular ↔
      ∃ l file, t.resolve true p = .ok l ∧ t.entry? l = some (.file file) := by
  unfold kindOf entryOf
  rw [bind_eq_ok_iff]
  constructor
  · rintro ⟨e, he, hkind⟩
    obtain ⟨l, hr, he⟩ := bind_eq_ok_iff.mp he
    split at he
    · cases he
      cases e with
      | file file => exact ⟨l, file, hr, ‹_›⟩
      | directory | link | null => cases hkind
    · cases he
  · rintro ⟨l, file, hr, he⟩
    exact ⟨.file file, bind_eq_ok_iff.mpr ⟨l, hr, by rw [he]⟩, rfl⟩

theorem resolve_of_perm (hh : t'.home = t.home) (h : t'.entries.Perm t.entries) (follow : Bool)
    (p : Path) : t'.resolve follow p = t.resolve follow p := by
  unfold resolve locate startOf
  rw [hh]
  simp only [walk_congr (entry?_of_perm h)]

/-- **In another order paths are those of the same kinds.** -/
theorem kindOf_of_perm (hh : t'.home = t.home) (h : t'.entries.Perm t.entries) (p : Path) :
    t'.kindOf p = t.kindOf p := by
  unfold kindOf entryOf
  simp only [resolve_of_perm hh h, entry?_of_perm h]

/-- **In another order a directory has the same names.** -/
theorem list_of_perm (hh : t'.home = t.home) (h : t'.entries.Perm t.entries) (p : Path) :
    (∃ cause, t'.list p = .error cause ∧ t.list p = .error cause) ∨
      ∃ names names', t'.list p = .ok names' ∧ t.list p = .ok names ∧ names'.Perm names := by
  unfold list isDirectoryAt
  rw [resolve_of_perm hh h]
  cases t.resolve true p with
  | error cause => exact Or.inl ⟨cause, rfl, rfl⟩
  | ok l =>
    simp only [bind, Except.bind, entry?_of_perm h]
    split
    · exact Or.inr ⟨_, _, rfl, rfl, h.filterMap _⟩
    · exact Or.inl ⟨_, rfl, rfl⟩

end Tree

end SuiteRunner
