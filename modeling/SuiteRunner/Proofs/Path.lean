import SuiteRunner.Tree

/-!
# Components of joined paths

A path is compared by its components, and what is found in a directory gets its path by joining.
**`components_join_name`**: looking a name up in a directory adds the name as the last component,
however the path of the directory is written. So different names give different components
(`components_join_name_inj`). The bytes of a joined path are those of its two parts, with one slash
between them (`join_bytes`).
-/

namespace SuiteRunner

theorem isName_iff {n : Bytes} :
    isName n = true ↔ n ≠ [] ∧ Path.slash ∉ n ∧ n ≠ [Path.dot] ∧ n ≠ [Path.dot, Path.dot] := by
  unfold isName
  simp only [Bool.and_eq_true, bne_iff_ne, ne_eq, Bool.not_eq_true', List.contains_eq_mem,
    decide_eq_false_iff_not, and_assoc]

namespace Path

theorem exists_pieces (bs : Bytes) : ∃ first rest, pieces bs = first :: rest :=
  List.exists_cons_of_ne_nil (List.splitOn_ne_nil slash bs)

theorem pieces_append_slash (a b : Bytes) : pieces (a ++ slash :: b) = pieces a ++ pieces b :=
  List.splitOn_append_cons_self a b

theorem pieces_slash_cons (b : Bytes) : pieces (slash :: b) = [] :: pieces b :=
  pieces_append_slash [] b

theorem ofPiece_name {n : Bytes} (hn : isName n = true) :
    Component.ofPiece n = some (.name n) := by
  obtain ⟨h0, -, h1, h2⟩ := isName_iff.mp hn
  unfold Component.ofPiece
  rw [if_neg (not_or.mpr ⟨h0, h1⟩), if_neg h2]

theorem filterMap_pieces_name {n : Bytes} (hn : isName n = true) :
    (pieces n).filterMap Component.ofPiece = [.name n] := by
  have hp : pieces n = [n] := List.splitOn_eq_singleton (isName_iff.mp hn).2.1
  rw [hp, List.filterMap_cons, ofPiece_name hn, List.filterMap_nil]

theorem isAbsolute_name {n : Bytes} (hn : isName n = true) : (⟨n⟩ : Path).isAbsolute = false := by
  obtain ⟨h0, hs, -⟩ := isName_iff.mp hn
  cases n with
  | nil => exact absurd rfl h0
  | cons b bs =>
    have hb : b ≠ slash := fun h => hs (h ▸ List.mem_cons_self)
    simpa [isAbsolute] using hb

theorem components_name {n : Bytes} (hn : isName n = true) :
    (⟨n⟩ : Path).components = [.name n] := by
  obtain ⟨-, hs, h1, -⟩ := isName_iff.mp hn
  have hp : pieces n = [n] := List.splitOn_eq_singleton hs
  unfold components
  rw [isAbsolute_name hn, if_neg Bool.false_ne_true, hp]
  simp only [if_neg h1, ofPiece_name hn, Option.toList_some, List.filterMap_nil, List.append_nil]

theorem components_slash (b : Bytes) :
    (⟨slash :: b⟩ : Path).components = .root :: (pieces b).filterMap Component.ofPiece := by
  have habs : (⟨slash :: b⟩ : Path).isAbsolute = true := rfl
  unfold components
  rw [habs, if_pos rfl, pieces_slash_cons]
  rfl

/-- What stands after a slash adds its components, unless the slash is the root. -/
theorem components_append_slash {a : Bytes} (ha : a ≠ []) (b : Bytes) :
    (⟨a ++ slash :: b⟩ : Path).components =
      (⟨a⟩ : Path).components ++ (pieces b).filterMap Component.ofPiece := by
  obtain ⟨c, cs, rfl⟩ := List.exists_cons_of_ne_nil ha
  have habs : (⟨c :: cs ++ slash :: b⟩ : Path).isAbsolute = (⟨c :: cs⟩ : Path).isAbsolute := rfl
  unfold components
  rw [habs, pieces_append_slash]
  split
  · rw [List.filterMap_append, List.cons_append]
  · obtain ⟨first, rest, hp⟩ := exists_pieces (c :: cs)
    rw [hp, List.cons_append]
    simp only [List.filterMap_append, List.append_assoc]

/-- A name behind the slash that a path ends in is one more component. -/
theorem components_append_name {a n : Bytes} (hn : isName n = true) :
    (⟨a ++ [slash] ++ n⟩ : Path).components =
      (⟨a ++ [slash]⟩ : Path).components ++ [.name n] := by
  rw [List.append_assoc, List.singleton_append]
  cases a with
  | nil =>
    rw [List.nil_append, List.nil_append, components_slash, components_slash,
      filterMap_pieces_name hn]
    rfl
  | cons c cs =>
    rw [components_append_slash (List.cons_ne_nil c cs), filterMap_pieces_name hn,
      components_append_slash (List.cons_ne_nil c cs)]
    exact congrArg (· ++ _) (List.append_nil _).symm

/-- **A name looked up in a directory is one more component.** -/
theorem components_join_name (dir : Path) {n : Name} (hn : isName n = true) :
    (dir.join ⟨n⟩).components = dir.components ++ [.name n] := by
  obtain ⟨d⟩ := dir
  unfold join
  rw [isAbsolute_name hn, if_neg Bool.false_ne_true]
  split
  · rename_i h
    rcases h with h | h
    · have hd : d = [] := h
      subst hd
      exact components_name hn
    · obtain ⟨a, rfl⟩ := List.getLast?_eq_some_iff.mp h
      exact components_append_name hn
  · rename_i h
    rw [components_append_slash (fun h0 => h (Or.inl h0)), filterMap_pieces_name hn]

theorem components_join_name_inj {dir : Path} {n m : Name} (hn : isName n = true)
    (hm : isName m = true)
    (h : (dir.join ⟨n⟩).components = (dir.join ⟨m⟩).components) : n = m := by
  rw [components_join_name dir hn, components_join_name dir hm] at h
  cases List.append_cancel_left h
  rfl

/-! ## Joining -/

section Join

variable {p q : Path}

theorem join_bytes (h0 : p.bytes ≠ []) (hq : q.isAbsolute = false) :
    (p.join q).bytes =
      p.bytes ++ (if p.bytes.getLast? = some slash then [] else [slash]) ++ q.bytes := by
  unfold join
  rw [hq, if_neg Bool.false_ne_true]
  by_cases hs : p.bytes.getLast? = some slash
  · rw [if_pos (Or.inr hs), if_pos hs, List.append_nil]
  · rw [if_neg (not_or.mpr ⟨h0, hs⟩), if_neg hs, List.append_assoc]
    rfl

theorem isAbsolute_join (h0 : p.bytes ≠ []) (hq : q.isAbsolute = false) :
    (p.join q).isAbsolute = p.isAbsolute := by
  unfold isAbsolute
  rw [join_bytes h0 hq, List.append_assoc]
  cases hd : p.bytes with
  | nil => exact absurd hd h0
  | cons b bs => rfl

end Join

end Path

end SuiteRunner
