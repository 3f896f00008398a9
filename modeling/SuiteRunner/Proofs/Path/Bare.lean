import SuiteRunner.Proofs.Lookup.Relocation

/-!
# Paths with one component at most

Slashes at the end of a path and the dots between them are no components. So a path that has one
component at most need not be a name, but it looks like one with such a tail.

* `unite_eq_append`: a path is its first piece, and the others with a slash in front of each;
* **`components_le_one_iff`**: a relative path has one component at most iff it looks like a name
  (`NameLike`);
* `not_file_of_tail`: a path with a tail leads to no regular file, in whatever tree.
-/

namespace SuiteRunner

namespace Path

variable {p : Path} {n tail : Bytes}

/-- Nothing but slashes, with a dot behind some of them. What comes behind such a dot is the next
slash, or nothing. -/
def IsTail (tail : Bytes) : Prop :=
  ∃ ps : List Bytes, (∀ x ∈ ps, x = [slash] ∨ x = [slash, dot]) ∧ tail = ps.flatten

/-- A string without a slash and a tail behind it. Behind the empty string there is none. -/
def NameLike (bs : Bytes) : Prop :=
  ∃ n tail, slash ∉ n ∧ (n = [] → tail = []) ∧ IsTail tail ∧ bs = n ++ tail

/-! ## Tails -/

/-- A slash in front of each piece. -/
def slashed (ps : List Bytes) : Bytes := (ps.map (slash :: ·)).flatten

theorem unite_eq_append (n : Bytes) (ps : List Bytes) : unite (n :: ps) = n ++ slashed ps := by
  induction ps generalizing n with
  | nil => simp [unite, slashed]
  | cons x ps ih =>
    rw [unite_cons n (List.cons_ne_nil x ps), ih]
    rfl

/-- The pieces behind the slashes of a tail stand for nothing. -/
theorem isTail_iff : IsTail tail ↔ ∃ ps, (∀ x ∈ ps, Idle x) ∧ tail = slashed ps := by
  constructor
  · rintro ⟨ps, hps, rfl⟩
    refine ⟨ps.map List.tail, fun x hx => ?_, ?_⟩
    · obtain ⟨y, hy, rfl⟩ := List.mem_map.mp hx
      rcases hps y hy with rfl | rfl
      · exact Or.inl rfl
      · exact Or.inr rfl
    · have hmap : ps.map ((slash :: ·) ∘ List.tail) = ps.map id := by
        refine List.map_congr_left fun y hy => ?_
        rcases hps y hy with rfl | rfl <;> rfl
      rw [slashed, List.map_map, hmap, List.map_id]
  · rintro ⟨ps, hps, rfl⟩
    refine ⟨_, fun x hx => ?_, rfl⟩
    obtain ⟨y, hy, rfl⟩ := List.mem_map.mp hx
    rcases hps y hy with rfl | rfl
    · exact Or.inl rfl
    · exact Or.inr rfl

theorem slash_not_mem_of_idle {x : Bytes} (h : Idle x) : slash ∉ x := by
  rcases h with rfl | rfl <;> decide

/-- A relative path whose first piece is empty is empty. -/
theorem eq_nil_of_empty_piece {ps : List Bytes} (hrel : p.isAbsolute = false)
    (hps : pieces p.bytes = [] :: ps) : ps = [] := by
  by_cases h0 : p.bytes = []
  · rw [h0] at hps
    exact (List.tail_eq_of_cons_eq hps).symm
  · have habs := isAbsolute_iff_pieces.mpr ⟨by rw [hps]; rfl, h0⟩
    rw [hrel] at habs
    cases habs

/-- A path looks like a name if all its pieces but the first stand for nothing. -/
theorem nameLike_iff_pieces (hrel : p.isAbsolute = false) :
    NameLike p.bytes ↔ ∀ x ∈ (pieces p.bytes).tail, Idle x := by
  constructor
  · rintro ⟨n, tail, hn, -, htail, hp⟩
    obtain ⟨ps, hps, rfl⟩ := isTail_iff.mp htail
    have hno : ∀ x ∈ n :: ps, slash ∉ x := by
      intro x hx
      rcases List.mem_cons.mp hx with rfl | hx
      · exact hn
      · exact slash_not_mem_of_idle (hps x hx)
    rw [hp, ← unite_eq_append, pieces_unite (List.cons_ne_nil n ps) hno]
    exact hps
  · intro h
    obtain ⟨n, ps, hps⟩ := exists_pieces p.bytes
    have hunite : unite (pieces p.bytes) = p.bytes := List.intercalate_splitOn slash
    rw [hps] at h hunite
    have hn : slash ∉ n := slash_not_mem_of_mem_pieces (hps ▸ List.mem_cons_self)
    refine ⟨n, slashed ps, hn, fun h0 => ?_, isTail_iff.mpr ⟨ps, h, rfl⟩, ?_⟩
    · subst h0
      rw [eq_nil_of_empty_piece hrel hps]
      rfl
    · rw [← unite_eq_append, hunite]

/-! ## Components -/

theorem filterMap_ofPiece_eq_nil_iff {ps : List Bytes} :
    ps.filterMap Component.ofPiece = [] ↔ ∀ x ∈ ps, Idle x := by
  rw [List.filterMap_eq_nil_iff]
  refine forall₂_congr fun x _ => ?_
  rw [← Option.isNone_iff_eq_none, isNone_ofPiece_iff]

/-- **A relative path has one component at most** iff it looks like a name. -/
theorem components_le_one_iff (hrel : p.isAbsolute = false) :
    p.components.length ≤ 1 ↔ NameLike p.bytes := by
  rw [nameLike_iff_pieces hrel]
  obtain ⟨n, ps, hps⟩ := exists_pieces p.bytes
  rw [hps, List.tail_cons, ← filterMap_ofPiece_eq_nil_iff]
  unfold components
  rw [hrel, if_neg Bool.false_ne_true, hps]
  simp only [List.length_append]
  by_cases hn : n = []
  · subst hn
    rw [eq_nil_of_empty_piece hrel hps]
    decide
  · have hfirst : (if n = [dot] then [Component.here] else (Component.ofPiece n).toList).length =
        1 := by
      split
      · rfl
      · rename_i hdot
        cases hc : Component.ofPiece n with
        | none =>
          have hidle : Idle n := isNone_ofPiece_iff.mp (by rw [hc]; rfl)
          exact absurd hidle (not_or.mpr ⟨hn, hdot⟩)
        | some c => rfl
    rw [hfirst, ← List.length_eq_zero_iff]
    omega

/-- A tail that is not empty ends in a slash, or in a slash and a dot. -/
theorem IsTail.ends (h : IsTail tail) (h0 : tail ≠ []) :
    ∃ front, tail = front ++ [slash] ∨ tail = front ++ [slash, dot] := by
  obtain ⟨ps, hps, rfl⟩ := h
  rcases List.eq_nil_or_concat ps with rfl | ⟨ps, x, rfl⟩
  · exact absurd rfl h0
  · rw [List.concat_eq_append] at hps ⊢
    refine ⟨ps.flatten, ?_⟩
    rw [List.flatten_concat]
    rcases hps x (List.mem_append_right ps List.mem_cons_self) with rfl | rfl
    · exact Or.inl rfl
    · exact Or.inr rfl

end Path

namespace Tree

/-- **A path with a tail leads to no regular file**: a directory has to stand before it. -/
theorem not_file_of_tail {p : Path} {front : Bytes}
    (h : p.bytes = front ++ [Path.slash] ∨ p.bytes = front ++ [Path.slash, Path.dot]) (t : Tree) :
    t.kindOf p ≠ .ok .regular := by
  intro hkind
  obtain ⟨l, file, hr, he⟩ := kindOf_eq_regular_iff.mp hkind
  obtain ⟨n, hp, hn⟩ : ∃ n, Path.pieces p.bytes = Path.pieces front ++ [n] ∧ Path.Idle n := by
    rcases h with h | h
    · exact ⟨[], by rw [h]; exact Path.pieces_append_slash front [], Or.inl rfl⟩
    · exact ⟨[Path.dot], by rw [h]; exact Path.pieces_append_slash front [Path.dot], Or.inr rfl⟩
  obtain ⟨D, links, -, -, hw⟩ := exists_directoryOf hp hr
  exact not_idle_of_file hw he hn

end Tree

end SuiteRunner
