import Mathlib.Data.List.DropRight
import SuiteRunner.Proofs.Path.Bare

/-!
# The normal form of a path

Two paths with the same components may be written differently. What may differ is one thing or more
of three: how many slashes stand in a row, the dots between slashes, and the slashes at the end.

* `normalize`: the path without these;
* `normalize_bytes`: it is the first piece, and the pieces behind it that stand for something
  (`bearing`);
* `components_normalize`: nothing that the path means is lost by it. `normalize_eq_ofComponents`:
  and nothing else is left in it;
* **`normalize_eq_iff`**: so paths have the same components iff their normal forms are the same
  bytes.
-/

namespace SuiteRunner.Path

/-! ## Fewer bytes -/

/-- One slash for each run of slashes. -/
def collapse : Bytes → Bytes
  | [] => []
  | b :: bs => if b = slash ∧ bs.head? = some slash then collapse bs else b :: collapse bs

/-- A piece, unless it is a dot. -/
def undotted (x : Bytes) : Bytes := if x = [dot] then [] else x

/-- Every dot that is a piece is left out, but for one that a relative path starts with. The slashes
around it stay. -/
def dropDots (bs : Bytes) : Bytes :=
  match pieces bs with
  | [] => []
  | first :: rest => unite (first :: rest.map undotted)

/-- The slashes at the end are left out, but for the root. -/
def dropSlashes (bs : Bytes) : Bytes :=
  if bs.all (· == slash) then bs.take 1 else bs.rdropWhile (· == slash)

/-- **The normal form of a path.** Dots go first: they leave slashes in a row. -/
def normalize (p : Path) : Path := ⟨dropSlashes (collapse (dropDots p.bytes))⟩

variable {p q : Path} {n body : Bytes} {ps : List Bytes}

/-! ## Slashes in a row -/

theorem collapse_append (hn : slash ∉ n) (bs : Bytes) : collapse (n ++ bs) = n ++ collapse bs := by
  induction n with
  | nil => rfl
  | cons b n ih =>
    have hb : b ≠ slash := fun h => hn (h ▸ List.mem_cons_self)
    rw [List.cons_append, collapse, if_neg (fun h => hb h.1),
      ih (fun h => hn (List.mem_cons_of_mem b h)), List.cons_append]

theorem slashed_cons (x : Bytes) (ps : List Bytes) :
    slashed (x :: ps) = slash :: (x ++ slashed ps) := rfl

theorem slashed_concat (ps : List Bytes) (x : Bytes) :
    slashed (ps ++ [x]) = slashed ps ++ slash :: x := by
  simp [slashed]

/-- What is left of slashes in a row is one slash, in front of the next piece or at the end. -/
theorem collapse_slashed (hps : ∀ x ∈ ps, slash ∉ x) :
    collapse (slashed ps) =
      slashed (ps.filter (· ≠ [])) ++ if ps.getLast? = some [] then [slash] else [] := by
  induction ps with
  | nil => rfl
  | cons x ps ih =>
    have ih := ih fun y hy => hps y (List.mem_cons_of_mem x hy)
    rw [slashed_cons]
    by_cases hx : x = []
    · subst hx
      cases ps with
      | nil => rfl
      | cons y ps =>
        have hrow : collapse (slash :: ([] ++ slashed (y :: ps))) = collapse (slashed (y :: ps)) :=
          if_pos ⟨rfl, rfl⟩
        rw [hrow, ih, List.getLast?_cons_cons]
        rfl
    · have hslash : slash ∉ x := hps x List.mem_cons_self
      have hhead : (x ++ slashed ps).head? ≠ some slash := by
        obtain ⟨b, bs, rfl⟩ := List.exists_cons_of_ne_nil hx
        intro h
        exact hslash (Option.some.inj h ▸ List.mem_cons_self)
      have hlast : (x :: ps).getLast? = some [] ↔ ps.getLast? = some [] := by
        cases ps <;> simp [hx]
      rw [collapse, if_neg (fun h => hhead h.2), collapse_append hslash, ih,
        List.filter_cons_of_pos (by simpa using hx), slashed_cons]
      simp only [hlast, List.cons_append, List.append_assoc]

/-! ## Pieces that stand for something -/

instance : DecidablePred Idle := fun x => inferInstanceAs (Decidable (x = [] ∨ x = [dot]))

/-- The pieces that components come from. -/
def bearing (ps : List Bytes) : List Bytes := ps.filter (¬ Idle ·)

theorem mem_bearing {x : Bytes} : x ∈ bearing ps ↔ x ∈ ps ∧ ¬ Idle x := by
  simp [bearing]

theorem bearing_cons_of_idle {x : Bytes} (h : Idle x) (ps : List Bytes) :
    bearing (x :: ps) = bearing ps :=
  List.filter_cons_of_neg (by simpa using h)

theorem bearing_cons_of_not_idle {x : Bytes} (h : ¬ Idle x) (ps : List Bytes) :
    bearing (x :: ps) = x :: bearing ps :=
  List.filter_cons_of_pos (by simpa using h)

theorem bearing_eq_nil_iff : bearing ps = [] ↔ ∀ x ∈ ps, Idle x := by
  simp [bearing, List.filter_eq_nil_iff]

theorem filterMap_bearing (ps : List Bytes) :
    (bearing ps).filterMap Component.ofPiece = ps.filterMap Component.ofPiece := by
  induction ps with
  | nil => rfl
  | cons x ps ih =>
    by_cases hx : Idle x
    · have hnone := Option.isNone_iff_eq_none.mp (isNone_ofPiece_iff.mpr hx)
      rw [bearing_cons_of_idle hx, ih, List.filterMap_cons_none hnone]
    · rw [bearing_cons_of_not_idle hx, List.filterMap_cons, List.filterMap_cons, ih]

theorem undotted_eq_nil_iff {x : Bytes} : undotted x = [] ↔ Idle x := by
  unfold undotted Idle
  split <;> simp [*]

theorem undotted_of_not_idle {x : Bytes} (h : ¬ Idle x) : undotted x = x :=
  if_neg fun hx => h (Or.inr hx)

theorem filter_map_undotted (ps : List Bytes) :
    (ps.map undotted).filter (· ≠ []) = bearing ps := by
  induction ps with
  | nil => rfl
  | cons x ps ih =>
    rw [List.map_cons]
    by_cases hx : Idle x
    · rw [bearing_cons_of_idle hx, undotted_eq_nil_iff.mpr hx, ← ih]
      exact List.filter_cons_of_neg (by simp)
    · have hne : x ≠ [] := fun h0 => hx (Or.inl h0)
      rw [bearing_cons_of_not_idle hx, undotted_of_not_idle hx, ← ih]
      exact List.filter_cons_of_pos (by simpa using hne)

/-! ## Slashes at the end -/

theorem dropSlashes_concat {b : UInt8} (hb : b ≠ slash) {t : Bytes} (ht : t = [] ∨ t = [slash]) :
    dropSlashes (body ++ [b] ++ t) = body ++ [b] := by
  have hnot : ¬ (b == slash) = true := by simpa using hb
  have hall : ¬ (body ++ [b] ++ t).all (· == slash) = true := by
    rw [List.all_append, List.all_append]
    simp [hb]
  unfold dropSlashes
  rw [if_neg hall]
  rcases ht with rfl | rfl
  · rw [List.append_nil, List.rdropWhile_concat, if_neg hnot]
  · rw [List.rdropWhile_concat, if_pos (beq_self_eq_true slash), List.rdropWhile_concat,
      if_neg hnot]

/-- Pieces that are not empty end in a byte that is no slash. -/
theorem exists_last_byte (hn : slash ∉ n) (hps : ∀ x ∈ ps, slash ∉ x ∧ x ≠ [])
    (h : n ≠ [] ∨ ps ≠ []) : ∃ body b, b ≠ slash ∧ n ++ slashed ps = body ++ [b] := by
  have hpiece : ∀ x : Bytes, x ≠ [] → slash ∉ x → ∃ body b, b ≠ slash ∧ x = body ++ [b] := by
    intro x hx hs
    obtain ⟨body, b, rfl⟩ := (List.eq_nil_or_concat x).resolve_left hx
    rw [List.concat_eq_append] at hs ⊢
    exact ⟨body, b, fun hb => hs (by simp [hb]), rfl⟩
  rcases List.eq_nil_or_concat ps with rfl | ⟨front, x, rfl⟩
  · obtain ⟨body, b, hb, rfl⟩ := hpiece n (h.resolve_right (fun h => h rfl)) hn
    exact ⟨body, b, hb, List.append_nil _⟩
  · rw [List.concat_eq_append] at hps ⊢
    obtain ⟨hs, hx⟩ := hps x (by simp)
    obtain ⟨body, b, hb, rfl⟩ := hpiece x hx hs
    refine ⟨n ++ slashed front ++ slash :: body, b, hb, ?_⟩
    rw [slashed_concat]
    simp

/-! ## The normal form -/

section Normal

variable {first : Bytes} {rest : List Bytes}

/-- The first piece is empty if the path is, or starts at the root. -/
theorem rest_ne_nil (h0 : p.bytes ≠ []) (hp : pieces p.bytes = first :: rest)
    (hfirst : first = []) : rest ≠ [] := by
  rintro rfl
  have hunite : unite (pieces p.bytes) = p.bytes := List.intercalate_splitOn slash
  rw [hp, hfirst] at hunite
  exact h0 hunite.symm

theorem slash_not_mem_undotted {x : Bytes} (h : slash ∉ x) : slash ∉ undotted x := by
  by_cases hidle : Idle x
  · rw [undotted_eq_nil_iff.mpr hidle]
    exact List.not_mem_nil
  · rw [undotted_of_not_idle hidle]
    exact h

theorem slash_not_mem_of_mem_bearing (hp : pieces p.bytes = first :: rest) :
    ∀ x ∈ first :: bearing rest, slash ∉ x := by
  intro x hx
  have hmem : x ∈ pieces p.bytes := by
    rw [hp]
    rcases List.mem_cons.mp hx with rfl | hx
    · exact List.mem_cons_self
    · exact List.mem_cons_of_mem first (mem_bearing.mp hx).1
  exact slash_not_mem_of_mem_pieces hmem

/-- What is left of a path before the slashes at its end go. -/
theorem collapse_dropDots (hp : pieces p.bytes = first :: rest) :
    collapse (dropDots p.bytes) = first ++ slashed (bearing rest) ++
      if (rest.map undotted).getLast? = some [] then [slash] else [] := by
  have hslash : ∀ x ∈ first :: rest, slash ∉ x := fun x hx => slash_not_mem_of_mem_pieces (hp ▸ hx)
  have hrest : ∀ x ∈ rest.map undotted, slash ∉ x := by
    intro x hx
    obtain ⟨y, hy, rfl⟩ := List.mem_map.mp hx
    exact slash_not_mem_undotted (hslash y (List.mem_cons_of_mem first hy))
  have hdots : dropDots p.bytes = first ++ slashed (rest.map undotted) := by
    unfold dropDots
    rw [hp]
    exact unite_eq_append first _
  rw [hdots, collapse_append (hslash first List.mem_cons_self), collapse_slashed hrest,
    filter_map_undotted, List.append_assoc]

/-- **The normal form of a path** is its first piece and those behind it that stand for something.
Of the pieces of the root, a slash is left. -/
theorem normalize_bytes (h0 : p.bytes ≠ []) (hp : pieces p.bytes = first :: rest) :
    p.normalize.bytes =
      if first = [] ∧ bearing rest = [] then [slash] else unite (first :: bearing rest) := by
  show dropSlashes (collapse (dropDots p.bytes)) = _
  rw [collapse_dropDots hp]
  by_cases h : first = [] ∧ bearing rest = []
  · -- the root: every piece behind it stands for nothing, the last one too
    rw [if_pos h]
    obtain ⟨rfl, hidle⟩ := h
    obtain ⟨front, x, hfront⟩ := (List.eq_nil_or_concat rest).resolve_left (rest_ne_nil h0 hp rfl)
    rw [List.concat_eq_append] at hfront
    have hx : Idle x := bearing_eq_nil_iff.mp hidle x (by simp [hfront])
    rw [hidle, hfront, List.map_append, List.map_singleton, undotted_eq_nil_iff.mpr hx,
      List.getLast?_concat, if_pos rfl]
    rfl
  · rw [if_neg h]
    have hslash := slash_not_mem_of_mem_bearing hp
    have hvisible : ∀ x ∈ bearing rest, slash ∉ x ∧ x ≠ [] := by
      intro x hx
      exact ⟨hslash x (List.mem_cons_of_mem first hx),
        fun hx0 => (mem_bearing.mp hx).2 (Or.inl hx0)⟩
    obtain ⟨body, b, hb, hbody⟩ :=
      exists_last_byte (hslash first List.mem_cons_self) hvisible (not_and_or.mp h)
    rw [unite_eq_append, hbody]
    apply dropSlashes_concat hb
    split
    · exact Or.inr rfl
    · exact Or.inl rfl

/-! ## Components -/

/-- The component of the first piece of a path that is not empty. -/
def Component.ofFirst (first : Bytes) : Component :=
  if first = [] then .root
  else if first = [dot] then .here
  else if first = [dot, dot] then .up
  else .name first

theorem ofPiece_of_not_idle {x : Bytes} (h : ¬ Idle x) :
    Component.ofPiece x = some (Component.ofFirst x) := by
  obtain ⟨hne, hdot⟩ := not_or.mp h
  unfold Component.ofPiece Component.ofFirst
  rw [if_neg (not_or.mpr ⟨hne, hdot⟩), if_neg hne, if_neg hdot]
  split <;> rfl

theorem ofFirst_eq_root_iff : Component.ofFirst first = .root ↔ first = [] := by
  unfold Component.ofFirst
  repeat' split
  all_goals simp [*]

/-- **The components of a path** are those of its pieces, and the first piece always has one. -/
theorem components_eq_cons (h0 : p.bytes ≠ []) (hp : pieces p.bytes = first :: rest) :
    p.components = Component.ofFirst first :: rest.filterMap Component.ofPiece := by
  have habs : p.isAbsolute = true ↔ first = [] := by
    rw [isAbsolute_iff_pieces, hp, List.head?_cons, Option.some.injEq]
    exact and_iff_left h0
  unfold components
  by_cases hfirst : first = []
  · rw [if_pos (habs.mpr hfirst), hp, hfirst]
    rfl
  · rw [if_neg (fun h => hfirst (habs.mp h)), hp]
    by_cases hdot : first = [dot]
    · rw [hdot]
      rfl
    · simp only [if_neg hdot, ofPiece_of_not_idle (not_or.mpr ⟨hfirst, hdot⟩)]
      rfl

/-- **The normal form of a path** has its components. -/
theorem components_normalize (p : Path) : p.normalize.components = p.components := by
  by_cases h0 : p.bytes = []
  · obtain ⟨bs⟩ := p
    subst h0
    rfl
  obtain ⟨first, rest, hp⟩ := exists_pieces p.bytes
  have hn := normalize_bytes h0 hp
  rw [components_eq_cons h0 hp]
  by_cases h : first = [] ∧ bearing rest = []
  · rw [if_pos h] at hn
    have hroot : p.normalize = ⟨[slash]⟩ := congrArg Path.mk hn
    rw [hroot, h.1, ← filterMap_bearing, h.2]
    rfl
  · rw [if_neg h] at hn
    have hpieces : pieces p.normalize.bytes = first :: bearing rest := by
      rw [hn]
      exact pieces_unite (List.cons_ne_nil _ _) (slash_not_mem_of_mem_bearing hp)
    have hne : p.normalize.bytes ≠ [] := by
      intro hnil
      rw [hnil] at hpieces
      obtain ⟨hfirst, hrest⟩ := List.cons.inj hpieces
      exact h ⟨hfirst.symm, hrest.symm⟩
    rw [components_eq_cons hne hpieces, filterMap_bearing]

/-- The bytes of a component. The root has none: the slash behind it is the next piece's. -/
def Component.written : Component → Bytes
  | root => []
  | here => [dot]
  | up => [dot, dot]
  | name n => n

/-- The path with nothing but these components. -/
def ofComponents (cs : List Component) : Path :=
  if cs = [.root] then ⟨[slash]⟩ else ⟨unite (cs.map Component.written)⟩

theorem written_ofFirst (first : Bytes) : (Component.ofFirst first).written = first := by
  unfold Component.ofFirst
  repeat' split
  all_goals simp [Component.written, *]

theorem map_written_filterMap (ps : List Bytes) :
    (ps.filterMap Component.ofPiece).map Component.written = bearing ps := by
  induction ps with
  | nil => rfl
  | cons x ps ih =>
    by_cases hx : Idle x
    · have hnone := Option.isNone_iff_eq_none.mp (isNone_ofPiece_iff.mpr hx)
      rw [bearing_cons_of_idle hx, List.filterMap_cons_none hnone, ih]
    · rw [bearing_cons_of_not_idle hx, List.filterMap_cons_some (ofPiece_of_not_idle hx),
        List.map_cons, written_ofFirst, ih]

/-- **Nothing but its components** is left in the normal form of a path. -/
theorem normalize_eq_ofComponents (p : Path) : p.normalize = ofComponents p.components := by
  by_cases h0 : p.bytes = []
  · obtain ⟨bs⟩ := p
    subst h0
    rfl
  obtain ⟨first, rest, hp⟩ := exists_pieces p.bytes
  have hroot : p.components = [.root] ↔ first = [] ∧ bearing rest = [] := by
    rw [components_eq_cons h0 hp, List.cons.injEq, ofFirst_eq_root_iff,
      filterMap_ofPiece_eq_nil_iff, bearing_eq_nil_iff]
  have hbytes : p.normalize = ⟨p.normalize.bytes⟩ := rfl
  rw [hbytes, normalize_bytes h0 hp]
  unfold ofComponents
  by_cases h : first = [] ∧ bearing rest = []
  · rw [if_pos h, if_pos (hroot.mpr h)]
  · rw [if_neg h, if_neg (fun hc => h (hroot.mp hc)), components_eq_cons h0 hp, List.map_cons,
      written_ofFirst, map_written_filterMap]

/-- **Paths have the same components** iff their normal forms are the same bytes. -/
theorem normalize_eq_iff : p.normalize = q.normalize ↔ p.components = q.components := by
  constructor
  · intro h
    rw [← components_normalize p, h, components_normalize q]
  · intro h
    rw [normalize_eq_ofComponents, h, ← normalize_eq_ofComponents]

end Normal

end SuiteRunner.Path
