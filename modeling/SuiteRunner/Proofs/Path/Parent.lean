import SuiteRunner.Proofs.Path

/-!
# The directory part of a path

The parent of a path is what stands before its last piece, without the pieces at the end of it that
stand for nothing (`Idle`).

* `mem_pieces_iff`: the pieces of a path have its bytes but for the slashes;
* `trim_split`: trimming takes idle pieces off, and the piece before them stays;
* **`parent_of_last`**: the parent has the pieces before the last one, but for idle ones at the end.
-/

namespace SuiteRunner.Path

variable {p q : Path} {n : Bytes} {ps front : List Bytes}

/-! ## Pieces -/

theorem pieces_cons (b : UInt8) (bs : Bytes) :
    pieces (b :: bs) =
      if b = slash then [] :: pieces bs else (pieces bs).modifyHead (b :: ·) := by
  unfold pieces
  rw [List.splitOn_cons_eq_if_modifyHead]
  simp only [beq_iff_eq]

theorem mem_pieces_iff {bs : Bytes} {b : UInt8} :
    (∃ x ∈ pieces bs, b ∈ x) ↔ b ∈ bs ∧ b ≠ slash := by
  induction bs with
  | nil => simp [pieces]
  | cons c bs ih =>
    rw [pieces_cons]
    split
    · rename_i hc
      subst hc
      simp only [List.mem_cons, exists_eq_or_imp, List.not_mem_nil, false_or, ih]
      exact ⟨fun h => ⟨Or.inr h.1, h.2⟩, fun h => ⟨h.1.resolve_left h.2, h.2⟩⟩
    · rename_i hc
      obtain ⟨first, rest, hp⟩ := exists_pieces bs
      rw [hp] at ih ⊢
      simp only [List.modifyHead_cons, List.mem_cons, exists_eq_or_imp] at ih ⊢
      rw [or_assoc, ih]
      constructor
      · rintro (rfl | h)
        · exact ⟨Or.inl rfl, hc⟩
        · exact ⟨Or.inr h.1, h.2⟩
      · rintro ⟨rfl | h, hb⟩
        · exact Or.inl rfl
        · exact Or.inr ⟨h, hb⟩

theorem slash_not_mem_of_mem_pieces {bs x : Bytes} (h : x ∈ pieces bs) : slash ∉ x :=
  fun hs => (mem_pieces_iff.mp ⟨x, h, hs⟩).2 rfl

theorem pieces_unite (h0 : ps ≠ []) (h : ∀ x ∈ ps, slash ∉ x) : pieces (unite ps) = ps :=
  List.splitOn_intercalate slash h h0

/-- A path starts at the root if its first piece is empty, and it is not. -/
theorem isAbsolute_iff_pieces :
    p.isAbsolute = true ↔ (pieces p.bytes).head? = some [] ∧ p.bytes ≠ [] := by
  obtain ⟨bs⟩ := p
  cases bs with
  | nil => simp [isAbsolute]
  | cons b bs =>
    simp only [isAbsolute, pieces_cons]
    split
    · simp [*]
    · obtain ⟨first, rest, hp⟩ := exists_pieces bs
      simp [*]

/-! ## Pieces that stand for nothing -/

/-- An empty piece or a dot: no component comes from it, but as the first piece of a path. -/
def Idle (x : Bytes) : Prop := x = [] ∨ x = [dot]

theorem isNone_ofPiece_iff {x : Bytes} : (Component.ofPiece x).isNone = true ↔ Idle x := by
  unfold Component.ofPiece Idle
  split
  · simp [*]
  · split <;> simp [*]

theorem not_idle_iff {x : Bytes} : (Component.ofPiece x).isNone = false ↔ ¬ Idle x := by
  rw [← isNone_ofPiece_iff, Bool.not_eq_true]

/-- Trimming takes idle pieces off, and stops at one that is not. -/
theorem trim_split (ps : List Bytes) :
    ∃ idle, ps = trim ps ++ idle ∧ (∀ x ∈ idle, Idle x) ∧ ∀ x ∈ (trim ps).getLast?, ¬ Idle x := by
  refine ⟨(ps.reverse.takeWhile fun q => (Component.ofPiece q).isNone).reverse, ?_, ?_, ?_⟩
  · unfold trim
    rw [← List.reverse_append, List.takeWhile_append_dropWhile, List.reverse_reverse]
  · intro x hx
    exact isNone_ofPiece_iff.mp (List.all_eq_true.mp List.all_takeWhile x (List.mem_reverse.mp hx))
  · intro x hx
    unfold trim at hx
    rw [List.getLast?_reverse] at hx
    have hstop := List.head?_dropWhile_not (fun q => (Component.ofPiece q).isNone) ps.reverse
    rw [hx] at hstop
    exact not_idle_iff.mp (by simpa using hstop)

theorem trim_concat (hn : ¬ Idle n) (front : List Bytes) : trim (front ++ [n]) = front ++ [n] := by
  unfold trim
  rw [List.reverse_concat, List.dropWhile_cons, not_idle_iff.mpr hn, if_neg Bool.false_ne_true,
    ← List.reverse_concat, List.reverse_reverse]

/-! ## Parents -/

theorem split_slash (bs : Bytes) : (⟨slash :: bs⟩ : Path).split = ([slash], pieces bs) := by
  simp [split]

theorem split_relative (h0 : p.bytes ≠ []) (habs : p.isAbsolute = false) {first : Bytes}
    {rest : List Bytes} (hp : pieces p.bytes = first :: rest) :
    p.split = if first = [dot] then ([dot], [] :: rest) else ([], first :: rest) := by
  obtain ⟨bs⟩ := p
  cases bs with
  | nil => exact absurd rfl h0
  | cons b bs =>
    have hb : b ≠ slash := by simpa [isAbsolute] using habs
    simp only [split, if_neg hb]
    rw [hp]

theorem parent_of_split {start : Bytes} (h : p.split = (start, front ++ [n])) (hn : ¬ Idle n) :
    p.parent = some ⟨start ++ unite (trim front)⟩ := by
  unfold parent
  rw [h]
  simp only [trim_concat hn]
  cases front with
  | nil => rfl
  | cons x front =>
    simp only [List.cons_append]
    rw [← List.cons_append, List.dropLast_concat]

/-! ## Joining -/

/-- A path that does not end in a slash is followed by the pieces of what is joined to it. -/
theorem pieces_join (h0 : p.bytes ≠ []) (hlast : (pieces p.bytes).getLast? ≠ some [])
    (hq : q.isAbsolute = false) : pieces (p.join q).bytes = pieces p.bytes ++ pieces q.bytes := by
  have hslash : p.bytes.getLast? ≠ some slash := by
    intro hs
    obtain ⟨a, ha⟩ := List.getLast?_eq_some_iff.mp hs
    apply hlast
    rw [ha, pieces_append_slash]
    exact List.getLast?_concat
  rw [join_bytes h0 hq, if_neg hslash, List.append_assoc, List.singleton_append,
    pieces_append_slash]

/-! ## The directory part -/

/-- `base` stands for the pieces `front` of `p`. -/
structure StandsFor (base p : Path) (front : List Bytes) : Prop where
  ne_nil : base.bytes ≠ []
  isAbsolute_eq : base.isAbsolute = p.isAbsolute
  mem_of_mem : ∀ b ∈ base.bytes, b ≠ slash → b ∈ p.bytes
  /-- What is joined to it comes behind those pieces, but for idle ones. -/
  pieces_join : ∃ core idle, front = core ++ idle ∧ (∀ x ∈ idle, Idle x) ∧
    ∀ q : Path, q.isAbsolute = false → pieces (base.join q).bytes = core ++ pieces q.bytes

/-- A base that is written in some of the pieces of a path, with idle ones after them. -/
theorem StandsFor.of_pieces {base : Path} {core idle : List Bytes}
    (hp : pieces p.bytes = core ++ idle ++ [n]) (hbase : base.bytes = unite core)
    (hcore : core ≠ []) (hlast : core.getLast? ≠ some []) (hidle : ∀ x ∈ idle, Idle x) :
    StandsFor base p (core ++ idle) := by
  have hmem : ∀ x ∈ core, x ∈ pieces p.bytes := fun x hx => by
    rw [hp]
    simp [hx]
  have hpieces : pieces base.bytes = core := by
    rw [hbase]
    exact pieces_unite hcore fun x hx => slash_not_mem_of_mem_pieces (hmem x hx)
  have hne : base.bytes ≠ [] := by
    intro h0
    rw [h0] at hpieces
    exact hlast (hpieces ▸ rfl)
  have hpne : p.bytes ≠ [] := by
    intro h0
    have hlen := congrArg List.length hp
    rw [h0] at hlen
    have hone : (pieces []).length = 1 := rfl
    have hpos := List.length_pos_iff.mpr hcore
    simp only [List.length_append, List.length_singleton] at hlen
    omega
  have hhead : (pieces p.bytes).head? = (pieces base.bytes).head? := by
    obtain ⟨first, rest, hfirst⟩ := List.exists_cons_of_ne_nil hcore
    rw [hp, hpieces, hfirst]
    rfl
  refine ⟨hne, ?_, ?_, core, idle, rfl, hidle, fun q hq => ?_⟩
  · rw [Bool.eq_iff_iff, isAbsolute_iff_pieces, isAbsolute_iff_pieces, hhead]
    simp [hne, hpne]
  · intro b hb hs
    obtain ⟨x, hx, hbx⟩ := mem_pieces_iff.mpr ⟨hb, hs⟩
    exact (mem_pieces_iff.mp ⟨x, hmem x (hpieces ▸ hx), hbx⟩).1
  · rw [Path.pieces_join hne (hpieces ▸ hlast) hq, hpieces]

/-- The root stands for pieces that lead nowhere from it. -/
theorem StandsFor.of_root {idle : List Bytes} (habs : p.isAbsolute = true)
    (hidle : ∀ x ∈ idle, Idle x) : StandsFor ⟨[slash]⟩ p ([] :: idle) := by
  have hne : (⟨[slash]⟩ : Path).bytes ≠ [] := List.cons_ne_nil slash []
  refine ⟨hne, habs.symm, ?_, [[]], idle, rfl, hidle, fun q hq => ?_⟩
  · intro b hb hs
    exact absurd (List.mem_singleton.mp hb) hs
  · rw [join_bytes hne hq]
    exact pieces_slash_cons q.bytes

theorem unite_cons (x : Bytes) (h0 : ps ≠ []) : unite (x :: ps) = x ++ slash :: unite ps := by
  obtain ⟨y, ps, rfl⟩ := List.exists_cons_of_ne_nil h0
  simp [unite, List.intercalate]

theorem getLast?_ne_nil_of_not_idle {core : List Bytes} (h : ∀ x ∈ core.getLast?, ¬ Idle x) :
    core.getLast? ≠ some [] :=
  fun hlast => h [] hlast (Or.inl rfl)

theorem parent_of_absolute {fs : List Bytes} (habs : p.isAbsolute = true)
    (hp : pieces p.bytes = [] :: fs ++ [n]) (hn : ¬ Idle n) :
    ∃ base, p.parent = some base ∧ StandsFor base p ([] :: fs) := by
  obtain ⟨bs, rfl⟩ : ∃ bs, p = ⟨slash :: bs⟩ := by
    obtain ⟨bs, hbs⟩ := List.head?_eq_some_iff.mp (eq_of_beq habs)
    exact ⟨bs, congrArg Path.mk hbs⟩
  have hsplit : (⟨slash :: bs⟩ : Path).split = ([slash], fs ++ [n]) := by
    rw [pieces_slash_cons, List.cons_append] at hp
    rw [split_slash, List.tail_eq_of_cons_eq hp]
  refine ⟨_, parent_of_split hsplit hn, ?_⟩
  obtain ⟨idle, hfs, hidle, hlast⟩ := trim_split fs
  by_cases hnone : trim fs = []
  · rw [hnone]
    rw [hnone, List.nil_append] at hfs
    exact StandsFor.of_root habs (hfs ▸ hidle)
  · have hcore : [] :: fs = ([] :: trim fs) ++ idle := by rw [List.cons_append, ← hfs]
    rw [hcore] at hp ⊢
    refine StandsFor.of_pieces hp (unite_cons [] hnone).symm (List.cons_ne_nil _ _) ?_ hidle
    rw [List.getLast?_cons_of_ne_nil hnone]
    exact getLast?_ne_nil_of_not_idle hlast

theorem parent_of_dot {fs : List Bytes} (h0 : p.bytes ≠ []) (habs : p.isAbsolute = false)
    (hp : pieces p.bytes = [dot] :: fs ++ [n]) (hn : ¬ Idle n) :
    ∃ base, p.parent = some base ∧ StandsFor base p ([dot] :: fs) := by
  have hsplit : p.split = ([dot], ([] :: fs) ++ [n]) := by
    rw [split_relative h0 habs hp, if_pos rfl]
    rfl
  refine ⟨_, parent_of_split hsplit hn, ?_⟩
  obtain ⟨idle, hfs, hidle, hlast⟩ := trim_split ([] :: fs)
  cases htrim : trim ([] :: fs) with
  | nil =>
    rw [htrim, List.nil_append] at hfs
    have hcore : [dot] :: fs = [[dot]] ++ fs := rfl
    rw [hcore] at hp ⊢
    refine StandsFor.of_pieces hp rfl (List.cons_ne_nil _ _) (by decide) fun x hx => ?_
    exact hidle x (hfs ▸ List.mem_cons_of_mem [] hx)
  | cons x core =>
    rw [htrim] at hfs hlast
    obtain ⟨hx, hrest⟩ := List.cons.inj hfs
    subst hx
    have hne : core ≠ [] := by
      rintro rfl
      exact hlast [] rfl (Or.inl rfl)
    have hcore : [dot] :: fs = ([dot] :: core) ++ idle := congrArg ([dot] :: ·) hrest
    rw [hcore] at hp ⊢
    refine StandsFor.of_pieces hp ?_ (List.cons_ne_nil _ _) ?_ hidle
    · show [dot] ++ unite ([] :: core) = _
      rw [unite_cons [] hne, unite_cons [dot] hne, List.nil_append]
    · rw [List.getLast?_cons_of_ne_nil hne] at hlast ⊢
      exact getLast?_ne_nil_of_not_idle hlast

theorem parent_of_relative {first : Bytes} {fs : List Bytes} (h0 : p.bytes ≠ [])
    (habs : p.isAbsolute = false) (hp : pieces p.bytes = first :: fs ++ [n]) (hn : ¬ Idle n)
    (hdot : first ≠ [dot]) : ∃ base, p.parent = some base ∧ StandsFor base p (first :: fs) := by
  have hsplit : p.split = ([], (first :: fs) ++ [n]) := by
    rw [split_relative h0 habs hp, if_neg hdot]
    rfl
  refine ⟨_, parent_of_split hsplit hn, ?_⟩
  obtain ⟨idle, hfs, hidle, hlast⟩ := trim_split (first :: fs)
  have hne : trim (first :: fs) ≠ [] := by
    intro hnone
    rw [hnone, List.nil_append] at hfs
    rcases hidle first (hfs ▸ List.mem_cons_self) with rfl | h
    · have hyes := isAbsolute_iff_pieces.mpr ⟨by rw [hp]; rfl, h0⟩
      rw [habs] at hyes
      cases hyes
    · exact hdot h
  generalize trim (first :: fs) = core at *
  rw [hfs] at hp ⊢
  exact StandsFor.of_pieces hp rfl hne (getLast?_ne_nil_of_not_idle hlast) hidle

/-- **The parent of a path** stands for the pieces before the last one. -/
theorem parent_of_last (hp : pieces p.bytes = front ++ [n]) (hn : ¬ Idle n) (hfront : front ≠ []) :
    ∃ base, p.parent = some base ∧ StandsFor base p front := by
  obtain ⟨first, fs, rfl⟩ := List.exists_cons_of_ne_nil hfront
  have h0 : p.bytes ≠ [] := by
    intro h0
    rw [h0] at hp
    have hlen := congrArg List.length hp
    simp [pieces] at hlen
  cases habs : p.isAbsolute with
  | true =>
    have hhead := (isAbsolute_iff_pieces.mp habs).1
    rw [hp] at hhead
    obtain rfl : first = [] := Option.some.inj hhead
    exact parent_of_absolute habs hp hn
  | false =>
    by_cases hdot : first = [dot]
    · subst hdot
      exact parent_of_dot h0 habs hp hn
    · exact parent_of_relative h0 habs hp hn hdot

theorem isAbsolute_of_single (hp : pieces p.bytes = [n]) (hn : ¬ Idle n) :
    p.isAbsolute = false := by
  refine Bool.eq_false_iff.mpr fun habs => hn (Or.inl ?_)
  have hhead := (isAbsolute_iff_pieces.mp habs).1
  rw [hp] at hhead
  exact Option.some.inj hhead

/-- The parent of a path with one piece is empty. -/
theorem parent_of_single (hp : pieces p.bytes = [n]) (hn : ¬ Idle n) : p.parent = some ⟨[]⟩ := by
  have h0 : p.bytes ≠ [] := by
    intro h0
    rw [h0] at hp
    exact hn (Or.inl (List.singleton_inj.mp hp).symm)
  have hsplit : p.split = ([], [] ++ [n]) := by
    rw [split_relative h0 (isAbsolute_of_single hp hn) hp, if_neg fun hdot => hn (Or.inr hdot)]
    rfl
  exact parent_of_split hsplit hn

end SuiteRunner.Path
