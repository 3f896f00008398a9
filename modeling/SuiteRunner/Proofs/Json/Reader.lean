import SuiteRunner.Proofs.Json.Token

/-!
# JSON texts are read as the grammar has them

The reader and the grammar agree in both directions: each text of a value is read as that value, and
nothing else is read. Both directions go by the same steps, one for an item and one for a member
(`items_succ_iff`, `members_succ_iff`).

* `value_text`, `items_append`, `members_append`: what the grammar derives is read, with fuel enough
  for its length;
* `bare_of_value`: what is read is derived;
* **`ofText?_eq_some_iff`**: a text is read as a value exactly if it is a text of it.
-/

namespace SuiteRunner.Json

variable {fuel : Nat} {cs rest t u w : List Char} {j : Json} {xs : List Json}
  {m : List Glyph × Json} {ms : List (List Glyph × Json)}

/-! ## Space -/

theorem skip_cons {c : Char} (h : isSpace c = false) (cs : List Char) :
    skip (c :: cs) = c :: cs := by
  unfold skip
  rw [List.dropWhile_cons, h, if_neg Bool.false_ne_true]

theorem skip_space (hu : Space u) (cs : List Char) : skip (u ++ cs) = skip cs :=
  List.dropWhile_append_of_pos hu

theorem exists_space (cs : List Char) : ∃ u, Space u ∧ cs = u ++ skip cs :=
  ⟨cs.takeWhile isSpace, List.all_eq_true.mp List.all_takeWhile,
    List.takeWhile_append_dropWhile.symm⟩

theorem skip_skip (cs : List Char) : skip (skip cs) = skip cs := by
  obtain ⟨u, hu, hcs⟩ := exists_space cs
  have h := skip_space hu (skip cs)
  rw [← hcs] at h
  exact h.symm

/-! ## One step of the reader -/

/-- A value is read the same with other space in front. -/
theorem value_congr (h : skip cs = skip t) : value fuel cs = value fuel t := by
  cases fuel with
  | zero => rfl
  | succ fuel => rw [value, value, h]

theorem items_skip (fuel : Nat) (cs : List Char) : items fuel (skip cs) = items fuel cs := by
  cases fuel with
  | zero => rfl
  | succ fuel => rw [items, items, value_congr (skip_skip cs)]

theorem members_skip (fuel : Nat) (cs : List Char) :
    members fuel (skip cs) = members fuel cs := by
  cases fuel with
  | zero => rfl
  | succ fuel => rw [members, members, skip_skip]

/-- The text `cs` starts with the member `m`, and `t` stands behind it. -/
inductive Starts (fuel : Nat) : List Char → List Glyph × Json → List Char → Prop
  | member {cs k k' v t : List Char} {name : List Glyph} {x : Json} (hk : skip cs = '"' :: k)
      (hname : glyphs k = some (name, k')) (hv : skip k' = ':' :: v)
      (hx : value fuel v = some (x, t)) : Starts fuel cs (name, x) t

/-- How it goes on behind an element of an array or an object: it is closed, or a comma stands in
front of more elements. -/
inductive Behind {α : Type} (close : Char) (more : List Char → Option (List α × List Char)) :
    List Char → List α → List Char → Prop
  | closed {t rest : List Char} (h : skip t = close :: rest) : Behind close more t [] rest
  | comma {t t' rest : List Char} {ys : List α} (h : skip t = ',' :: t')
      (hys : more t' = some (ys, rest)) : Behind close more t ys rest

/-- Items are an item and what stands behind it. -/
theorem items_succ_iff : items (fuel + 1) cs = some (xs, rest) ↔
    ∃ x t ys, value fuel cs = some (x, t) ∧ Behind ']' (items fuel) t ys rest ∧ xs = x :: ys := by
  rw [items]
  constructor
  · intro h
    obtain ⟨⟨x, t⟩, hx, h⟩ := Option.bind_eq_some_iff.mp h
    dsimp only at h
    split at h
    · rename_i ht
      obtain ⟨⟨ys, _⟩, hys, heq⟩ := Option.bind_eq_some_iff.mp h
      cases heq
      exact ⟨x, t, ys, hx, .comma ht hys, rfl⟩
    · rename_i ht
      cases h
      exact ⟨x, t, [], hx, .closed ht, rfl⟩
    · cases h
  · rintro ⟨x, t, ys, hx, hbehind, rfl⟩
    cases hbehind with
    | closed h => simp only [hx, h, Option.bind_eq_bind, Option.bind_some]
    | comma h hys => simp only [hx, h, hys, Option.bind_eq_bind, Option.bind_some]

/-- Members are a member and what stands behind it. -/
theorem members_succ_iff : members (fuel + 1) cs = some (ms, rest) ↔
    ∃ m t ns, Starts fuel cs m t ∧ Behind '\x7d' (members fuel) t ns rest ∧ ms = m :: ns := by
  rw [members]
  constructor
  · intro h
    split at h
    · rename_i hk
      obtain ⟨⟨name, _⟩, hname, h⟩ := Option.bind_eq_some_iff.mp h
      dsimp only at h
      split at h
      · rename_i hv
        obtain ⟨⟨x, t⟩, hx, h⟩ := Option.bind_eq_some_iff.mp h
        have hm : Starts fuel cs (name, x) t := .member hk hname hv hx
        dsimp only at h
        split at h
        · rename_i ht
          obtain ⟨⟨ns, _⟩, hns, heq⟩ := Option.bind_eq_some_iff.mp h
          cases heq
          exact ⟨(name, x), t, ns, hm, .comma ht hns, rfl⟩
        · rename_i ht
          cases h
          exact ⟨(name, x), t, [], hm, .closed ht, rfl⟩
        · cases h
      · cases h
    · cases h
  · rintro ⟨m, t, ns, ⟨hk, hname, hv, hx⟩, hbehind, rfl⟩
    cases hbehind with
    | closed h => simp only [hk, hname, hv, hx, h, Option.bind_eq_bind, Option.bind_some]
    | comma h hns => simp only [hk, hname, hv, hx, h, hns, Option.bind_eq_bind, Option.bind_some]

theorem value_string (fuel : Nat) (cs : List Char) :
    value (fuel + 1) ('"' :: cs) = (glyphs cs).map fun r => (.string r.1, r.2) := by
  rw [value, skip_cons rfl]
  rfl

theorem value_array (h : ∀ t, skip cs ≠ ']' :: t) (fuel : Nat) :
    value (fuel + 1) ('[' :: cs) = (items fuel cs).map fun r => (.array r.1, r.2) := by
  rw [value, skip_cons rfl]
  simp only [items_skip]

theorem value_emptyArray (hu : Space u) (fuel : Nat) (rest : List Char) :
    value (fuel + 1) ('[' :: (u ++ ']' :: rest)) = some (.array [], rest) := by
  have hskip : skip (u ++ ']' :: rest) = ']' :: rest := by
    rw [skip_space hu, skip_cons rfl]
  rw [value, skip_cons rfl]
  simp only [hskip]

theorem value_object (h : ∀ t, skip cs ≠ '\x7d' :: t) (fuel : Nat) :
    value (fuel + 1) ('\x7b' :: cs) = (members fuel cs).map fun r => (.object r.1, r.2) := by
  rw [value, skip_cons rfl]
  simp only [members_skip]

theorem value_emptyObject (hu : Space u) (fuel : Nat) (rest : List Char) :
    value (fuel + 1) ('\x7b' :: (u ++ '\x7d' :: rest)) = some (.object [], rest) := by
  have hskip : skip (u ++ '\x7d' :: rest) = '\x7d' :: rest := by
    rw [skip_space hu, skip_cons rfl]
  rw [value, skip_cons rfl]
  simp only [hskip]

/-- A value that starts with a digit or a sign is a number. -/
theorem value_number {c : Char} (hc : c = '-' ∨ c.isDigit = true) (fuel : Nat) (cs : List Char) :
    value (fuel + 1) (c :: cs) = (numberOf (c :: cs)).map fun r => (.number r.1, r.2) := by
  -- each of the other values starts with none of these
  have hne : ∀ d : Char, d ≠ '-' → d.isDigit = false → c ≠ d := by
    rintro d hsign hd rfl
    rcases hc with rfl | hc
    · exact hsign rfl
    · rw [hd] at hc
      cases hc
  have hspace : isSpace c = false := by
    simp [isSpace, hne]
  rw [value, skip_cons hspace]
  split
  iterate 6
    · rename_i h
      exact absurd (List.cons.inj h).1 (hne _ (by decide) rfl)
  · rfl

/-! ## What the grammar derives is read -/

/-- What may stand behind a value and the space after it. -/
def Closes (rest : List Char) : Prop := ∀ c ∈ rest.head?, c = ',' ∨ c = ']' ∨ c = '\x7d'

theorem closes_cons {c : Char} (hc : c = ',' ∨ c = ']' ∨ c = '\x7d') (rest : List Char) :
    Closes (c :: rest) := by
  rintro _ ⟨⟩
  exact hc

/-- Space may stand in front of it, and is dropped. -/
theorem Closes.skip_space (h : Closes rest) (hu : Space u) :
    Ends (u ++ rest) ∧ skip (u ++ rest) = rest := by
  have hclosers : ∀ c, (c = ',' ∨ c = ']' ∨ c = '\x7d') → isSpace c = false ∧ c ∈ closers := by
    rintro c (rfl | rfl | rfl) <;> decide
  refine ⟨?_, dropWhile_run hu fun c hc => (hclosers c (h c hc)).1⟩
  cases u with
  | nil => exact fun c hc => (hclosers c (h c hc)).2
  | cons d u =>
    rintro c ⟨⟩
    have hd : isSpace d = true := hu d List.mem_cons_self
    simp only [isSpace, Bool.or_eq_true, beq_iff_eq] at hd
    rcases hd with ((rfl | rfl) | rfl) | rfl <;> decide

/-- A value starts with no space, and with nothing that closes an array. -/
theorem Bare.exists_head (h : Bare j w) :
    ∃ c t, w = c :: t ∧ isSpace c = false ∧ c ≠ ']' := by
  cases h with
  | number h =>
    obtain ⟨c, t, rfl, rfl | hc⟩ := h.exists_head
    · exact ⟨_, _, rfl, by decide⟩
    · have hne : ∀ d : Char, d.isDigit = false → c ≠ d := fun _ => ne_of_test hc
      exact ⟨c, t, rfl, by simp [isSpace, hne], hne _ rfl⟩
  | null | yes | no | string | emptyArray | array | emptyObject | object =>
    exact ⟨_, _, rfl, by decide⟩

theorem Text.skip_ne (h : Text j w) (rest t : List Char) : skip (w ++ rest) ≠ ']' :: t := by
  cases h with
  | @spaced _ u w v hu hj hv =>
    obtain ⟨c, w, rfl, hspace, hc⟩ := hj.exists_head
    rw [List.append_assoc, skip_space hu, List.cons_append, List.cons_append, skip_cons hspace]
    exact fun h => hc (List.cons.inj h).1

theorem Items.skip_ne (h : Items xs w) (rest t : List Char) : skip (w ++ rest) ≠ ']' :: t := by
  cases h with
  | last hx => exact hx.skip_ne rest t
  | more hx hxs =>
    rw [List.append_assoc]
    exact hx.skip_ne _ t

theorem Member.skip_ne (h : Member m w) (rest t : List Char) : skip (w ++ rest) ≠ '\x7d' :: t := by
  cases h with
  | named hu =>
    rw [List.append_assoc, skip_space hu, List.cons_append, skip_cons rfl]
    exact fun h => absurd (List.cons.inj h).1 (by decide)

theorem Members.skip_ne (h : Members ms w) (rest t : List Char) :
    skip (w ++ rest) ≠ '\x7d' :: t := by
  cases h with
  | last hm => exact hm.skip_ne rest t
  | more hm hms =>
    rw [List.append_assoc]
    exact hm.skip_ne _ t

-- The induction is on the derivation. A value has brackets that its items do not have, and they pay
-- for the step from the value to the items and for the one to the first of them.

mutual

/-- A value is read from each of its texts without space around it. -/
theorem value_bare {j : Json} {w : List Char} (h : Bare j w) (fuel : Nat) (rest : List Char)
    (hfuel : 2 * w.length ≤ fuel) (hrest : Ends rest) :
    value fuel (w ++ rest) = some (j, rest) := by
  obtain ⟨fuel, rfl⟩ : ∃ k, fuel = k + 1 := by
    obtain ⟨c, t, rfl, -⟩ := h.exists_head
    exact Nat.exists_eq_succ_of_ne_zero (by simp at hfuel; omega)
  cases h with
  | null => rfl
  | yes => rfl
  | no => rfl
  | number h =>
    have hread := numberOf_numeral h hrest
    obtain ⟨c, t, rfl, hc⟩ := h.exists_head
    rw [List.cons_append] at hread ⊢
    rw [value_number hc, hread]
    rfl
  | string h =>
    rw [List.cons_append, List.append_assoc, List.singleton_append, value_string, glyphs_body h]
    rfl
  | emptyArray hu =>
    rw [List.cons_append, List.append_assoc, List.singleton_append]
    exact value_emptyArray hu fuel rest
  | array h =>
    have hread := items_append h fuel rest (by simp at hfuel; omega)
    rw [List.cons_append, List.append_assoc, List.singleton_append, value_array (h.skip_ne _),
      hread]
    rfl
  | emptyObject hu =>
    rw [List.cons_append, List.append_assoc, List.singleton_append]
    exact value_emptyObject hu fuel rest
  | object h =>
    have hread := members_append h fuel rest (by simp at hfuel; omega)
    rw [List.cons_append, List.append_assoc, List.singleton_append, value_object (h.skip_ne _),
      hread]
    rfl

/-- A value is read from each of its texts, up to the space behind it. -/
theorem value_text {j : Json} {w : List Char} (h : Text j w) (fuel : Nat) (rest : List Char)
    (hfuel : 2 * w.length ≤ fuel) (hrest : Closes rest) :
    ∃ t, value fuel (w ++ rest) = some (j, t) ∧ skip t = rest := by
  cases h with
  | @spaced _ u w v hu hj hv =>
    obtain ⟨hends, hskip⟩ := hrest.skip_space hv
    have hread := value_bare hj fuel (v ++ rest) (by simp at hfuel; omega) hends
    refine ⟨v ++ rest, ?_, hskip⟩
    rw [List.append_assoc, List.append_assoc, value_congr (skip_space hu _), hread]

/-- Items are read from each of their texts, up to the bracket. -/
theorem items_append {xs : List Json} {w : List Char} (h : Items xs w) (fuel : Nat)
    (rest : List Char) (hfuel : 2 * w.length + 1 ≤ fuel) :
    items fuel (w ++ ']' :: rest) = some (xs, rest) := by
  obtain ⟨fuel, rfl⟩ := Nat.exists_eq_add_of_le' (Nat.le_of_add_left_le hfuel)
  refine items_succ_iff.mpr ?_
  cases h with
  | last hx =>
    obtain ⟨t, hread, ht⟩ := value_text hx fuel (']' :: rest) (by omega) (closes_cons (by simp) _)
    exact ⟨_, t, [], hread, .closed ht, rfl⟩
  | @more x xs w ws hx hxs =>
    have hlength : (w ++ ',' :: ws).length = w.length + (ws.length + 1) := List.length_append
    obtain ⟨t, hread, ht⟩ := value_text hx fuel (',' :: (ws ++ ']' :: rest)) (by omega)
      (closes_cons (by simp) _)
    refine ⟨x, t, xs, ?_, .comma ht (items_append hxs fuel rest (by omega)), rfl⟩
    rw [List.append_assoc]
    exact hread

/-- A member is read from each of its texts, up to the space behind it. -/
theorem member_append {m : List Glyph × Json} {w : List Char} (h : Member m w) (fuel : Nat)
    (rest : List Char) (hfuel : 2 * w.length ≤ fuel) (hrest : Closes rest) :
    ∃ t, Starts fuel (w ++ rest) m t ∧ skip t = rest := by
  cases h with
  | @named name x u k v w hu hk hv hx =>
    obtain ⟨t, hread, ht⟩ := value_text hx fuel rest (by simp at hfuel; omega) hrest
    refine ⟨t, .member ?_ (glyphs_body hk (v ++ ':' :: (w ++ rest))) ?_ hread, ht⟩
    · rw [List.append_assoc, skip_space hu, List.cons_append, skip_cons rfl]
      simp
    · rw [skip_space hv, skip_cons rfl]

/-- Members are read from each of their texts, up to the brace. -/
theorem members_append {ms : List (List Glyph × Json)} {w : List Char} (h : Members ms w)
    (fuel : Nat) (rest : List Char) (hfuel : 2 * w.length + 1 ≤ fuel) :
    members fuel (w ++ '\x7d' :: rest) = some (ms, rest) := by
  obtain ⟨fuel, rfl⟩ := Nat.exists_eq_add_of_le' (Nat.le_of_add_left_le hfuel)
  refine members_succ_iff.mpr ?_
  cases h with
  | last hm =>
    obtain ⟨t, hread, ht⟩ := member_append hm fuel ('\x7d' :: rest) (by omega)
      (closes_cons (by simp) _)
    exact ⟨_, t, [], hread, .closed ht, rfl⟩
  | @more m ms w ws hm hms =>
    have hlength : (w ++ ',' :: ws).length = w.length + (ws.length + 1) := List.length_append
    obtain ⟨t, hread, ht⟩ := member_append hm fuel (',' :: (ws ++ '\x7d' :: rest)) (by omega)
      (closes_cons (by simp) _)
    refine ⟨m, t, ms, ?_, .comma ht (members_append hms fuel rest (by omega)), rfl⟩
    rw [List.append_assoc]
    exact hread

end

/-! ## What is read the grammar derives -/

/-- What the reader takes off a text is derived, with this much fuel. -/
structure Derives (fuel : Nat) : Prop where
  value : ∀ {cs t : List Char} {j : Json}, value fuel cs = some (j, t) →
    ∃ w, Bare j w ∧ skip cs = w ++ t
  items : ∀ {cs rest : List Char} {xs : List Json}, items fuel cs = some (xs, rest) →
    ∃ w, Items xs w ∧ cs = w ++ ']' :: rest
  members : ∀ {cs rest : List Char} {ms : List (List Glyph × Json)},
    members fuel cs = some (ms, rest) → ∃ w, Members ms w ∧ cs = w ++ '\x7d' :: rest

/-- A value with the space around it. -/
theorem Bare.spaced (hj : Bare j w) (h : skip cs = w ++ t) :
    ∃ w', Text j w' ∧ cs = w' ++ skip t := by
  obtain ⟨u, hu, hcs⟩ := exists_space cs
  obtain ⟨v, hv, ht⟩ := exists_space t
  refine ⟨_, .spaced hu hj hv, ?_⟩
  calc cs = u ++ (w ++ t) := by rw [← h, ← hcs]
    _ = u ++ (w ++ (v ++ skip t)) := by rw [← ht]
    _ = u ++ (w ++ v) ++ skip t := by simp

theorem bare_of_value (hd : Derives fuel) (h : value (fuel + 1) cs = some (j, t)) :
    ∃ w, Bare j w ∧ skip cs = w ++ t := by
  rw [value] at h
  split at h
  · rename_i hcs
    cases h
    exact ⟨_, .null, hcs⟩
  · rename_i hcs
    cases h
    exact ⟨_, .yes, hcs⟩
  · rename_i hcs
    cases h
    exact ⟨_, .no, hcs⟩
  · rename_i hcs
    obtain ⟨⟨gs, _⟩, hread, heq⟩ := Option.map_eq_some_iff.mp h
    cases heq
    obtain ⟨w, hw, rfl⟩ := body_of_glyphs hread
    exact ⟨_, .string hw, by rw [hcs]; simp⟩
  · rename_i cs' hcs
    obtain ⟨u, hu, hcs'⟩ := exists_space cs'
    split at h
    · rename_i hend
      cases h
      rw [hend] at hcs'
      exact ⟨_, .emptyArray hu, by rw [hcs, hcs']; simp⟩
    · rw [items_skip] at h
      obtain ⟨⟨xs, _⟩, hread, heq⟩ := Option.map_eq_some_iff.mp h
      cases heq
      obtain ⟨w, hw, rfl⟩ := hd.items hread
      exact ⟨_, .array hw, by rw [hcs]; simp⟩
  · rename_i cs' hcs
    obtain ⟨u, hu, hcs'⟩ := exists_space cs'
    split at h
    · rename_i hend
      cases h
      rw [hend] at hcs'
      exact ⟨_, .emptyObject hu, by rw [hcs, hcs']; simp⟩
    · rw [members_skip] at h
      obtain ⟨⟨ms, _⟩, hread, heq⟩ := Option.map_eq_some_iff.mp h
      cases heq
      obtain ⟨w, hw, rfl⟩ := hd.members hread
      exact ⟨_, .object hw, by rw [hcs]; simp⟩
  · obtain ⟨⟨k, _⟩, hread, heq⟩ := Option.map_eq_some_iff.mp h
    cases heq
    obtain ⟨w, hw, hcs⟩ := numeral_of_numberOf hread
    exact ⟨w, .number hw, hcs⟩

theorem items_of_items (hd : Derives fuel) (h : items (fuel + 1) cs = some (xs, rest)) :
    ∃ w, Items xs w ∧ cs = w ++ ']' :: rest := by
  obtain ⟨x, t, ys, hread, hbehind, rfl⟩ := items_succ_iff.mp h
  obtain ⟨w, hbare, hcs⟩ := hd.value hread
  obtain ⟨w, hx, rfl⟩ := hbare.spaced hcs
  cases hbehind with
  | closed ht => exact ⟨w, .last hx, by rw [ht]⟩
  | comma ht hys =>
    obtain ⟨ws, hws, rfl⟩ := hd.items hys
    exact ⟨_, .more hx hws, by rw [ht]; simp⟩

theorem member_of_starts (hd : Derives fuel) (h : Starts fuel cs m t) :
    ∃ w, Member m w ∧ cs = w ++ skip t := by
  cases h with
  | @member k k' v _ name x hk hname hv hx =>
    obtain ⟨u, hu, hcs⟩ := exists_space cs
    obtain ⟨l, hl, rfl⟩ := body_of_glyphs hname
    obtain ⟨u', hu', hk'⟩ := exists_space k'
    obtain ⟨w, hbare, hw⟩ := hd.value hx
    obtain ⟨w, htext, rfl⟩ := hbare.spaced hw
    refine ⟨_, .named hu hl hu' htext, ?_⟩
    rw [hcs, hk, hk', hv]
    simp

theorem members_of_members (hd : Derives fuel) (h : members (fuel + 1) cs = some (ms, rest)) :
    ∃ w, Members ms w ∧ cs = w ++ '\x7d' :: rest := by
  obtain ⟨m, t, ns, hread, hbehind, rfl⟩ := members_succ_iff.mp h
  obtain ⟨w, hm, rfl⟩ := member_of_starts hd hread
  cases hbehind with
  | closed ht => exact ⟨w, .last hm, by rw [ht]⟩
  | comma ht hns =>
    obtain ⟨ws, hws, rfl⟩ := hd.members hns
    exact ⟨_, .more hm hws, by rw [ht]; simp⟩

theorem derives (fuel : Nat) : Derives fuel := by
  induction fuel with
  | zero => exact ⟨fun h => (by cases h), fun h => (by cases h), fun h => (by cases h)⟩
  | succ fuel ih => exact ⟨bare_of_value ih, items_of_items ih, members_of_members ih⟩

/-- **A text is read as a value exactly if it is a text of it.** -/
theorem ofText?_eq_some_iff : ofText? cs = some j ↔ Text j cs := by
  unfold ofText?
  constructor
  · intro h
    split at h
    · rename_i j' t hread
      split at h
      · rename_i ht
        cases h
        obtain ⟨w, hbare, hcs⟩ := (derives _).value hread
        obtain ⟨w, htext, rfl⟩ := hbare.spaced hcs
        rwa [ht, List.append_nil]
      · cases h
    · cases h
  · intro h
    obtain ⟨t, hread, ht⟩ := value_text h (2 * cs.length + 2) [] (by omega) fun c hc => by cases hc
    rw [List.append_nil] at hread
    rw [hread]
    exact if_pos ht

/-- A text is that of one value at most. -/
theorem Bare.unique {j' : Json} (h : Bare j w) (h' : Bare j' w) : j = j' := by
  have hread := ofText?_eq_some_iff.mpr h.text
  rw [ofText?_eq_some_iff.mpr h'.text] at hread
  exact (Option.some.inj hread).symm

end SuiteRunner.Json
