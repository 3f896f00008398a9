import Mathlib
import SuiteRunner.Proofs.Json.Reader
import SuiteRunner.Proofs.Settings.Origin
import SuiteRunner.Settings.Json

/-!
# What an object says of the settings

An object may give any of the settings, in any order, with members of other names and with whatever
values between them. Other names may come again; that of a setting may not.

* `Gives`: the members of an object, as the settings they give and others between them;
* `ofMembers?_eq_some_iff`: settings are read exactly from members that give each of them once at
  most;
* `Gives.perm`, `foldl_put_perm`: the order does not matter;
* **`members_overlay_standard`**: what the members give replaces the standard settings, and members
  that are wrong in any other way are refused.
-/

namespace SuiteRunner.Settings

open Json (Glyph textOf)

variable {s s' : Settings} {n : SettingName} {x : Setting} {xs ys : List Setting} {j : Json}
  {m : List Glyph × Json} {ms ns : List (List Glyph × Json)} {seen : List SettingName}

/-! ## Values -/

/-- The value `j` is one of the setting `x`: a text for a path or the suffix, and for the budget a
number of 64 bits without a sign, a fraction or an exponent. -/
inductive IsValue : Setting → Json → Prop
  | suiteDir {gs : List Glyph} {cs : List Char} (h : textOf gs = some cs) :
      IsValue (.suiteDir ⟨Utf8.encode cs⟩) (.string gs)
  | executable {gs : List Glyph} {cs : List Char} (h : textOf gs = some cs) :
      IsValue (.executable ⟨Utf8.encode cs⟩) (.string gs)
  | extension {gs : List Glyph} {cs : List Char} (h : textOf gs = some cs) :
      IsValue (.extension (String.ofList cs)) (.string gs)
  | timeoutMs (ms : UInt64) : IsValue (.timeoutMs ms) (.number ⟨false, ms.toNat, true⟩)

theorem settingOfJson?_eq_some_iff : settingOfJson? n j = some x ↔ x.name = n ∧ IsValue x j := by
  constructor
  · intro h
    unfold settingOfJson? at h
    split at h
    · obtain ⟨cs, hcs, h⟩ := Option.bind_eq_some_iff.mp h
      cases n <;> cases h
      · exact ⟨rfl, .suiteDir hcs⟩
      · exact ⟨rfl, .executable hcs⟩
      · exact ⟨rfl, .extension hcs⟩
    · rename_i k
      split at h
      · rename_i hk
        unfold Setting.ofNat? at h
        split at h
        · rename_i hn
          obtain ⟨rfl, hlt⟩ := hn
          cases h
          obtain ⟨negative, whole, isInteger⟩ := k
          simp only [Bool.and_eq_true, Bool.not_eq_true'] at hk
          obtain ⟨rfl, rfl⟩ := hk
          refine ⟨rfl, ?_⟩
          have hvalue := IsValue.timeoutMs (UInt64.ofNat whole)
          rwa [UInt64.toNat_ofNat_of_lt' hlt] at hvalue
        · cases h
      · cases h
    · cases h
  · rintro ⟨rfl, h⟩
    cases h with
    | suiteDir h => simp [settingOfJson?, h, Setting.name, Setting.ofChars?]
    | executable h => simp [settingOfJson?, h, Setting.name, Setting.ofChars?]
    | extension h => simp [settingOfJson?, h, Setting.name, Setting.ofChars?]
    | timeoutMs ms =>
      have hlt : ms.toNat < UInt64.size := ms.toNat_lt
      simp [settingOfJson?, Setting.name, Setting.ofNat?, hlt]

/-! ## Members -/

/-- The name of the member is that of the setting `n`. -/
def IsNamed (n : SettingName) (m : List Glyph × Json) : Prop := textOf m.1 = some n.text.toList

/-- The name of the member is a text, but no setting has it. -/
def IsForeign (m : List Glyph × Json) : Prop :=
  ∃ name, textOf m.1 = some name ∧ ∀ n : SettingName, name ≠ n.text.toList

theorem name_cases (m : List Glyph × Json) :
    textOf m.1 = none ∨ IsForeign m ∨ ∃ n, IsNamed n m := by
  cases hname : textOf m.1 with
  | none => exact Or.inl rfl
  | some name =>
    by_cases h : ∃ n : SettingName, name = n.text.toList
    · obtain ⟨n, rfl⟩ := h
      exact Or.inr (Or.inr ⟨n, hname⟩)
    · exact Or.inr (Or.inl ⟨name, hname, not_exists.mp h⟩)

theorem ofMembers?_foreign (hm : IsForeign m) :
    ofMembers? seen s (m :: ms) = ofMembers? seen s ms := by
  obtain ⟨name, hname, hforeign⟩ := hm
  rw [ofMembers?, hname]
  simp only [Option.bind_eq_bind, Option.bind_some, SettingName.ofText?_eq_none_iff.mpr hforeign]

theorem ofMembers?_named (hm : IsNamed n m) :
    ofMembers? seen s (m :: ms) =
      if n ∈ seen then none
      else (settingOfJson? n m.2).bind fun x => ofMembers? (n :: seen) (s.put x) ms := by
  rw [ofMembers?, show textOf m.1 = some n.text.toList from hm]
  simp only [Option.bind_eq_bind, Option.bind_some, SettingName.ofText?_text]

theorem ofMembers?_undecodable (hm : textOf m.1 = none) :
    ofMembers? seen s (m :: ms) = none := by
  rw [ofMembers?, hm]
  rfl

/-- The members give these settings, in this order, with foreign members between them. -/
inductive Gives : List (List Glyph × Json) → List Setting → Prop
  | nil : Gives [] []
  | foreign {m : List Glyph × Json} {ms : List (List Glyph × Json)} {xs : List Setting}
      (hm : IsForeign m) (hms : Gives ms xs) : Gives (m :: ms) xs
  | given {m : List Glyph × Json} {ms : List (List Glyph × Json)} {x : Setting} {xs : List Setting}
      (hm : IsNamed x.name m) (hx : IsValue x m.2) (hms : Gives ms xs) : Gives (m :: ms) (x :: xs)

/-- **Settings are read exactly from members that give each of them once at most.** -/
theorem ofMembers?_eq_some_iff : ofMembers? seen s ms = some s' ↔
    ∃ xs, Gives ms xs ∧ (xs.map Setting.name).Nodup ∧ (∀ x ∈ xs, x.name ∉ seen) ∧
      s' = xs.foldl put s := by
  constructor
  · intro h
    induction ms generalizing seen s with
    | nil =>
      cases h
      exact ⟨[], .nil, List.nodup_nil, fun _ hx => absurd hx List.not_mem_nil, rfl⟩
    | cons m ms ih =>
      rcases name_cases m with hm | hm | ⟨n, hm⟩
      · rw [ofMembers?_undecodable hm] at h
        cases h
      · rw [ofMembers?_foreign hm] at h
        obtain ⟨xs, hms, hrest⟩ := ih h
        exact ⟨xs, .foreign hm hms, hrest⟩
      · rw [ofMembers?_named hm] at h
        split at h
        · cases h
        · rename_i hn
          obtain ⟨x, hx, h⟩ := Option.bind_eq_some_iff.mp h
          obtain ⟨rfl, hvalue⟩ := settingOfJson?_eq_some_iff.mp hx
          obtain ⟨xs, hms, hnodup, hseen, rfl⟩ := ih h
          refine ⟨x :: xs, .given hm hvalue hms, ?_, ?_, rfl⟩
          · refine List.nodup_cons.mpr ⟨fun hmem => ?_, hnodup⟩
            obtain ⟨y, hy, hname⟩ := List.mem_map.mp hmem
            exact hseen y hy (hname ▸ List.mem_cons_self)
          · intro y hy
            rcases List.mem_cons.mp hy with rfl | hy
            · exact hn
            · exact fun hmem => hseen y hy (List.mem_cons_of_mem x.name hmem)
  · rintro ⟨xs, hms, hnodup, hseen, rfl⟩
    induction hms generalizing seen s with
    | nil => rfl
    | foreign hm _ ih => rw [ofMembers?_foreign hm, ih hnodup hseen]
    | @given m ms x xs hm hx _ ih =>
      obtain ⟨hxs, hnodup⟩ := List.nodup_cons.mp hnodup
      rw [ofMembers?_named hm, if_neg (hseen x List.mem_cons_self),
        settingOfJson?_eq_some_iff.mpr ⟨rfl, hx⟩, Option.bind_some, List.foldl_cons]
      refine ih hnodup fun y hy hmem => ?_
      rcases List.mem_cons.mp hmem with hname | hmem
      · exact hxs (hname ▸ List.mem_map_of_mem hy)
      · exact hseen y (List.mem_cons_of_mem x hy) hmem

/-! ## The order of members -/

/-- **Members in another order give the same settings**, in another order. -/
theorem Gives.perm (h : Gives ms xs) (hms : ms.Perm ns) : ∃ ys, Gives ns ys ∧ xs.Perm ys := by
  induction hms generalizing xs with
  | nil => exact ⟨xs, h, .refl xs⟩
  | cons m _ ih =>
    cases h with
    | foreign hm h =>
      obtain ⟨ys, hys, hperm⟩ := ih h
      exact ⟨ys, .foreign hm hys, hperm⟩
    | given hm hx h =>
      obtain ⟨ys, hys, hperm⟩ := ih h
      exact ⟨_, .given hm hx hys, hperm.cons _⟩
  | swap m m' ms =>
    cases h with
    | foreign hm' h =>
      cases h with
      | foreign hm h => exact ⟨_, .foreign hm (.foreign hm' h), .refl _⟩
      | given hm hx h => exact ⟨_, .given hm hx (.foreign hm' h), .refl _⟩
    | given hm' hx' h =>
      cases h with
      | foreign hm h => exact ⟨_, .foreign hm (.given hm' hx' h), .refl _⟩
      | given hm hx h => exact ⟨_, .given hm hx (.given hm' hx' h), .swap _ _ _⟩
  | trans _ _ ih₁ ih₂ =>
    obtain ⟨ys, hys, hperm⟩ := ih₁ h
    obtain ⟨zs, hzs, hperm'⟩ := ih₂ hys
    exact ⟨zs, hzs, hperm.trans hperm'⟩

/-- Settings with different names are put in any order. -/
theorem foldl_put_perm (hperm : xs.Perm ys) (hnodup : (xs.map Setting.name).Nodup)
    (s : Settings) : xs.foldl put s = ys.foldl put s := by
  refine hperm.foldl_eq' (fun x hx y hy s => ?_) s
  by_cases hxy : x = y
  · rw [hxy]
  · exact put_comm fun hname => hxy (List.inj_on_of_nodup_map hnodup hx hy hname)

theorem ofMembers?_perm (h : ms.Perm ns) (seen : List SettingName) (s : Settings) :
    ofMembers? seen s ms = ofMembers? seen s ns := by
  have hone : ∀ {ms ns : List (List Glyph × Json)} {s' : Settings}, ms.Perm ns →
      ofMembers? seen s ms = some s' → ofMembers? seen s ns = some s' := by
    intro ms ns s' h hread
    obtain ⟨xs, hms, hnodup, hseen, rfl⟩ := ofMembers?_eq_some_iff.mp hread
    obtain ⟨ys, hns, hperm⟩ := hms.perm h
    refine ofMembers?_eq_some_iff.mpr ⟨ys, hns, ?_, fun y hy => hseen y (hperm.mem_iff.mpr hy), ?_⟩
    · exact (hperm.map Setting.name).nodup_iff.mp hnodup
    · exact foldl_put_perm hperm hnodup s
  exact Option.ext fun s' => ⟨hone h, hone h.symm⟩

/-! ## What the settings are -/

/-- The settings are the standard ones, with exactly these in their place. -/
structure Overlays (xs : List Setting) (s : Settings) : Prop where
  given : ∀ x ∈ xs, s.get x.name = x
  standard : ∀ n, (∀ x ∈ xs, x.name ≠ n) → s.get n = standard.get n

theorem get_foldl_put (hnodup : (xs.map Setting.name).Nodup) (s : Settings) :
    (∀ x ∈ xs, (xs.foldl put s).get x.name = x) ∧
      ∀ n, (∀ x ∈ xs, x.name ≠ n) → (xs.foldl put s).get n = s.get n := by
  induction xs generalizing s with
  | nil => exact ⟨fun _ hx => absurd hx List.not_mem_nil, fun _ _ => rfl⟩
  | cons x xs ih =>
    obtain ⟨hx, hnodup⟩ := List.nodup_cons.mp hnodup
    obtain ⟨hgiven, hrest⟩ := ih hnodup (s.put x)
    rw [List.foldl_cons]
    refine ⟨fun y hy => ?_, fun n hn => ?_⟩
    · rcases List.mem_cons.mp hy with rfl | hy
      · -- no later setting has the name
        rw [hrest y.name fun z hz hname => hx (hname ▸ List.mem_map_of_mem hz), get_put_self]
      · exact hgiven y hy
    · rw [hrest n fun y hy => hn y (List.mem_cons_of_mem x hy),
        get_put_of_ne s (hn x List.mem_cons_self)]

theorem overlays_foldl (hnodup : (xs.map Setting.name).Nodup) :
    Overlays xs (xs.foldl put standard) :=
  ⟨(get_foldl_put hnodup standard).1, (get_foldl_put hnodup standard).2⟩

/-! ## Members that are refused -/

theorem IsNamed.not_foreign (h : IsNamed n m) : ¬ IsForeign m := by
  rintro ⟨name, hname, hforeign⟩
  exact hforeign n (Option.some.inj (hname.symm.trans h))

theorem IsNamed.unique {n' : SettingName} (h : IsNamed n m) (h' : IsNamed n' m) : n = n' := by
  have htext : n.text.toList = n'.text.toList := Option.some.inj (h.symm.trans h')
  have hread := SettingName.ofText?_eq_some_iff.mpr htext
  rw [SettingName.ofText?_text] at hread
  exact Option.some.inj hread

/-- Some of the members give some of the settings. -/
theorem Gives.sublist (h : Gives ms xs) (hns : ns.Sublist ms) :
    ∃ ys, Gives ns ys ∧ ys.Sublist xs := by
  induction h generalizing ns with
  | nil =>
    cases hns
    exact ⟨[], .nil, .slnil⟩
  | foreign hm _ ih =>
    cases hns with
    | cons _ hns => exact ih hns
    | cons_cons _ hns =>
      obtain ⟨ys, hys, hsub⟩ := ih hns
      exact ⟨ys, .foreign hm hys, hsub⟩
  | given hm hx _ ih =>
    cases hns with
    | cons _ hns =>
      obtain ⟨ys, hys, hsub⟩ := ih hns
      exact ⟨ys, hys, hsub.cons _⟩
    | cons_cons _ hns =>
      obtain ⟨ys, hys, hsub⟩ := ih hns
      exact ⟨_, .given hm hx hys, hsub.cons_cons _⟩

/-- A member with the name of a setting gives that setting. -/
theorem Gives.cons_named (h : Gives (m :: ms) xs) (hm : IsNamed n m) :
    ∃ x ys, xs = x :: ys ∧ x.name = n ∧ IsValue x m.2 ∧ Gives ms ys := by
  cases h with
  | foreign hforeign => exact absurd hforeign hm.not_foreign
  | given hname hx hms => exact ⟨_, _, rfl, hname.unique hm, hx, hms⟩

/-- The same setting is not given twice. -/
theorem Gives.not_nodup {m' : List Glyph × Json} (h : Gives ms xs) (hsub : [m, m'].Sublist ms)
    (hm : IsNamed n m) (hm' : IsNamed n m') : ¬ (xs.map Setting.name).Nodup := by
  obtain ⟨ys, hys, hsub⟩ := h.sublist hsub
  obtain ⟨x, ys, rfl, hx, -, hys⟩ := hys.cons_named hm
  obtain ⟨y, ys, rfl, hy, -⟩ := hys.cons_named hm'
  intro hnodup
  have htwo : ((x :: y :: ys).map Setting.name).Nodup := hnodup.sublist (hsub.map Setting.name)
  exact (List.nodup_cons.mp htwo).1 (by rw [hx, ← hy]; exact List.mem_cons_self)

theorem Gives.exists_value (h : Gives ms xs) (hmem : m ∈ ms) (hm : IsNamed n m) :
    ∃ x, x.name = n ∧ IsValue x m.2 := by
  obtain ⟨ys, hys, -⟩ := h.sublist (List.singleton_sublist.mpr hmem)
  obtain ⟨x, -, -, hx, hvalue, -⟩ := hys.cons_named hm
  exact ⟨x, hx, hvalue⟩

theorem Gives.textOf_ne_none (h : Gives ms xs) (hmem : m ∈ ms) : textOf m.1 ≠ none := by
  obtain ⟨ys, hys, -⟩ := h.sublist (List.singleton_sublist.mpr hmem)
  intro hnone
  cases hys with
  | foreign hm =>
    obtain ⟨name, hname, -⟩ := hm
    cases hname.symm.trans hnone
  | given hm => cases hm.symm.trans hnone

/-! ## Arrays -/

/-- The items of an array are read as members with the names in their order. -/
theorem ofItems?_eq_ofMembers? {names : List SettingName}
    (hms : List.Forall₂ IsNamed (names.take ms.length) ms) (hnames : names.Nodup)
    (hseen : ∀ n ∈ names, n ∉ seen) (s : Settings) :
    ofItems? s names (ms.map Prod.snd) = ofMembers? seen s ms := by
  induction ms generalizing names seen s with
  | nil =>
    cases names <;> rfl
  | cons m ms ih =>
    cases names with
    | nil => cases hms
    | cons n names =>
      obtain ⟨hn, hnames⟩ := List.nodup_cons.mp hnames
      obtain ⟨hm, hms⟩ := List.forall₂_cons.mp hms
      rw [List.map_cons, ofItems?, ofMembers?_named hm, if_neg (hseen n List.mem_cons_self)]
      refine Option.bind_congr fun x _ => ih hms hnames (fun k hk hmem => ?_) _
      rcases List.mem_cons.mp hmem with rfl | hmem
      · exact hn hk
      · exact hseen k (List.mem_cons_of_mem n hk) hmem

theorem ofItems?_eq_none {names : List SettingName} {js : List Json}
    (h : names.length < js.length) (s : Settings) : ofItems? s names js = none := by
  induction js generalizing names s with
  | nil => cases h
  | cons j js ih =>
    cases names with
    | nil => rfl
    | cons n names =>
      rw [ofItems?]
      refine Option.bind_eq_none_iff.mpr fun x _ => ih ?_ _
      exact Nat.lt_of_succ_lt_succ h

/-! ## Texts -/

theorem ofJsonText?_object {cs : List Char} (h : Json.Text (.object ms) cs) :
    ofJsonText? cs = ofMembers? [] standard ms := by
  unfold ofJsonText?
  rw [Json.ofText?_eq_some_iff.mpr h]
  rfl

theorem ofJsonText?_array {cs : List Char} {js : List Json} (h : Json.Text (.array js) cs) :
    ofJsonText? cs = ofItems? standard SettingName.all js := by
  unfold ofJsonText?
  rw [Json.ofText?_eq_some_iff.mpr h]
  rfl

/-- Only objects and arrays are settings. -/
theorem exists_text_of_ofJsonText? {cs : List Char} (h : ofJsonText? cs = some s) :
    (∃ ms, Json.Text (.object ms) cs) ∨ ∃ js, Json.Text (.array js) cs := by
  obtain ⟨j, hj, h⟩ := Option.bind_eq_some_iff.mp h
  have htext := Json.ofText?_eq_some_iff.mp hj
  cases j with
  | object ms => exact Or.inl ⟨ms, htext⟩
  | array js => exact Or.inr ⟨js, htext⟩
  | null | boolean | number | string => cases h

/-- A value of the budget is written as the digits of a number of 64 bits, and as nothing else. -/
theorem isValue_timeoutMs_iff {w : List Char} (hj : Json.Bare j w) (k : UInt64) :
    IsValue (.timeoutMs k) j ↔ w = Nat.toDigits 10 k.toNat := by
  constructor
  · intro h
    cases h
    cases hj with
    | number h => exact Json.numeral_integer_iff.mp h
  · rintro rfl
    have hnumber : Json.Bare (.number ⟨false, k.toNat, true⟩) (Nat.toDigits 10 k.toNat) :=
      .number (Json.numeral_integer_iff.mpr rfl)
    rw [hj.unique hnumber]
    exact .timeoutMs k

theorem ofMembers?_eq_none (h : ∀ xs, Gives ms xs → ¬ (xs.map Setting.name).Nodup) :
    ofMembers? seen s ms = none := by
  refine Option.eq_none_iff_forall_ne_some.mpr fun s' hread => ?_
  obtain ⟨xs, hms, hnodup, -⟩ := ofMembers?_eq_some_iff.mp hread
  exact h xs hms hnodup

/-- **The text of an object.** If its members give settings, each of them once at most, with any
foreign members between them, it is read as the standard settings with exactly what they give in
their place. So is any other text whose members give the same, in whatever order and with whatever
foreign members. Whatever else is in it, the object is refused if two members have the name of one
setting, if a member with the name of a setting has no value of it, or if a name is no text. The
budget has a value only in the digits of a number of 64 bits. The values of members that have the
first names in order, in an array, are read as the object is; an array with more items than there
are settings is refused, and so is a text that is of neither an object nor an array. -/
theorem members_overlay_standard {cs : List Char} (hcs : Json.Text (.object ms) cs) :
    (∀ xs, Gives ms xs → (xs.map Setting.name).Nodup →
      ∃ s, ofJsonText? cs = some s ∧ Overlays xs s ∧
        ∀ cs' ns ys, Json.Text (.object ns) cs' → Gives ns ys → ys.Perm xs →
          ofJsonText? cs' = some s) ∧
    (∀ n m m', [m, m'].Sublist ms → IsNamed n m → IsNamed n m' → ofJsonText? cs = none) ∧
    (∀ n, ∀ m ∈ ms, IsNamed n m → (∀ x, IsValue x m.2 → x.name ≠ n) → ofJsonText? cs = none) ∧
    (∀ m ∈ ms, textOf m.1 = none → ofJsonText? cs = none) ∧
    (∀ j w k, Json.Bare j w → (IsValue (.timeoutMs k) j ↔ w = Nat.toDigits 10 k.toNat)) ∧
    (∀ cs' ns, ns.Perm ms → List.Forall₂ IsNamed (SettingName.all.take ns.length) ns →
      Json.Text (.array (ns.map Prod.snd)) cs' → ofJsonText? cs' = ofJsonText? cs) ∧
    (∀ cs' js, Json.Text (.array js) cs' → SettingName.all.length < js.length →
      ofJsonText? cs' = none) ∧
    ∀ cs' s, ofJsonText? cs' = some s →
      (∃ ms', Json.Text (.object ms') cs') ∨ ∃ js, Json.Text (.array js) cs' := by
  have hobject := ofJsonText?_object hcs
  refine ⟨fun xs hms hnodup => ?_, fun n m m' hsub hm hm' => ?_, fun n m hmem hm hno => ?_,
    fun m hmem hnone => ?_, fun j w k hj => isValue_timeoutMs_iff hj k,
    fun cs' ns hperm hns hcs' => ?_, fun cs' js hcs' hlength => ?_,
    fun cs' s h => exists_text_of_ofJsonText? h⟩
  · refine ⟨xs.foldl put standard, ?_, overlays_foldl hnodup, fun cs' ns ys hcs' hns hperm => ?_⟩
    · rw [hobject]
      exact ofMembers?_eq_some_iff.mpr ⟨xs, hms, hnodup, fun _ _ => List.not_mem_nil, rfl⟩
    · have hnodup' := (hperm.map Setting.name).nodup_iff.mpr hnodup
      rw [ofJsonText?_object hcs']
      exact ofMembers?_eq_some_iff.mpr ⟨ys, hns, hnodup', fun _ _ => List.not_mem_nil,
        (foldl_put_perm hperm hnodup' standard).symm⟩
  · rw [hobject]
    exact ofMembers?_eq_none fun xs hms => hms.not_nodup hsub hm hm'
  · rw [hobject]
    refine ofMembers?_eq_none fun xs hms => ?_
    obtain ⟨x, hx, hvalue⟩ := hms.exists_value hmem hm
    exact absurd hx (hno x hvalue)
  · rw [hobject]
    exact ofMembers?_eq_none fun xs hms => absurd hnone (hms.textOf_ne_none hmem)
  · rw [hobject, ofJsonText?_array hcs', ← ofMembers?_perm hperm]
    exact ofItems?_eq_ofMembers? hns (by decide) (fun _ _ => List.not_mem_nil) standard
  · rw [ofJsonText?_array hcs']
    exact ofItems?_eq_none hlength standard

/-- Members that give the largest budget and a suffix, with further ones in front of them and
between them. One of those has half of a surrogate pair for a name, inside the value of another. -/
def oddMembers : List (List Glyph × Json) :=
  [("hue".toList.map .char, .object [([.unit 0xD800],
      .array [.number ⟨true, 0, false⟩, .boolean true, .string [.unit 0xDC00]])]),
    (SettingName.timeoutMs.text.toList.map .char, .number ⟨false, 18446744073709551615, true⟩),
    ("hue".toList.map .char, .array []),
    (.unit 0x65 :: "xtension".toList.map .char, .string [.unit 0xE9])]

/-- A text of them. -/
def oddText : List Char :=
  (" \x7b \"hue\" : \x7b\"\\ud800\":[-0.5e+1, true,\"\\uDC00\" ]\x7d ,\n\"timeout_ms\":" ++
    "18446744073709551615,\"hue\":[ ],\"\\u0065xtension\" : \"\\u00e9\" \x7d\n").toList

theorem text_odd : Json.Text (.object oddMembers) oddText :=
  Json.ofText?_eq_some_iff.mp (by cbv)

/-- A budget of nothing, with a sign in front of it. -/
def signedMembers : List (List Glyph × Json) :=
  [(SettingName.timeoutMs.text.toList.map .char, .number ⟨true, 0, true⟩)]

/-- The text of it. -/
def signedText : List Char := "\x7b\"timeout_ms\":-0\x7d".toList

theorem text_signed : Json.Text (.object signedMembers) signedText :=
  Json.ofText?_eq_some_iff.mp (by cbv)

/-- The text is read as what they give over the standard settings; a budget with a sign is refused,
if only for its sign. -/
theorem members_overlay_standard_odd :
    (∃ s, ofJsonText? oddText = some s ∧ s.suiteDir = standard.suiteDir ∧
      s.executable = standard.executable ∧ s.extension = "é" ∧
      s.timeoutMs = 18446744073709551615) ∧
    ofJsonText? signedText = none := by
  have hforeign : ∀ v, IsForeign ("hue".toList.map .char, v) := fun v =>
    ⟨"hue".toList, rfl, fun n => by cases n <;> decide⟩
  have hsuffix : IsValue (.extension "é") (.string [.unit 0xE9]) :=
    .extension (show textOf [.unit 0xE9] = some ['é'] from rfl)
  have hgives : Gives oddMembers [.timeoutMs 18446744073709551615, .extension "é"] :=
    .foreign (hforeign _) (.given rfl (.timeoutMs 18446744073709551615)
      (.foreign (hforeign _) (.given rfl hsuffix .nil)))
  constructor
  · obtain ⟨s, hread, hs, -⟩ := (members_overlay_standard text_odd).1 _ hgives (by decide)
    exact ⟨s, hread, Setting.suiteDir.inj (hs.standard .suiteDir (by decide)),
      Setting.executable.inj (hs.standard .executable (by decide)),
      Setting.extension.inj (hs.given (.extension "é") (by simp)),
      Setting.timeoutMs.inj (hs.given (.timeoutMs 18446744073709551615) (by simp))⟩
  · refine (members_overlay_standard text_signed).2.2.1 .timeoutMs _ List.mem_cons_self rfl ?_
    intro x hx
    cases hx

end SuiteRunner.Settings
