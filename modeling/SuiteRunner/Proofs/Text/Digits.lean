import Mathlib.Data.List.Induction
import SuiteRunner.Text.Digits

/-!
# Digits are read as they are written

Numbers are written by `Nat.toDigits` and read by `ofDigits?`.

* **`ofDigits?_toDigits`**: the digits of a number name that number;
* `eq_nil_of_toDigits`: no number but zero is written with a zero in front;
* `toDigits_of_ofDigits?`: digits with no such zero are those of the number that they name;
* `isSome_digit?_ten`: the decimal digits are those of the character class;
* `takeWhile_run`, `dropWhile_run`: where a run of digits, or of other characters, ends.
-/

namespace SuiteRunner

variable {base n : Nat}

theorem hexDigit?_digitChar : ∀ n < 16, hexDigit? (Nat.digitChar n) = some n := by
  decide

theorem digit?_digitChar (hb : base ≤ 16) (h : n < base) :
    digit? base (Nat.digitChar n) = some n := by
  unfold digit?
  rw [hexDigit?_digitChar n (by omega), Option.filter_some]
  simp [h]

theorem ofDigits?_concat (ds : List Char) (d : Char) :
    ofDigits? base (ds ++ [d]) =
      (ofDigits? base ds).bind fun n => (digit? base d).map (n * base + ·) := by
  unfold ofDigits?
  rw [List.foldlM_append]
  simp only [List.foldlM_cons, List.foldlM_nil, bind_pure]
  rfl

/-- **The digits of a number name it.** -/
theorem ofDigits?_toDigits (h1 : 1 < base) (hb : base ≤ 16) (n : Nat) :
    ofDigits? base (Nat.toDigits base n) = some n := by
  induction n using Nat.strongRecOn with
  | ind n ih =>
    rw [Nat.toDigits_eq_if h1]
    split
    · rename_i hn
      rw [← List.nil_append [n.digitChar], ofDigits?_concat, digit?_digitChar hb hn]
      simp [ofDigits?]
    · rename_i hn
      have hlt : n / base < n := Nat.div_lt_self (by omega) h1
      rw [ofDigits?_concat, ih _ hlt, digit?_digitChar hb (Nat.mod_lt _ (by omega))]
      simp [Nat.div_add_mod']

/-- What names a number is digits. -/
theorem isSome_digit?_of_mem {ds : List Char} {v : Nat} (h : ofDigits? base ds = some v) :
    ∀ d ∈ ds, (digit? base d).isSome = true := by
  unfold ofDigits? at h
  generalize 0 = start at h
  induction ds generalizing start with
  | nil => exact fun d hd => absurd hd List.not_mem_nil
  | cons c ds ih =>
    rw [List.foldlM_cons] at h
    cases hc : digit? base c with
    | none =>
      rw [hc] at h
      cases h
    | some x =>
      rw [hc] at h
      intro d hd
      rcases List.mem_cons.mp hd with rfl | hd
      · rw [hc]
        rfl
      · exact ih _ h d hd

/-- Only zero is written with a zero in front. -/
theorem eq_nil_of_toDigits {ds : List Char} (h : Nat.toDigits 10 n = '0' :: ds) : ds = [] := by
  induction n using Nat.strongRecOn generalizing ds with
  | ind n ih =>
    rw [Nat.toDigits_eq_if (by decide)] at h
    split at h
    · exact (List.cons.inj h).2.symm
    · rename_i hn
      have hne : Nat.toDigits 10 (n / 10) ≠ [] := Nat.toDigits_ne_nil
      obtain ⟨d, front, hfront⟩ := List.exists_cons_of_ne_nil hne
      rw [hfront, List.cons_append] at h
      obtain ⟨rfl, -⟩ := List.cons.inj h
      obtain rfl := ih (n / 10) (by omega) hfront
      -- the digits in front would be those of zero
      have hzero : some (n / 10) = some 0 := by
        rw [← ofDigits?_toDigits (by decide : 1 < 10) (by decide) (n / 10), hfront]
        rfl
      have : n / 10 = 0 := Option.some.inj hzero
      omega

/-! ## Where digits end -/

section Run

variable {p : Char → Bool} {cs rest : List Char}

/-- A test tells characters apart. -/
theorem ne_of_test {c d : Char} (hc : p c = true) (hd : p d = false) : c ≠ d := by
  rintro rfl
  rw [hc] at hd
  cases hd

/-- A run of characters goes on to the first one that fails the test. -/
theorem takeWhile_run (hcs : ∀ c ∈ cs, p c = true) (hrest : ∀ c ∈ rest.head?, p c = false) :
    (cs ++ rest).takeWhile p = cs := by
  rw [List.takeWhile_append_of_pos hcs]
  cases rest with
  | nil => exact List.append_nil cs
  | cons c rest => rw [List.takeWhile_cons_of_neg (by simp [hrest c rfl]), List.append_nil]

theorem dropWhile_run (hcs : ∀ c ∈ cs, p c = true) (hrest : ∀ c ∈ rest.head?, p c = false) :
    (cs ++ rest).dropWhile p = rest := by
  rw [List.dropWhile_append_of_pos hcs]
  cases rest with
  | nil => rfl
  | cons c rest => exact List.dropWhile_cons_of_neg (by simp [hrest c rfl])

end Run

theorem isDigit_iff {c : Char} : c.isDigit = true ↔ 48 ≤ c.toNat ∧ c.toNat ≤ 57 := by
  unfold Char.isDigit
  rw [Bool.and_eq_true, decide_eq_true_eq, decide_eq_true_eq]
  exact Iff.rfl

/-- The decimal digits are those of the character class. -/
theorem isSome_digit?_ten (c : Char) : (digit? 10 c).isSome = c.isDigit := by
  have hle : ∀ a b : Char, a ≤ b ↔ a.toNat ≤ b.toNat := fun a b => Iff.rfl
  rw [Bool.eq_iff_iff, isDigit_iff]
  unfold digit? hexDigit?
  simp only [hle]
  have h0 : '0'.toNat = 48 := rfl
  have h9 : '9'.toNat = 57 := rfl
  have ha : 'a'.toNat = 97 := rfl
  have hA : 'A'.toNat = 65 := rfl
  split
  · simp only [Option.filter_some, Option.isSome_ite, decide_eq_true_eq]
    omega
  split
  · simp only [Option.filter_some, Option.isSome_ite, decide_eq_true_eq]
    omega
  split
  · simp only [Option.filter_some, Option.isSome_ite, decide_eq_true_eq]
    omega
  · simp only [Option.filter_none, Option.isSome_none, Bool.false_eq_true, false_iff]
    omega

/-- A decimal digit is the digit of its value. -/
theorem digitChar_of_digit? {d : Char} {x : Nat} (h : digit? 10 d = some x) :
    x < 10 ∧ Nat.digitChar x = d := by
  have hd : d.isDigit = true := by
    rw [← isSome_digit?_ten, h]
    rfl
  obtain ⟨hlow, hhigh⟩ := isDigit_iff.mp hd
  have hten : ∀ k ≤ 9, digit? 10 (Char.ofNat (48 + k)) = some k ∧
      Nat.digitChar k = Char.ofNat (48 + k) := by
    decide
  have hchar : Char.ofNat (48 + (d.toNat - 48)) = d := by
    rw [Nat.add_sub_cancel' hlow, Char.ofNat_toNat]
  obtain ⟨hvalue, hdigit⟩ := hten (d.toNat - 48) (by omega)
  rw [hchar] at hvalue hdigit
  obtain rfl := Option.some.inj (hvalue.symm.trans h)
  exact ⟨by omega, hdigit⟩

/-- **What names a number, with no zero in front of another digit, is the digits of the number.** -/
theorem toDigits_of_ofDigits? {ds : List Char} (h : ofDigits? 10 ds = some n) (hne : ds ≠ [])
    (hzero : ∀ rest, ds = '0' :: rest → rest = []) : Nat.toDigits 10 n = ds := by
  induction ds using List.reverseRecOn generalizing n with
  | nil => exact absurd rfl hne
  | append_singleton front d ih =>
    rw [ofDigits?_concat] at h
    obtain ⟨m, hm, hd⟩ := Option.bind_eq_some_iff.mp h
    obtain ⟨x, hx, rfl⟩ := Option.map_eq_some_iff.mp hd
    obtain ⟨hlt, rfl⟩ := digitChar_of_digit? hx
    by_cases hfront : front = []
    · subst hfront
      obtain rfl : 0 = m := Option.some.inj hm
      rw [Nat.toDigits_eq_if (by decide), if_pos (by omega), Nat.zero_mul, Nat.zero_add]
      rfl
    · have hdigits : Nat.toDigits 10 m = front := by
        refine ih hm hfront fun rest hrest => ?_
        have hnil := hzero (rest ++ [Nat.digitChar x]) (by rw [hrest]; rfl)
        exact (List.append_eq_nil_iff.mp hnil).1
      have hpos : m ≠ 0 := by
        rintro rfl
        have hnil := hzero [Nat.digitChar x] (by rw [← hdigits]; rfl)
        cases hnil
      have hdiv : (m * 10 + x) / 10 = m := by omega
      have hmod : (m * 10 + x) % 10 = x := by omega
      rw [Nat.toDigits_eq_if (by decide), if_neg (by omega), hdiv, hmod, hdigits]
end SuiteRunner
