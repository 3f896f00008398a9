import SuiteRunner.Proofs.Text.Digits
import SuiteRunner.Toml.Reader

/-!
# Integers in decimal

An integer is told from a date, a time and a floating-point number by what follows its digits. At
the end of a line nothing follows that could belong to one of them.

* `moment_integerText`, `float_integerText`: at the end of a line it is no moment and no
  floating-point number;
* **`numeral_integerText`**: an integer of 64 bits is read from its digits.
-/

namespace SuiteRunner.Toml

/-- The decimal digits of an integer, with a minus sign if it is negative. -/
def integerText : Int → List Char
  | .ofNat n => Nat.toDigits 10 n
  | .negSucc n => '-' :: Nat.toDigits 10 (n + 1)

/-- An integer of 64 bits, one of them for the sign. -/
def IsInt64 (i : Int) : Prop := -0x8000000000000000 ≤ i ∧ i < 0x8000000000000000

instance (i : Int) : Decidable (IsInt64 i) := inferInstanceAs (Decidable (_ ∧ _))

/-- A line ends in front of this text: it is empty, or starts with a line break. -/
def EndsLine (cs : List Char) : Prop := ∀ c ∈ cs.head?, c = '\n' ∨ c = '\r'

/-- Decimal digits. -/
def AreDigits (ds : List Char) : Prop := ∀ d ∈ ds, (digit? 10 d).isSome = true

variable {ds rest : List Char} {c : Char}

theorem areDigits_toDigits (n : Nat) : AreDigits (Nat.toDigits 10 n) := by
  intro d hd
  rw [isSome_digit?_ten]
  exact Nat.isDigit_of_mem_toDigits (by decide) (by decide) hd

theorem ne_of_digit {d : Char} (hd : (digit? 10 d).isSome = true)
    (hc : (digit? 10 c).isSome = false) : d ≠ c :=
  ne_of_test (p := fun c => (digit? 10 c).isSome) hd hc

/-! ## Behind digits -/

theorem EndsLine.cases (h : EndsLine rest) :
    rest = [] ∨ ∃ c cs, rest = c :: cs ∧ (c = '\n' ∨ c = '\r') := by
  cases rest with
  | nil => exact Or.inl rfl
  | cons c cs => exact Or.inr ⟨c, cs, rfl, h c rfl⟩

theorem EndsLine.head?_ne (h : EndsLine rest) (hc : c ≠ '\n' ∧ c ≠ '\r') : rest.head? ≠ some c :=
  fun hrest => (h c hrest).elim hc.1 hc.2

/-- Digits at the end of a line start with a digit, or the line ends. -/
theorem AreDigits.head?_append_ne (hds : AreDigits ds) (hrest : EndsLine rest)
    (hc : (digit? 10 c).isSome = false ∧ c ≠ '\n' ∧ c ≠ '\r') : (ds ++ rest).head? ≠ some c := by
  cases ds with
  | nil => exact hrest.head?_ne hc.2
  | cons d ds => exact fun h => ne_of_digit (hds d List.mem_cons_self) hc.1 (Option.some.inj h)

theorem after?_eq_none (h : rest.head? ≠ some c) : after? c rest = none := by
  cases rest with
  | nil => rfl
  | cons d rest =>
    have hd : d ≠ c := fun hd => h (hd ▸ rfl)
    exact if_neg hd

/-! ## No date and no time -/

/-- Some digits that are read at the start of a line leave digits of the line. -/
theorem digitsOf_append {k v : Nat} {more : List Char} (hds : AreDigits ds) (hrest : EndsLine rest)
    (h : digitsOf k (ds ++ rest) = some (v, more)) : ∃ ds', AreDigits ds' ∧ more = ds' ++ rest := by
  unfold digitsOf at h
  split at h
  · cases h
  · rename_i hlen
    obtain ⟨v', hv, hmore⟩ := Option.map_eq_some_iff.mp h
    obtain ⟨-, rfl⟩ := Prod.mk.inj hmore
    by_cases hk : k ≤ ds.length
    · refine ⟨ds.drop k, fun d hd => hds d (List.mem_of_mem_drop hd), ?_⟩
      exact List.drop_append_of_le_length hk
    · -- the digits would go on beyond the end of the line
      rcases hrest.cases with rfl | ⟨c, more, rfl, hc⟩
      · rw [List.append_nil] at hlen
        omega
      · have hmem : c ∈ (ds ++ c :: more).take k := by
          rw [List.take_append, List.mem_append]
          obtain ⟨j, hj⟩ : ∃ j, k - ds.length = j + 1 := ⟨k - ds.length - 1, by omega⟩
          rw [hj]
          exact Or.inr List.mem_cons_self
        have hdigit := isSome_digit?_of_mem hv c hmem
        rcases hc with rfl | rfl <;> cases hdigit

/-- What follows them is a digit, or the end of the line. -/
theorem after?_of_digitsOf {k : Nat} {r : Nat × List Char} (hds : AreDigits ds)
    (hrest : EndsLine rest) (h : digitsOf k (ds ++ rest) = some r)
    (hc : (digit? 10 c).isSome = false ∧ c ≠ '\n' ∧ c ≠ '\r') : after? c r.2 = none := by
  obtain ⟨ds', hds', hmore⟩ := digitsOf_append hds hrest h
  rw [hmore]
  exact after?_eq_none (hds'.head?_append_ne hrest hc)

theorem date_digits (hds : AreDigits ds) (hrest : EndsLine rest) : date (ds ++ rest) = none := by
  unfold date
  cases h : digitsOf 4 (ds ++ rest) with
  | none => rfl
  | some r =>
    have hnone : after? '-' r.2 = none := after?_of_digitsOf hds hrest h (by decide)
    simp [hnone]

theorem hourMinute_digits (hds : AreDigits ds) (hrest : EndsLine rest) :
    hourMinute (ds ++ rest) = none := by
  unfold hourMinute
  cases h : twoDigits 0 23 (ds ++ rest) with
  | none => rfl
  | some r =>
    have hread : digitsOf 2 (ds ++ rest) = some r := Option.eq_some_of_filter_eq_some h
    have hnone : after? ':' r.2 = none := after?_of_digitsOf hds hrest hread (by decide)
    simp [hnone]

theorem moment_digits (hds : AreDigits ds) (hrest : EndsLine rest) :
    moment (ds ++ rest) = none := by
  unfold moment time
  rw [date_digits hds hrest, hourMinute_digits hds hrest]
  rfl

theorem digitsOf_minus (k : Nat) (cs : List Char) : digitsOf (k + 1) ('-' :: cs) = none := by
  unfold digitsOf
  split
  · rfl
  · rfl

theorem moment_minus (cs : List Char) : moment ('-' :: cs) = none := by
  unfold moment date time hourMinute twoDigits
  rw [digitsOf_minus, digitsOf_minus]
  rfl

theorem moment_integerText (i : Int) (hrest : EndsLine rest) :
    moment (integerText i ++ rest) = none := by
  cases i with
  | ofNat n => exact moment_digits (areDigits_toDigits n) hrest
  | negSucc n => exact moment_minus _

/-! ## The digits of an integer -/

/-- A number is written with at least one digit. -/
theorem exists_toDigits (n : Nat) :
    ∃ d ds, Nat.toDigits 10 n = d :: ds ∧ (digit? 10 d).isSome = true ∧ AreDigits ds := by
  obtain ⟨d, ds, h⟩ := List.exists_cons_of_ne_nil (Nat.toDigits_ne_nil (b := 10) (n := n))
  have hall := areDigits_toDigits n
  rw [h] at hall
  exact ⟨d, ds, h, hall d List.mem_cons_self, fun e he => hall e (List.mem_cons_of_mem d he)⟩

theorem moreDigits_append (hds : AreDigits ds) (hrest : EndsLine rest) :
    moreDigits 10 (ds ++ rest) = (ds, rest) := by
  induction ds with
  | nil => rcases hrest.cases with rfl | ⟨c, cs, rfl, rfl | rfl⟩ <;> rfl
  | cons d ds ih =>
    have hd := hds d List.mem_cons_self
    rw [List.cons_append, moreDigits, if_pos hd, ih fun e he => hds e (List.mem_cons_of_mem d he)]
    exact fun _ _ hunderscore => absurd hunderscore (ne_of_digit hd rfl)

/-- The digits of a number are read to the end of the line. -/
theorem wholeDigits_toDigits (n : Nat) (hrest : EndsLine rest) :
    wholeDigits (Nat.toDigits 10 n ++ rest) = some (Nat.toDigits 10 n, rest) := by
  obtain ⟨d, ds, h, hd, hds⟩ := exists_toDigits n
  rw [h, List.cons_append]
  by_cases h0 : d = '0'
  · -- a zero stands alone
    subst h0
    obtain rfl := eq_nil_of_toDigits h
    rfl
  · rw [wholeDigits, someDigits, if_pos hd, moreDigits_append hds hrest]
    exact fun _ hcons => h0 (List.cons.inj hcons).1

theorem sign_integerText (i : Int) (rest : List Char) :
    sign (integerText i ++ rest) = (decide (i < 0), Nat.toDigits 10 i.natAbs ++ rest) := by
  cases i with
  | negSucc n => simp [integerText, sign]
  | ofNat n =>
    obtain ⟨d, ds, h, hd, -⟩ := exists_toDigits n
    have hn : (Int.ofNat n).natAbs = n := rfl
    rw [integerText, hn, h, List.cons_append, sign]
    · simp
    -- a digit is no sign
    · exact fun _ hcons => ne_of_digit hd rfl (List.cons.inj hcons).1
    · exact fun _ hcons => ne_of_digit hd rfl (List.cons.inj hcons).1

/-- An integer starts with a minus sign or a digit. -/
theorem exists_integerText (i : Int) :
    ∃ c cs, integerText i = c :: cs ∧ (c = '-' ∨ (digit? 10 c).isSome = true) := by
  cases i with
  | negSucc n => exact ⟨_, _, rfl, Or.inl rfl⟩
  | ofNat n =>
    obtain ⟨d, ds, h, hd, -⟩ := exists_toDigits n
    exact ⟨d, ds, h, Or.inr hd⟩

/-- An integer starts with no other character. -/
theorem integerText_head_ne (i : Int) (hc : c ≠ '-' ∧ (digit? 10 c).isSome = false)
    (cs : List Char) : integerText i ++ rest ≠ c :: cs := by
  obtain ⟨d, ds, hds, hd⟩ := exists_integerText i
  rw [hds]
  intro h
  rcases hd with rfl | hd
  · exact hc.1 (List.cons.inj h).1.symm
  · exact ne_of_digit hd hc.2 (List.cons.inj h).1

/-- No letter comes after a zero in front. -/
theorem integerText_append_ne (i : Int) (hrest : EndsLine rest) (hc : c ≠ '\n' ∧ c ≠ '\r')
    (cs : List Char) : integerText i ++ rest ≠ '0' :: c :: cs := by
  intro h
  cases i with
  | negSucc n => exact absurd (List.cons.inj h).1 (by decide)
  | ofNat n =>
    obtain ⟨d, ds, hds, -, -⟩ := exists_toDigits n
    rw [integerText, hds, List.cons_append] at h
    obtain ⟨rfl, htail⟩ := List.cons.inj h
    obtain rfl := eq_nil_of_toDigits hds
    exact hrest.head?_ne hc (congrArg List.head? htail)

/-! ## Reading -/

/-- An integer at the end of a line has no fraction and no exponent. -/
theorem digitFloat_integerText (i : Int) (hrest : EndsLine rest) :
    digitFloat (integerText i ++ rest) = none := by
  have hnone : fraction? rest = none ∧ exponent? rest = none := by
    rcases hrest.cases with rfl | ⟨c, cs, rfl, rfl | rfl⟩ <;> exact ⟨rfl, rfl⟩
  unfold digitFloat
  simp only [sign_integerText, wholeDigits_toDigits _ hrest, hnone.1, hnone.2,
    Option.bind_eq_bind, Option.bind_some]
  cases ofDigits? 10 (Nat.toDigits 10 i.natAbs ++ []) <;> rfl

theorem float_integerText (i : Int) (hrest : EndsLine rest) :
    float (integerText i ++ rest) = none := by
  obtain ⟨d, ds, hds, hd, -⟩ := exists_toDigits i.natAbs
  unfold float
  rw [digitFloat_integerText i hrest, sign_integerText, hds, List.cons_append]
  -- a number in digits has no name
  show specialFloat? (d :: (ds ++ rest)) = none
  unfold specialFloat?
  split
  · rename_i hcons
    exact absurd (List.cons.inj hcons).1 (ne_of_digit hd rfl)
  · rename_i hcons
    exact absurd (List.cons.inj hcons).1 (ne_of_digit hd rfl)
  · rfl

theorem isInt64_iff {i : Int} : isInt64 i = true ↔ IsInt64 i := by
  have hmin : Int64.minValue.toInt = -0x8000000000000000 := by decide
  have hmax : Int64.maxValue.toInt = 0x7FFFFFFFFFFFFFFF := by decide
  unfold isInt64 IsInt64
  rw [hmin, hmax, Bool.and_eq_true, decide_eq_true_eq, decide_eq_true_eq]
  omega

theorem integer_integerText {i : Int} (hi : IsInt64 i) (hrest : EndsLine rest) :
    integer (integerText i ++ rest) = some (i, rest) := by
  have hsigned : (if decide (i < 0) = true then -(i.natAbs : Int) else i.natAbs) = i := by
    split
    · rename_i hneg
      have := of_decide_eq_true hneg
      omega
    · rename_i hneg
      have := of_decide_eq_false (Bool.eq_false_iff.mpr hneg)
      omega
  rw [integer]
  · simp only [sign_integerText, wholeDigits_toDigits _ hrest,
      ofDigits?_toDigits (by decide : 1 < 10) (by decide), Option.bind_eq_bind,
      Option.bind_some, hsigned, isInt64_iff.mpr hi, if_true]
  all_goals exact integerText_append_ne i hrest (by decide)

/-- **An integer of 64 bits is read from its digits**, at the end of a line. -/
theorem numeral_integerText {i : Int} (hi : IsInt64 i) (hrest : EndsLine rest) :
    numeral (integerText i ++ rest) = some (.integer i, rest) := by
  unfold numeral
  simp only [moment_integerText i hrest, float_integerText i hrest, integer_integerText hi hrest,
    Option.map_some]

end SuiteRunner.Toml
