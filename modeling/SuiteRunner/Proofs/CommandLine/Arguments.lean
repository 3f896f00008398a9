import SuiteRunner.CommandLine.Arguments
import SuiteRunner.Proofs.Text.Digits
import SuiteRunner.Proofs.Text.Utf8

/-!
# Options are read as they are written

An option with its value is one argument: two dashes, its name, an equals sign, and the bytes of
the value as they are.

* `options_word`: an option that the command has is put, and reading goes on behind it;
* `number_toDigits`: a budget is read from its decimal digits;
* **`parse_words`**: every combination of options can be asked for.
-/

namespace SuiteRunner

variable {c : Subcommand} {f : Flag} {o : Options} {v : Bytes} {rest : List Bytes}

/-- The argument that gives the option `f` the value `v`. -/
def Flag.word (f : Flag) (v : Bytes) : Bytes :=
  Arguments.dash :: Arguments.dash :: (Bytes.ofString f.name ++ Arguments.equals :: v)

/-- The name of a command as an argument. -/
def Subcommand.word : Subcommand → Bytes
  | run => Bytes.ofString "run"
  | list => Bytes.ofString "list"

namespace Options

/-- The argument that gives the option `f` a path, if there is one. -/
def pathWord (f : Flag) (p? : Option Path) : List Bytes := (p?.map fun p => f.word p.bytes).toList

/-- The arguments that give these options. -/
def words (o : Options) : List Bytes :=
  pathWord .config o.config? ++ (pathWord .suite o.suite? ++ (pathWord .exe o.exe? ++
    (o.timeoutMs?.map fun n =>
      Flag.timeoutMs.word (Utf8.encode (Nat.toDigits 10 n.toNat))).toList))

/-- The paths of the options can be told from no path at all. -/
def PathsGiven (o : Options) : Prop :=
  ∀ p, o.config? = some p ∨ o.suite? = some p ∨ o.exe? = some p → p.bytes ≠ []

end Options

namespace Arguments

/-! ## One argument -/

theorem shapeOf_word (f : Flag) (v : Bytes) :
    shapeOf (f.word v) = .long (Bytes.ofString f.name) (some v) := by
  have hname : (Bytes.ofString f.name).all (· != equals) = true := by
    cases f <;> decide
  have hne : Bytes.ofString f.name ≠ [] := by
    cases f <;> decide
  obtain ⟨b, bs, hb⟩ := List.exists_cons_of_ne_nil hne
  have hrest : (Bytes.ofString f.name ++ equals :: v).takeWhile (· != equals) =
      Bytes.ofString f.name := by
    rw [List.takeWhile_append_of_pos (List.all_eq_true.mp hname),
      List.takeWhile_cons_of_neg (by decide), List.append_nil]
  unfold Flag.word
  rw [hb, List.cons_append, shapeOf, if_pos rfl, if_pos rfl]
  · rw [← List.cons_append, ← hb]
    simp only [hrest]
    rw [if_pos (by simp), ← List.drop_drop, List.drop_left]
    rfl
  · exact fun h => nomatch h

theorem flagOf?_name (hf : f ∈ Flag.ofSubcommand c) :
    flagOf? c (Bytes.ofString f.name) = some f := by
  cases c <;> cases f <;> first | rfl | exact absurd hf (by decide)

/-- **An option of the command is put, and reading goes on.** -/
theorem options_word (hf : f ∈ Flag.ofSubcommand c) (o : Options) (v : Bytes)
    (rest : List Bytes) :
    options c o none (f.word v :: rest) = (do options c (← put o f v) none rest) := by
  rw [options.eq_def]
  simp only [shapeOf_word, flagOf?_name hf]
  rfl

/-! ## Numbers -/

theorem foldlM_addDigit_toDigits (n : Nat) (h : n < UInt64.size) :
    (Nat.toDigits 10 n).foldlM addDigit 0 = .ok n := by
  have hdigit : ∀ m d, d < 10 → m * 10 + d < UInt64.size →
      addDigit m (Nat.digitChar d) = .ok (m * 10 + d) := by
    intro m d hd hlt
    unfold addDigit
    rw [digit?_digitChar (by decide) hd]
    exact if_pos hlt
  induction n using Nat.strongRecOn with
  | ind n ih =>
    rw [Nat.toDigits_eq_if (by decide)]
    split
    · rename_i hn
      rw [List.foldlM_cons, hdigit 0 n hn (by omega)]
      simp only [Nat.zero_mul, Nat.zero_add]
      rfl
    · rename_i hn
      rw [List.foldlM_append, ih (n / 10) (by omega) (by omega)]
      show ([Nat.digitChar (n % 10)].foldlM addDigit (n / 10)) = _
      rw [List.foldlM_cons, hdigit _ _ (Nat.mod_lt _ (by decide)) (by omega), Nat.div_add_mod']
      rfl

/-- **A number is read from its digits.** -/
theorem number_toDigits (n : UInt64) : number (Nat.toDigits 10 n.toNat) = .ok n := by
  -- no digit is a plus sign, so they are taken as they are
  have hplus : ∀ d ds, Nat.toDigits 10 n.toNat ≠ '+' :: d :: ds := by
    intro d ds h
    have hmem : '+' ∈ Nat.toDigits 10 n.toNat := h ▸ List.mem_cons_self
    have hdigit := Nat.isDigit_of_mem_toDigits (by decide) (by decide) hmem
    cases hdigit
  have hdigits : (Nat.toDigits 10 n.toNat).foldlM addDigit 0 = .ok n.toNat :=
    foldlM_addDigit_toDigits n.toNat n.toNat_lt
  simp only [number]
  rw [if_neg Nat.toDigits_ne_nil, hdigits]
  exact congrArg Except.ok UInt64.ofNat_toNat

/-! ## All arguments -/

theorem put_path {p : Path} (hf : f ≠ .timeoutMs) (hnew : given o f = false) (hp : p.bytes ≠ []) :
    put o f p.bytes = .ok (putPath o p f) := by
  unfold put
  rw [hnew, if_neg Bool.false_ne_true, if_neg hf, if_neg hp]

theorem put_timeoutMs (hnew : given o .timeoutMs = false) (n : UInt64) :
    put o .timeoutMs (Utf8.encode (Nat.toDigits 10 n.toNat)) =
      .ok { o with timeoutMs? := some n } := by
  unfold put
  rw [hnew, if_neg Bool.false_ne_true, if_pos rfl]
  simp only [Utf8.decode?_encode, number_toDigits]

/-- A path for one option gives no other one. -/
theorem given_putPath {g : Flag} (hne : f ≠ g) (o : Options) (p? : Option Path) :
    given (p?.elim o fun p => putPath o p f) g = given o g := by
  cases p? with
  | none => rfl
  | some p => cases f <;> cases g <;> first | rfl | exact absurd rfl hne

/-- A path that is given is put, and without one nothing is read. -/
theorem options_pathWord (hc : f ∈ Flag.ofSubcommand c) (hf : f ≠ .timeoutMs)
    (hnew : given o f = false) {p? : Option Path} (hp : ∀ p, p? = some p → p.bytes ≠ [])
    (rest : List Bytes) :
    options c o none (Options.pathWord f p? ++ rest) =
      options c (p?.elim o fun p => putPath o p f) none rest := by
  cases p? with
  | none => rfl
  | some p =>
    show options c o none (f.word p.bytes :: rest) = _
    rw [options_word hc, put_path hf hnew (hp p rfl)]
    rfl

/-- **Every combination of options can be asked for.** -/
theorem parse_words (ho : o.PathsGiven) :
    parse (Subcommand.run.word :: o.words) = .ok (.perform .run o) := by
  have hrun : topicOf? Subcommand.run.word = some (.command .run) := rfl
  rw [parse.eq_def]
  simp only [hrun]
  obtain ⟨config?, suite?, exe?, timeoutMs?⟩ := o
  -- each option is new: those before it are others
  have hsuite := given_putPath (f := .config) (g := .suite) (by decide) {} config?
  have hexe := (given_putPath (f := .suite) (g := .exe) (by decide) _ suite?).trans
    (given_putPath (f := .config) (by decide) {} config?)
  have hms := (given_putPath (f := .exe) (g := .timeoutMs) (by decide) _ exe?).trans
    ((given_putPath (f := .suite) (by decide) _ suite?).trans
      (given_putPath (f := .config) (by decide) {} config?))
  unfold Options.words
  rw [options_pathWord (by decide) (by decide) rfl fun p hp => ho p (Or.inl hp),
    options_pathWord (by decide) (by decide) hsuite fun p hp => ho p (Or.inr (Or.inl hp)),
    options_pathWord (by decide) (by decide) hexe fun p hp => ho p (Or.inr (Or.inr hp))]
  cases timeoutMs? with
  | none => cases config? <;> cases suite? <;> cases exe? <;> rfl
  | some n =>
    show options .run _ none [Flag.timeoutMs.word _] = _
    rw [options_word (by decide), put_timeoutMs hms]
    cases config? <;> cases suite? <;> cases exe? <;> rfl

end Arguments

end SuiteRunner
