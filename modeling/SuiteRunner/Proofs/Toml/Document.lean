import SuiteRunner.Proofs.Toml.Number
import SuiteRunner.Proofs.Toml.Text

/-!
# Documents of plain lines

A plain line is a bare key, an equals sign between two spaces, and a text in double quotes or an
integer. `Lines fs text` says that `text` has one such line for each of the fields `fs`.

* `statement_assignment`: a plain line is read up to its end;
* `statements_lines`: a document of plain lines is read to its end, with a line break or without;
* **`ofText?_lines`**: its fields are those of its lines, if no key comes twice.
-/

namespace SuiteRunner.Toml

/-! ## Writing -/

/-- A key that needs no quotes. -/
def IsBareKey (k : Key) : Prop := k ≠ [] ∧ ∀ c ∈ k, isKeyChar c = true

instance (k : Key) : Decidable (IsBareKey k) :=
  decidable_of_iff (k ≠ [] ∧ k.all isKeyChar = true) (and_congr Iff.rfl List.all_eq_true)

/-- `w` is a way to write the value: a text in its quotes, or an integer of 64 bits in decimal. -/
inductive Plain : Value → List Char → Prop
  | text {cs w : List Char} (h : Quoted cs w) : Plain (.text cs) w
  | integer {i : Int} (hi : IsInt64 i) : Plain (.integer i) (integerText i)

/-- The line `k = w`, without its end. -/
def assignment (k : Key) (w : List Char) : List Char := k ++ ' ' :: '=' :: ' ' :: w

/-- The ways to end a line. -/
def lineBreaks : List (List Char) := [['\n'], ['\r', '\n']]

/-- `text` has a line for each of the fields, in their order. The last line may lack its end. -/
inductive Lines : Fields → List Char → Prop
  | nil : Lines [] []
  | last {k : Key} {v : Value} {w : List Char} (hk : IsBareKey k) (hv : Plain v w) :
      Lines [(k, v)] (assignment k w)
  | line {k : Key} {v : Value} {w b : List Char} {fs : Fields} {text : List Char}
      (hk : IsBareKey k) (hv : Plain v w) (hb : b ∈ lineBreaks) (h : Lines fs text) :
      Lines ((k, v) :: fs) (assignment k w ++ (b ++ text))

variable {k : Key} {v : Value} {w rest : List Char} {c : Char}

/-! ## Keys -/

theorem skipGaps_cons (h : isGap c = false) (cs : List Char) : skipGaps (c :: cs) = c :: cs := by
  unfold skipGaps
  rw [List.dropWhile_cons_of_neg (by simp [h])]

/-- A line starts with a character of its key. -/
theorem IsBareKey.exists_head (hk : IsBareKey k) (w rest : List Char) :
    ∃ c cs, assignment k w ++ rest = c :: cs ∧ isKeyChar c = true := by
  obtain ⟨c, cs, rfl⟩ := List.exists_cons_of_ne_nil hk.1
  exact ⟨c, _, rfl, hk.2 c List.mem_cons_self⟩

theorem not_isGap_of_isKeyChar (h : isKeyChar c = true) : isGap c = false := by
  refine Bool.eq_false_iff.mpr fun hgap => ?_
  simp only [isGap, Bool.or_eq_true, beq_iff_eq] at hgap
  rcases hgap with rfl | rfl <;> exact absurd h (by decide)

theorem keyPart_append (hk : IsBareKey k) (hrest : ∀ c ∈ rest.head?, isKeyChar c = false) :
    keyPart (k ++ rest) = some (k, rest) := by
  have htake := takeWhile_run hk.2 hrest
  have hdrop := dropWhile_run hk.2 hrest
  obtain ⟨c, cs, rfl⟩ := List.exists_cons_of_ne_nil hk.1
  have hc := hk.2 c List.mem_cons_self
  rw [keyPart, htake, hdrop]
  -- no quote stands in front
  · exact fun _ hcons => ne_of_test hc rfl (List.cons.inj hcons).1
  · exact fun _ hcons => ne_of_test hc rfl (List.cons.inj hcons).1

/-- The key of a line is read up to the equals sign. -/
theorem keyPath_assignment (hk : IsBareKey k) (n : Nat) (w rest : List Char) :
    keyPath (n + 1) (assignment k w ++ rest) = some ([], k, '=' :: ' ' :: (w ++ rest)) := by
  obtain ⟨c, cs, hline, hc⟩ := hk.exists_head w rest
  have hskip : skipGaps (assignment k w ++ rest) = k ++ ' ' :: '=' :: ' ' :: (w ++ rest) := by
    rw [hline, skipGaps_cons (not_isGap_of_isKeyChar hc), ← hline]
    simp [assignment]
  have hgap : skipGaps (' ' :: '=' :: ' ' :: (w ++ rest)) = '=' :: ' ' :: (w ++ rest) := rfl
  rw [keyPath, hskip, keyPart_append hk fun c hc => by cases hc; rfl]
  simp only [Option.bind_eq_bind, Option.bind_some, hgap]
  rfl

/-! ## Values -/

/-- A value starts with no bracket, no brace and no gap. -/
theorem Plain.head_ne (hv : Plain v w) (hc : c ∈ ['[', '\x7b', ' ', '\t']) (rest cs : List Char) :
    w ++ rest ≠ c :: cs := by
  obtain ⟨hquote, hother⟩ : c ≠ '"' ∧ c ≠ '-' ∧ (digit? 10 c).isSome = false := by
    simp only [List.mem_cons, List.not_mem_nil, or_false] at hc
    rcases hc with rfl | rfl | rfl | rfl <;> decide
  cases hv with
  | text h =>
    obtain ⟨body, -, rfl⟩ := h
    exact fun h => hquote (List.cons.inj h).1.symm
  | integer hi => exact integerText_head_ne _ hother cs

theorem scalar_plain (hv : Plain v w) (hrest : EndsLine rest) :
    scalar (w ++ rest) = some (v, rest) := by
  cases hv with
  | text h =>
    have hread := stringOf_quoted h (hrest.head?_ne (c := '"') (by decide))
    obtain ⟨body, -, rfl⟩ := h
    simp only [List.cons_append] at hread ⊢
    rw [scalar, hread]
    rfl
  | @integer i hi =>
    rw [scalar]
    · exact numeral_integerText hi hrest
    all_goals exact fun _ => integerText_head_ne i (by decide) _

/-- **A value is read to the end of its line.** -/
theorem valueOf_plain (hv : Plain v w) (hrest : EndsLine rest) (depth : Nat) :
    valueOf (depth + 1) (w ++ rest) = some (v, rest) := by
  rw [valueOf]
  · exact scalar_plain hv hrest
  all_goals exact fun cs => hv.head_ne (by decide) rest cs

/-! ## Lines -/

theorem skipGaps_plain (hv : Plain v w) (rest : List Char) :
    skipGaps (' ' :: (w ++ rest)) = w ++ rest := by
  have hgap : skipGaps (' ' :: (w ++ rest)) = skipGaps (w ++ rest) := rfl
  rw [hgap]
  cases hcs : w ++ rest with
  | nil => rfl
  | cons c cs =>
    refine skipGaps_cons (Bool.eq_false_iff.mpr fun hc => ?_) cs
    simp only [isGap, Bool.or_eq_true, beq_iff_eq] at hc
    exact hv.head_ne (by rcases hc with rfl | rfl <;> decide) rest cs hcs

/-- **A plain line is read** up to its end. -/
theorem statement_assignment (hk : IsBareKey k) (hv : Plain v w) (hrest : EndsLine rest) :
    statement (assignment k w ++ rest) = some (.assign [] k v, rest) := by
  obtain ⟨c, cs, hline, hc⟩ := hk.exists_head w rest
  have hbinding : binding (valueOf (depthLimit - 1)) (assignment k w ++ rest) =
      some (([], k, v), rest) := by
    unfold binding
    have hequals : after? '=' ('=' :: ' ' :: (w ++ rest)) = some (' ' :: (w ++ rest)) := rfl
    simp only [depthLimit, keyPath_assignment hk, Option.bind_eq_bind, Option.bind_some, hequals,
      skipGaps_plain hv, valueOf_plain hv hrest]
  have hbracket : c ≠ '[' := ne_of_test hc rfl
  rw [statement, hbinding]
  · rfl
  · exact fun _ hcons => hbracket (List.cons.inj (hline.symm.trans hcons)).1
  · exact fun _ hcons => hbracket (List.cons.inj (hline.symm.trans hcons)).1

/-- A line takes one unit of fuel. -/
theorem statements_assignment (hk : IsBareKey k) (hv : Plain v w) (hrest : EndsLine rest)
    (fuel : Nat) :
    statements (fuel + 1) (assignment k w ++ rest) =
      (endLine rest).bind fun more =>
        (statements fuel more).map fun ss => .assign [] k v :: ss := by
  obtain ⟨c, cs, hline, hc⟩ := hk.exists_head w rest
  have hread := statement_assignment hk hv hrest
  rw [hline] at hread ⊢
  rw [statements, skipGaps_cons (not_isGap_of_isKeyChar hc)]
  -- a line that starts with a key is no comment, and is not empty
  split
  · rename_i hcons
    cases hcons
  · rename_i hcons
    exact absurd (List.cons.inj hcons).1 (ne_of_test hc rfl)
  · rename_i hcons
    exact absurd (List.cons.inj hcons).1 (ne_of_test hc rfl)
  · rename_i hcons
    exact absurd (List.cons.inj hcons).1 (ne_of_test hc rfl)
  · rw [hread]
    simp only [Option.bind_eq_bind, Option.bind_some, Option.map_eq_bind]
    rfl

theorem endLine_lineBreak {b : List Char} (hb : b ∈ lineBreaks) (text : List Char) :
    endLine (b ++ text) = some text := by
  simp only [lineBreaks, List.mem_cons, List.not_mem_nil, or_false] at hb
  rcases hb with rfl | rfl <;> rfl

theorem endsLine_lineBreak {b : List Char} (hb : b ∈ lineBreaks) (text : List Char) :
    EndsLine (b ++ text) := by
  simp only [lineBreaks, List.mem_cons, List.not_mem_nil, or_false] at hb
  rcases hb with rfl | rfl
  · exact fun c hc => Or.inl (Option.some.inj hc).symm
  · exact fun c hc => Or.inr (Option.some.inj hc).symm

/-! ## Documents -/

/-- The statement of a line. -/
def lineStatement (f : Key × Value) : Statement := .assign [] f.1 f.2

/-- A document of plain lines is read with a unit of fuel for each line and one for its end. -/
theorem statements_lines {fs : Fields} {text : List Char} (h : Lines fs text) {fuel : Nat}
    (hfuel : fs.length < fuel) : statements fuel text = some (fs.map lineStatement) := by
  induction h generalizing fuel with
  | nil =>
    obtain ⟨n, rfl⟩ : ∃ n, fuel = n + 1 := ⟨fuel - 1, by omega⟩
    rfl
  | last hk hv =>
    obtain ⟨n, rfl⟩ : ∃ n, fuel = n + 2 := ⟨fuel - 2, by simp at hfuel; omega⟩
    rw [← List.append_nil (assignment _ _),
      statements_assignment hk hv (fun _ hc => by cases hc)]
    rfl
  | line hk hv hb _ ih =>
    obtain ⟨n, rfl⟩ : ∃ n, fuel = n + 1 := ⟨fuel - 1, by omega⟩
    rw [statements_assignment hk hv (endsLine_lineBreak hb _), endLine_lineBreak hb,
      Option.bind_some, ih (by simp at hfuel; omega)]
    rfl

/-- Every line takes a character. -/
theorem Lines.length_le {fs : Fields} {text : List Char} (h : Lines fs text) :
    fs.length ≤ text.length := by
  induction h with
  | nil => exact Nat.le_refl 0
  | last hk hv =>
    simp only [List.length_cons, List.length_nil, List.length_append, assignment]
    omega
  | line hk hv hb _ ih =>
    simp only [List.length_cons, List.length_append, assignment]
    omega

/-- The fields of lines with keys that do not come twice. -/
theorem foldlM_step_lines (fs : Fields) :
    ∀ front : Fields, ((front ++ fs).map Prod.fst).Nodup →
      (fs.map lineStatement).foldlM Progress.step ⟨front, []⟩ = some ⟨front ++ fs, []⟩ := by
  induction fs with
  | nil => simp
  | cons f fs ih =>
    intro front hnodup
    have hnew : front.lookup f.1 = none := by
      rw [List.map_append, List.nodup_append] at hnodup
      refine List.lookup_eq_none_iff.mpr fun g hg => ?_
      have hf : f.1 ∈ (f :: fs).map Prod.fst := List.mem_map_of_mem List.mem_cons_self
      have hne := hnodup.2.2 g.1 (List.mem_map_of_mem hg) f.1 hf
      simpa using hne.symm
    have hstep : Progress.step ⟨front, []⟩ (lineStatement f) = some ⟨front ++ [f], []⟩ := by
      simp [Progress.step, lineStatement, descend, assign, put, hnew, Fields.extend]
    rw [List.map_cons, List.foldlM_cons, hstep]
    have happend : front ++ f :: fs = front ++ [f] ++ fs := by simp
    rw [happend] at hnodup ⊢
    exact ih _ hnodup

/-- No line starts with a mark of the byte order. -/
theorem Lines.skipMark {fs : Fields} {text : List Char} (h : Lines fs text) :
    skipMark text = text := by
  have hline : ∀ {k : Key} {w rest : List Char}, IsBareKey k →
      Toml.skipMark (assignment k w ++ rest) = assignment k w ++ rest := by
    intro k w rest hk
    obtain ⟨c, cs, hline, hc⟩ := hk.exists_head w rest
    rw [hline]
    exact if_neg (ne_of_test hc rfl)
  cases h with
  | nil => rfl
  | last hk hv =>
    rw [← List.append_nil (assignment _ _)]
    exact hline hk
  | line hk hv hb _ => exact hline hk

/-- **The fields of a document of plain lines** are those of its lines, if no key comes twice. -/
theorem ofText?_lines {fs : Fields} {text : List Char} (h : Lines fs text)
    (hnodup : (fs.map Prod.fst).Nodup) : ofText? text = some fs := by
  have hread : statements (text.length + 1) text = some (fs.map lineStatement) :=
    statements_lines h (Nat.lt_succ_of_le h.length_le)
  have hfields : Fields.ofStatements? (fs.map lineStatement) = some fs := by
    unfold Fields.ofStatements?
    rw [foldlM_step_lines fs [] hnodup]
    rfl
  unfold ofText?
  rw [h.skipMark, hread]
  exact hfields

end SuiteRunner.Toml
