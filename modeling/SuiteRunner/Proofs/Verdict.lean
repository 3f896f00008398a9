import SuiteRunner.Verdict

/-!
# Which statuses are which verdicts

A status word is read in two parts: its low seven bits and, if they are zero, the byte above the
lowest one. As arithmetic on the signed word these are its remainder by 128 and its floored
quotient by 256.

* **`verdict_word`**: the verdict of every status word.
-/

namespace SuiteRunner.WaitStatus

theorem toInt_word (raw : Int32) :
    raw.toInt = raw.toUInt32.toNat ∨ raw.toInt = (raw.toUInt32.toNat : Int) - 4294967296 := by
  have h : raw.toInt = if 2 * raw.toUInt32.toNat < 4294967296 then (raw.toUInt32.toNat : Int)
      else (raw.toUInt32.toNat : Int) - 4294967296 := BitVec.toInt_eq_toNat_cond raw.toBitVec
  rw [h]
  split
  · exact Or.inl rfl
  · exact Or.inr rfl

theorem signal_eq (s : WaitStatus) : (s.signal : Int) = s.raw.toInt % 128 := by
  have h : (s.raw.toUInt32 &&& 0x7F).toNat = s.raw.toUInt32.toNat % 128 :=
    (UInt32.toNat_and ..).trans (Nat.and_two_pow_sub_one_eq_mod _ 7)
  unfold signal
  rw [h]
  rcases toInt_word s.raw with h | h <;> omega

theorem code_eq (s : WaitStatus) :
    (((s.raw.toUInt32 >>> 8) &&& 0xFF).toNat : Int) = s.raw.toInt / 256 % 256 := by
  have hshift : (s.raw.toUInt32 >>> 8).toNat = s.raw.toUInt32.toNat / 256 :=
    (UInt32.toNat_shiftRight ..).trans (Nat.shiftRight_eq_div_pow _ 8)
  have h : ((s.raw.toUInt32 >>> 8) &&& 0xFF).toNat = s.raw.toUInt32.toNat / 256 % 256 := by
    rw [UInt32.toNat_and, hshift]
    exact Nat.and_two_pow_sub_one_eq_mod _ 8
  rw [h]
  rcases toInt_word s.raw with h | h <;> omega

theorem code?_eq_some_iff (s : WaitStatus) (n : Nat) :
    s.code? = some n ↔ s.raw.toInt % 128 = 0 ∧ s.raw.toInt / 256 % 256 = n := by
  have hsignal := signal_eq s
  have hcode := code_eq s
  unfold code?
  split
  · rw [Option.some.injEq]
    omega
  · simp only [reduceCtorEq, false_iff]
    omega

/-- An end by a signal counts as a timeout. -/
theorem verdict_of_signal {s : WaitStatus} (h : s.signal ≠ 0) : s.verdict = .timeout := by
  unfold verdict code?
  rw [if_neg h]

theorem verdict_eq_success_iff (s : WaitStatus) : s.verdict = .success ↔ s.code? = some 0 := by
  unfold verdict
  split <;> simp_all

theorem verdict_eq_failed_iff (s : WaitStatus) : s.verdict = .failed ↔ s.code? = some 1 := by
  unfold verdict
  split <;> simp_all

/-- No process that ran is ignored. -/
theorem verdict_ne_ignored (s : WaitStatus) : s.verdict ≠ .ignored := by
  unfold verdict
  split <;> simp

/-- **The verdict of every status word.** -/
theorem verdict_word (raw : Int32) :
    let exited := raw.toInt % 128 = 0
    let code := raw.toInt / 256 % 256
    ((⟨raw⟩ : WaitStatus).verdict = .success ↔ exited ∧ code = 0) ∧
      ((⟨raw⟩ : WaitStatus).verdict = .failed ↔ exited ∧ code = 1) ∧
      ((⟨raw⟩ : WaitStatus).verdict = .timeout ↔ ¬ (exited ∧ (code = 0 ∨ code = 1))) := by
  intro exited code
  have hs : (⟨raw⟩ : WaitStatus).verdict = .success ↔ exited ∧ code = 0 :=
    (verdict_eq_success_iff _).trans (code?_eq_some_iff _ 0)
  have hf : (⟨raw⟩ : WaitStatus).verdict = .failed ↔ exited ∧ code = 1 :=
    (verdict_eq_failed_iff _).trans (code?_eq_some_iff _ 1)
  have hi := verdict_ne_ignored ⟨raw⟩
  refine ⟨hs, hf, ?_⟩
  rw [and_or_left, ← hs, ← hf]
  cases hv : (⟨raw⟩ : WaitStatus).verdict with
  | success | failed | timeout => simp
  | ignored => exact absurd hv hi

end SuiteRunner.WaitStatus
