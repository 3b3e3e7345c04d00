import Mathlib.Data.List.Induction
import Mathlib.Tactic.Linarith
import PysdkModel.Token.RetryDelay

namespace Aio.RetryLoop

variable {P : RetryPolicy} {l : RetryLoop} {attempts : List Attempt} {last : Attempt}

theorem run_concat : run P l (attempts ++ [last]) = (run P l attempts).step P last := by
  rw [run, List.foldl_append]
  rfl

theorem failures_concat : failures (attempts ++ [last]) = if last.isSuccess then 0 else failures attempts + 1 := by
  rw [failures, List.reverse_append, List.reverse_singleton, List.singleton_append, List.takeWhile_cons]
  cases last.isSuccess <;> simp [failures]

theorem Started.renewalAttempt_eq (h : Started P l) : l.renewalAttempt = 0 := by
  cases h <;> rfl

theorem renewalAttempt_run (h : l.renewalAttempt = 0) : (run P l attempts).renewalAttempt = failures attempts := by
  induction attempts using List.reverseRecOn
  case nil => exact h
  case append_singleton attempts last ih =>
    rw [run_concat, failures_concat, ← ih]
    rfl

theorem clamp_eq_max (i t : ℚ) : (if t < i then i else t) = max i t := by
  split
  case isTrue h => exact (max_eq_left h.le).symm
  case isFalse h => exact (max_eq_right (not_lt.mp h)).symm

-- The closed form is kept by one more multiplication, also where the delay has been raised to the initial one or
-- reduced to the maximal one.
theorem backoff_succ {i m e : ℚ} (hi : 0 < i) (he : 0 < e) (j : Nat) :
    max i (min (max i (min (i * e ^ j) m) * e) m) = max i (min (i * e ^ (j + 1)) m) := by
  obtain h | h := le_total e 1
  · have hj (n : Nat) : i * e ^ n ≤ i := mul_le_of_le_one_right hi.le <| pow_le_one₀ he.le h
    rw [max_eq_left ((min_le_left _ _).trans (hj j)), max_eq_left ((min_le_left _ _).trans (hj (j + 1)))]
    exact max_eq_left <| (min_le_left _ _).trans <| mul_le_of_le_one_right hi.le h
  · have hj : i ≤ i * e ^ j := le_mul_of_one_le_right hi.le <| one_le_pow₀ h
    have hs : i * e ^ j ≤ i * e ^ (j + 1) := mul_le_mul_of_nonneg_left (pow_le_pow_right₀ h (Nat.le_succ j)) hi.le
    obtain hm | hm := le_total (i * e ^ j) m
    · rw [min_eq_left hm, max_eq_right hj, mul_assoc, ← pow_succ]
    · have hx : m ≤ max i m * e := (le_max_right i m).trans <|
        le_mul_of_one_le_right (hi.le.trans <| le_max_left i m) h
      rw [min_eq_right hm, min_eq_right hx, min_eq_right (hm.trans hs)]

section Step

theorem step_of_lifetime {lifetime : ℚ} : (l.step P (.succeeded (some lifetime))).retryTimeout =
    max P.initialRetryTimeout (P.lifetimeSafeFraction * lifetime) := by
  rw [step, clamp_eq_max, mul_comm]

theorem step_of_no_expiration :
    (l.step P (.succeeded none)).retryTimeout = max P.initialRetryTimeout veryLongTimeout := by
  rw [step, clamp_eq_max]

theorem step_of_first_failure (hl : last.isSuccess = false) (hk : l.renewalAttempt = 0) :
    (l.step P last).retryTimeout = P.initialRetryTimeout := by
  have ha : l.fetchOnce last ≤ 1 := by simp [fetchOnce, hl, hk]
  cases last
  case succeeded => cases hl
  all_goals
    rw [step, clamp_eq_max, if_pos (.inl ha)]
    exact max_self _

theorem step_of_next_failure (hl : last.isSuccess = false) (hk : l.renewalAttempt ≠ 0)
    (he : 1 / 10 ^ 9 ≤ |P.retryTimeoutExponent - 1|) : (l.step P last).retryTimeout =
      max P.initialRetryTimeout (min (l.retryTimeout * P.retryTimeoutExponent) P.maxRetryTimeout) := by
  have ha : ¬(l.fetchOnce last ≤ 1 ∨ |P.retryTimeoutExponent - 1| < 1 / 10 ^ 9) := by
    refine not_or.mpr ⟨?_, not_lt.mpr he⟩
    rw [fetchOnce, hl]
    simpa using hk
  cases last
  case succeeded => cases hl
  all_goals rw [step, clamp_eq_max, if_neg ha]

end Step

-- The delay after the `k`-th attempt without success, by induction on the attempts. A delay that follows a success is
-- only used by the first failure, which does not look at it.
theorem retryTimeout_of_failure (h₀ : l.renewalAttempt = 0) (hi : 0 < P.initialRetryTimeout)
    (he : 0 < P.retryTimeoutExponent) (he' : 1 / 10 ^ 9 ≤ |P.retryTimeoutExponent - 1|)
    (hl : last.isSuccess = false) : (run P l (attempts ++ [last])).retryTimeout = max P.initialRetryTimeout
      (min (P.initialRetryTimeout * P.retryTimeoutExponent ^ failures attempts) P.maxRetryTimeout) := by
  have hk : (run P l attempts).renewalAttempt = failures attempts := renewalAttempt_run h₀
  induction attempts using List.reverseRecOn generalizing last
  case nil =>
    rw [run_concat, step_of_first_failure hl hk]
    simp [failures]
  case append_singleton attempts previous ih =>
    rw [run_concat]
    rw [failures_concat] at hk ⊢
    cases hp : previous.isSuccess
    case true =>
      rw [hp, if_pos rfl] at hk
      rw [step_of_first_failure hl hk, if_pos rfl, pow_zero, mul_one, max_eq_left (min_le_left _ _)]
    case false =>
      rw [hp, if_neg Bool.false_ne_true] at hk
      rw [step_of_next_failure hl (hk ▸ Nat.succ_ne_zero _) he', ih hp (renewalAttempt_run h₀), backoff_succ hi he,
        if_neg Bool.false_ne_true]

theorem retryTimeout_eq_lawfulDelay (h₀ : l.renewalAttempt = 0) (hi : 0 < P.initialRetryTimeout)
    (he : 0 < P.retryTimeoutExponent) (he' : 1 / 10 ^ 9 ≤ |P.retryTimeoutExponent - 1|) :
    (run P l (attempts ++ [last])).retryTimeout = lawfulDelay P last (failures (attempts ++ [last])) := by
  cases last
  case succeeded lifetime =>
    rw [run_concat]
    cases lifetime
    case none => exact step_of_no_expiration
    case some => exact step_of_lifetime
  all_goals
    rw [retryTimeout_of_failure h₀ hi he he' rfl, failures_concat]
    rfl

theorem delayLaw (attempts : List Attempt) (last : Attempt) (hl : Started P l) (hi : 0 < P.initialRetryTimeout)
    (he : 0 < P.retryTimeoutExponent) (he' : 1 / 10 ^ 9 ≤ |P.retryTimeoutExponent - 1|) :
    DelayLaw P l attempts last := by
  have hd : (run P l (attempts ++ [last])).retryTimeout = lawfulDelay P last (failures (attempts ++ [last])) :=
    retryTimeout_eq_lawfulDelay hl.renewalAttempt_eq hi he he'
  refine ⟨hd, ?_, ?_, ?_⟩
  · rw [hd]
    cases last
    case succeeded lifetime => cases lifetime <;> exact le_max_left _ _
    all_goals exact le_max_left _ _
  · intro hf
    rw [hd]
    cases last
    case succeeded => cases hf
    all_goals exact max_le_max le_rfl <| min_le_right _ _
  · rintro lifetime rfl hf hf' hlt
    rw [hd]
    exact max_lt hlt <| mul_lt_of_lt_one_left (hi.trans hlt) hf'

def doubling : RetryPolicy where
  initialRetryTimeout := 1
  maxRetryTimeout := 60
  retryTimeoutExponent := 2
  lifetimeSafeFraction := 9 / 10

theorem doubling_delayLaw :
    (run doubling (start doubling) [.succeeded (some 100), .failed, .interrupted, .failed]).retryTimeout = 4 ∧
    DelayLaw doubling (start doubling) [.succeeded (some 100), .failed, .interrupted] .failed :=
  ⟨by decide +kernel, delayLaw _ _ .renewable (by decide +kernel) (by decide +kernel) (by decide +kernel)⟩

def patient : RetryPolicy where
  initialRetryTimeout := 2 * veryLongTimeout
  maxRetryTimeout := 2 * veryLongTimeout
  retryTimeoutExponent := 2
  lifetimeSafeFraction := 9 / 10

theorem patient_exceedsTenYears : (run patient (start patient) [.succeeded none]).retryTimeout = 2 * veryLongTimeout ∧
    (run patient (start patient) [.succeeded none]).retryTimeout ≠ veryLongTimeout := by
  decide +kernel

end Aio.RetryLoop
