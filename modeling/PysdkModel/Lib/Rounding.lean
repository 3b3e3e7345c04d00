import Mathlib.Data.Nat.Log
import Mathlib.Tactic.Linarith
import Mathlib.Tactic.Ring

-- Division of natural numbers that rounds to the nearest double, as far as the integer part of the result shows it.

namespace Rounding

-- The quotient, rounded to the nearest integer, and to the even one of two that are equally near.
def halfEven (n d : Nat) : Nat :=
  if 2 * (n % d) < d ∨ 2 * (n % d) = d ∧ n / d % 2 = 0 then n / d else n / d + 1

-- The integer part of the double that is nearest to `n / d`. A double from 2 ^ k to 2 ^ (k + 1) is a multiple of
-- 2 ^ (k - 52). A quotient below 1 does not get to 1, since no denominator is as large as 2 ^ 53.
def binary64Floor (n d : Nat) : Nat :=
  let scale := 2 ^ (52 - Nat.log2 (n / d))
  if n < d then 0 else halfEven (n * scale) d / scale

-- The next integer is no farther away than half of the distance between the doubles around the quotient.
def isNearNext (n d : Nat) : Bool :=
  (d - n % d) * 2 ^ (53 - Nat.log2 (n / d)) ≤ d

variable {n d p s f : Nat}

theorem halfEven_div (hp : 0 < p) (hf : f < d) :
    halfEven ((s * d + f) * (2 * p)) d / (2 * p) = if (d - f) * (2 * (2 * p)) ≤ d then s + 1 else s := by
  have hd : 0 < d := Nat.lt_of_le_of_lt (Nat.zero_le f) hf
  have hn : (s * d + f) * (2 * p) = f * (2 * p) + s * (2 * p) * d := by ring
  have hdiv : (s * d + f) * (2 * p) / d = f * (2 * p) / d + s * (2 * p) := by
    rw [hn, Nat.add_mul_div_right _ _ hd]
  have hmod : (s * d + f) * (2 * p) % d = f * (2 * p) % d := by
    rw [hn, Nat.add_mul_mod_self_right]
  have hpar : (f * (2 * p) / d + s * (2 * p)) % 2 = f * (2 * p) / d % 2 := by
    rw [show s * (2 * p) = s * p * 2 by ring, Nat.add_mul_mod_self_right]
  unfold halfEven
  rw [hdiv, hmod, hpar]
  -- `q` is the part of the scaled quotient that is below 1, and `r` what remains.
  have hq : f * (2 * p) / d < 2 * p := by
    rw [Nat.div_lt_iff_lt_mul hd]
    nlinarith
  have hqr := Nat.div_add_mod (f * (2 * p)) d
  have hr := Nat.mod_lt (f * (2 * p)) hd
  generalize f * (2 * p) / d = q at *
  generalize f * (2 * p) % d = r at *
  have hsub : (d - f) * (2 * (2 * p)) = 2 * (d * (2 * p)) - 2 * (f * (2 * p)) := by
    rw [Nat.sub_mul]
    congr 1 <;> ring
  have hlast (h : q = 2 * p - 1) : (d - f) * (2 * (2 * p)) = 2 * d - 2 * r := by
    rw [hsub, ← hqr, show d * (2 * p) = d * q + d by rw [h, ← Nat.mul_succ]; congr 1; omega]
    omega
  have hfar (h : q < 2 * p - 1) : d < (d - f) * (2 * (2 * p)) := by
    have hle : d * (q + 1) + d ≤ d * (2 * p) := by
      rw [← Nat.mul_succ]
      exact Nat.mul_le_mul_left d (by omega)
    rw [hsub, ← hqr]
    rw [Nat.mul_succ] at hle
    omega
  have hfloor (k : Nat) (hk : k < 2 * p) : (k + s * (2 * p)) / (2 * p) = s := by
    rw [Nat.add_mul_div_right _ _ (by omega), Nat.div_eq_of_lt hk, Nat.zero_add]
  have hnext (h : q = 2 * p - 1) : (q + s * (2 * p) + 1) / (2 * p) = s + 1 := by
    rw [show q + s * (2 * p) + 1 = (s + 1) * (2 * p) by
      rw [Nat.succ_mul s (2 * p)]
      omega, Nat.mul_div_cancel _ (by omega)]
  by_cases hl : q = 2 * p - 1
  · -- The last multiple before the next integer is odd, so that a tie goes to the integer.
    have hodd : q % 2 = 1 := by omega
    rw [hlast hl]
    by_cases hr : 2 * r < d
    · rw [if_pos (.inl hr), if_neg (by omega), hfloor q hq]
    · rw [if_neg (by omega), if_pos (by omega), hnext hl]
  · rw [if_neg (Nat.not_le.mpr (hfar (by omega)))]
    split
    · exact hfloor q hq
    · rw [show q + s * (2 * p) + 1 = q + 1 + s * (2 * p) by omega]
      exact hfloor (q + 1) (by omega)

theorem log2_lt {k : Nat} (hn : 0 < n) (h : n < 2 ^ k) : Nat.log2 n < k :=
  (Nat.log2_lt (Nat.ne_of_gt hn)).mpr h

theorem binary64Floor_eq (hd : 0 < d) (hn : n / d < 2 ^ 52) :
    binary64Floor n d = if d ≤ n ∧ isNearNext n d then n / d + 1 else n / d := by
  unfold binary64Floor
  dsimp only
  by_cases hlt : n < d
  case pos => simp [hlt, Nat.div_eq_of_lt hlt]
  have hle : d ≤ n := Nat.not_lt.mp hlt
  have hk : Nat.log2 (n / d) < 52 := log2_lt (Nat.div_pos hle hd) hn
  have hscale : 2 ^ (52 - Nat.log2 (n / d)) = 2 * 2 ^ (51 - Nat.log2 (n / d)) := by
    rw [← Nat.pow_succ']
    congr 1
    omega
  have hnear : 2 ^ (53 - Nat.log2 (n / d)) = 2 * (2 * 2 ^ (51 - Nat.log2 (n / d))) := by
    rw [← Nat.pow_succ', ← Nat.pow_succ']
    congr 1
    omega
  have hdecomp : n = n / d * d + n % d := (Nat.div_add_mod' n d).symm
  have h := halfEven_div (s := n / d) (Nat.two_pow_pos (51 - Nat.log2 (n / d))) (Nat.mod_lt n hd)
  rw [← hdecomp] at h
  rw [if_neg hlt, hscale, h]
  simp [isNearNext, hnear, hle]

theorem isNearNext_of_dvd (hd : 0 < d) (hn : n / d < 2 ^ 52) (h : d ∣ n) (hle : d ≤ n) : isNearNext n d = false := by
  have hk : Nat.log2 (n / d) < 52 := log2_lt (Nat.div_pos hle hd) hn
  have hpow : 1 < 2 ^ (53 - Nat.log2 (n / d)) := Nat.one_lt_two_pow (by omega)
  simp only [isNearNext, Nat.mod_eq_zero_of_dvd h, Nat.sub_zero, decide_eq_false_iff_not, Nat.not_le]
  exact (Nat.lt_mul_iff_one_lt_right hd).mpr hpow

end Rounding
