import Mathlib.Algebra.Order.Round
import Mathlib.Data.Int.Log
import Mathlib.Data.Rat.Floor
import Mathlib.Tactic.Linarith
import Mathlib.Tactic.Positivity

-- Decimal floating-point arithmetic as in Python's `decimal` module. A finite number is represented by its value. The
-- operations compute the exact result and round it to what the context can represent.

namespace Decimal

def halfEven (x : ℚ) : ℤ :=
  if Int.fract x < 1 / 2 ∨ Int.fract x = 1 / 2 ∧ ⌊x⌋ % 2 = 0 then ⌊x⌋ else ⌊x⌋ + 1

theorem halfEven_intCast (n : ℤ) : halfEven n = n := by
  simp [halfEven]

theorem halfEven_nonneg {x : ℚ} (h : 0 ≤ x) : 0 ≤ halfEven x := by
  have hf := Int.floor_nonneg.mpr h
  unfold halfEven
  split <;> omega

theorem halfEven_le {x : ℚ} {n : ℤ} (h : x < n) : halfEven x ≤ n := by
  have hf := Int.floor_lt.mpr h
  unfold halfEven
  split <;> omega

theorem abs_sub_halfEven_le (x : ℚ) (n : ℤ) : |x - halfEven x| ≤ |x - n| := by
  refine le_trans ?_ (round_le x n)
  rw [abs_sub_round_eq_min]
  have h₀ := Int.fract_nonneg x
  have h₁ := (Int.fract_lt_one x).le
  have hs := Int.self_sub_floor x
  unfold halfEven
  split
  case isTrue h =>
    rw [hs, abs_of_nonneg h₀]
    refine le_min le_rfl ?_
    rcases h with h | h <;> linarith
  case isFalse h =>
    have hh : 1 / 2 ≤ Int.fract x := not_lt.mp fun hl => h (.inl hl)
    have he : x - ((⌊x⌋ + 1 : ℤ) : ℚ) = Int.fract x - 1 := by
      push_cast
      linarith
    rw [he, abs_sub_comm, abs_of_nonneg (by linarith)]
    exact le_min (by linarith) le_rfl

structure Context where
  prec : ℕ
  emin : ℤ
  emax : ℤ
  pos : 0 < prec

namespace Context

variable {c : Context} {x y s p : ℚ} {m e : ℤ}

def etiny (c : Context) : ℤ :=
  c.emin - (c.prec - 1)

def exponent (c : Context) (x : ℚ) : ℤ :=
  max (Int.log 10 |x| - (c.prec - 1)) c.etiny

def nearest (c : Context) (x : ℚ) : ℚ :=
  halfEven (x / 10 ^ c.exponent x) * 10 ^ c.exponent x

-- A result that is too large raises `Overflow`. The signals of inexact, subnormal and underflowing results are not
-- trapped.
def round? (c : Context) (x : ℚ) : Option ℚ :=
  if |c.nearest x| < 10 ^ (c.emax + 1) then some (c.nearest x) else none

def Fits (c : Context) (x : ℚ) : Prop :=
  ∃ m e : ℤ, x = m * 10 ^ e ∧ |m| ≤ 10 ^ c.prec ∧ c.etiny ≤ e

def Significant (n : ℕ) (x : ℚ) : Prop :=
  ∃ m e : ℤ, x = m * 10 ^ e ∧ |m| < 10 ^ n

theorem ten_zpow_pos (e : ℤ) : (0 : ℚ) < 10 ^ e :=
  zpow_pos (by norm_num) e

theorem ten_zpow_le_iff {d e : ℤ} : (10 : ℚ) ^ d ≤ 10 ^ e ↔ d ≤ e :=
  zpow_le_zpow_iff_right₀ (by norm_num)

theorem ten_zpow_lt_iff {d e : ℤ} : (10 : ℚ) ^ d < 10 ^ e ↔ d < e :=
  zpow_lt_zpow_iff_right₀ (by norm_num)

theorem fits_zero : c.Fits 0 :=
  ⟨0, c.etiny, by simp, by simp, le_rfl⟩

theorem log_le (hx : 0 < |x|) : (10 : ℚ) ^ Int.log 10 |x| ≤ |x| :=
  Int.zpow_log_le_self (by norm_num) hx

theorem lt_log_succ (x : ℚ) : |x| < (10 : ℚ) ^ (Int.log 10 |x| + 1) :=
  Int.lt_zpow_succ_log_self (by norm_num) |x|

theorem exists_mul_zpow {d : ℤ} (h : d ≤ e) (m : ℤ) : ∃ n : ℤ, (m : ℚ) * 10 ^ e = n * 10 ^ d := by
  refine ⟨m * 10 ^ (e - d).toNat, ?_⟩
  have he : e = ((e - d).toNat : ℤ) + d := by omega
  nth_rewrite 1 [he]
  rw [zpow_add₀ (by norm_num), zpow_natCast]
  push_cast
  ring

theorem nearest_of_mul_zpow {n : ℤ} (h : x = n * 10 ^ c.exponent x) : c.nearest x = x := by
  have hd : x / 10 ^ c.exponent x = n := by
    rw [div_eq_iff (ten_zpow_pos _).ne', ← h]
  rw [nearest, hd, halfEven_intCast, ← h]

theorem nearest_zero : c.nearest 0 = 0 := by
  simp [nearest, halfEven]

theorem lt_of_zpow_le {d : ℤ} {n : ℕ} (hm : |m| < 10 ^ n) (h : (10 : ℚ) ^ d ≤ |(m : ℚ) * 10 ^ e|) : d < n + e := by
  have hmq : |(m : ℚ)| < 10 ^ (n : ℤ) := by
    rw [zpow_natCast]
    exact_mod_cast hm
  refine ten_zpow_lt_iff.mp ?_
  calc
    (10 : ℚ) ^ d ≤ |(m : ℚ) * 10 ^ e| := h
    _ = |(m : ℚ)| * 10 ^ e := by rw [abs_mul, abs_of_pos (ten_zpow_pos e)]
    _ < 10 ^ (n : ℤ) * 10 ^ e := mul_lt_mul_of_pos_right hmq (ten_zpow_pos e)
    _ = 10 ^ ((n : ℤ) + e) := (zpow_add₀ (by norm_num) _ _).symm

theorem nearest_of_significant (h : Significant c.prec x) (hx : x = 0 ∨ 10 ^ c.emin ≤ |x|) : c.nearest x = x := by
  rcases hx with rfl | hx
  case inl => exact nearest_zero
  obtain ⟨m, e, rfl, hm⟩ := h
  have hlog := lt_of_zpow_le hm (log_le ((ten_zpow_pos _).trans_le hx))
  have hmin := lt_of_zpow_le hm hx
  have hle : c.exponent (m * 10 ^ e) ≤ e := by
    rw [exponent, etiny]
    omega
  obtain ⟨n, hn⟩ := exists_mul_zpow hle m
  exact nearest_of_mul_zpow hn

theorem round?_of_significant (h : Significant c.prec x) (hx : x = 0 ∨ 10 ^ c.emin ≤ |x|)
    (hlt : |x| < 10 ^ (c.emax + 1)) : c.round? x = some x := by
  rw [round?, nearest_of_significant h hx, if_pos hlt]

theorem nearest_nonneg (h : 0 ≤ x) : 0 ≤ c.nearest x := by
  have hh := halfEven_nonneg (div_nonneg h (ten_zpow_pos (c.exponent x)).le)
  exact mul_nonneg (by exact_mod_cast hh) (ten_zpow_pos _).le

theorem fits_nearest (h : 0 ≤ x) : c.Fits (c.nearest x) := by
  refine ⟨_, c.exponent x, rfl, ?_, le_max_right _ _⟩
  have hx : x / 10 ^ c.exponent x < ((10 ^ c.prec : ℤ) : ℚ) := by
    rw [div_lt_iff₀ (ten_zpow_pos _)]
    push_cast
    rw [← zpow_natCast, ← zpow_add₀ (by norm_num)]
    refine ((le_abs_self x).trans_lt (lt_log_succ x)).trans_le (ten_zpow_le_iff.mpr ?_)
    rw [exponent]
    omega
  rw [abs_of_nonneg (halfEven_nonneg (div_nonneg h (ten_zpow_pos _).le))]
  exact halfEven_le hx

theorem abs_sub_nearest_le (x : ℚ) (n : ℤ) : |x - c.nearest x| ≤ |x - n * 10 ^ c.exponent x| := by
  have hp := ten_zpow_pos (c.exponent x)
  have h := mul_le_mul_of_nonneg_right (abs_sub_halfEven_le (x / 10 ^ c.exponent x) n) hp.le
  have hd : x / 10 ^ c.exponent x * 10 ^ c.exponent x = x := div_mul_cancel₀ x hp.ne'
  rwa [← abs_of_pos hp, ← abs_mul, ← abs_mul, abs_of_pos hp, sub_mul, sub_mul, hd] at h

theorem nearest_le (hs : c.Fits s) (h₀ : 0 ≤ s) (hp : 0 ≤ p) : c.nearest (s + p) ≤ s + 2 * p := by
  have hup {n : ℤ} (hn : |s + p - n * 10 ^ c.exponent (s + p)| ≤ p) : c.nearest (s + p) ≤ s + 2 * p := by
    have := (abs_sub_comm _ _).trans_le ((abs_sub_nearest_le (c := c) (s + p) n).trans hn)
    linarith [le_abs_self (c.nearest (s + p) - (s + p))]
  obtain ⟨m, e, hme, hm, he⟩ := hs
  rcases (add_nonneg h₀ hp).eq_or_lt with hz | hz
  case inl =>
    rw [← hz, nearest_zero]
    linarith
  by_cases hle : c.exponent (s + p) ≤ e
  · obtain ⟨n, hn⟩ := exists_mul_zpow hle m
    refine hup (n := n) ?_
    rw [← hn, ← hme, add_sub_cancel_left, abs_of_nonneg hp]
  · -- The sum has a higher exponent. The power of ten at which its digits begin lies between the two.
    have hpos := c.pos
    have hE : e < Int.log 10 |s + p| - (c.prec - 1) := by
      rw [exponent] at hle
      omega
    have hmq : (m : ℚ) ≤ 10 ^ (c.prec : ℤ) := by
      rw [zpow_natCast]
      exact_mod_cast (le_abs_self m).trans hm
    have hs10 : s ≤ 10 ^ Int.log 10 |s + p| := by
      calc
        s = m * 10 ^ e := hme
        _ ≤ 10 ^ (c.prec : ℤ) * 10 ^ e := mul_le_mul_of_nonneg_right hmq (ten_zpow_pos e).le
        _ = 10 ^ ((c.prec : ℤ) + e) := (zpow_add₀ (by norm_num) _ _).symm
        _ ≤ 10 ^ Int.log 10 |s + p| := ten_zpow_le_iff.mpr (by omega)
    have hlog : (10 : ℚ) ^ Int.log 10 |s + p| ≤ s + p :=
      (log_le (abs_pos.mpr hz.ne')).trans_eq (abs_of_nonneg hz.le)
    have hexp : c.exponent (s + p) ≤ Int.log 10 |s + p| := by
      rw [exponent]
      omega
    obtain ⟨n, hn⟩ := exists_mul_zpow hexp 1
    refine hup (n := n) ?_
    rw [← hn, Int.cast_one, one_mul, abs_of_nonneg (by linarith)]
    linarith

theorem round?_eq_some (h : c.round? x = some y) : y = c.nearest x := by
  simp only [round?, Option.ite_none_right_eq_some, Option.some.injEq] at h
  exact h.2.symm

theorem le_of_round?_eq_none (h : c.round? x = none) (hx : 0 ≤ x) : 10 ^ (c.emax + 1) ≤ c.nearest x := by
  simp only [round?, ite_eq_right_iff, reduceCtorEq, imp_false, not_lt] at h
  rwa [abs_of_nonneg (nearest_nonneg hx)] at h

end Context

end Decimal
