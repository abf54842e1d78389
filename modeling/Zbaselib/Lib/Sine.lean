import Mathlib

/-!
# Binary digits of the sine of a natural number

The Taylor sum of the sine is computed over the integers, multiplied by the last
factorial.  When the error of the sum does not reach the next integer, the first
binary digits of the sine are those of the sum.
-/

namespace Zbaselib.Sine

open Complex

/-- The imaginary part of the first `n` terms of the exponential series at `x * I`, times
`(n - 1)!`; the power of `x * I` that comes next. -/
def taylor (x : ℤ) : ℕ → ℤ × ℤ × ℤ
  | 0 => (0, 1, 0)
  | n + 1 =>
    (n * (taylor x n).1 + (taylor x n).2.2, -x * (taylor x n).2.2, x * (taylor x n).2.1)

/-- The first `k` binary digits of the sine of `x`, up to the sign, make the number `digits`; `n`
terms tell. -/
def Digits (k n x digits : ℕ) : Prop :=
  digits * (n + 1).factorial + 2 ^ (k + 1) * x ^ (n + 1) ≤
      2 ^ k * (n + 1) * (taylor x (n + 1)).1.natAbs ∧
    2 ^ k * (n + 1) * (taylor x (n + 1)).1.natAbs + 2 ^ (k + 1) * x ^ (n + 1) <
      (digits + 1) * (n + 1).factorial

instance (k n x digits : ℕ) : Decidable (Digits k n x digits) :=
  inferInstanceAs (Decidable (_ ∧ _))

/-- The power of `x * I` in real and imaginary part. -/
theorem taylor_snd (x : ℤ) (n : ℕ) :
    ((taylor x n).2.1 : ℂ) + (taylor x n).2.2 * I = (x * I) ^ n := by
  induction n with
  | zero => simp [taylor]
  | succ n ih =>
    calc
      _ = (((taylor x n).2.1 : ℂ) + (taylor x n).2.2 * I) * (x * I) := by
        simp only [taylor]
        push_cast
        linear_combination (x * (taylor x n).2.2 : ℂ) * (-I_sq)
      _ = _ := by rw [ih, pow_succ]

theorem im_taylor (x : ℤ) (n : ℕ) : ((taylor x n).2.2 : ℝ) = (((x : ℂ) * I) ^ n).im := by
  rw [← taylor_snd]
  simp

/-- The sum in the integers is the Taylor sum. -/
theorem taylor_fst (x : ℤ) (n : ℕ) :
    ((taylor x (n + 1)).1 : ℝ) =
      n.factorial * (∑ m ∈ Finset.range (n + 1), ((x : ℂ) * I) ^ m / m.factorial).im := by
  induction n with
  | zero => simp [taylor]
  | succ n ih =>
    have hpos : ((n + 1).factorial : ℝ) ≠ 0 := by positivity
    have hterm : (((x : ℂ) * I) ^ (n + 1) / (n + 1).factorial).im =
        (taylor x (n + 1)).2.2 / (n + 1).factorial := by
      rw [im_taylor, ← ofReal_natCast, div_ofReal_im]
    calc
      ((taylor x (n + 1 + 1)).1 : ℝ) =
          (n + 1 : ℕ) * (taylor x (n + 1)).1 + (taylor x (n + 1)).2.2 := by
        rw [taylor]
        push_cast
        rfl
      _ = (n + 1).factorial *
            (∑ m ∈ Finset.range (n + 1), ((x : ℂ) * I) ^ m / m.factorial).im +
          (n + 1).factorial * ((taylor x (n + 1)).2.2 / (n + 1).factorial) := by
        rw [ih, mul_div_cancel₀ _ hpos, Nat.factorial_succ]
        push_cast
        ring
      _ = _ := by
        rw [Finset.sum_range_succ _ (n + 1), add_im, hterm]
        ring

/-- The error of the Taylor sum. -/
theorem abs_sin_sub_taylor_le {x n : ℕ} (hx : 2 * x ≤ n + 2) :
    |(n + 1).factorial * Real.sin x - (n + 1) * (taylor x (n + 1)).1| ≤ 2 * (x : ℝ) ^ (n + 1) := by
  have hnorm : ‖(((x : ℤ) : ℂ) * I)‖ = x := by simp
  have hsmall : ‖(((x : ℤ) : ℂ) * I)‖ / (n + 1).succ ≤ 1 / 2 := by
    rw [hnorm, div_le_iff₀ (by positivity)]
    have hcast : (2 : ℝ) * x ≤ n + 2 := mod_cast hx
    push_cast
    linarith
  have hbound := exp_bound' hsmall
  have hsin : (exp (((x : ℤ) : ℂ) * I)).im = Real.sin x := by
    rw [Int.cast_natCast, ← ofReal_natCast, exp_ofReal_mul_I_im]
  have him : |Real.sin x -
      (∑ m ∈ Finset.range (n + 1), (((x : ℤ) : ℂ) * I) ^ m / m.factorial).im| ≤
        (x : ℝ) ^ (n + 1) / (n + 1).factorial * 2 := by
    rw [← hsin, ← sub_im]
    rw [hnorm] at hbound
    exact (abs_im_le_norm _).trans hbound
  have hpos : (0 : ℝ) < (n + 1).factorial := by positivity
  calc
    _ = (n + 1).factorial * |Real.sin x -
        (∑ m ∈ Finset.range (n + 1), (((x : ℤ) : ℂ) * I) ^ m / m.factorial).im| := by
      rw [← abs_of_pos hpos, ← abs_mul, abs_of_pos hpos, taylor_fst, Nat.factorial_succ]
      push_cast
      ring_nf
    _ ≤ (n + 1).factorial * ((x : ℝ) ^ (n + 1) / (n + 1).factorial * 2) := by gcongr
    _ = _ := by field_simp

/-- **The digits are right.** -/
theorem floor_abs_sin {k n x digits : ℕ} (hx : 2 * x ≤ n + 2) (h : Digits k n x digits) :
    ⌊2 ^ k * |Real.sin x|⌋₊ = digits := by
  obtain ⟨hle, hlt⟩ := h
  have hpos : (0 : ℝ) < (n + 1).factorial := by positivity
  have herror := (abs_abs_sub_abs_le _ _).trans (abs_sin_sub_taylor_le hx)
  rw [abs_mul, abs_mul, abs_of_pos hpos, abs_of_pos (by positivity : (0 : ℝ) < n + 1),
    ← Int.cast_abs, Int.abs_eq_natAbs, Int.cast_natCast] at herror
  obtain ⟨hlow, hhigh⟩ := abs_le.1 herror
  have hle' : (digits : ℝ) * (n + 1).factorial + 2 ^ (k + 1) * (x : ℝ) ^ (n + 1) ≤
      2 ^ k * (n + 1) * (taylor x (n + 1)).1.natAbs := mod_cast hle
  have hlt' : 2 ^ k * ((n : ℝ) + 1) * (taylor x (n + 1)).1.natAbs +
      2 ^ (k + 1) * (x : ℝ) ^ (n + 1) < (digits + 1) * (n + 1).factorial := mod_cast hlt
  have hk : (0 : ℝ) < 2 ^ k := by positivity
  rw [Nat.floor_eq_iff (by positivity)]
  constructor
  · refine le_of_mul_le_mul_right ?_ hpos
    rw [pow_succ] at hle'
    nlinarith [mul_le_mul_of_nonneg_left hlow hk.le]
  · refine lt_of_mul_lt_mul_right ?_ hpos.le
    rw [pow_succ] at hlt'
    nlinarith [mul_le_mul_of_nonneg_left hhigh hk.le]

end Zbaselib.Sine
