import Mathlib

/-!
# Horner's scheme

A polynomial whose coefficients come one after the other, the highest first, is
evaluated with one multiplication and one addition for each.
-/

namespace Zbaselib.Horner

variable {R : Type} [CommSemiring R]

/-- The value at `x` of the polynomial with these coefficients. -/
def horner (x : R) (coeffs : List R) : R := coeffs.foldl (fun value c ↦ value * x + c) 0

@[simp]
theorem horner_nil (x : R) : horner x [] = 0 := rfl

/-- One more coefficient. -/
theorem horner_concat (x : R) (coeffs : List R) (c : R) :
    horner x (coeffs ++ [c]) = horner x coeffs * x + c := by
  unfold horner
  rw [List.foldl_append]
  rfl

/-- Two runs of coefficients. -/
theorem horner_append (x : R) (high low : List R) :
    horner x (high ++ low) = horner x high * x ^ low.length + horner x low := by
  induction low using List.reverseRecOn with
  | nil => simp
  | append_singleton low c ih =>
    calc
      _ = horner x (high ++ low) * x + c := by rw [← List.append_assoc, horner_concat]
      _ = (horner x high * x ^ low.length + horner x low) * x + c := by rw [ih]
      _ = horner x high * x ^ (low.length + 1) + (horner x low * x + c) := by ring
      _ = _ := by rw [List.length_append, horner_concat]; rfl

/-- The polynomial, written out. -/
theorem horner_eq_sum (x : R) (coeffs : List R) :
    horner x coeffs = ∑ k : Fin coeffs.length, coeffs[k] * x ^ (coeffs.length - 1 - k) := by
  induction coeffs with
  | nil => simp
  | cons c coeffs ih =>
    have hexponent (k : Fin coeffs.length) :
        coeffs.length - 1 - (k : ℕ) = coeffs.length - (k + 1) := by omega
    calc
      _ = horner x [c] * x ^ coeffs.length + horner x coeffs := horner_append x [c] coeffs
      _ = c * x ^ coeffs.length +
          ∑ k : Fin coeffs.length, coeffs[k] * x ^ (coeffs.length - 1 - k) := by
        rw [ih]
        simp [horner]
      _ = _ := by simp [Fin.sum_univ_succ, hexponent]

end Zbaselib.Horner
