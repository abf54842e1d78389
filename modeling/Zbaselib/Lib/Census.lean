import Mathlib

/-!
# How many threads are where

The number of threads in a class of places.  When one thread moves, the number
changes by what that thread was and is.
-/

namespace Zbaselib.Census

variable {ι κ : Type} [Fintype ι]

/-- The number of threads in the places that `p` describes. -/
def census (p : κ → Bool) (threads : ι → κ) : ℕ := ∑ i, (p (threads i)).toNat

variable {p q : κ → Bool} {threads : ι → κ}

theorem census_pos {i : ι} (h : p (threads i) = true) : 0 < census p threads := by
  have hle : (p (threads i)).toNat ≤ census p threads :=
    Finset.single_le_sum (f := fun k ↦ (p (threads k)).toNat) (fun _ _ ↦ Nat.zero_le _)
      (Finset.mem_univ i)
  rw [h] at hle
  exact hle

theorem census_mono (h : ∀ x, p x = true → q x = true) : census p threads ≤ census q threads := by
  refine Finset.sum_le_sum fun i _ ↦ ?_
  cases hp : p (threads i) with
  | false => exact Nat.zero_le _
  | true => rw [h _ hp]

theorem census_eq_zero (h : ∀ i, p (threads i) = false) : census p threads = 0 :=
  Finset.sum_eq_zero fun i _ ↦ by rw [h i]; rfl

section

variable [DecidableEq ι]

/-- One thread moves. -/
theorem census_update (p : κ → Bool) (threads : ι → κ) (i : ι) (x : κ) :
    census p (Function.update threads i x) + (p (threads i)).toNat =
      census p threads + (p x).toNat := by
  have hrest : ∀ k ∈ Finset.univ.erase i, Function.update threads i x k = threads k :=
    fun k hk ↦ Function.update_of_ne (Finset.ne_of_mem_erase hk) _ _
  unfold census
  rw [← Finset.add_sum_erase _ _ (Finset.mem_univ i), Function.update_self,
    ← Finset.add_sum_erase Finset.univ (fun k ↦ (p (threads k)).toNat) (Finset.mem_univ i),
    Finset.sum_congr rfl fun k hk ↦ by rw [hrest k hk]]
  omega

end

end Zbaselib.Census
