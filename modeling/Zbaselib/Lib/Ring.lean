import Zbaselib.Lib.Block

/-!
# Windows of a ring

A block read circularly.  A ring operation touches one contiguous range, or the
end and the beginning of the block; the lemmas below say that both amount to
the same window.
-/

namespace Zbaselib.Ring

open Block

variable {α : Type} [Inhabited α]

/-- The `count` cells from `start` on, wrapping at the end of the block. -/
def window (block : List α) (start count : ℕ) : List α :=
  (List.range count).map fun i ↦ block.getD ((start + i) % block.length) default

variable {block block' xs : List α} {start k m n : ℕ}

@[simp]
theorem length_window : (window block start n).length = n := by
  unfold window
  simp

theorem getElem?_window (hk : k < n) :
    (window block start n)[k]? = some (block.getD ((start + k) % block.length) default) := by
  unfold window
  simp [hk]

theorem window_congr (hlen : block'.length = block.length)
    (h : ∀ i < n, block'[(start + i) % block.length]? = block[(start + i) % block.length]?) :
    window block' start n = window block start n := by
  unfold window
  refine List.map_congr_left fun i hi ↦ ?_
  rw [List.getD_eq_getElem?_getD, List.getD_eq_getElem?_getD, hlen, h i (List.mem_range.1 hi)]

theorem window_append :
    window block start (m + n) =
      window block start m ++ window block ((start + m) % block.length) n := by
  unfold window
  rw [List.range_add, List.map_append, List.map_map]
  congr 1
  refine List.map_congr_left fun i _ ↦ ?_
  rw [Function.comp_apply, Nat.mod_add_mod, Nat.add_assoc]

theorem take_window (h : m ≤ n) : (window block start n).take m = window block start m := by
  obtain ⟨k, rfl⟩ := Nat.exists_eq_add_of_le h
  rw [window_append, List.take_append_of_le_length (by simp), List.take_of_length_le (by simp)]

theorem drop_window (h : m ≤ n) :
    (window block start n).drop m = window block ((start + m) % block.length) (n - m) := by
  obtain ⟨k, rfl⟩ := Nat.exists_eq_add_of_le h
  rw [window_append, List.drop_append_of_le_length (by simp), List.drop_of_length_le (by simp),
    List.nil_append, Nat.add_sub_cancel_left]

/-- A window that does not reach the end of the block. -/
theorem window_of_le (h : start + n ≤ block.length) :
    window block start n = (block.drop start).take n := by
  apply List.ext_getElem?
  intro k
  by_cases hk : k < n
  · rw [getElem?_window hk, List.getElem?_take_of_lt hk, List.getElem?_drop,
      Nat.mod_eq_of_lt (by omega), List.getD_eq_getElem?_getD,
      List.getElem?_eq_getElem (by omega), Option.getD_some]
  · rw [List.getElem?_eq_none (by simp; omega), List.getElem?_eq_none (by simp; omega)]

/-- A window that wraps. -/
theorem window_of_gt (hstart : start < block.length) (hn : n ≤ block.length)
    (h : block.length < start + n) :
    window block start n = block.drop start ++ block.take (n + start - block.length) := by
  have hsum : n = (block.length - start) + (n + start - block.length) := by omega
  rw [hsum, window_append, window_of_le (by omega), List.take_of_length_le (by simp)]
  have hmod : (start + (block.length - start)) % block.length = 0 := by
    rw [Nat.add_sub_cancel' (by omega), Nat.mod_self]
  rw [hmod, window_of_le (by omega), List.drop_zero]
  congr 2
  omega

/-! ## Writing -/

/-- Less than a turn apart, two offsets are different cells. -/
theorem mod_ne_mod {a i j size : ℕ} (hij : i < j) (hj : j < i + size) :
    (a + i) % size ≠ (a + j) % size := by
  intro h
  have hzero := Nat.sub_mod_eq_zero_of_mod_eq h.symm
  rw [Nat.add_sub_add_left, Nat.mod_eq_of_lt (by omega)] at hzero
  omega

/-- `block'` is `block` with `xs` written from `start` on, circularly. -/
structure Put (block : List α) (start : ℕ) (xs block' : List α) : Prop where
  length : block'.length = block.length
  written : window block' start xs.length = xs
  rest : ∀ k, (∀ i < xs.length, k ≠ (start + i) % block.length) → block'[k]? = block[k]?

theorem put_splice (h : start + xs.length ≤ block.length) :
    Put block start xs (splice block start xs) := by
  have hlen := length_splice h
  refine ⟨hlen, ?_, fun k hk ↦ ?_⟩
  · rw [window_of_le (by omega)]
    apply List.ext_getElem?
    intro k
    by_cases hk : k < xs.length
    · rw [List.getElem?_take_of_lt hk, List.getElem?_drop, getElem?_splice h, if_pos (by omega)]
      congr 1
      omega
    · rw [List.getElem?_eq_none (by simp; omega), List.getElem?_eq_none (by omega)]
  · rw [getElem?_splice h, if_neg]
    intro hin
    refine hk (k - start) (by omega) ?_
    by_cases hlt : k < block.length
    · rw [Nat.mod_eq_of_lt (by omega)]
      omega
    · omega

/-- Two writes in a row. -/
theorem Put.append {block'' ys : List α} (h : Put block start xs block')
    (h' : Put block' ((start + xs.length) % block.length) ys block'')
    (hlen : xs.length + ys.length ≤ block.length) :
    Put block start (xs ++ ys) block'' := by
  have hfirst : window block'' start xs.length = window block' start xs.length := by
    refine window_congr h'.length fun i hi ↦ h'.rest _ fun j hj ↦ ?_
    rw [h.length, Nat.mod_add_mod, Nat.add_assoc]
    exact mod_ne_mod (by omega) (by omega)
  refine ⟨h'.length.trans h.length, ?_, fun k hk ↦ ?_⟩
  · have hwritten := h'.written
    rw [List.length_append, window_append, h'.length, h.length, hfirst, h.written, hwritten]
  · rw [h'.rest k fun j hj ↦ ?_, h.rest k fun i hi ↦ hk i (by rw [List.length_append]; omega)]
    have hk' := hk (xs.length + j) (by rw [List.length_append]; omega)
    rwa [h.length, Nat.mod_add_mod, Nat.add_assoc]

/-- A write behind a window extends it. -/
theorem Put.window_append (h : Put block ((start + k) % block.length) xs block')
    (hlen : k + xs.length ≤ block.length) :
    window block' start (k + xs.length) = window block start k ++ xs := by
  have hfirst : window block' start k = window block start k := by
    refine window_congr h.length fun i hi ↦ h.rest _ fun j hj ↦ ?_
    rw [Nat.mod_add_mod, Nat.add_assoc]
    exact mod_ne_mod (by omega) (by omega)
  have hwritten := h.written
  rw [← h.length] at hwritten
  rw [Ring.window_append, hfirst, hwritten]

end Zbaselib.Ring
