import Mathlib

/-!
# Strings in blocks of memory

A string ends at the first NUL of its block.  A block without one holds no
string.
-/

namespace Zbaselib.CString

/-- The string at the beginning of a block. -/
def cstring (block : List UInt8) : Option (List UInt8) :=
  if 0 ∈ block then some (block.takeWhile (· ≠ 0)) else none

/-! ## Up to a character -/

section

variable {stop : UInt8} {s : List UInt8}

theorem takeWhile_ne (hs : stop ∉ s) : s.takeWhile (· ≠ stop) = s := by
  rw [List.takeWhile_eq_self_iff]
  intro c hc
  exact decide_eq_true fun hstop ↦ hs (hstop ▸ hc)

theorem takeWhile_ne_append (hs : stop ∉ s) (rest : List UInt8) :
    (s ++ rest).takeWhile (· ≠ stop) = s ++ rest.takeWhile (· ≠ stop) := by
  rw [List.takeWhile_append, takeWhile_ne hs, if_pos rfl]

theorem takeWhile_ne_append_cons (hs : stop ∉ s) (rest : List UInt8) :
    (s ++ stop :: rest).takeWhile (· ≠ stop) = s := by
  rw [takeWhile_ne_append hs, List.takeWhile_cons_of_neg (by simp), List.append_nil]

end

/-! ## Strings -/

theorem cstring_append {s : List UInt8} (hs : 0 ∉ s) (rest : List UInt8) :
    cstring (s ++ 0 :: rest) = some s := by
  unfold cstring
  rw [if_pos (by simp), takeWhile_ne_append_cons hs]

/-- A block that ends before its string does. -/
theorem cstring_append_of_notMem {u : List UInt8} (hu : 0 ∉ u) (rest : List UInt8) :
    cstring (u ++ rest) = (cstring rest).map (u ++ ·) := by
  unfold cstring
  by_cases hrest : 0 ∈ rest
  · rw [if_pos (List.mem_append_right u hrest), if_pos hrest, takeWhile_ne_append hu,
      Option.map_some]
  · have hnone : 0 ∉ u ++ rest := by
      rw [List.mem_append, not_or]
      exact ⟨hu, hrest⟩
    rw [if_neg hnone, if_neg hrest, Option.map_none]

theorem cstring_eq_nil {block : List UInt8} : cstring block = some [] ↔ block.head? = some 0 := by
  unfold cstring
  cases block with
  | nil => simp
  | cons c block =>
    by_cases hc : c = 0
    · simp [hc]
    · simp [hc]

theorem cstring_of_notMem {block : List UInt8} (h : 0 ∉ block) : cstring block = none := if_neg h

end Zbaselib.CString
