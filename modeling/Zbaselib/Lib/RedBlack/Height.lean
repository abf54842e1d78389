import Zbaselib.Lib.RedBlack.Tree

/-!
# The height of a red-black tree
-/

namespace Zbaselib.RedBlack

variable {α : Type} {t : RBTree α} {n : ℕ}

/-- The number of nodes on a longest way down. -/
def RBTree.height : RBTree α → ℕ
  | .leaf => 0
  | .node _ left _ right => max left.height right.height + 1

/-- The black nodes alone make up a full tree. -/
theorem two_pow_blackHeight_le (h : t.BlackHeight n) : 2 ^ n ≤ t.toList.length + 1 := by
  induction t generalizing n with
  | leaf =>
    obtain rfl : n = 0 := h
    simp
  | node c left value right ihleft ihright =>
    obtain ⟨m, rfl, hleft, hright⟩ := h
    have hl := ihleft hleft
    have hr := ihright hright
    have hsize : (RBTree.node c left value right).toList.length =
        left.toList.length + right.toList.length + 1 := by
      simp only [RBTree.toList_node, List.length_append, List.length_cons]
      omega
    rw [hsize]
    cases c with
    | red => simpa [Color.weight] using by omega
    | black =>
      rw [Color.weight, pow_succ]
      omega

/-- No two red nodes in a row: below a black node every other node is black at least. -/
theorem height_le_of_noRedRed (hheight : t.BlackHeight n) (h : t.NoRedRed) :
    t.height + t.color.weight ≤ 2 * n + 1 := by
  induction t generalizing n with
  | leaf => simp [RBTree.height, Color.weight]
  | node c left value right ihleft ihright =>
    obtain ⟨m, rfl, hleft, hright⟩ := hheight
    obtain ⟨hred, hl, hr⟩ := h
    have hl := ihleft hleft hl
    have hr := ihright hright hr
    simp only [RBTree.height, RBTree.color_node]
    cases c with
    | red =>
      obtain ⟨hcl, hcr⟩ := hred rfl
      rw [hcl] at hl
      rw [hcr] at hr
      simp only [Color.weight] at hl hr ⊢
      omega
    | black =>
      simp only [Color.weight]
      omega

/-- **A red-black tree is at most twice as high as a full tree of its size.** -/
theorem Valid.height_le (h : Valid t) : t.height ≤ 2 * Nat.log 2 (t.toList.length + 1) := by
  obtain ⟨n, hheight⟩ := h.height
  have hlog : n ≤ Nat.log 2 (t.toList.length + 1) :=
    (Nat.le_log_iff_pow_le (by omega) (by omega)).2 (two_pow_blackHeight_le hheight)
  have hbound := height_le_of_noRedRed hheight h.noRedRed
  rw [h.root, Color.weight] at hbound
  omega

end Zbaselib.RedBlack
