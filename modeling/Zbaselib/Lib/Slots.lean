import Zbaselib.Lib.Block

/-!
# Blocks of slots

A block that holds elements of one width, one behind the other.  An element is
written by a copy to a multiple of the width; the elements behind a position
move by one slot when they are copied one at a time into the slot that is free.
-/

namespace Zbaselib.Slots

open Block

variable {α : Type}

/-- The first `n` slots of a block. -/
def slots (width : ℕ) : ℕ → List α → List (List α)
  | 0, _ => []
  | n + 1, block => block.take width :: slots width n (block.drop width)

/-- Every element fills a slot. -/
def Uniform (width : ℕ) (elems : List (List α)) : Prop :=
  ∀ elem ∈ elems, elem.length = width

variable {width : ℕ} {elem gap after : List α} {elems front back : List (List α)}

@[simp]
theorem uniform_nil : Uniform width ([] : List (List α)) := by
  unfold Uniform
  simp

@[simp]
theorem uniform_cons :
    Uniform width (elem :: elems) ↔ elem.length = width ∧ Uniform width elems := by
  unfold Uniform
  exact List.forall_mem_cons

@[simp]
theorem uniform_append :
    Uniform width (front ++ back) ↔ Uniform width front ∧ Uniform width back := by
  unfold Uniform
  exact List.forall_mem_append

theorem Uniform.length_flatten (h : Uniform width elems) :
    elems.flatten.length = elems.length * width := by
  induction elems with
  | nil => simp
  | cons elem elems ih =>
    obtain ⟨helem, helems⟩ := uniform_cons.1 h
    rw [List.flatten_cons, List.length_append, ih helems, helem, List.length_cons,
      Nat.succ_mul, Nat.add_comm]

/-- The slots of a block that begins with these elements. -/
theorem Uniform.slots_append (h : Uniform width elems) (after : List α) :
    slots width elems.length (elems.flatten ++ after) = elems := by
  induction elems with
  | nil => rfl
  | cons elem elems ih =>
    obtain ⟨helem, helems⟩ := uniform_cons.1 h
    rw [List.length_cons, slots, List.flatten_cons, List.append_assoc, List.take_left' helem,
      List.drop_left' helem, ih helems]

@[simp]
theorem length_slots (width n : ℕ) (block : List α) : (slots width n block).length = n := by
  induction n generalizing block with
  | zero => rfl
  | succ n ih => rw [slots, List.length_cons, ih]

theorem uniform_slots {n : ℕ} {block : List α} (h : n * width ≤ block.length) :
    Uniform width (slots width n block) := by
  induction n generalizing block with
  | zero => exact uniform_nil
  | succ n ih =>
    rw [Nat.succ_mul] at h
    refine uniform_cons.2 ⟨List.length_take_of_le (by omega), ih ?_⟩
    rw [List.length_drop]
    omega

/-- Slots that fit into a block are the beginning of the block. -/
theorem flatten_slots {n : ℕ} {block : List α} (h : n * width ≤ block.length) :
    (slots width n block).flatten = block.take (n * width) := by
  induction n generalizing block with
  | zero => simp [slots]
  | succ n ih =>
    rw [Nat.succ_mul] at h
    have hrest : n * width ≤ (block.drop width).length := by
      rw [List.length_drop]
      omega
    rw [slots, List.flatten_cons, ih hrest, Nat.succ_mul, Nat.add_comm, List.take_add]

/-! ## Single slots -/

theorem read_slot (h : Uniform width front) (helem : elem.length = width) (after : List α) :
    ((front.flatten ++ elem ++ after).drop (front.length * width)).take width = elem := by
  rw [List.append_assoc, List.drop_left' h.length_flatten, List.take_left' helem]

theorem write_slot (h : Uniform width front) (helem : elem.length = width)
    (hgap : gap.length = width) (after : List α) :
    splice (front.flatten ++ gap ++ after) (front.length * width) elem =
      front.flatten ++ elem ++ after :=
  splice_append h.length_flatten (helem.trans hgap.symm)

/-- The last element before the free slot moves into it. -/
theorem move_up (h : Uniform width front) (helem : elem.length = width)
    (hgap : gap.length = width) (after : List α) :
    splice (front.flatten ++ elem ++ (gap ++ after)) ((front.length + 1) * width)
        (((front.flatten ++ elem ++ (gap ++ after)).drop (front.length * width)).take width) =
      front.flatten ++ elem ++ (elem ++ after) := by
  have hnext : (front ++ [elem]).flatten = front.flatten ++ elem := by simp
  have hlen : front.length + 1 = (front ++ [elem]).length := by simp
  rw [read_slot h helem, hlen, ← hnext, ← List.append_assoc,
    write_slot (by simpa using ⟨h, helem⟩) helem hgap, List.append_assoc _ elem after]

/-- The first element behind the free slot moves into it. -/
theorem move_down (h : Uniform width front) (helem : elem.length = width)
    (hgap : gap.length = width) (after : List α) :
    splice (front.flatten ++ gap ++ (elem ++ after)) (front.length * width)
        (((front.flatten ++ gap ++ (elem ++ after)).drop ((front.length + 1) * width)).take width) =
      front.flatten ++ elem ++ (elem ++ after) := by
  have hnext : (front ++ [gap]).flatten = front.flatten ++ gap := by simp
  have hlen : front.length + 1 = (front ++ [gap]).length := by simp
  have hfront : Uniform width (front ++ [gap]) := by simpa using ⟨h, hgap⟩
  have hread := read_slot hfront helem after
  rw [hnext, List.append_assoc _ elem after] at hread
  rw [hlen, hread, write_slot h helem hgap]

end Zbaselib.Slots
