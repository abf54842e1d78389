import Mathlib

/-!
# Hashing by blocks

A message is read in blocks of one size, and a state is carried from block to
block.  A hash that is given its message in pieces keeps the symbols of the last
block until that block is full, so that it does not matter how the message was
cut.  When the message is made up to whole blocks by a padding that tells its
length, two messages with one hash come with two blocks on which the function of
one block collides.
-/

namespace Zbaselib.BlockHash

variable {α σ : Type} {size : ℕ}

/-- A state, and the symbols of a block that is not full. -/
@[ext]
structure Stream (σ α : Type) (size : ℕ) where
  state : σ
  pending : List α
  pending_lt : pending.length < size

/-- A block boundary. -/
def Stream.start (state : σ) (hsize : 0 < size) : Stream σ α size where
  state := state
  pending := []
  pending_lt := hsize

theorem Stream.eq_start {s : Stream σ α size} (h : s.pending = []) (hsize : 0 < size) :
    s = .start s.state hsize := by
  ext1
  · rfl
  · exact h

section Absorb

variable (compress : σ → List α → σ)

/-- One symbol more. -/
def push (s : Stream σ α size) (x : α) : Stream σ α size :=
  if h : s.pending.length + 1 < size then
    ⟨s.state, s.pending ++ [x], by simpa using h⟩
  else
    .start (compress s.state (s.pending ++ [x])) (Nat.zero_lt_of_lt s.pending_lt)

def absorb (s : Stream σ α size) (xs : List α) : Stream σ α size := xs.foldl (push compress) s

@[simp]
theorem absorb_nil (s : Stream σ α size) : absorb compress s [] = s := rfl

/-- The cuts of a message are not seen. -/
theorem absorb_append (s : Stream σ α size) (xs ys : List α) :
    absorb compress s (xs ++ ys) = absorb compress (absorb compress s xs) ys :=
  List.foldl_append

theorem absorb_of_lt {s : Stream σ α size} {xs : List α}
    (h : (s.pending ++ xs).length < size) :
    absorb compress s xs = ⟨s.state, s.pending ++ xs, h⟩ := by
  induction xs generalizing s with
  | nil => ext <;> simp
  | cons x xs ih =>
    have hroom : s.pending.length + 1 < size := by
      simp only [List.length_append, List.length_cons] at h
      omega
    have hpush : push compress s x = ⟨s.state, s.pending ++ [x], by simpa using hroom⟩ :=
      dif_pos hroom
    have happend : s.pending ++ [x] ++ xs = s.pending ++ x :: xs := by simp
    have hrest := ih (s := push compress s x) (by rw [hpush, happend]; exact h)
    calc
      absorb compress s (x :: xs) = absorb compress (push compress s x) xs := rfl
      _ = _ := by
        rw [hrest]
        simp only [hpush, happend]

/-- The block becomes full. -/
theorem absorb_of_eq {s : Stream σ α size} {xs : List α}
    (h : (s.pending ++ xs).length = size) :
    absorb compress s xs =
      .start (compress s.state (s.pending ++ xs)) (Nat.zero_lt_of_lt s.pending_lt) := by
  rw [List.length_append] at h
  have hne : xs ≠ [] := by
    rintro rfl
    exact absurd h s.pending_lt.ne
  have hlast := List.dropLast_append_getLast hne
  have hlength : xs.dropLast.length + 1 = xs.length := by
    rw [List.length_dropLast, Nat.sub_add_cancel (List.length_pos_of_ne_nil hne)]
  have hbefore : (s.pending ++ xs.dropLast).length < size := by
    rw [List.length_append]
    omega
  have hfull : ¬(s.pending ++ xs.dropLast).length + 1 < size := by
    rw [List.length_append]
    omega
  calc
    absorb compress s xs =
        push compress (absorb compress s xs.dropLast) (xs.getLast hne) := by
      conv_lhs => rw [← hlast, absorb_append]
      rfl
    _ = push compress ⟨s.state, s.pending ++ xs.dropLast, hbefore⟩ (xs.getLast hne) := by
      rw [absorb_of_lt compress hbefore]
    _ = _ := by
      rw [push, dif_neg hfull]
      ext1
      · rw [Stream.start, Stream.start, List.append_assoc, hlast]
      · rfl

/-- Whole blocks, from a block boundary on. -/
theorem absorb_flatten {blocks : List (List α)} (hblocks : ∀ block ∈ blocks, block.length = size)
    (state : σ) (hsize : 0 < size) :
    absorb compress (.start state hsize) blocks.flatten =
      .start (blocks.foldl compress state) hsize := by
  induction blocks generalizing state with
  | nil => rfl
  | cons block blocks ih =>
    have hblock : ((Stream.start state hsize : Stream σ α size).pending ++ block).length = size :=
      hblocks block List.mem_cons_self
    rw [List.flatten_cons, absorb_append, absorb_of_eq compress hblock]
    exact ih (fun block hmem ↦ hblocks block (List.mem_cons_of_mem _ hmem)) _

/-- How much of a block is pending is the length of the message modulo the size of a block. -/
theorem length_pending_absorb (s : Stream σ α size) (xs : List α) :
    (absorb compress s xs).pending.length = (s.pending.length + xs.length) % size := by
  induction xs generalizing s with
  | nil => exact (Nat.mod_eq_of_lt s.pending_lt).symm
  | cons x xs ih =>
    have hlt := s.pending_lt
    have hpush : (push compress s x).pending.length = (s.pending.length + 1) % size := by
      unfold push
      split
      · next hroom => simp [Nat.mod_eq_of_lt hroom]
      · next hfull =>
        have heq : s.pending.length + 1 = size := by omega
        simp [Stream.start, heq]
    calc
      _ = ((push compress s x).pending.length + xs.length) % size := ih _
      _ = (s.pending.length + 1 + xs.length) % size := by rw [hpush, Nat.mod_add_mod]
      _ = _ := by rw [List.length_cons, Nat.add_assoc, Nat.add_comm 1]

end Absorb

/-! ## Blocks of a message -/

/-- The whole blocks of a message, in order. -/
def blocks (size : ℕ) (xs : List α) : List (List α) :=
  (List.range (xs.length / size)).map fun i ↦ (xs.drop (size * i)).take size

theorem length_of_mem_blocks {xs block : List α} (h : block ∈ blocks size xs) :
    block.length = size := by
  obtain ⟨i, hi, rfl⟩ := List.mem_map.1 h
  have hend : size * (i + 1) ≤ size * (xs.length / size) :=
    Nat.mul_le_mul_left size (List.mem_range.1 hi)
  have hle : size * (xs.length / size) ≤ xs.length := Nat.mul_div_le _ _
  rw [Nat.mul_succ] at hend
  rw [List.length_take, List.length_drop]
  omega

/-- The first `n` blocks. -/
theorem flatten_map_range (size : ℕ) (xs : List α) (n : ℕ) :
    ((List.range n).map fun i ↦ (xs.drop (size * i)).take size).flatten = xs.take (size * n) := by
  induction n with
  | zero => simp
  | succ n ih =>
    rw [List.range_succ, List.map_append, List.flatten_append, ih, Nat.mul_succ, List.take_add]
    simp

theorem flatten_blocks {xs : List α} (h : size ∣ xs.length) : (blocks size xs).flatten = xs := by
  rw [blocks, flatten_map_range, Nat.mul_div_cancel' h, List.take_length]

/-- A message of whole blocks, absorbed symbol by symbol. -/
theorem absorb_blocks (compress : σ → List α → σ) {xs : List α} (h : size ∣ xs.length) (state : σ)
    (hsize : 0 < size) :
    absorb compress (.start state hsize) xs =
      .start ((blocks size xs).foldl compress state) hsize := by
  conv_lhs => rw [← flatten_blocks h]
  exact absorb_flatten compress (fun _ ↦ length_of_mem_blocks) state hsize

/-! ## Collisions -/

section Collision

variable (compress : σ → List α → σ) (state : σ)

/-- A block of the one message and a block of the other collide: the two differ, or the states
they are met in do, and the function of one block answers the same. -/
def Collide (bs bs' : List (List α)) : Prop :=
  ∃ before block before' block', before ++ [block] <+: bs ∧ before' ++ [block'] <+: bs' ∧
    (before.foldl compress state, block) ≠ (before'.foldl compress state, block') ∧
      compress (before.foldl compress state) block = compress (before'.foldl compress state) block'

variable {compress state}

theorem Collide.append {bs bs' : List (List α)} (h : Collide compress state bs bs')
    (xs ys : List (List α)) : Collide compress state (bs ++ xs) (bs' ++ ys) := by
  obtain ⟨before, block, before', block', hbs, hbs', hne, heq⟩ := h
  exact ⟨before, block, before', block', hbs.trans (List.prefix_append _ _),
    hbs'.trans (List.prefix_append _ _), hne, heq⟩

/-- Without a collision the blocks of the one message end with those of the other. -/
theorem collide_or_suffix {bs bs' : List (List α)}
    (h : bs.foldl compress state = bs'.foldl compress state) :
    Collide compress state bs bs' ∨ bs <:+ bs' ∨ bs' <:+ bs := by
  induction bs using List.reverseRecOn generalizing bs' with
  | nil => exact .inr (.inl bs'.nil_suffix)
  | append_singleton before block ih =>
    rcases List.eq_nil_or_concat' bs' with rfl | ⟨before', block', rfl⟩
    · exact .inr (.inr List.nil_suffix)
    rw [List.foldl_concat, List.foldl_concat] at h
    by_cases hpair :
        (before.foldl compress state, block) = (before'.foldl compress state, block')
    · rw [Prod.mk.injEq] at hpair
      obtain ⟨hstate, rfl⟩ := hpair
      rcases ih hstate with hcollide | ⟨front, rfl⟩ | ⟨front, rfl⟩
      · exact .inl (hcollide.append _ _)
      · exact .inr (.inl ⟨front, (List.append_assoc _ _ _).symm⟩)
      · exact .inr (.inr ⟨front, (List.append_assoc _ _ _).symm⟩)
    · exact .inl ⟨before, block, before', block', List.prefix_rfl, List.prefix_rfl, hpair, h⟩

end Collision

end Zbaselib.BlockHash
