import Zbaselib.Lib.Program

/-!
# Blocks of memory

A block is the list of its cells.  Copies are checked against the bounds of
both blocks, so a program that has an outcome stayed inside them.
-/

namespace Zbaselib.Block

open Program

variable {α σ : Type}

/-- `xs` laid over a block from index `i` on. -/
def splice (block : List α) (i : ℕ) (xs : List α) : List α :=
  block.take i ++ xs ++ block.drop (i + xs.length)

/-- `memcpy(block + i, src + j, n)` -/
def memcpy (block : List α) (i : ℕ) (src : List α) (j n : ℕ) : Cmd σ (List α) := do
  require (i + n ≤ block.length ∧ j + n ≤ src.length)
  return splice block i ((src.drop j).take n)

/-- What `realloc(block, size)` answers, with the contents of the new cells; `none` is `NULL`.
Requests above `PTRDIFF_MAX` are always refused. -/
def realloc (block : List α) (size : ℕ) (fresh : Option (ℕ → α)) : Option (List α) :=
  match fresh with
  | some fresh =>
    if size < 2 ^ 63 then
      some (block.take size ++ (List.range (size - block.length)).map fresh)
    else
      none
  | none => none

@[simp]
theorem splice_nil (block : List α) (i : ℕ) : splice block i [] = block := by
  unfold splice
  simp

theorem splice_zero (block xs : List α) : splice block 0 xs = xs ++ block.drop xs.length := by
  unfold splice
  simp

theorem length_splice {block xs : List α} {i : ℕ} (h : i + xs.length ≤ block.length) :
    (splice block i xs).length = block.length := by
  unfold splice
  simp only [List.length_append, List.length_take, List.length_drop]
  omega

theorem getElem?_splice {block xs : List α} {i : ℕ} (h : i + xs.length ≤ block.length) (k : ℕ) :
    (splice block i xs)[k]? = if i ≤ k ∧ k < i + xs.length then xs[k - i]? else block[k]? := by
  unfold splice
  have hi : (block.take i).length = i := by
    rw [List.length_take]
    omega
  by_cases hlow : k < i
  · rw [if_neg (by omega), List.append_assoc, List.getElem?_append_left (by omega),
      List.getElem?_take_of_lt hlow]
  by_cases hhigh : k < i + xs.length
  · rw [if_pos (by omega), List.append_assoc, List.getElem?_append_right (by omega), hi,
      List.getElem?_append_left (by omega)]
  · have hlen : (block.take i ++ xs).length = i + xs.length := by rw [List.length_append, hi]
    rw [if_neg (by omega), List.getElem?_append_right (by omega), hlen, List.getElem?_drop]
    congr 1
    omega

/-- The cells before the copied range. -/
theorem take_splice {block : List α} {i : ℕ} (h : i ≤ block.length) (xs : List α) :
    (splice block i xs).take (i + xs.length) = block.take i ++ xs := by
  unfold splice
  rw [List.take_append_of_le_length, List.take_of_length_le] <;>
    simp only [List.length_append, List.length_take] <;> omega

/-- A copy that starts where the previous one ended. -/
theorem splice_splice {block xs ys : List α} {i : ℕ}
    (h : i + xs.length + ys.length ≤ block.length) :
    splice (splice block i xs) (i + xs.length) ys = splice block i (xs ++ ys) := by
  have hdrop : (splice block i xs).drop (i + xs.length + ys.length) =
      block.drop (i + (xs ++ ys).length) := by
    unfold splice
    rw [List.drop_append, List.drop_eq_nil_of_le, List.nil_append, List.drop_drop] <;>
      simp only [List.length_append, List.length_take]
    · congr 1
      omega
    · omega
  rw [splice, take_splice (by omega) xs, hdrop, splice, List.append_assoc _ xs ys]

/-- A copy over a part of the same length. -/
theorem splice_append {before part after xs : List α} {i : ℕ} (hi : before.length = i)
    (hxs : xs.length = part.length) :
    splice (before ++ part ++ after) i xs = before ++ xs ++ after := by
  have htake : (before ++ part ++ after).take i = before := by
    rw [List.append_assoc, List.take_left' hi]
  have hdrop : (before ++ part ++ after).drop (i + xs.length) = after :=
    List.drop_left' (by rw [List.length_append, hi, hxs])
  rw [splice, htake, hdrop]

/-- Filling a block from its beginning in two pieces. -/
theorem splice_zero_splice {block xs ys : List α} {i : ℕ} (hi : xs.length = i)
    (h : i + ys.length ≤ block.length) :
    splice (splice block 0 xs) i ys = xs ++ ys ++ block.drop (i + ys.length) := by
  have hsplice := splice_splice (i := 0) (show 0 + xs.length + ys.length ≤ block.length by omega)
  rw [Nat.zero_add, hi] at hsplice
  rw [hsplice, splice_zero, List.length_append, hi]

/-- A successful `realloc` has the new size and keeps what both blocks have room for. -/
theorem realloc_eq_some (block : List α) {size : ℕ} {fresh : Option (ℕ → α)}
    (hsize : size < 2 ^ 63) (hfresh : fresh.isSome) :
    ∃ block', realloc block size fresh = some block' ∧ block'.length = size ∧
      ∀ n ≤ block.length, n ≤ size → block'.take n = block.take n := by
  obtain ⟨fresh, rfl⟩ := Option.isSome_iff_exists.1 hfresh
  refine ⟨_, if_pos hsize, ?_, fun n hn hnsize ↦ ?_⟩
  · simp only [List.length_append, List.length_take, List.length_map, List.length_range]
    omega
  · rw [List.take_append_of_le_length (by rw [List.length_take]; omega), List.take_take,
      Nat.min_eq_left hnsize]

theorem of_realloc_eq_some {block block' : List α} {size : ℕ} {fresh : Option (ℕ → α)}
    (h : realloc block size fresh = some block') :
    size < 2 ^ 63 ∧ fresh.isSome ∧ block'.length = size := by
  have hsize : size < 2 ^ 63 := by
    by_contra hbig
    cases fresh with
    | none => cases h
    | some fresh =>
      unfold realloc at h
      dsimp only at h
      rw [if_neg hbig] at h
      cases h
  have hfresh : fresh.isSome := by
    cases fresh with
    | none => cases h
    | some fresh => rfl
  obtain ⟨block'', hrealloc, hlen, -⟩ := realloc_eq_some block hsize hfresh
  rw [h] at hrealloc
  cases hrealloc
  exact ⟨hsize, hfresh, hlen⟩

@[simp]
theorem wp_memcpy (block : List α) (i : ℕ) (src : List α) (j n : ℕ)
    (post : List α → σ → Prop) (state : σ) :
    wp (memcpy block i src j n) post state ↔
      (i + n ≤ block.length ∧ j + n ≤ src.length) ∧
        post (splice block i ((src.drop j).take n)) state := by
  unfold memcpy
  simp only [wp_bind, wp_require, wp_pure]

theorem leaves_memcpy (block : List α) (i : ℕ) (src : List α) (j n : ℕ) :
    Leaves (memcpy block i src j n : Cmd σ (List α)) :=
  (Leaves.require _).bind fun _ ↦ .pure _

/-! ## Several copies -/

/-- `memcpy(block + dst, src + src, length)` -/
structure Copy where
  dst : ℕ
  src : ℕ
  length : ℕ
  deriving DecidableEq

/-- The copy stays inside a block of `dstSize` cells and reads inside one of `srcSize` cells. -/
def Copy.Inside (c : Copy) (dstSize srcSize : ℕ) : Prop :=
  c.dst + c.length ≤ dstSize ∧ c.src + c.length ≤ srcSize

instance (c : Copy) (dstSize srcSize : ℕ) : Decidable (c.Inside dstSize srcSize) :=
  inferInstanceAs (Decidable (_ ∧ _))

/-- Copies from one block into another, one after the other. -/
def memcpys (block : List α) (copies : List Copy) (src : List α) : Cmd σ (List α) :=
  copies.foldlM (fun block c ↦ memcpy block c.dst src c.src c.length) block

/-- What they leave in the block. -/
def spliced (block : List α) (copies : List Copy) (src : List α) : List α :=
  copies.foldl (fun block c ↦ splice block c.dst ((src.drop c.src).take c.length)) block

@[simp]
theorem wp_memcpys (block : List α) (copies : List Copy) (src : List α)
    (post : List α → σ → Prop) (state : σ) :
    wp (memcpys block copies src) post state ↔
      (∀ c ∈ copies, c.Inside block.length src.length) ∧
        post (spliced block copies src) state := by
  induction copies generalizing block with
  | nil => simp [memcpys, spliced]
  | cons c copies ih =>
    unfold memcpys spliced at ih ⊢
    rw [List.foldlM_cons, wp_bind, wp_memcpy, List.foldl_cons, List.forall_mem_cons]
    change c.Inside block.length src.length ∧ _ ↔ _
    rw [and_assoc]
    refine and_congr_right fun hinside ↦ ?_
    rw [ih, length_splice]
    rw [List.length_take, List.length_drop]
    have hsrc := hinside.2
    have hdst := hinside.1
    omega

theorem length_spliced {block : List α} {copies : List Copy} {src : List α}
    (h : ∀ c ∈ copies, c.Inside block.length src.length) :
    (spliced block copies src).length = block.length := by
  induction copies generalizing block with
  | nil => rfl
  | cons c copies ih =>
    obtain ⟨⟨hdst, hsrc⟩, hrest⟩ := List.forall_mem_cons.1 h
    have hlength : (splice block c.dst ((src.drop c.src).take c.length)).length =
        block.length := by
      apply length_splice
      rw [List.length_take, List.length_drop]
      omega
    rw [← hlength] at hrest
    exact (ih hrest).trans hlength

end Zbaselib.Block
