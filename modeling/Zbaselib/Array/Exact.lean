import Zbaselib.Array.Reports

/-!
# When the byte counts do not overflow

Sizes and offsets are products of `int`s.  A product that overflows may come out
small, and then a small block is granted for a large capacity.
-/

namespace Zbaselib.Array

open Program Block Transition

/-- The result is the one over the integers. -/
def Exact (n : ℤ) : Prop := wrap n = n

instance (n : ℤ) : Decidable (Exact n) := inferInstanceAs (Decidable (_ = _))

instance (thiz : State) (elem : Option (List UInt8)) (index : ℤ) :
    Decidable (Accepted thiz elem index) :=
  inferInstanceAs (Decidable (_ ∧ _))

/-! ## The arithmetic of a call

Every list has the capacities, byte counts and offsets in the order in which they are computed,
as integers. -/

def createTerms (elemSize elemNum : ℤ) : List ℤ :=
  [elemSize * if elemNum < ZBASELIB_ARRAY_MIN_NUM then ZBASELIB_ARRAY_MIN_NUM else elemNum]

def expandTerms (thiz : State) : List ℤ :=
  if wrap (thiz.size + 1) > thiz.capacity then
    let capacity := thiz.capacity + thiz.capacity / 2 + ZBASELIB_ARRAY_MIN_NUM
    [thiz.capacity + thiz.capacity / 2, capacity, thiz.elemSize * capacity]
  else []

def reduceTerms (thiz : State) : List ℤ :=
  if thiz.size < thiz.capacity / 2 ∧ thiz.capacity > ZBASELIB_ARRAY_MIN_NUM then
    let capacity := thiz.size + thiz.size / 2
    [capacity, thiz.elemSize * capacity]
  else []

/-- `i` goes down from `size` to `index + 1`. -/
def shiftUpTerms (elemSize size index : ℤ) : List ℤ :=
  (List.range (size - index).toNat).flatMap fun k : ℕ ↦
    [(size - k) * elemSize, (size - k - 1) * elemSize]

/-- `i` goes up from `index` to `size - 2`. -/
def shiftDownTerms (elemSize size index : ℤ) : List ℤ :=
  (List.range (size - 1 - index).toNat).flatMap fun k : ℕ ↦
    [(index + k) * elemSize, (index + k + 1) * elemSize]

def insertTerms (thiz : State) (elem : Option (List UInt8)) (index : ℤ) : List ℤ :=
  if Accepted thiz elem index then
    expandTerms thiz ++ shiftUpTerms thiz.elemSize thiz.size index ++ [index * thiz.elemSize]
  else []

def deleteTerms (thiz : State) (index : ℤ) : List ℤ :=
  if 0 ≤ index ∧ index < thiz.size then
    shiftDownTerms thiz.elemSize thiz.size index ++ reduceTerms { thiz with size := thiz.size - 1 }
  else []

def offsetTerms (thiz : State) (index : ℤ) : List ℤ :=
  if 0 ≤ index ∧ index < thiz.size then [index * thiz.elemSize] else []

def findTerms (thiz : State) : List ℤ :=
  (List.range thiz.size.toNat).map fun i : ℕ ↦ i * thiz.elemSize

def Op.terms (thiz : State) : Op → List ℤ
  | .insert elem index _ => insertTerms thiz elem index
  | .prepend elem _ => insertTerms thiz elem 0
  | .append elem _ => insertTerms thiz elem thiz.size
  | .delete index _ => deleteTerms thiz index
  | .get index | .set _ index => offsetTerms thiz index
  | .find _ => findTerms thiz

/-! ## Runs with memory -/

/-- Every request of the call is granted. -/
def Supplied (thiz : State) (op : Op) : Prop :=
  ∀ capacity ∈ resizes thiz op, Granted (bytes thiz capacity) op.fresh

/-- An enlarged array has fewer than 2³¹ bytes. -/
def Small (thiz : State) (op : Op) : Prop :=
  ∀ capacity ∈ resizes thiz op, thiz.elemSize * capacity < 2 ^ 31

def SmallStep (label : Op × Result) (thiz thiz' : State) : Prop :=
  Supplied thiz label.1 ∧ Small thiz label.1 ∧ CallStep label thiz thiz'

/-- The block holds `capacity` elements. -/
def Whole (thiz : State) : Prop :=
  ∃ block, Held thiz block ∧ (block.length : ℤ) = thiz.elemSize * thiz.capacity

section

variable {thiz thiz' : State} {block : List UInt8} {fresh : Option (ℕ → UInt8)}

theorem exact_iff {n : ℤ} : Exact n ↔ -2 ^ 31 ≤ n ∧ n < 2 ^ 31 := by
  unfold Exact wrap
  omega

theorem exact_of_nonneg {n : ℤ} (h : 0 ≤ n ∧ n < 2 ^ 31) : Exact n :=
  exact_iff.2 ⟨by omega, h.2⟩

/-- Everything up to the end of the elements. -/
theorem Held.exact_offset (h : Held thiz block) {k : ℤ} (hk : 0 ≤ k ∧ k ≤ thiz.size) :
    Exact (k * thiz.elemSize) := by
  have hpos := h.elemSize_pos
  have hle : k * thiz.elemSize ≤ thiz.size * thiz.elemSize :=
    Int.mul_le_mul_of_nonneg_right hk.2 (by omega)
  have helems := h.elems_le
  have hblock := h.block_lt
  exact exact_of_nonneg ⟨Int.mul_nonneg hk.1 (by omega), by omega⟩

theorem Held.exact_shiftUp (h : Held thiz block) {index : ℤ} (hindex : 0 ≤ index) :
    ∀ n ∈ shiftUpTerms thiz.elemSize thiz.size index, Exact n := by
  intro n hn
  obtain ⟨k, hk, hmem⟩ := List.mem_flatMap.1 hn
  rw [List.mem_range] at hk
  simp only [List.mem_cons, List.not_mem_nil, or_false] at hmem
  rcases hmem with rfl | rfl
  · exact h.exact_offset (by omega)
  · exact h.exact_offset (by omega)

theorem Held.exact_shiftDown (h : Held thiz block) {index : ℤ} (hindex : 0 ≤ index) :
    ∀ n ∈ shiftDownTerms thiz.elemSize thiz.size index, Exact n := by
  intro n hn
  obtain ⟨k, hk, hmem⟩ := List.mem_flatMap.1 hn
  rw [List.mem_range] at hk
  simp only [List.mem_cons, List.not_mem_nil, or_false] at hmem
  rcases hmem with rfl | rfl
  · exact h.exact_offset (by omega)
  · exact h.exact_offset (by omega)

/-- A product bounds its second factor. -/
theorem Held.le_elemSize_mul (h : Held thiz block) {n : ℤ} (hn : 0 ≤ n) :
    n ≤ thiz.elemSize * n := by
  have hmul : 1 * n ≤ thiz.elemSize * n := Int.mul_le_mul_of_nonneg_right h.elemSize_pos hn
  omega

/-- The arithmetic of a growth is exact when the last product is. -/
theorem Held.exact_expand_iff (h : Held thiz block) :
    (∀ n ∈ expandTerms thiz, Exact n) ↔ (wrap (thiz.size + 1) > thiz.capacity →
      thiz.elemSize * (thiz.capacity + thiz.capacity / 2 + ZBASELIB_ARRAY_MIN_NUM) < 2 ^ 31) := by
  have hmin : ZBASELIB_ARRAY_MIN_NUM = 10 := rfl
  have hnonneg := h.size_nonneg
  have hle := h.size_le
  unfold expandTerms
  by_cases hfull : wrap (thiz.size + 1) > thiz.capacity
  · have hcapacity : 0 ≤ thiz.capacity + thiz.capacity / 2 + ZBASELIB_ARRAY_MIN_NUM := by omega
    have hfactor := h.le_elemSize_mul hcapacity
    rw [if_pos hfull]
    simp only [List.forall_mem_cons, List.not_mem_nil, false_imp_iff, implies_true, and_true]
    constructor
    · rintro ⟨-, -, hproduct⟩ -
      exact (exact_iff.1 hproduct).2
    · intro hsmall
      have hproduct := hsmall hfull
      exact ⟨exact_of_nonneg (by omega), exact_of_nonneg (by omega), exact_of_nonneg (by omega)⟩
  · rw [if_neg hfull]
    simp only [List.not_mem_nil, false_imp_iff, implies_true, true_iff]
    exact fun hfull' ↦ absurd hfull' hfull

/-- The arithmetic of a shrinking always is. -/
theorem Held.small_reduce (h : Held thiz block)
    (hwhole : (block.length : ℤ) = thiz.elemSize * thiz.capacity) {size : ℤ}
    (hsize : 0 ≤ size ∧ size < thiz.capacity / 2) : thiz.elemSize * (size + size / 2) < 2 ^ 31 := by
  have hle : thiz.elemSize * (size + size / 2) ≤ thiz.elemSize * thiz.capacity :=
    Int.mul_le_mul_of_nonneg_left (by omega) (by have := h.elemSize_pos; omega)
  have hblock := h.block_lt
  omega

theorem Held.exact_reduce (h : Held thiz block)
    (hwhole : (block.length : ℤ) = thiz.elemSize * thiz.capacity) {size : ℤ} (hsize : 0 ≤ size) :
    ∀ n ∈ reduceTerms { thiz with size := size }, Exact n := by
  unfold reduceTerms
  split
  case isTrue hshrink =>
    have hproduct := h.small_reduce hwhole ⟨hsize, hshrink.1⟩
    have hfactor := h.le_elemSize_mul (show 0 ≤ size + size / 2 by omega)
    simp only [List.forall_mem_cons, List.not_mem_nil, false_imp_iff, implies_true, and_true]
    exact ⟨exact_of_nonneg (by omega), exact_of_nonneg (by omega)⟩
  case isFalse => exact fun n hn ↦ absurd hn List.not_mem_nil

theorem Held.exact_insert_iff (h : Held thiz block) {elem : Option (List UInt8)} {index : ℤ} :
    (∀ n ∈ insertTerms thiz elem index, Exact n) ↔
      ∀ capacity ∈ grows thiz elem index, thiz.elemSize * capacity < 2 ^ 31 := by
  unfold insertTerms
  by_cases haccepted : Accepted thiz elem index
  · rw [if_pos haccepted]
    obtain ⟨hsome, hlow, hhigh⟩ := haccepted
    have hshift := h.exact_shiftUp hlow
    have hoffset := h.exact_offset ⟨hlow, hhigh⟩
    have hexpand := h.exact_expand_iff
    have hgrows : (∀ capacity ∈ grows thiz elem index, thiz.elemSize * capacity < 2 ^ 31) ↔
        (wrap (thiz.size + 1) > thiz.capacity → thiz.elemSize *
          (thiz.capacity + thiz.capacity / 2 + ZBASELIB_ARRAY_MIN_NUM) < 2 ^ 31) := by
      unfold grows
      by_cases hfull : wrap (thiz.size + 1) > thiz.capacity
      · rw [if_pos ⟨hsome, hlow, hhigh, hfull⟩]
        simp [hfull]
      · rw [if_neg fun hall ↦ hfull hall.2.2.2]
        simp [hfull]
    rw [hgrows, ← hexpand]
    simp only [List.forall_mem_append, List.forall_mem_singleton]
    exact ⟨fun hall ↦ hall.1.1, fun hall ↦ ⟨⟨hall, hshift⟩, hoffset⟩⟩
  · rw [if_neg haccepted, grows, if_neg fun hall ↦ haccepted ⟨hall.1, hall.2.1, hall.2.2.1⟩]
    simp

theorem Held.exact_find (h : Held thiz block) : ∀ n ∈ findTerms thiz, Exact n := by
  intro n hn
  obtain ⟨i, hi, rfl⟩ := List.mem_map.1 hn
  rw [List.mem_range] at hi
  exact h.exact_offset (by omega)

theorem Held.exact_offsetTerms (h : Held thiz block) (index : ℤ) :
    ∀ n ∈ offsetTerms thiz index, Exact n := by
  unfold offsetTerms
  split
  case isTrue hindex =>
    rw [List.forall_mem_singleton]
    exact h.exact_offset (by omega)
  case isFalse => exact fun n hn ↦ absurd hn List.not_mem_nil

/-- **The arithmetic of a call is exact if and only if an enlarged array is small.** -/
theorem Whole.exact_op_iff (h : Whole thiz) (op : Op) :
    (∀ n ∈ op.terms thiz, Exact n) ↔ Small thiz op := by
  obtain ⟨block, hheld, hwhole⟩ := h
  cases op with
  | insert elem index fresh => exact hheld.exact_insert_iff
  | prepend elem fresh => exact hheld.exact_insert_iff
  | append elem fresh => exact hheld.exact_insert_iff
  | delete index fresh =>
    constructor
    · intro _ capacity hmem
      change capacity ∈ shrinks thiz index at hmem
      unfold shrinks at hmem
      split at hmem
      case isTrue hshrink =>
        cases hmem
        exact hheld.small_reduce hwhole ⟨by omega, hshrink.2.2.1⟩
      case isFalse => cases hmem
    · intro _
      change ∀ n ∈ deleteTerms thiz index, Exact n
      unfold deleteTerms
      split
      case isTrue hindex =>
        rw [List.forall_mem_append]
        exact ⟨hheld.exact_shiftDown hindex.1, hheld.exact_reduce hwhole (by omega)⟩
      case isFalse => exact fun n hn ↦ absurd hn List.not_mem_nil
  | get index =>
    exact iff_of_true (hheld.exact_offsetTerms index) fun _ hmem ↦
      absurd hmem (Option.not_mem_none _)
  | set elem index =>
    exact iff_of_true (hheld.exact_offsetTerms index) fun _ hmem ↦
      absurd hmem (Option.not_mem_none _)
  | find cmp =>
    exact iff_of_true hheld.exact_find fun _ hmem ↦ absurd hmem (Option.not_mem_none _)

/-! ## The calls over the integers -/

theorem create_eq_id {handle : Bool} {elemSize elemNum : ℤ}
    (hterms : ∀ n ∈ createTerms elemSize elemNum, Exact n) :
    create handle fresh elemSize elemNum = create handle fresh elemSize elemNum id := by
  unfold create
  dsimp only
  rw [List.forall_mem_singleton.1 hterms]
  rfl

theorem run_resize {capacity : ℤ} (hproduct : Exact (thiz.elemSize * capacity)) :
    (resize capacity fresh).run thiz = (resize capacity fresh id).run thiz := by
  unfold resize
  refine run_bind_congr rfl ?_
  rintro _ _ ⟨⟩
  rw [hproduct]
  rfl

/-- A resized array has the elements that it had. -/
theorem of_resize {capacity : ℤ} {int : ℤ → ℤ}
    (hrun : (resize capacity fresh int).run thiz = some ((), thiz')) :
    thiz'.size = thiz.size ∧ thiz'.elemSize = thiz.elemSize := by
  have hwp : wp (resize capacity fresh int) (fun _ after ↦ after = thiz') thiz := ⟨_, _, hrun, rfl⟩
  unfold resize at hwp
  rw [wp_bind, wp_get] at hwp
  split at hwp
  · dsimp only at hwp
    split at hwp
    · rw [wp_set] at hwp
      exact hwp ▸ ⟨rfl, rfl⟩
    · rw [wp_ite] at hwp
      split at hwp
      · rw [wp_set] at hwp
        exact hwp ▸ ⟨rfl, rfl⟩
      · rw [wp_pure] at hwp
        exact hwp ▸ ⟨rfl, rfl⟩
  · exact ((wp_failure _ _).1 hwp).elim

theorem run_expand (hcount : Exact (thiz.size + 1)) (hterms : ∀ n ∈ expandTerms thiz, Exact n) :
    (expand 1 fresh).run thiz = (expand 1 fresh id).run thiz := by
  unfold expand
  refine run_bind_congr rfl ?_
  rintro _ _ ⟨⟩
  simp only [id_eq]
  unfold expandTerms at hterms
  rw [hcount] at hterms ⊢
  by_cases hnull : thiz.data = .null
  · rw [if_pos hnull, if_pos hnull]
  · rw [if_neg hnull, if_neg hnull]
    by_cases hfull : thiz.size + 1 > thiz.capacity
    · rw [if_pos hfull] at hterms
      simp only [List.forall_mem_cons, List.not_mem_nil, false_imp_iff, implies_true,
        and_true] at hterms
      obtain ⟨hhalf, hcapacity, hproduct⟩ := hterms
      rw [if_pos hfull, if_pos hfull, hhalf, hcapacity]
      refine run_bind_congr (run_resize hproduct) ?_
      rintro ⟨⟩ after hresize
      refine run_bind_congr rfl ?_
      rintro _ _ ⟨⟩
      rw [(of_resize hresize).1, hcount]
    · rw [if_neg hfull, if_neg hfull]
      refine run_bind_congr rfl ?_
      rintro _ _ ⟨⟩
      rw [hcount]

theorem of_expand {need ret : ℤ} {int : ℤ → ℤ}
    (hrun : (expand need fresh int).run thiz = some (ret, thiz')) :
    thiz'.size = thiz.size ∧ thiz'.elemSize = thiz.elemSize := by
  unfold expand at hrun
  obtain ⟨_, _, ⟨⟩, hrun⟩ := of_run_bind hrun
  split at hrun
  · cases hrun
    exact ⟨rfl, rfl⟩
  · dsimp only at hrun
    split at hrun
    · obtain ⟨_, after, hresize, hrest⟩ := of_run_bind hrun
      obtain ⟨_, _, ⟨⟩, hreturn⟩ := of_run_bind hrest
      cases hreturn
      exact of_resize hresize
    · obtain ⟨_, _, ⟨⟩, hreturn⟩ := of_run_bind hrun
      cases hreturn
      exact ⟨rfl, rfl⟩

theorem run_reduce (hterms : ∀ n ∈ reduceTerms thiz, Exact n) :
    (reduce fresh).run thiz = (reduce fresh id).run thiz := by
  unfold reduce
  refine run_bind_congr rfl ?_
  rintro _ _ ⟨⟩
  simp only [id_eq]
  unfold reduceTerms at hterms
  by_cases hshrink : thiz.size < thiz.capacity / 2 ∧ thiz.capacity > ZBASELIB_ARRAY_MIN_NUM
  · rw [if_pos hshrink] at hterms
    simp only [List.forall_mem_cons, List.not_mem_nil, false_imp_iff, implies_true,
      and_true] at hterms
    obtain ⟨hcapacity, hproduct⟩ := hterms
    rw [if_pos hshrink, if_pos hshrink, hcapacity]
    split
    · rfl
    · exact run_bind_congr (run_resize hproduct) fun _ _ _ ↦ rfl
  · rw [if_neg hshrink, if_neg hshrink]

/-- The indices of the loops. -/
theorem exact_index {size i : ℤ} (hsize : size < 2 ^ 31) (hi : -1 ≤ i ∧ i ≤ size) : Exact i :=
  exact_iff.2 (by omega)

theorem run_shiftUp {elemSize size index : ℤ} (hindex : 0 ≤ index) (hsize : size < 2 ^ 31)
    (hterms : ∀ n ∈ shiftUpTerms elemSize size index, Exact n) :
    (shiftUp elemSize size index block).run thiz =
      (shiftUp elemSize size index block id).run thiz := by
  refine run_loop_congr (fun locals _ ↦ locals.1 ≤ size) ?_ le_rfl
  rintro ⟨i, block⟩ after hi
  dsimp only [id_eq] at hi ⊢
  by_cases hlt : i > index
  · have hmem : ∀ n ∈ [i * elemSize, (i - 1) * elemSize], Exact n := fun n hn ↦ by
      refine hterms n (List.mem_flatMap.2 ⟨(size - i).toNat, List.mem_range.2 (by omega), ?_⟩)
      rwa [show size - ((size - i).toNat : ℤ) = i by omega]
    have hdst := hmem _ (List.mem_cons_self)
    have hsrc := hmem _ (List.mem_cons_of_mem _ List.mem_cons_self)
    have hnext := exact_index hsize (show -1 ≤ i - 1 ∧ i - 1 ≤ size by omega)
    rw [if_pos hlt, if_pos hlt, hdst, hnext, hsrc]
    refine ⟨rfl, fun next after' hrun ↦ ?_⟩
    obtain ⟨_, _, -, hnext⟩ := of_run_bind hrun
    cases hnext
    dsimp only
    omega
  · rw [if_neg hlt, if_neg hlt]
    exact ⟨rfl, fun next after' hrun ↦ nomatch hrun⟩

theorem run_shiftDown {elemSize size index : ℤ} (hindex : 0 ≤ index ∧ index < size)
    (hsize : size < 2 ^ 31) (hterms : ∀ n ∈ shiftDownTerms elemSize size index, Exact n) :
    (shiftDown elemSize size index block).run thiz =
      (shiftDown elemSize size index block id).run thiz := by
  refine run_loop_congr (fun locals _ ↦ index ≤ locals.1 ∧ locals.1 < size) ?_ ⟨le_rfl, hindex.2⟩
  rintro ⟨i, block⟩ after hi
  dsimp only [id_eq] at hi ⊢
  have hnext := exact_index hsize (show -1 ≤ i + 1 ∧ i + 1 ≤ size by omega)
  rw [hnext]
  by_cases hlt : i + 1 < size
  · have hmem : ∀ n ∈ [i * elemSize, (i + 1) * elemSize], Exact n := fun n hn ↦ by
      refine hterms n (List.mem_flatMap.2 ⟨(i - index).toNat, List.mem_range.2 (by omega), ?_⟩)
      rwa [show index + ((i - index).toNat : ℤ) = i by omega]
    have hdst := hmem _ List.mem_cons_self
    have hsrc := hmem _ (List.mem_cons_of_mem _ List.mem_cons_self)
    rw [if_pos hlt, if_pos hlt, hdst, hsrc]
    refine ⟨rfl, fun next after' hrun ↦ ?_⟩
    obtain ⟨_, _, -, hnext⟩ := of_run_bind hrun
    cases hnext
    dsimp only
    omega
  · rw [if_neg hlt, if_neg hlt]
    exact ⟨rfl, fun next after' hrun ↦ nomatch hrun⟩

theorem run_insert (hsize : 0 ≤ thiz.size ∧ thiz.size < 2 ^ 31 - 1) {elem : Option (List UInt8)}
    {index : ℤ} (hterms : ∀ n ∈ insertTerms thiz elem index, Exact n) :
    (insert elem index fresh).run thiz = (insert elem index fresh id).run thiz := by
  have hcount : Exact (thiz.size + 1) := exact_of_nonneg (by omega)
  unfold insert
  refine run_bind_congr rfl ?_
  rintro _ _ ⟨⟩
  simp only [id_eq]
  by_cases hnull : thiz.data = .null
  · rw [if_pos hnull, if_pos hnull]
  rw [if_neg hnull, if_neg hnull]
  cases elem with
  | none => rfl
  | some elem =>
    dsimp only
    by_cases hindex : index > thiz.size ∨ index < 0
    · rw [if_pos hindex, if_pos hindex]
    rw [if_neg hindex, if_neg hindex]
    unfold insertTerms at hterms
    rw [if_pos (show Accepted thiz (some elem) index from ⟨rfl, by omega⟩)] at hterms
    simp only [List.forall_mem_append, List.forall_mem_singleton] at hterms
    obtain ⟨⟨hexpand, hshift⟩, hoffset⟩ := hterms
    refine run_bind_congr (run_expand hcount hexpand) fun ret after hrun ↦ ?_
    obtain ⟨hsame, hwidth⟩ := of_expand hrun
    by_cases hroom : ret ≠ 0
    · rw [if_pos hroom, if_pos hroom]
      refine run_bind_congr rfl ?_
      rintro _ _ ⟨⟩
      cases hdata : after.data with
      | null => rfl
      | freed => rfl
      | live block =>
        dsimp only
        rw [hsame, hwidth]
        refine run_bind_congr (run_shiftUp (by omega) (by omega) hshift) fun _ _ _ ↦ ?_
        rw [hoffset, hcount]
    · rw [if_neg hroom, if_neg hroom]

theorem run_delete (hsize : thiz.size < 2 ^ 31) {index : ℤ}
    (hterms : ∀ n ∈ deleteTerms thiz index, Exact n) :
    (delete index fresh).run thiz = (delete index fresh id).run thiz := by
  unfold delete
  refine run_bind_congr rfl ?_
  rintro _ _ ⟨⟩
  simp only [id_eq]
  by_cases hnull : thiz.data = .null
  · rw [if_pos hnull, if_pos hnull]
  rw [if_neg hnull, if_neg hnull]
  by_cases hindex : index ≥ thiz.size ∨ index < 0
  · rw [if_pos hindex, if_pos hindex]
  rw [if_neg hindex, if_neg hindex]
  unfold deleteTerms at hterms
  rw [if_pos (by omega), List.forall_mem_append] at hterms
  obtain ⟨hshift, hreduce⟩ := hterms
  cases hdata : thiz.data with
  | null => rfl
  | freed => rfl
  | live block =>
    dsimp only
    have hcount := exact_index hsize (show -1 ≤ thiz.size - 1 ∧ thiz.size - 1 ≤ thiz.size by omega)
    refine run_bind_congr (run_shiftDown (by omega) hsize hshift) fun block' _ _ ↦ ?_
    rw [hcount]
    refine run_bind_congr rfl ?_
    rintro _ _ ⟨⟩
    exact run_bind_congr (run_reduce hreduce) fun _ _ _ ↦ rfl

theorem exact_of_offsetTerms {index : ℤ} (hindex : ¬(index ≥ thiz.size ∨ index < 0))
    (hterms : ∀ n ∈ offsetTerms thiz index, Exact n) : Exact (index * thiz.elemSize) := by
  unfold offsetTerms at hterms
  rw [if_pos (by omega)] at hterms
  exact List.forall_mem_singleton.1 hterms

theorem run_get {index : ℤ} (hterms : ∀ n ∈ offsetTerms thiz index, Exact n) :
    (Array.get index).run thiz = (Array.get index id).run thiz := by
  unfold Array.get
  refine run_bind_congr rfl ?_
  rintro _ _ ⟨⟩
  simp only [id_eq]
  by_cases hindex : index ≥ thiz.size ∨ index < 0
  · rw [if_pos hindex, if_pos hindex]
  rw [exact_of_offsetTerms hindex hterms]

theorem run_set {elem : List UInt8} {index : ℤ}
    (hterms : ∀ n ∈ offsetTerms thiz index, Exact n) :
    (Array.set elem index).run thiz = (Array.set elem index id).run thiz := by
  unfold Array.set
  refine run_bind_congr rfl ?_
  rintro _ _ ⟨⟩
  simp only [id_eq]
  by_cases hindex : index ≥ thiz.size ∨ index < 0
  · rw [if_pos hindex, if_pos hindex]
  rw [exact_of_offsetTerms hindex hterms]

theorem run_find (hsize : 0 ≤ thiz.size ∧ thiz.size < 2 ^ 31) {cmp : List UInt8 → ℤ}
    (hterms : ∀ n ∈ findTerms thiz, Exact n) :
    (find cmp).run thiz = (find cmp id).run thiz := by
  unfold find
  refine run_bind_congr rfl ?_
  rintro _ _ ⟨⟩
  by_cases hnull : thiz.data = .null
  · rw [if_pos hnull, if_pos hnull]
  rw [if_neg hnull, if_neg hnull]
  refine run_bind_congr (run_loop_congr (fun i _ ↦ 0 ≤ i ∧ i ≤ thiz.size) ?_ ⟨le_rfl, hsize.1⟩)
    fun _ _ _ ↦ rfl
  intro i after hi
  simp only [id_eq]
  by_cases hlt : i < thiz.size
  · have hoffset := hterms (i * thiz.elemSize)
      (List.mem_map.2 ⟨i.toNat, List.mem_range.2 (by omega), by rw [Int.toNat_of_nonneg hi.1]⟩)
    have hnext := exact_index hsize.2 (show -1 ≤ i + 1 ∧ i + 1 ≤ thiz.size by omega)
    rw [if_pos hlt, if_pos hlt, hoffset, hnext]
    refine ⟨rfl, fun next after' hrun ↦ ?_⟩
    obtain ⟨_, _, -, hrest⟩ := of_run_bind hrun
    split at hrest
    · cases hrest
    · cases hrest
      omega
  · rw [if_neg hlt, if_neg hlt]
    exact ⟨rfl, fun next after' hrun ↦ nomatch hrun⟩

/-- **Nothing but its terms may overflow in a call**: where they are exact, and one more element can
be counted, it does what it does over the integers. -/
theorem Whole.run_eq_id (h : Whole thiz) (hsize : thiz.size < 2 ^ 31 - 1) {op : Op}
    (hterms : ∀ n ∈ op.terms thiz, Exact n) : op.run.run thiz = (op.run id).run thiz := by
  obtain ⟨block, hheld, -⟩ := h
  have hnonneg := hheld.size_nonneg
  cases op with
  | insert elem index fresh =>
    exact run_bind_congr (run_insert ⟨hnonneg, hsize⟩ hterms) fun _ _ _ ↦ rfl
  | prepend elem fresh =>
    exact run_bind_congr (run_insert ⟨hnonneg, hsize⟩ hterms) fun _ _ _ ↦ rfl
  | append elem fresh =>
    refine run_bind_congr ?_ fun _ _ _ ↦ rfl
    refine run_bind_congr rfl fun n after hrun ↦ ?_
    obtain ⟨_, _, ⟨⟩, hreturn⟩ := of_run_bind hrun
    rw [if_neg hheld.data_ne] at hreturn
    cases hreturn
    exact run_insert ⟨hnonneg, hsize⟩ hterms
  | delete index fresh =>
    exact run_bind_congr (run_delete (by omega) hterms) fun _ _ _ ↦ rfl
  | get index => exact run_bind_congr (run_get hterms) fun _ _ _ ↦ rfl
  | set elem index => exact run_bind_congr (run_set hterms) fun _ _ _ ↦ rfl
  | find cmp => exact run_bind_congr (run_find (by omega) hterms) fun _ _ _ ↦ rfl

/-! ## Every call keeps the block whole -/

theorem whole_of_usable (h : Usable thiz) (hdata : thiz.data = .live block)
    (hlength : (block.length : ℤ) = thiz.elemSize * thiz.capacity) : Whole thiz := by
  obtain ⟨block', hheld⟩ | hfreed := h
  · have hsame := hheld.data
    rw [hdata] at hsame
    cases hsame
    exact ⟨block, hheld, hlength⟩
  · rw [hdata] at hfreed
    cases hfreed

/-- A small request that is granted gives the bytes of its capacity. -/
theorem resized_of_small {capacity : ℤ} (helemSize : 1 ≤ thiz.elemSize) (hcapacity : 0 ≤ capacity)
    (hgranted : Granted (bytes thiz capacity) fresh) (hsmall : thiz.elemSize * capacity < 2 ^ 31) :
    ∃ block₁ : List UInt8, resized thiz block capacity fresh =
        { thiz with data := .live block₁, capacity := capacity } ∧
      (block₁.length : ℤ) = thiz.elemSize * capacity := by
  have hfactor : 1 * capacity ≤ thiz.elemSize * capacity :=
    Int.mul_le_mul_of_nonneg_right helemSize hcapacity
  have hexact : wrap capacity = capacity := exact_of_nonneg (by omega)
  have hproduct : wrap (thiz.elemSize * capacity) = thiz.elemSize * capacity :=
    exact_of_nonneg (by omega)
  have hcount := bytes_of_granted hgranted
  rw [hexact, hproduct] at hcount
  obtain ⟨block₁, hrealloc, hlength, -⟩ := realloc_eq_some block hgranted.2 hgranted.1
  refine ⟨block₁, ?_, by rw [hlength, hcount]⟩
  unfold resized
  rw [hrealloc, hexact]

theorem Whole.step_insert (h : Whole thiz) {elem : Option (List UInt8)} {index : ℤ}
    (hsupplied : ∀ capacity ∈ grows thiz elem index, Granted (bytes thiz capacity) fresh)
    (hsmall : ∀ capacity ∈ grows thiz elem index, thiz.elemSize * capacity < 2 ^ 31)
    {post : ℤ → State → Prop} (hwp : wp (insert elem index fresh) post thiz) :
    ∃ ret thiz' block', post ret thiz' ∧ thiz'.data = .live block' ∧
      (block'.length : ℤ) = thiz'.elemSize * thiz'.capacity := by
  obtain ⟨block, hheld, hwhole⟩ := h
  by_cases haccepted : Accepted thiz elem index
  · obtain ⟨hsome, hindex⟩ := haccepted
    obtain ⟨elem, rfl⟩ := Option.isSome_iff_exists.1 hsome
    have hexpanded : ∃ block₁ : List UInt8, (expanded thiz block fresh).data = .live block₁ ∧
        (block₁.length : ℤ) =
          (expanded thiz block fresh).elemSize * (expanded thiz block fresh).capacity := by
      unfold expanded
      by_cases hfull : wrap (thiz.size + 1) > thiz.capacity
      · have hgrows : grows thiz (some elem) index =
            some (thiz.capacity + thiz.capacity / 2 + ZBASELIB_ARRAY_MIN_NUM) :=
          if_pos ⟨rfl, hindex.1, hindex.2, hfull⟩
        have hmin : ZBASELIB_ARRAY_MIN_NUM = 10 := rfl
        have hnonneg := hheld.size_nonneg
        have hle := hheld.size_le
        obtain ⟨block₁, hresized, hlength⟩ := resized_of_small hheld.elemSize_pos (by omega)
          (hsupplied _ hgrows) (hsmall _ hgrows)
        rw [if_pos hfull, hresized]
        exact ⟨block₁, rfl, hlength⟩
      · rw [if_neg hfull]
        exact ⟨block, hheld.data, hwhole⟩
    obtain ⟨block₁, hdata₁, hlength₁⟩ := hexpanded
    obtain hgaveUp | ⟨-, block₂, block', hdata₂, hlength, -, hdone⟩ :=
      Array.of_wp_insert hheld.data hindex hwp
    · exact ⟨0, _, block₁, hgaveUp, hdata₁, hlength₁⟩
    · rw [hdata₁] at hdata₂
      cases hdata₂
      exact ⟨0, _, block', hdone, rfl, by rw [hlength, hlength₁]⟩
  · exact ⟨-1, thiz, block, (wp_insert_invalid hheld.data_ne haccepted).1 hwp, hheld.data, hwhole⟩

theorem Whole.step_delete (h : Whole thiz) {index : ℤ}
    (hsupplied : ∀ capacity ∈ shrinks thiz index, Granted (bytes thiz capacity) fresh)
    {post : ℤ → State → Prop} (hwp : wp (delete index fresh) post thiz) :
    ∃ ret thiz' block', post ret thiz' ∧ thiz'.data = .live block' ∧
      (block'.length : ℤ) = thiz'.elemSize * thiz'.capacity := by
  obtain ⟨block, hheld, hwhole⟩ := h
  by_cases hindex : 0 ≤ index ∧ index < thiz.size
  · obtain ⟨block', hlength, hpost⟩ := of_wp_delete hheld.data hindex hwp
    have hone : wrap (thiz.size - 1) = thiz.size - 1 := by
      have hle := hheld.size_le
      have hlt := hheld.capacity_lt
      unfold wrap
      omega
    rw [hone] at hpost
    unfold reduced at hpost
    by_cases hshrink : thiz.size - 1 < thiz.capacity / 2 ∧ thiz.capacity > ZBASELIB_ARRAY_MIN_NUM
    · have hshrinks : shrinks thiz index = some (thiz.size - 1 + (thiz.size - 1) / 2) :=
        if_pos ⟨hindex.1, hindex.2, hshrink⟩
      have hsmall := hheld.small_reduce hwhole ⟨show 0 ≤ thiz.size - 1 by omega, hshrink.1⟩
      have hgranted := hsupplied _ hshrinks
      rw [if_pos hshrink] at hpost
      obtain ⟨block₁, hresized, hlength₁⟩ := @resized_of_small
        { thiz with data := .live block', size := thiz.size - 1 } block' fresh _
        hheld.elemSize_pos (by omega) hgranted hsmall
      rw [hresized] at hpost
      exact ⟨0, _, block₁, hpost, rfl, hlength₁⟩
    · rw [if_neg hshrink] at hpost
      exact ⟨0, _, block', hpost, rfl, by rw [hlength, hwhole]⟩
  · unfold delete at hwp
    simp only [wp_bind, wp_get] at hwp
    rw [wp_ite, if_neg hheld.data_ne, wp_ite, if_pos (by omega), wp_pure] at hwp
    exact ⟨-1, thiz, block, hwp, hheld.data, hwhole⟩

theorem Whole.step (h : Whole thiz) {label : Op × Result} (hstep : SmallStep label thiz thiz') :
    Whole thiz' := by
  obtain ⟨op, result⟩ := label
  obtain ⟨hsupplied, hsmall, hcall⟩ := hstep
  have hdata : thiz.data ≠ .null := by
    obtain ⟨block, hheld, -⟩ := h
    exact hheld.data_ne
  have husable : Usable thiz' := by
    obtain ⟨block, hheld, -⟩ := h
    exact Usable.step (Or.inl ⟨block, hheld⟩) hcall
  have hwp : wp op.run (fun _ after ↦ after = thiz') thiz := ⟨_, _, hcall, rfl⟩
  cases op with
  | insert elem index fresh =>
    simp only [Op.run, wp_bind, wp_pure] at hwp
    obtain ⟨ret, after, block', rfl, hdata', hlength⟩ := h.step_insert hsupplied hsmall hwp
    exact whole_of_usable husable hdata' hlength
  | prepend elem fresh =>
    simp only [Op.run, prepend, wp_bind, wp_pure] at hwp
    obtain ⟨ret, after, block', rfl, hdata', hlength⟩ := h.step_insert hsupplied hsmall hwp
    exact whole_of_usable husable hdata' hlength
  | append elem fresh =>
    simp only [Op.run, append, size, wp_bind, wp_pure, wp_get] at hwp
    rw [if_neg hdata] at hwp
    obtain ⟨ret, after, block', rfl, hdata', hlength⟩ := h.step_insert hsupplied hsmall hwp
    exact whole_of_usable husable hdata' hlength
  | delete index fresh =>
    simp only [Op.run, wp_bind, wp_pure] at hwp
    obtain ⟨ret, after, block', rfl, hdata', hlength⟩ := h.step_delete hsupplied hwp
    exact whole_of_usable husable hdata' hlength
  | get index =>
    obtain ⟨-, rfl⟩ := (leaves_get index).of_wp hwp
    exact h
  | set elem index =>
    obtain ⟨block, hheld, hwhole⟩ := h
    simp only [Op.run, wp_bind, wp_pure] at hwp
    unfold Array.set at hwp
    simp only [wp_bind, wp_get] at hwp
    rw [wp_ite, if_neg hdata, wp_ite] at hwp
    by_cases hindex : index ≥ thiz.size ∨ index < 0
    · rw [if_pos hindex, wp_pure] at hwp
      rw [← hwp]
      exact ⟨block, hheld, hwhole⟩
    · rw [if_neg hindex] at hwp
      simp only [hheld.data, wp_bind] at hwp
      obtain ⟨-, block', hlength, hdone⟩ := length_of_wp_copy hwp
      rw [wp_modify, wp_pure] at hdone
      subst hdone
      exact whole_of_usable husable rfl (by rw [hlength, hwhole])
  | find cmp =>
    obtain ⟨-, rfl⟩ := (leaves_find cmp).of_wp hwp
    exact h

end

/-- The block of a small new array is whole. -/
theorem whole_of_create {handle : Bool} {fresh : Option (ℕ → UInt8)} {elemSize elemNum : ℤ}
    {thiz : State} (helemSize : 1 ≤ elemSize ∧ elemSize < 2 ^ 31) (helemNum : elemNum < 2 ^ 31)
    (h : create handle fresh elemSize elemNum = some thiz)
    (hsmall : elemSize * max ZBASELIB_ARRAY_MIN_NUM elemNum < 2 ^ 31) : Whole thiz := by
  have husable := usable_of_create helemSize helemNum h
  have hmin : ZBASELIB_ARRAY_MIN_NUM = 10 := rfl
  unfold create at h
  rw [max_capacity] at h
  split at h
  case isFalse => cases h
  case isTrue =>
    obtain ⟨block, hblock, rfl⟩ := Option.map_eq_some_iff.1 h
    obtain ⟨hbytes, -, hlength⟩ := of_realloc_eq_some hblock
    have hproduct : 0 ≤ elemSize * max ZBASELIB_ARRAY_MIN_NUM elemNum := by
      apply Int.mul_nonneg <;> omega
    have hcount := sizeT_wrap hbytes
    rw [← hlength, exact_of_nonneg ⟨hproduct, hsmall⟩] at hcount
    exact whole_of_usable husable rfl hcount

/-- **As long as the array stays below 2³¹ bytes, every byte count and every offset is exact** and
the block holds `capacity` elements; the first larger request overflows. -/
theorem exact_terms_iff {handle : Bool} {fresh : Option (ℕ → UInt8)} {elemSize elemNum : ℤ}
    {thiz₀ : State} (helemSize : 1 ≤ elemSize ∧ elemSize < 2 ^ 31)
    (helemNum : 0 ≤ elemNum ∧ elemNum < 2 ^ 31)
    (hcreate : create handle fresh elemSize elemNum = some thiz₀) :
    ((∀ n ∈ createTerms elemSize elemNum, Exact n) ↔
      elemSize * max ZBASELIB_ARRAY_MIN_NUM elemNum < 2 ^ 31) ∧
    (elemSize * max ZBASELIB_ARRAY_MIN_NUM elemNum < 2 ^ 31 →
      ∀ labels thiz, Run SmallStep labels thiz₀ thiz →
        (∃ block, thiz.data = .live block ∧
          (block.length : ℤ) = thiz.elemSize * thiz.capacity) ∧
        ∀ op, (∀ n ∈ Op.terms thiz op, Exact n) ↔ Small thiz op) := by
  have hmin : ZBASELIB_ARRAY_MIN_NUM = 10 := rfl
  have hproduct : 0 ≤ elemSize * max ZBASELIB_ARRAY_MIN_NUM elemNum := by
    apply Int.mul_nonneg <;> omega
  constructor
  · unfold createTerms
    rw [max_capacity, List.forall_mem_singleton, exact_iff]
    omega
  · intro hsmall labels thiz hrun
    have h : Whole thiz := hrun.invariant Whole (fun _ _ _ h hstep ↦ h.step hstep)
      (whole_of_create helemSize helemNum.2 hcreate hsmall)
    refine ⟨?_, h.exact_op_iff⟩
    obtain ⟨block, hheld, hwhole⟩ := h
    exact ⟨block, hheld.data, hwhole⟩

/-- Ten elements of 429496730 bytes need 2³² + 4 bytes, for which `create` asks for 4. -/
theorem not_exact_create :
    create true (some fun _ ↦ 0) 429496730 0 =
        some ⟨429496730, 0, 10, .live [0, 0, 0, 0]⟩ ∧
      ¬∀ n ∈ createTerms 429496730 0, Exact n := by
  refine ⟨rfl, ?_⟩
  decide

theorem exact_terms_iff_halve :
    (∃ block, (⟨1, 1, 1, .live [8]⟩ : State).data = .live block ∧ (block.length : ℤ) = 1 * 1) ∧
      ∀ n ∈ Op.terms ⟨1, 1, 1, .live [8]⟩ (.append (some [7]) (some fun _ ↦ 0)), Exact n := by
  have hrun : ∃ thiz₀ thiz, create true (some fun _ ↦ 0) 1 12 = some thiz₀ ∧
      Run SmallStep halveLabels thiz₀ thiz ∧ thiz = ⟨1, 1, 1, .live [8]⟩ := by
    refine ⟨_, _, rfl, .cons ⟨?_, ?_, rfl⟩ <| .cons ⟨?_, ?_, rfl⟩ <| .cons ⟨?_, ?_, rfl⟩ <|
      .nil _, rfl⟩
    · intro capacity hmem
      cases hmem
    · intro capacity hmem
      cases hmem
    · intro capacity hmem
      cases hmem
    · intro capacity hmem
      cases hmem
    · intro capacity hmem
      cases hmem
      exact ⟨rfl, by decide⟩
    · intro capacity hmem
      cases hmem
      decide
  obtain ⟨thiz₀, thiz, hcreate, hrun, rfl⟩ := hrun
  obtain ⟨hwhole, hexact⟩ :=
    (exact_terms_iff (by decide) (by decide) hcreate).2 (by decide) _ _ hrun
  refine ⟨hwhole, (hexact _).2 fun capacity hmem ↦ ?_⟩
  cases hmem
  decide

end Zbaselib.Array
