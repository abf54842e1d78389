import Zbaselib.Array.Storage

/-!
# What an insertion reports

An insertion into a full array asks for a larger block.  When it is not given
one, nothing goes in, but the return value is that of a success.
-/

namespace Zbaselib.Array

open Program Block Slots Transition

/-- There is one element more, and it is the one at the index. -/
def Inserted (elem : Option (List UInt8)) (index : ℤ) (thiz thiz' : State) : Prop :=
  thiz'.size = thiz.size + 1 ∧ 0 ≤ index ∧
    ∃ elem' ∈ elem, (elements thiz')[index.toNat]? = some (elem'.take thiz.elemSize.toNat)

/-- The block must be enlarged and cannot be. -/
def Refused (thiz : State) (elem : Option (List UInt8)) (index : ℤ)
    (fresh : Option (ℕ → UInt8)) : Prop :=
  ∃ capacity ∈ grows thiz elem index, ¬Granted (bytes thiz capacity) fresh

/-- The call returns 0 if and only if the element went in, and without memory it fails and leaves
the array alone. -/
def Reports (call : ArrayCmd ℤ) (elem : Option (List UInt8)) (index : ℤ)
    (fresh : Option (ℕ → UInt8)) (thiz : State) : Prop :=
  wp call (fun ret thiz' ↦ (ret = 0 ↔ Inserted elem index thiz thiz') ∧
    (Refused thiz elem index fresh → ret = -1 ∧ thiz' = thiz)) thiz

/-- The arguments of an insertion pass the checks. -/
def Accepted (thiz : State) (elem : Option (List UInt8)) (index : ℤ) : Prop :=
  elem.isSome ∧ 0 ≤ index ∧ index ≤ thiz.size

/-- An element that is accepted has a place in the block it is written to: the one of the array,
or the larger one that `realloc` gives. -/
def Roomy (thiz : State) (elem : Option (List UInt8)) (index : ℤ)
    (fresh : Option (ℕ → UInt8)) : Prop :=
  Accepted thiz elem index → ∃ block, thiz.data = .live block ∧
    (grows thiz elem index = none → (thiz.size + 1) * thiz.elemSize ≤ block.length) ∧
      ∀ capacity ∈ grows thiz elem index, Granted (bytes thiz capacity) fresh ∧
        (thiz.size + 1) * thiz.elemSize ≤ bytes thiz capacity

def CallStep (label : Op × Result) (thiz thiz' : State) : Prop :=
  label.1.run.run thiz = some (label.2, thiz')

/-! ## The states of an array -/

/-- The elements are in the block. -/
structure Held (thiz : State) (block : List UInt8) : Prop where
  data : thiz.data = .live block
  elemSize_pos : 1 ≤ thiz.elemSize
  elemSize_lt : thiz.elemSize < 2 ^ 31
  size_nonneg : 0 ≤ thiz.size
  size_le : thiz.size ≤ thiz.capacity
  capacity_lt : thiz.capacity < 2 ^ 31
  elems_le : thiz.size * thiz.elemSize ≤ block.length
  block_lt : block.length < 2 ^ 31

/-- The elements are in the block, or the block was given back. -/
def Usable (thiz : State) : Prop :=
  (∃ block, Held thiz block) ∨ thiz.data = .freed

section

variable {thiz thiz' : State} {block block' : List UInt8} {fresh : Option (ℕ → UInt8)}
  {elem : List UInt8} {index : ℤ}

theorem Held.data_ne (h : Held thiz block) : thiz.data ≠ .null := by
  rw [h.data]
  exact Storage.noConfusion

/-- What is granted is the product as the code computes it. -/
theorem bytes_of_granted {capacity : ℤ} (h : Granted (bytes thiz capacity) fresh) :
    (bytes thiz capacity : ℤ) = wrap (thiz.elemSize * wrap capacity) :=
  sizeT_wrap h.2

theorem wrap_lt (n : ℤ) : wrap n < 2 ^ 31 := by
  unfold wrap
  omega

/-- A full array holds as many elements as its capacity says, and a larger capacity that is
granted did not overflow. -/
theorem Held.wrap_of_granted (h : Held thiz block) (hfull : wrap (thiz.size + 1) > thiz.capacity)
    (hgranted : Granted (bytes thiz (thiz.capacity + thiz.capacity / 2 + ZBASELIB_ARRAY_MIN_NUM))
      fresh) :
    thiz.size = thiz.capacity ∧
      wrap (thiz.capacity + thiz.capacity / 2 + ZBASELIB_ARRAY_MIN_NUM) =
        thiz.capacity + thiz.capacity / 2 + ZBASELIB_ARRAY_MIN_NUM := by
  obtain ⟨-, hpos, -, hnonneg, hle, hlt, helems, hblock⟩ := h
  have hmin : ZBASELIB_ARRAY_MIN_NUM = 10 := rfl
  have hsize : thiz.size = thiz.capacity := by
    unfold wrap at hfull
    omega
  refine ⟨hsize, ?_⟩
  have hcount := bytes_of_granted hgranted
  by_cases hone : thiz.elemSize = 1
  · rw [hone, Int.one_mul] at hcount
    unfold wrap at hcount ⊢
    omega
  · have htwo : thiz.size * 2 ≤ thiz.size * thiz.elemSize :=
      Int.mul_le_mul_of_nonneg_left (by omega) hnonneg
    unfold wrap
    omega

/-- The larger block begins like the old one. -/
theorem Held.expanded_eq (h : Held thiz block) (hfull : wrap (thiz.size + 1) > thiz.capacity)
    (hgranted : Granted (bytes thiz (thiz.capacity + thiz.capacity / 2 + ZBASELIB_ARRAY_MIN_NUM))
      fresh) :
    ∃ block₁ : List UInt8, expanded thiz block fresh = { thiz with
        data := .live block₁
        capacity := thiz.capacity + thiz.capacity / 2 + ZBASELIB_ARRAY_MIN_NUM } ∧
      block₁.length = bytes thiz (thiz.capacity + thiz.capacity / 2 + ZBASELIB_ARRAY_MIN_NUM) ∧
        ∀ n ≤ block.length, n ≤ block₁.length → block₁.take n = block.take n := by
  obtain ⟨block₁, hrealloc, hlength, htake⟩ := realloc_eq_some block hgranted.2 hgranted.1
  refine ⟨block₁, ?_, hlength, fun n hn hn₁ ↦ htake n hn (by omega)⟩
  unfold expanded resized
  rw [if_pos hfull, hrealloc, (h.wrap_of_granted hfull hgranted).2]

/-- The elements at the front of a block. -/
theorem held_of_uniform {width : ℕ} {capacity : ℤ} {elems : List (List UInt8)} {rest : List UInt8}
    (hwidth : 1 ≤ (width : ℤ) ∧ (width : ℤ) < 2 ^ 31) (helems : Uniform width elems)
    (hcapacity : (elems.length : ℤ) ≤ capacity ∧ capacity < 2 ^ 31)
    (hlt : (elems.flatten ++ rest).length < 2 ^ 31) :
    Held ⟨width, elems.length, capacity, .live (elems.flatten ++ rest)⟩
      (elems.flatten ++ rest) := by
  refine ⟨rfl, hwidth.1, hwidth.2, Int.natCast_nonneg _, hcapacity.1, hcapacity.2, ?_, hlt⟩
  have hle : elems.length * width ≤ (elems.flatten ++ rest).length := by
    rw [List.length_append, helems.length_flatten]
    exact Nat.le_add_right _ _
  change (elems.length : ℤ) * width ≤ _
  exact_mod_cast hle

/-- An element for which there is a place in the expanded block goes in. -/
theorem Held.wp_insert_expanded (h : Held thiz block) {block₁ : List UInt8} {capacity : ℤ}
    (hexpand : wp (expand 1 fresh) (fun ret after ↦ ret = 1 ∧
      after = { thiz with data := .live block₁, capacity }) thiz)
    (htake : ∀ n ≤ block.length, n ≤ block₁.length → block₁.take n = block.take n)
    (hroom : (thiz.size + 1) * thiz.elemSize ≤ block₁.length) (hlt : block₁.length < 2 ^ 31)
    (hcapacity : thiz.size + 1 ≤ capacity ∧ capacity < 2 ^ 31)
    (hindex : 0 ≤ index ∧ index ≤ thiz.size) (helem : thiz.elemSize ≤ elem.length)
    {post : ℤ → State → Prop}
    (hpost : ∀ thiz' block', Held thiz' block' → Inserted (some elem) index thiz thiz' →
      post 0 thiz') :
    wp (insert (some elem) index fresh) post thiz := by
  obtain ⟨hdata, hpos, helemSize, hnonneg, -, -, helems, -⟩ := h
  obtain ⟨elemSize, size, capacity₀, data⟩ := thiz
  dsimp only at hpos hnonneg helems hroom hcapacity hindex helem hdata ⊢
  obtain ⟨width, rfl⟩ := Int.eq_ofNat_of_zero_le (show 0 ≤ elemSize by omega)
  obtain ⟨n, rfl⟩ := Int.eq_ofNat_of_zero_le hnonneg
  obtain ⟨k, rfl⟩ := Int.eq_ofNat_of_zero_le hindex.1
  have hfit : n * width ≤ block.length := by exact_mod_cast helems
  have hroom₁ : (n + 1) * width ≤ block₁.length := by exact_mod_cast hroom
  have hfit₁ : n * width ≤ block₁.length :=
    Nat.le_trans (Nat.mul_le_mul_right width (Nat.le_succ n)) hroom₁
  have hblock₁ : block₁ = (slots width n block).flatten ++ block₁.drop (n * width) := by
    rw [flatten_slots hfit, ← htake _ hfit hfit₁, List.take_append_drop]
  have hlength := length_slots width n block
  have huniform := uniform_slots hfit
  obtain ⟨front, back, hsplit, rfl⟩ := exists_gap
    (show k ≤ (slots width n block).length by omega)
  rw [hsplit] at hblock₁ huniform hlength
  have hfree : width ≤ (block₁.drop (n * width)).length := by
    rw [Nat.succ_mul] at hroom₁
    rw [List.length_drop]
    omega
  have hbound : ((front ++ back).length + 1) * width < 2 ^ 31 := by
    rw [hlength]
    omega
  obtain ⟨hfront, hback⟩ := uniform_append.1 huniform
  have hnew : (elem.take width).length = width := by
    apply List.length_take_of_le
    exact_mod_cast helem
  have huniform' : Uniform width (front ++ elem.take width :: back) :=
    uniform_append.2 ⟨hfront, uniform_cons.2 ⟨hnew, hback⟩⟩
  have hmore : (front ++ elem.take width :: back).length = n + 1 := by
    rw [← hlength]
    simp only [List.length_append, List.length_cons]
    omega
  have hfinal : ((front ++ elem.take width :: back).flatten ++
      (block₁.drop (n * width)).drop width).length = block₁.length := by
    rw [Nat.succ_mul] at hroom₁
    rw [List.length_append, huniform'.length_flatten, hmore, List.length_drop, List.length_drop,
      Nat.succ_mul]
    omega
  have hcount : ((front ++ elem.take width :: back).length : ℤ) ≤ capacity := by
    rw [hmore]
    exact hcapacity.1
  have hheld := held_of_uniform ⟨hpos, helemSize⟩ huniform' ⟨hcount, hcapacity.2⟩ (hfinal ▸ hlt)
  have hexpand' : wp (expand 1 fresh) (fun ret after ↦ ret = 1 ∧
      after = ⟨width, (front ++ back).length, capacity,
        .live ((front ++ back).flatten ++ block₁.drop (n * width))⟩)
      ⟨width, n, capacity₀, data⟩ := by
    rw [hlength, ← hblock₁]
    exact hexpand
  apply wp_insert_slot (by rw [hdata]; exact Storage.noConfusion) (by rw [hlength]) hexpand'
    (by omega) huniform hfree hbound (by exact_mod_cast helem)
  apply hpost _ _ hheld
  refine ⟨?_, hindex.1, elem, rfl, ?_⟩
  · dsimp only
    rw [hmore]
    rfl
  · unfold elements
    dsimp only
    rw [Int.toNat_natCast, Int.toNat_natCast, huniform'.slots_append]
    simp

theorem Held.wp_insert (h : Held thiz block) (hroomy : Roomy thiz (some elem) index fresh)
    (hindex : 0 ≤ index ∧ index ≤ thiz.size) (helem : thiz.elemSize ≤ elem.length)
    {post : ℤ → State → Prop}
    (hpost : ∀ thiz' block', Held thiz' block' → Inserted (some elem) index thiz thiz' →
      post 0 thiz') :
    wp (insert (some elem) index fresh) post thiz := by
  obtain ⟨block₀, hdata, hfits, hgrows⟩ := hroomy ⟨rfl, hindex⟩
  rw [h.data] at hdata
  cases hdata
  have hcap := h.capacity_lt
  by_cases hfull : wrap (thiz.size + 1) > thiz.capacity
  · have hmem : grows thiz (some elem) index =
        some (thiz.capacity + thiz.capacity / 2 + ZBASELIB_ARRAY_MIN_NUM) :=
      if_pos ⟨rfl, hindex.1, hindex.2, hfull⟩
    obtain ⟨hgranted, hroom⟩ := hgrows _ hmem
    obtain ⟨hsize, hcapacity⟩ := h.wrap_of_granted hfull hgranted
    obtain ⟨block₁, hexpanded, hlength, htake⟩ := h.expanded_eq hfull hgranted
    have hcount := bytes_of_granted hgranted
    have hlt := wrap_lt (thiz.elemSize * wrap (thiz.capacity + thiz.capacity / 2 +
      ZBASELIB_ARRAY_MIN_NUM))
    have hmin : ZBASELIB_ARRAY_MIN_NUM = 10 := rfl
    have hnonneg := h.size_nonneg
    have hnew := wrap_lt (thiz.capacity + thiz.capacity / 2 + ZBASELIB_ARRAY_MIN_NUM)
    have hexpand : wp (expand 1 fresh) (fun ret after ↦ ret = 1 ∧ after = { thiz with
        data := .live block₁
        capacity := thiz.capacity + thiz.capacity / 2 + ZBASELIB_ARRAY_MIN_NUM }) thiz := by
      rw [wp_expand_live h.data, hexpanded]
      refine ⟨if_pos ?_, rfl⟩
      dsimp only
      unfold wrap
      omega
    exact h.wp_insert_expanded hexpand htake (by rw [hlength]; exact hroom) (by omega)
      (by omega) hindex helem hpost
  · have hexpanded : expanded thiz block fresh = thiz := if_neg hfull
    have hnone : grows thiz (some elem) index = none := if_neg fun hall ↦ hfull hall.2.2.2
    have hroom := hfits hnone
    have hone : thiz.size + 1 ≤ thiz.capacity := by
      have hlt : (thiz.size + 1) * 1 ≤ (thiz.size + 1) * thiz.elemSize :=
        Int.mul_le_mul_of_nonneg_left h.elemSize_pos (by have := h.size_nonneg; omega)
      have hblock := h.block_lt
      have hnonneg := h.size_nonneg
      unfold wrap at hfull
      omega
    have hexpand : wp (expand 1 fresh) (fun ret after ↦ ret = 1 ∧
        after = { thiz with data := .live block, capacity := thiz.capacity }) thiz := by
      rw [wp_expand_live h.data, hexpanded]
      refine ⟨if_pos (Int.not_lt.1 hfull), ?_⟩
      rw [← h.data]
    exact h.wp_insert_expanded hexpand (fun _ _ _ ↦ rfl) hroom h.block_lt ⟨hone, hcap⟩ hindex helem
      hpost

/-- The first byte that is written is the one behind the last element. -/
theorem room_of_wp_write {elemSize size : ℤ} (hindex : index ≤ size)
    (hpos : 0 ≤ elemSize ∧ elemSize < 2 ^ 31) (hoffset : 0 ≤ size * elemSize)
    (hlt : size * elemSize < 2 ^ 31) {post : List UInt8 → State → Prop}
    (h : wp (shiftUp elemSize size index block) (fun block' ↦
      wp (copy block' (wrap (index * elemSize)) elem 0 elemSize) post) thiz) :
    (size + 1) * elemSize ≤ block.length ∧ elemSize ≤ elem.length := by
  have hwrap : wrap (size * elemSize) = size * elemSize := by
    unfold wrap
    omega
  have hsizeT : (sizeT elemSize : ℤ) = elemSize := by
    unfold sizeT
    omega
  rw [Int.add_mul, Int.one_mul]
  obtain ⟨block', hlength, hcopy⟩ := length_of_wp_shiftUp h
  obtain ⟨-, ⟨hdst, hsrc⟩, -⟩ := wp_copy_iff.1 hcopy
  refine ⟨?_, by omega⟩
  by_cases hmoves : index < size
  · unfold shiftUp at h
    rw [loop, wp_bind] at h
    dsimp only at h
    rw [wp_ite, if_pos hmoves, wp_bind] at h
    obtain ⟨-, ⟨hlast, -⟩, -⟩ := wp_copy_iff.1 h
    rw [hwrap] at hlast
    omega
  · have hsame : index = size := by omega
    rw [hsame, hwrap] at hdst
    omega

/-- An insertion in range has found a place, or it was refused and changed no element. -/
theorem Held.of_wp_insert (h : Held thiz block) (hindex : 0 ≤ index ∧ index ≤ thiz.size)
    {post : ℤ → State → Prop} (hwp : wp (insert (some elem) index fresh) post thiz) :
    (Roomy thiz (some elem) index fresh ∧ thiz.elemSize ≤ elem.length) ∨
      ∃ thiz', post 0 thiz' ∧ thiz'.size = thiz.size ∧ Usable thiz' := by
  have hpos := h.elemSize_pos
  have hlt := h.elemSize_lt
  have helems := h.elems_le
  have hblock := h.block_lt
  have hoffset := Int.mul_nonneg h.size_nonneg (show 0 ≤ thiz.elemSize by omega)
  unfold insert at hwp
  simp only [wp_bind, wp_get] at hwp
  rw [wp_ite, if_neg h.data_ne, wp_ite, if_neg (by omega), wp_bind, wp_expand_live h.data] at hwp
  by_cases hfull : wrap (thiz.size + 1) > thiz.capacity
  · have hgrows : grows thiz (some elem) index =
        some (thiz.capacity + thiz.capacity / 2 + ZBASELIB_ARRAY_MIN_NUM) :=
      if_pos ⟨rfl, hindex.1, hindex.2, hfull⟩
    by_cases hgranted : Granted (bytes thiz (thiz.capacity + thiz.capacity / 2 +
        ZBASELIB_ARRAY_MIN_NUM)) fresh
    · obtain ⟨hsize, -⟩ := h.wrap_of_granted hfull hgranted
      obtain ⟨block₁, hexpanded, hlength, -⟩ := h.expanded_eq hfull hgranted
      have hmin : ZBASELIB_ARRAY_MIN_NUM = 10 := rfl
      have hone : wrap (thiz.size + 1) ≤
          thiz.capacity + thiz.capacity / 2 + ZBASELIB_ARRAY_MIN_NUM := by
        have hnonneg := h.size_nonneg
        unfold wrap
        omega
      rw [hexpanded, if_pos hone, wp_ite, if_pos (by decide), wp_bind, wp_get] at hwp
      simp only [wp_bind] at hwp
      obtain ⟨hroom, helem⟩ := room_of_wp_write hindex.2 ⟨by omega, hlt⟩ hoffset (by omega) hwp
      rw [hlength] at hroom
      refine Or.inl ⟨fun _ ↦ ⟨block, h.data, fun hnone ↦ ?_, fun capacity hmem ↦ ?_⟩, helem⟩
      · rw [hgrows] at hnone
        cases hnone
      · rw [hgrows] at hmem
        cases hmem
        exact ⟨hgranted, hroom⟩
    · have hnone : realloc block (bytes thiz (thiz.capacity + thiz.capacity / 2 +
          ZBASELIB_ARRAY_MIN_NUM)) fresh = none := by
        rw [granted_iff block, Option.not_isSome_iff_eq_none] at hgranted
        exact hgranted
      have hfew : ¬wrap (thiz.size + 1) ≤ thiz.capacity := Int.not_le.2 hfull
      right
      unfold expanded resized at hwp
      rw [if_pos hfull, hnone] at hwp
      by_cases hzero : bytes thiz (thiz.capacity + thiz.capacity / 2 + ZBASELIB_ARRAY_MIN_NUM) = 0
      · rw [if_pos hzero, if_neg hfew, wp_ite, if_neg (not_not.2 rfl), wp_pure] at hwp
        exact ⟨_, hwp, rfl, Or.inr rfl⟩
      · rw [if_neg hzero, if_neg hfew, wp_ite, if_neg (not_not.2 rfl), wp_pure] at hwp
        exact ⟨_, hwp, rfl, Or.inl ⟨block, h⟩⟩
  · have hexpanded : expanded thiz block fresh = thiz := if_neg hfull
    have hnone : grows thiz (some elem) index = none := if_neg fun hall ↦ hfull hall.2.2.2
    have hone : wrap (thiz.size + 1) ≤ thiz.capacity := Int.not_lt.1 hfull
    rw [hexpanded, if_pos hone, wp_ite, if_pos (by decide), wp_bind, wp_get] at hwp
    simp only [h.data, wp_bind] at hwp
    obtain ⟨hroom, helem⟩ := room_of_wp_write hindex.2 ⟨by omega, hlt⟩ hoffset (by omega) hwp
    refine Or.inl ⟨fun _ ↦ ⟨block, h.data, fun _ ↦ hroom, fun capacity hmem ↦ ?_⟩, helem⟩
    rw [hnone] at hmem
    cases hmem

/-- Arguments that are checked for. -/
theorem wp_insert_invalid {elem : Option (List UInt8)} (hdata : thiz.data ≠ .null)
    (h : ¬Accepted thiz elem index) {post : ℤ → State → Prop} :
    wp (insert elem index fresh) post thiz ↔ post (-1) thiz := by
  unfold insert
  simp only [wp_bind, wp_get]
  rw [wp_ite, if_neg hdata]
  cases elem with
  | none => rw [wp_pure]
  | some elem =>
    have hindex : ¬(0 ≤ index ∧ index ≤ thiz.size) := fun hindex ↦ h ⟨rfl, hindex⟩
    rw [wp_ite, if_pos (by omega), wp_pure]

/-- There is no outcome for an element that would be written to memory that was given back. -/
theorem of_wp_insert_freed (hdata : thiz.data = .freed) {elem : Option (List UInt8)}
    {post : ℤ → State → Prop} (hwp : wp (insert elem index fresh) post thiz) :
    ¬Accepted thiz elem index := by
  rintro ⟨hsome, hindex⟩
  obtain ⟨elem, rfl⟩ := Option.isSome_iff_exists.1 hsome
  have hlive : thiz.data ≠ .null := by
    rw [hdata]
    exact Storage.noConfusion
  unfold insert expand at hwp
  simp only [wp_bind, wp_get] at hwp
  rw [wp_ite, if_neg hlive, wp_ite, if_neg (by omega), wp_bind, wp_bind, wp_get, wp_ite,
    if_neg hlive, wp_ite] at hwp
  by_cases hfull : wrap (thiz.size + 1) > thiz.capacity
  · rw [if_pos hfull, wp_bind, resize, wp_bind, wp_get] at hwp
    simp [hdata] at hwp
  · have hone : wrap (thiz.size + 1) ≤ thiz.capacity := Int.not_lt.1 hfull
    rw [if_neg hfull, wp_bind, wp_get, wp_pure, if_pos hone, wp_ite,
      if_pos (by decide), wp_bind, wp_get] at hwp
    simp [hdata] at hwp

/-! ## Every call leaves such a state -/

/-- Shrinking keeps the elements. -/
theorem Held.reduced (h : Held thiz block) : Usable (reduced thiz block fresh) := by
  unfold Array.reduced
  split
  case isFalse => exact Or.inl ⟨block, h⟩
  case isTrue hshrink =>
    obtain ⟨hdata, hpos, helemSize, hnonneg, hle, hlt, helems, hblock⟩ := h
    have hcapacity : wrap (thiz.size + thiz.size / 2) = thiz.size + thiz.size / 2 := by
      unfold wrap
      omega
    have hhalf : thiz.elemSize * (thiz.size / 2 * 2) ≤ thiz.elemSize * thiz.size :=
      Int.mul_le_mul_of_nonneg_left (by omega) (by omega)
    have hsum : thiz.elemSize * (thiz.size + thiz.size / 2) =
        thiz.size * thiz.elemSize + thiz.elemSize * (thiz.size / 2) := by
      rw [Int.mul_add, Int.mul_comm thiz.elemSize thiz.size]
    have hrest : 0 ≤ thiz.elemSize * (thiz.size / 2) := by
      apply Int.mul_nonneg <;> omega
    rw [← Int.mul_assoc, Int.mul_comm thiz.elemSize thiz.size] at hhalf
    unfold resized
    cases hrealloc : realloc block (bytes thiz (thiz.size + thiz.size / 2)) fresh with
    | none =>
      dsimp only
      split
      · exact Or.inr rfl
      · exact Or.inl ⟨block, hdata, hpos, helemSize, hnonneg, hle, hlt, helems, hblock⟩
    | some block₁ =>
      obtain ⟨hbytes, hfresh, hlength⟩ := of_realloc_eq_some hrealloc
      have hcount := bytes_of_granted ⟨hfresh, hbytes⟩
      rw [← hlength, hcapacity, hsum] at hcount
      have hfits : (block₁.length : ℤ) =
          thiz.size * thiz.elemSize + thiz.elemSize * (thiz.size / 2) := by
        rw [hcount]
        unfold wrap at hcount ⊢
        omega
      have hshort := wrap_lt (thiz.size * thiz.elemSize + thiz.elemSize * (thiz.size / 2))
      refine Or.inl ⟨block₁, rfl, hpos, helemSize, hnonneg, ?_, ?_, ?_, by omega⟩
      · dsimp only
        omega
      · dsimp only
        omega
      · dsimp only
        omega

theorem Usable.data_ne (h : Usable thiz) : thiz.data ≠ .null := by
  obtain ⟨block, hheld⟩ | hfreed := h
  · exact hheld.data_ne
  · rw [hfreed]
    exact Storage.noConfusion

theorem Usable.step_insert (h : Usable thiz) {elem : Option (List UInt8)} {post : ℤ → State → Prop}
    (hwp : wp (insert elem index fresh) post thiz) :
    ∃ ret thiz', post ret thiz' ∧ Usable thiz' := by
  by_cases haccepted : Accepted thiz elem index
  · obtain ⟨block, hheld⟩ | hfreed := h
    · obtain ⟨hsome, hindex⟩ := haccepted
      obtain ⟨elem, rfl⟩ := Option.isSome_iff_exists.1 hsome
      obtain ⟨hroomy, helem⟩ | ⟨thiz', hpost, -, husable⟩ := hheld.of_wp_insert hindex hwp
      · have hheld' : wp (insert (some elem) index fresh) (fun _ ↦ Usable) thiz :=
          hheld.wp_insert hroomy hindex helem fun _ block' hheld' _ ↦ Or.inl ⟨block', hheld'⟩
        obtain ⟨ret, thiz', -, hpost, husable⟩ := wp_and hwp hheld'
        exact ⟨ret, thiz', hpost, husable⟩
      · exact ⟨0, thiz', hpost, husable⟩
    · exact absurd haccepted (of_wp_insert_freed hfreed hwp)
  · exact ⟨-1, thiz, (wp_insert_invalid h.data_ne haccepted).1 hwp, h⟩

theorem Usable.step_delete (h : Usable thiz) {post : ℤ → State → Prop}
    (hwp : wp (delete index fresh) post thiz) : ∃ ret thiz', post ret thiz' ∧ Usable thiz' := by
  have hdata := h.data_ne
  by_cases hindex : 0 ≤ index ∧ index < thiz.size
  · obtain ⟨block, hheld⟩ | hfreed := h
    · obtain ⟨block', hlength, hpost⟩ := of_wp_delete hheld.data hindex hwp
      refine ⟨0, _, hpost, Held.reduced ?_⟩
      obtain ⟨-, hpos, helemSize, hnonneg, hle, hlt, helems, hblock⟩ := hheld
      have hone : wrap (thiz.size - 1) = thiz.size - 1 := by
        unfold wrap
        omega
      have hfewer : (thiz.size - 1) * thiz.elemSize ≤ thiz.size * thiz.elemSize :=
        Int.mul_le_mul_of_nonneg_right (by omega) (by omega)
      rw [← hlength] at helems hblock
      refine ⟨rfl, hpos, helemSize, ?_, ?_, hlt, ?_, hblock⟩
      · dsimp only
        omega
      · dsimp only
        omega
      · dsimp only
        rw [hone]
        omega
    · unfold delete at hwp
      simp only [wp_bind, wp_get] at hwp
      rw [wp_ite, if_neg hdata, wp_ite, if_neg (by omega)] at hwp
      simp [hfreed] at hwp
  · unfold delete at hwp
    simp only [wp_bind, wp_get] at hwp
    rw [wp_ite, if_neg hdata, wp_ite, if_pos (by omega), wp_pure] at hwp
    exact ⟨-1, thiz, hwp, h⟩

theorem Usable.step_setElement (h : Usable thiz) {post : ℤ → State → Prop}
    (hwp : wp (Array.set elem index) post thiz) : ∃ ret thiz', post ret thiz' ∧ Usable thiz' := by
  unfold Array.set at hwp
  simp only [wp_bind, wp_get] at hwp
  rw [wp_ite] at hwp
  split at hwp
  · rw [wp_pure] at hwp
    exact ⟨-1, thiz, hwp, h⟩
  rw [wp_ite] at hwp
  split at hwp
  · rw [wp_pure] at hwp
    exact ⟨-1, thiz, hwp, h⟩
  obtain ⟨block, hheld⟩ | hfreed := h
  · simp only [hheld.data, wp_bind] at hwp
    obtain ⟨-, block', hlength, hdone⟩ := length_of_wp_copy hwp
    rw [wp_modify, wp_pure] at hdone
    obtain ⟨-, hpos, helemSize, hnonneg, hle, hlt, helems, hblock⟩ := hheld
    rw [← hlength] at helems hblock
    exact ⟨0, _, hdone, Or.inl ⟨block', rfl, hpos, helemSize, hnonneg, hle, hlt, helems, hblock⟩⟩
  · simp [hfreed] at hwp

/-- **Every call leaves the elements in their block, or the block given back.** -/
theorem Usable.step (h : Usable thiz) {label : Op × Result} (hstep : CallStep label thiz thiz') :
    Usable thiz' := by
  obtain ⟨op, result⟩ := label
  have hwp : wp op.run (fun _ after ↦ after = thiz') thiz := ⟨_, _, hstep, rfl⟩
  have hdata := h.data_ne
  cases op with
  | insert elem index fresh =>
    simp only [Op.run, wp_bind, wp_pure] at hwp
    obtain ⟨ret, after, rfl, husable⟩ := h.step_insert hwp
    exact husable
  | prepend elem fresh =>
    simp only [Op.run, prepend, wp_bind, wp_pure] at hwp
    obtain ⟨ret, after, rfl, husable⟩ := h.step_insert hwp
    exact husable
  | append elem fresh =>
    simp only [Op.run, append, size, wp_bind, wp_pure, wp_get] at hwp
    obtain ⟨ret, after, rfl, husable⟩ := h.step_insert hwp
    exact husable
  | delete index fresh =>
    simp only [Op.run, wp_bind, wp_pure] at hwp
    obtain ⟨ret, after, rfl, husable⟩ := h.step_delete hwp
    exact husable
  | get index =>
    obtain ⟨-, rfl⟩ := (leaves_get index).of_wp hwp
    exact h
  | set elem index =>
    simp only [Op.run, wp_bind, wp_pure] at hwp
    obtain ⟨ret, after, rfl, husable⟩ := h.step_setElement hwp
    exact husable
  | find cmp =>
    obtain ⟨-, rfl⟩ := (leaves_find cmp).of_wp hwp
    exact h

end

/-- The first state. -/
theorem usable_of_create {handle : Bool} {fresh : Option (ℕ → UInt8)} {elemSize elemNum : ℤ}
    {thiz : State} (helemSize : 1 ≤ elemSize ∧ elemSize < 2 ^ 31) (helemNum : elemNum < 2 ^ 31)
    (h : create handle fresh elemSize elemNum = some thiz) : Usable thiz := by
  unfold create at h
  split at h
  case isFalse => cases h
  case isTrue =>
    obtain ⟨block, hblock, rfl⟩ := Option.map_eq_some_iff.1 h
    obtain ⟨hbytes, -, hlength⟩ := of_realloc_eq_some hblock
    have hcount := sizeT_wrap hbytes
    rw [← hlength] at hcount
    have hlt := wrap_lt (elemSize *
      if elemNum < ZBASELIB_ARRAY_MIN_NUM then ZBASELIB_ARRAY_MIN_NUM else elemNum)
    have hmin : ZBASELIB_ARRAY_MIN_NUM = 10 := rfl
    refine Or.inl ⟨block, rfl, helemSize.1, helemSize.2, Int.le_refl _, ?_, ?_, ?_, by omega⟩
    · dsimp only
      split <;> omega
    · dsimp only
      split <;> omega
    · rw [Int.zero_mul]
      exact Int.natCast_nonneg _

theorem usable_of_run {handle : Bool} {fresh : Option (ℕ → UInt8)} {elemSize elemNum : ℤ}
    {thiz₀ thiz : State} {labels : List (Op × Result)}
    (helemSize : 1 ≤ elemSize ∧ elemSize < 2 ^ 31) (helemNum : elemNum < 2 ^ 31)
    (hcreate : create handle fresh elemSize elemNum = some thiz₀)
    (hrun : Run CallStep labels thiz₀ thiz) : Usable thiz :=
  hrun.invariant Usable (fun _ _ _ h hstep ↦ h.step hstep)
    (usable_of_create helemSize helemNum hcreate)

/-! ## The return value -/

section

variable {thiz : State} {fresh : Option (ℕ → UInt8)} {elem : Option (List UInt8)} {index : ℤ}

theorem not_inserted_of_size {thiz' : State} (h : thiz'.size = thiz.size) :
    ¬Inserted elem index thiz thiz' := by
  rintro ⟨hsize, -⟩
  omega

/-- **An insertion reports what it did exactly when an element that is accepted has a place.** -/
theorem Usable.reports_insert_iff (h : Usable thiz)
    (helem : ∀ elem' ∈ elem, thiz.elemSize ≤ (elem' : List UInt8).length) :
    Reports (insert elem index fresh) elem index fresh thiz ↔ Roomy thiz elem index fresh := by
  by_cases haccepted : Accepted thiz elem index
  · obtain ⟨hsome, hindex⟩ := haccepted
    obtain ⟨elem, rfl⟩ := Option.isSome_iff_exists.1 hsome
    constructor
    · intro hreports
      obtain ⟨block, hheld⟩ | hfreed := h
      · obtain ⟨hroomy, -⟩ | ⟨thiz', ⟨hret, -⟩, hsize, -⟩ := hheld.of_wp_insert hindex hreports
        · exact hroomy
        · exact absurd (hret.1 rfl) (not_inserted_of_size hsize)
      · exact absurd ⟨hsome, hindex⟩ (of_wp_insert_freed hfreed hreports)
    · intro hroomy
      obtain ⟨block, hlive, -, hgrows⟩ := hroomy ⟨hsome, hindex⟩
      have hheld : ∃ block, Held thiz block := by
        refine h.resolve_right fun hfreed ↦ ?_
        rw [hlive] at hfreed
        cases hfreed
      obtain ⟨block, hheld⟩ := hheld
      apply hheld.wp_insert hroomy hindex (helem elem rfl)
      intro thiz' block' _ hinserted
      refine ⟨⟨fun _ ↦ hinserted, fun _ ↦ rfl⟩, ?_⟩
      rintro ⟨capacity, hmem, hrefused⟩
      exact absurd (hgrows capacity hmem).1 hrefused
  · refine ⟨fun _ haccepted' ↦ absurd haccepted' haccepted, fun _ ↦ ?_⟩
    unfold Reports
    rw [wp_insert_invalid h.data_ne haccepted]
    refine ⟨⟨fun hret ↦ absurd hret (by decide), fun hinserted ↦ ?_⟩, fun _ ↦ ⟨rfl, rfl⟩⟩
    exact absurd hinserted (not_inserted_of_size rfl)

end

/-- **The three insertions report what they did exactly when an element that is accepted has a
place** in every state of every array. -/
theorem reports_iff {handle : Bool} {fresh₀ fresh : Option (ℕ → UInt8)} {elemSize elemNum : ℤ}
    {thiz₀ thiz : State} {labels : List (Op × Result)} {elem : Option (List UInt8)}
    (helemSize : 1 ≤ elemSize ∧ elemSize < 2 ^ 31) (helemNum : elemNum < 2 ^ 31)
    (hcreate : create handle fresh₀ elemSize elemNum = some thiz₀)
    (hrun : Run CallStep labels thiz₀ thiz)
    (helem : ∀ elem' ∈ elem, thiz.elemSize ≤ (elem' : List UInt8).length) :
    (∀ index, Reports (insert elem index fresh) elem index fresh thiz ↔
      Roomy thiz elem index fresh) ∧
    (Reports (prepend elem fresh) elem 0 fresh thiz ↔ Roomy thiz elem 0 fresh) ∧
    (Reports (append elem fresh) elem thiz.size fresh thiz ↔ Roomy thiz elem thiz.size fresh) := by
  have h := usable_of_run helemSize helemNum hcreate hrun
  refine ⟨fun index ↦ h.reports_insert_iff helem, h.reports_insert_iff helem, ?_⟩
  rw [← h.reports_insert_iff helem]
  unfold Reports append size
  simp only [wp_bind, wp_get, wp_pure]
  rw [if_neg h.data_ne]

theorem full_run :
    ∃ thiz₀ thiz, create true (some fun _ ↦ 0) 1 12 = some thiz₀ ∧
      Run CallStep halveLabels thiz₀ thiz ∧ thiz = ⟨1, 1, 1, .live [8]⟩ :=
  ⟨_, _, rfl, .cons rfl <| .cons rfl <| .cons rfl <| .nil _, rfl⟩

/-- Without memory for one more element the call still returns 0. -/
theorem not_reports_full :
    ∃ thiz₀ thiz, create true (some fun _ ↦ 0) 1 12 = some thiz₀ ∧
      Run CallStep halveLabels thiz₀ thiz ∧ (append (some [7]) none).run thiz = some (0, thiz) ∧
        Refused thiz (some [7]) thiz.size none ∧
          ¬Reports (append (some [7]) none) (some [7]) thiz.size none thiz := by
  obtain ⟨thiz₀, thiz, hcreate, hrun, rfl⟩ := full_run
  have hrefused : Refused ⟨1, 1, 1, .live [8]⟩ (some [7]) 1 none :=
    ⟨11, rfl, fun hgranted ↦ absurd hgranted.1 Bool.false_ne_true⟩
  refine ⟨thiz₀, _, hcreate, hrun, rfl, hrefused, ?_⟩
  rintro ⟨ret, thiz', hcall, -, hfail⟩
  cases hcall
  exact absurd (hfail hrefused).1 (by decide)

theorem reports_iff_full :
    Reports (append (some [7]) (some fun _ ↦ 0)) (some [7]) 1 (some fun _ ↦ 0)
      ⟨1, 1, 1, .live [8]⟩ := by
  obtain ⟨thiz₀, thiz, hcreate, hrun, rfl⟩ := full_run
  have hgrows : grows ⟨1, 1, 1, .live [8]⟩ (some [7]) 1 = some 11 := rfl
  have helem : ∀ elem' ∈ some [(7 : UInt8)], (1 : ℤ) ≤ elem'.length := by
    intro elem' hmem
    cases hmem
    decide
  refine (reports_iff (by decide) (by decide) hcreate hrun helem).2.2.2 fun _ ↦ ⟨_, rfl, ?_, ?_⟩
  · intro hnone
    cases hgrows.symm.trans hnone
  · intro capacity hmem
    cases hgrows.symm.trans hmem
    exact ⟨⟨rfl, by decide⟩, by decide⟩

end Zbaselib.Array
