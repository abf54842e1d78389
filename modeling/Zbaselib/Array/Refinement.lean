import Zbaselib.Array.Model
import Zbaselib.Lib.Slots
import Zbaselib.Lib.Transition

/-!
# The dynamic array refines a list of elements
-/

namespace Zbaselib.Array

open Program Block Slots Transition

/-- What the array holds. -/
def elements (thiz : State) : List (List UInt8) :=
  match thiz.data with
  | .live block => slots thiz.elemSize.toNat thiz.size.toNat block
  | _ => []

/-- A block with room for `capacity` elements, the first of which are `elems`. -/
structure Layout where
  width : ℕ
  capacity : ℕ
  elems : List (List UInt8)
  rest : List UInt8
  width_pos : 0 < width
  uniform : Uniform width elems
  length_eq : elems.length * width + rest.length = capacity * width
  bytes_lt : capacity * width < 2 ^ 31

def Layout.block (l : Layout) : List UInt8 := l.elems.flatten ++ l.rest

def Layout.state (l : Layout) : State :=
  ⟨l.width, l.elems.length, l.capacity, .live l.block⟩

theorem Layout.data_ne (l : Layout) : l.state.data ≠ .null :=
  Storage.noConfusion

@[simp]
theorem elements_state (l : Layout) : elements l.state = l.elems :=
  l.uniform.slots_append l.rest

/-! ## Arithmetic without overflow -/

theorem wrap_of_lt {n : ℕ} (h : n < 2 ^ 31) : wrap n = n := by
  unfold wrap
  omega

theorem sizeT_of_lt {n : ℕ} (h : n < 2 ^ 31) : sizeT n = n := by
  unfold sizeT
  omega

section

variable (l : Layout)

theorem Layout.length_block : l.block.length = l.capacity * l.width := by
  unfold Layout.block
  rw [List.length_append, l.uniform.length_flatten, l.length_eq]

theorem Layout.length_le : l.elems.length ≤ l.capacity :=
  Nat.le_of_mul_le_mul_right (by have := l.length_eq; omega) l.width_pos

theorem le_mul_width {n : ℕ} : n ≤ n * l.width :=
  Nat.le_mul_of_pos_right n l.width_pos

theorem Layout.capacity_lt : l.capacity < 2 ^ 31 :=
  Nat.lt_of_le_of_lt (le_mul_width l) l.bytes_lt

theorem Layout.width_lt (hcap : 0 < l.capacity) : l.width < 2 ^ 31 :=
  Nat.lt_of_le_of_lt (Nat.le_mul_of_pos_left l.width hcap) l.bytes_lt

theorem Layout.width_le_rest (h : l.elems.length < l.capacity) : l.width ≤ l.rest.length := by
  have hlength := l.length_eq
  have hslot := Nat.mul_le_mul_right l.width (Nat.succ_le_of_lt h)
  rw [Nat.succ_mul] at hslot
  omega

/-- The offset of a slot. -/
theorem Layout.wrap_offset {k : ℕ} (hk : k ≤ l.capacity) :
    wrap ((k : ℤ) * l.width) = ((k * l.width : ℕ) : ℤ) := by
  have hle := Nat.mul_le_mul_right l.width hk
  have hlt := l.bytes_lt
  rw [← Int.natCast_mul, wrap_of_lt (by omega)]

/-- One element is copied. -/
theorem wp_copy {width i j : ℕ} {block src : List UInt8} (hwidth : width < 2 ^ 31)
    (hi : i + width ≤ block.length) (hj : j + width ≤ src.length)
    {post : List UInt8 → State → Prop} {thiz : State}
    (hpost : post (splice block i ((src.drop j).take width)) thiz) :
    wp (copy block i src j width) post thiz := by
  unfold copy
  simp only [wp_bind, wp_require, wp_memcpy, Int.toNat_natCast, sizeT_of_lt hwidth]
  exact ⟨⟨Int.natCast_nonneg i, Int.natCast_nonneg j⟩, ⟨hi, hj⟩, hpost⟩

/-! ## Growth and shrinking -/

/-- A new block keeps the elements when there is room for them. -/
theorem wp_resize {capacity : ℕ} {fresh : Option (ℕ → UInt8)} (hfresh : fresh.isSome)
    (hroom : l.elems.length ≤ capacity) (hlt : capacity * l.width < 2 ^ 31)
    {post : Unit → State → Prop}
    (hpost : ∀ l' : Layout, l'.width = l.width → l'.elems = l.elems → l'.capacity = capacity →
      post () l'.state) :
    wp (resize capacity fresh) post l.state := by
  have hsize : sizeT (wrap ((l.width : ℤ) * capacity)) = capacity * l.width := by
    rw [Int.mul_comm, ← Int.natCast_mul, wrap_of_lt hlt, sizeT_of_lt hlt]
  have hfull := Nat.mul_le_mul_right l.width hroom
  have hold := Nat.mul_le_mul_right l.width l.length_le
  obtain ⟨block, hrealloc, hlen, htake⟩ :=
    realloc_eq_some l.block (show capacity * l.width < 2 ^ 63 by omega) hfresh
  have hkept : block = l.elems.flatten ++ block.drop (l.elems.length * l.width) := by
    have helems := htake (l.elems.length * l.width) (by rw [l.length_block]; exact hold) hfull
    rw [Layout.block, List.take_left' l.uniform.length_flatten] at helems
    rw [← helems, List.take_append_drop]
  unfold resize Layout.state
  simp only [wp_bind, wp_get, hsize, hrealloc, wp_set]
  have hlength : l.elems.length * l.width + (block.drop (l.elems.length * l.width)).length =
      capacity * l.width := by
    rw [List.length_drop, hlen]
    omega
  have hnew := hpost ⟨l.width, capacity, l.elems, _, l.width_pos, l.uniform, hlength, hlt⟩
    rfl rfl rfl
  rw [Layout.state, Layout.block, ← hkept] at hnew
  exact hnew

theorem wp_expand {fresh : Option (ℕ → UInt8)} (hfresh : fresh.isSome)
    (hroom : l.elems.length < l.capacity ∨ (l.capacity + l.capacity / 2 + 10) * l.width < 2 ^ 31)
    {post : ℤ → State → Prop}
    (hpost : ∀ l' : Layout, l'.width = l.width → l'.elems = l.elems →
      l'.elems.length < l'.capacity → post 1 l'.state) :
    wp (expand 1 fresh) post l.state := by
  have hle := l.length_le
  have hcap := l.capacity_lt
  -- the check at the end of `expand`
  have hdone (l' : Layout) (hlt : l'.elems.length < l'.capacity) :
      wrap (l'.state.size + 1) ≤ l'.state.capacity := by
    have hcap' := l'.capacity_lt
    simp only [Layout.state]
    rw [← Int.natCast_succ, wrap_of_lt (by omega)]
    omega
  unfold expand
  simp only [wp_bind, wp_get]
  rw [wp_ite, if_neg l.data_ne]
  by_cases hfull : l.elems.length < l.capacity
  · rw [wp_ite, if_neg (Int.not_lt.2 (hdone l hfull))]
    simp only [wp_bind, wp_get, wp_pure]
    rw [if_pos (hdone l hfull)]
    exact hpost l rfl rfl hfull
  · have hgrow := hroom.resolve_left hfull
    have hcapacity : l.capacity + l.capacity / 2 + 10 < 2 ^ 31 :=
      Nat.lt_of_le_of_lt (le_mul_width l) hgrow
    have hover : wrap (l.state.size + 1) > l.state.capacity := by
      simp only [Layout.state]
      rw [← Int.natCast_succ, wrap_of_lt (by omega)]
      omega
    have hnext : wrap (wrap (l.state.capacity + l.state.capacity / 2) + ZBASELIB_ARRAY_MIN_NUM) =
        ((l.capacity + l.capacity / 2 + 10 : ℕ) : ℤ) := by
      have hhalf : l.state.capacity + l.state.capacity / 2 =
          ((l.capacity + l.capacity / 2 : ℕ) : ℤ) := by
        simp only [Layout.state]
        omega
      have hnum : ((l.capacity + l.capacity / 2 : ℕ) : ℤ) + ZBASELIB_ARRAY_MIN_NUM =
          ((l.capacity + l.capacity / 2 + 10 : ℕ) : ℤ) := by
        unfold ZBASELIB_ARRAY_MIN_NUM
        omega
      rw [hhalf, wrap_of_lt (by omega), hnum, wrap_of_lt hcapacity]
    rw [wp_ite, if_pos hover, hnext]
    simp only [wp_bind, wp_get, wp_pure]
    apply wp_resize l hfresh (by omega) hgrow
    intro l' hwidth helems hcapacity'
    have hlt : l'.elems.length < l'.capacity := by
      rw [helems]
      omega
    rw [if_pos (hdone l' hlt)]
    exact hpost l' hwidth helems hlt

theorem wp_reduce {fresh : Option (ℕ → UInt8)} (hfresh : fresh.isSome) {post : ℤ → State → Prop}
    (hpost : ∀ l' : Layout, l'.width = l.width → l'.elems = l.elems → post 0 l'.state) :
    wp (reduce fresh) post l.state := by
  have hle := l.length_le
  have hcap := l.capacity_lt
  unfold reduce
  simp only [wp_bind, wp_get, wp_ite, wp_pure]
  rw [if_neg l.data_ne]
  split
  case isTrue hless =>
    have hhalf : l.elems.length < l.capacity / 2 := by
      have hless' := hless.1
      simp only [Layout.state] at hless'
      omega
    have hcapacity : wrap (l.state.size + l.state.size / 2) =
        ((l.elems.length + l.elems.length / 2 : ℕ) : ℤ) := by
      have hsum : l.state.size + l.state.size / 2 =
          ((l.elems.length + l.elems.length / 2 : ℕ) : ℤ) := by
        simp only [Layout.state]
        omega
      rw [hsum, wrap_of_lt (by omega)]
    have hbytes : (l.elems.length + l.elems.length / 2) * l.width < 2 ^ 31 :=
      Nat.lt_of_le_of_lt (Nat.mul_le_mul_right l.width (by omega)) l.bytes_lt
    rw [hcapacity]
    apply wp_resize l hfresh (by omega) hbytes
    intro l' hwidth helems _
    exact hpost l' hwidth helems
  case isFalse => exact hpost l rfl rfl

/-! ## Moving elements -/

/-- The elements behind `index` move up, and the slot at `index` becomes free. -/
theorem wp_shiftUp {width : ℕ} {front back : List (List UInt8)} {rest : List UInt8}
    (hpos : 0 < width) (helems : Uniform width (front ++ back)) (hfree : width ≤ rest.length)
    (hlt : ((front ++ back).length + 1) * width < 2 ^ 31) {post : List UInt8 → State → Prop}
    {thiz : State} (hpost : ∀ gap : List UInt8, gap.length = width →
      post (front.flatten ++ gap ++ (back.flatten ++ rest.drop width)) thiz) :
    wp (shiftUp width (front ++ back).length front.length ((front ++ back).flatten ++ rest)) post
      thiz := by
  have hcount : (front ++ back).length + 1 < 2 ^ 31 :=
    Nat.lt_of_le_of_lt (Nat.le_mul_of_pos_right _ hpos) hlt
  have hwidth : width < 2 ^ 31 :=
    Nat.lt_of_le_of_lt (Nat.le_mul_of_pos_left _ (Nat.succ_pos _)) hlt
  have hoffset {k : ℕ} (hk : k ≤ (front ++ back).length + 1) :
      wrap ((k : ℤ) * width) = ((k * width : ℕ) : ℤ) := by
    have hle := Nat.mul_le_mul_right width hk
    rw [← Int.natCast_mul, wrap_of_lt (by omega)]
  -- `middle` is still to be moved, `moved` already is
  refine wp_loop (fun n locals after ↦ after = thiz ∧ ∃ (middle moved : List (List UInt8))
    (gap : List UInt8), back = middle ++ moved ∧ n = middle.length ∧ gap.length = width ∧
      locals = (((front ++ middle).length : ℤ),
        (front ++ middle).flatten ++ gap ++ (moved.flatten ++ rest.drop width)))
    ?_ (n := back.length) ⟨rfl, back, [], rest.take width, ?_, rfl, ?_, ?_⟩ ?_
  · rintro n locals after ⟨rfl, middle, moved, gap, rfl, rfl, hgap, rfl⟩
    dsimp only
    rcases List.eq_nil_or_concat' middle with rfl | ⟨middle, elem, rfl⟩
    · rw [wp_ite, if_neg (by simp), wp_pure]
      have hdone := hpost gap hgap
      simpa using hdone
    · simp only [uniform_append, uniform_cons, uniform_nil, and_true] at helems
      obtain ⟨hfront, ⟨hmiddle, helem⟩, hmoved⟩ := helems
      have hbefore : Uniform width (front ++ middle) := uniform_append.2 ⟨hfront, hmiddle⟩
      have hlast : (front ++ (middle ++ [elem])).length = (front ++ middle).length + 1 := by
        simp only [List.length_append, List.length_singleton]
        omega
      have hle : (front ++ middle).length + 1 ≤ (front ++ (middle ++ [elem] ++ moved)).length := by
        simp only [List.length_append, List.length_singleton]
        omega
      have hblock : (front ++ (middle ++ [elem])).flatten ++ gap ++
          (moved.flatten ++ rest.drop width) =
            (front ++ middle).flatten ++ elem ++
              (gap ++ (moved.flatten ++ rest.drop width)) := by
        simp
      have hprev : wrap (((front ++ middle).length + 1 : ℕ) - 1 : ℤ) =
          (front ++ middle).length := by
        rw [Int.natCast_succ, Int.add_sub_cancel, wrap_of_lt (by omega)]
      rw [hlast, hblock, hprev, hoffset (by omega), hoffset (by omega), wp_ite,
        if_pos (by rw [List.length_append]; omega), wp_bind]
      have hlen := hbefore.length_flatten
      apply wp_copy hwidth
      · simp only [List.length_append, hlen, helem, hgap, Nat.succ_mul] at hlen ⊢
        omega
      · simp only [List.length_append, hlen, helem, hgap] at hlen ⊢
        omega
      rw [move_up hbefore helem hgap, wp_pure]
      refine ⟨middle.length, by simp, rfl, middle, elem :: moved, elem, by simp, rfl, helem, ?_⟩
      simp
  · simp
  · rw [List.length_take, Nat.min_eq_left hfree]
  · simp
  · rw [List.length_append]
    omega

/-- The elements behind `index` move down over the element there. -/
theorem wp_shiftDown {front back : List (List UInt8)} {elem : List UInt8}
    (helems : l.elems = front ++ elem :: back) {post : List UInt8 → State → Prop} {thiz : State}
    (hpost : ∀ gap : List UInt8, gap.length = l.width →
      post ((front ++ back).flatten ++ (gap ++ l.rest)) thiz) :
    wp (shiftDown l.width l.elems.length front.length l.block) post thiz := by
  have hsize : l.elems.length = front.length + 1 + back.length := by
    rw [helems, List.length_append, List.length_cons]
    omega
  have hcapacity := l.length_le
  have hcap := l.capacity_lt
  have hwidth := l.width_lt (by omega)
  have huniform := l.uniform
  rw [helems] at huniform
  simp only [uniform_append, uniform_cons] at huniform
  obtain ⟨hfront, helem, hback⟩ := huniform
  -- `moved` already is in its place, `todo` is not
  refine wp_loop (fun n locals after ↦ after = thiz ∧ ∃ (moved todo : List (List UInt8))
    (gap : List UInt8), back = moved ++ todo ∧ n = todo.length ∧ gap.length = l.width ∧
      locals = (((front ++ moved).length : ℤ),
        (front ++ moved).flatten ++ gap ++ (todo.flatten ++ l.rest)))
    ?_ (n := back.length) ⟨rfl, [], back, elem, rfl, rfl, helem, ?_⟩ ?_
  · rintro n locals after ⟨rfl, moved, todo, gap, rfl, rfl, hgap, rfl⟩
    rw [List.length_append] at hsize
    have hnext : wrap ((front ++ moved).length + 1 : ℤ) = ((front ++ moved).length + 1 : ℕ) := by
      rw [← Int.natCast_succ, wrap_of_lt (by rw [List.length_append]; omega)]
    cases todo with
    | nil =>
      have hlast : (front ++ moved).length + 1 = l.elems.length := by
        rw [hsize, List.length_append, List.length_nil]
        omega
      dsimp only
      rw [hnext, hlast, wp_ite, if_neg (Int.lt_irrefl _), wp_pure]
      have hdone := hpost gap hgap
      simpa using hdone
    | cons next todo =>
      simp only [uniform_append, uniform_cons] at hback
      obtain ⟨hmoved, hnextLength, htodo⟩ := hback
      have hbefore : Uniform l.width (front ++ moved) := uniform_append.2 ⟨hfront, hmoved⟩
      have hless : (front ++ moved).length + 1 < l.elems.length := by
        rw [hsize, List.length_append, List.length_cons]
        omega
      have hblock : (front ++ moved).flatten ++ gap ++ ((next :: todo).flatten ++ l.rest) =
          (front ++ moved).flatten ++ gap ++ (next ++ (todo.flatten ++ l.rest)) := by
        rw [List.flatten_cons, List.append_assoc next]
      dsimp only
      rw [hnext, hblock, l.wrap_offset (by omega), l.wrap_offset (by omega), wp_ite,
        if_pos (by omega), wp_bind]
      have hlen := hbefore.length_flatten
      apply wp_copy hwidth
      · simp only [List.length_append, hlen, hgap] at hlen ⊢
        omega
      · simp only [List.length_append, hlen, hnextLength, hgap, Nat.succ_mul] at hlen ⊢
        omega
      rw [move_down hbefore hnextLength hgap, wp_pure]
      refine ⟨todo.length, by simp, rfl, moved ++ [next], todo, next, by simp, rfl, hnextLength, ?_⟩
      simp
      omega
  · simp [Layout.block, helems]
  · rw [hsize]
    omega

/-! ## The operations -/

theorem exists_gap {elems : List (List UInt8)} {index : ℕ} (h : index ≤ elems.length) :
    ∃ front back, elems = front ++ back ∧ front.length = index :=
  ⟨elems.take index, elems.drop index, (List.take_append_drop index elems).symm,
    List.length_take_of_le h⟩

theorem exists_slot {elems : List (List UInt8)} {index : ℕ} (h : index < elems.length) :
    ∃ front elem back, elems = front ++ elem :: back ∧ front.length = index := by
  obtain ⟨front, back, rfl, rfl⟩ := exists_gap (Nat.le_of_lt h)
  cases back with
  | nil => simp at h
  | cons elem back => exact ⟨front, elem, back, rfl, rfl⟩

theorem insertIdx_append {elem : List UInt8} (front back : List (List UInt8)) :
    (front ++ back).insertIdx front.length elem = front ++ elem :: back := by
  induction front with
  | nil => rfl
  | cons first front ih => rw [List.cons_append, List.length_cons, List.insertIdx_succ_cons, ih,
      List.cons_append]

/-- When `expand` has made room, the element goes into the slot that becomes free. -/
theorem wp_insert_slot {thiz : State} {elem rest : List UInt8} {fresh : Option (ℕ → UInt8)}
    {width : ℕ} {capacity : ℤ} {front back : List (List UInt8)} (hdata : thiz.data ≠ .null)
    (hsize : thiz.size = (front ++ back).length)
    (hexpand : wp (expand 1 fresh) (fun ret after ↦ ret = 1 ∧ after =
      ⟨width, (front ++ back).length, capacity, .live ((front ++ back).flatten ++ rest)⟩) thiz)
    (hpos : 0 < width) (helems : Uniform width (front ++ back)) (hfree : width ≤ rest.length)
    (hlt : ((front ++ back).length + 1) * width < 2 ^ 31) (helem : width ≤ elem.length)
    {post : ℤ → State → Prop}
    (hpost : post 0 ⟨width, (front ++ elem.take width :: back).length, capacity,
      .live ((front ++ elem.take width :: back).flatten ++ rest.drop width)⟩) :
    wp (insert (some elem) front.length fresh) post thiz := by
  have hcount : (front ++ back).length + 1 < 2 ^ 31 :=
    Nat.lt_of_le_of_lt (Nat.le_mul_of_pos_right _ hpos) hlt
  have hwidth : width < 2 ^ 31 :=
    Nat.lt_of_le_of_lt (Nat.le_mul_of_pos_left _ (Nat.succ_pos _)) hlt
  have hle : front.length ≤ (front ++ back).length := by
    rw [List.length_append]
    exact Nat.le_add_right _ _
  have hnew : (elem.take width).length = width := List.length_take_of_le helem
  have hmore : (front ++ elem.take width :: back).length = (front ++ back).length + 1 := by
    simp only [List.length_append, List.length_cons]
    omega
  obtain ⟨hfront, hback⟩ := uniform_append.1 helems
  unfold insert
  simp only [wp_bind, wp_get]
  rw [wp_ite, if_neg hdata, wp_ite, if_neg (by omega), wp_bind]
  apply wp_mono hexpand
  rintro ret after ⟨rfl, rfl⟩
  rw [wp_ite, if_pos (by decide), wp_bind, wp_get]
  simp only [wp_bind]
  apply wp_shiftUp hpos helems hfree hlt
  intro gap hgap
  have hoffset : wrap ((front.length : ℤ) * width) = ((front.length * width : ℕ) : ℤ) := by
    have hmul := Nat.mul_le_mul_right width hle
    rw [Nat.succ_mul] at hlt
    rw [← Int.natCast_mul, wrap_of_lt (by omega)]
  rw [hoffset]
  apply wp_copy hwidth (j := 0)
  · simp only [List.length_append, hfront.length_flatten, hgap]
    omega
  · omega
  rw [List.drop_zero, write_slot hfront hnew hgap, wp_set, wp_pure, ← Int.natCast_succ,
    wrap_of_lt (by omega), Nat.succ_eq_add_one, ← hmore]
  simpa using hpost

theorem wp_insert {elem : List UInt8} {fresh : Option (ℕ → UInt8)} {index : ℕ}
    (hindex : index ≤ l.elems.length) (hfresh : fresh.isSome)
    (hroom : l.elems.length < l.capacity ∨ (l.capacity + l.capacity / 2 + 10) * l.width < 2 ^ 31)
    (helem : l.width ≤ elem.length) {post : ℤ → State → Prop}
    (hpost : ∀ l' : Layout, l'.width = l.width →
      l'.elems = l.elems.insertIdx index (elem.take l.width) → post 0 l'.state) :
    wp (insert (some elem) index fresh) post l.state := by
  have hexpand : wp (expand 1 fresh) (fun ret thiz' ↦ ret = 1 ∧ ∃ l' : Layout,
      l'.width = l.width ∧ l'.elems = l.elems ∧ l'.elems.length < l'.capacity ∧
        thiz' = l'.state) l.state :=
    wp_expand l hfresh hroom fun l' hwidth helems hlt ↦ ⟨rfl, l', hwidth, helems, hlt, rfl⟩
  obtain ⟨ret, after, hrun, rfl, l', hwidth, helems, hlt, rfl⟩ := hexpand
  rw [← hwidth] at helem hpost
  rw [← helems] at hindex hpost
  obtain ⟨front, back, hsplit, rfl⟩ := exists_gap hindex
  have hstate : l'.state = ⟨l'.width, (front ++ back).length, l'.capacity,
      .live ((front ++ back).flatten ++ l'.rest)⟩ := by
    rw [← hsplit]
    rfl
  have hcap : ((front ++ back).length + 1) * l'.width ≤ l'.capacity * l'.width := by
    apply Nat.mul_le_mul_right
    rw [← hsplit]
    exact hlt
  have huniform := l'.uniform
  rw [hsplit] at huniform hpost
  rw [insertIdx_append] at hpost
  obtain ⟨hfront, hback⟩ := uniform_append.1 huniform
  have hnew : (elem.take l'.width).length = l'.width := List.length_take_of_le helem
  have hlength : (front ++ elem.take l'.width :: back).length * l'.width +
      (l'.rest.drop l'.width).length = l'.capacity * l'.width := by
    have hold := l'.length_eq
    have hfree := l'.width_le_rest hlt
    rw [hsplit] at hold
    simp only [List.length_append, List.length_cons, List.length_drop, Nat.add_mul,
      Nat.succ_mul] at hold ⊢
    omega
  apply wp_insert_slot l.data_ne (by rw [← hsplit, helems]; rfl)
    ⟨1, _, hrun, rfl, hstate⟩ l'.width_pos huniform (l'.width_le_rest hlt)
    (Nat.lt_of_le_of_lt hcap l'.bytes_lt) helem
  exact hpost ⟨l'.width, l'.capacity, front ++ elem.take l'.width :: back,
    l'.rest.drop l'.width, l'.width_pos, uniform_append.2 ⟨hfront, uniform_cons.2 ⟨hnew, hback⟩⟩,
    hlength, l'.bytes_lt⟩ rfl rfl

theorem wp_delete {fresh : Option (ℕ → UInt8)} {index : ℕ} (hindex : index < l.elems.length)
    (hfresh : fresh.isSome) {post : ℤ → State → Prop}
    (hpost : ∀ l' : Layout, l'.width = l.width → l'.elems = l.elems.eraseIdx index →
      post 0 l'.state) :
    wp (delete index fresh) post l.state := by
  have hcapacity := l.length_le
  have hcap := l.capacity_lt
  obtain ⟨front, elem, back, hsplit, rfl⟩ := exists_slot hindex
  have huniform := l.uniform
  rw [hsplit] at huniform hpost
  rw [List.eraseIdx_append_of_length_le (Nat.le_refl _), Nat.sub_self, List.eraseIdx_cons_zero]
    at hpost
  obtain ⟨hfront, hback⟩ := uniform_append.1 huniform
  obtain ⟨-, hback⟩ := uniform_cons.1 hback
  have hcount : l.elems.length = (front ++ back).length + 1 := by
    rw [hsplit]
    simp only [List.length_append, List.length_cons]
    omega
  unfold delete
  simp only [wp_bind, wp_get]
  rw [wp_ite, if_neg l.data_ne, wp_ite, if_neg (by simp [Layout.state]; omega)]
  simp only [Layout.state, wp_bind]
  apply wp_shiftDown l hsplit
  intro gap hgap
  have hlength : (front ++ back).length * l.width + (gap ++ l.rest).length =
      l.capacity * l.width := by
    have hold := l.length_eq
    have hbehind : (gap ++ l.rest).length = l.width + l.rest.length := by
      rw [List.length_append, hgap]
    rw [hcount, Nat.succ_mul] at hold
    omega
  have hsize : wrap ((l.elems.length : ℤ) - 1) = ((front ++ back).length : ℤ) := by
    rw [hcount, Int.natCast_succ, Int.add_sub_cancel, wrap_of_lt (by omega)]
  rw [wp_set, hsize]
  apply wp_reduce ⟨l.width, l.capacity, front ++ back, gap ++ l.rest, l.width_pos,
    uniform_append.2 ⟨hfront, hback⟩, hlength, l.bytes_lt⟩ hfresh
  intro l' hwidth helems
  rw [wp_pure]
  exact hpost l' hwidth helems

theorem wp_setElement {elem : List UInt8} {index : ℕ} (hindex : index < l.elems.length)
    (helem : l.width ≤ elem.length) {post : ℤ → State → Prop}
    (hpost : ∀ l' : Layout, l'.width = l.width →
      l'.elems = l.elems.set index (elem.take l.width) → post 0 l'.state) :
    wp (Array.set elem index) post l.state := by
  have hcapacity := l.length_le
  obtain ⟨front, old, back, hsplit, rfl⟩ := exists_slot hindex
  have huniform := l.uniform
  rw [hsplit] at huniform hpost
  rw [List.set_append_right _ _ (Nat.le_refl _), Nat.sub_self, List.set_cons_zero] at hpost
  obtain ⟨hfront, hback⟩ := uniform_append.1 huniform
  obtain ⟨hold, hback⟩ := uniform_cons.1 hback
  have hnew : (elem.take l.width).length = l.width := List.length_take_of_le helem
  have hblock : l.block = front.flatten ++ old ++ (back.flatten ++ l.rest) := by
    simp [Layout.block, hsplit]
  have hcount : (front ++ elem.take l.width :: back).length = l.elems.length := by
    simp [hsplit]
  unfold Array.set
  simp only [wp_bind, wp_get]
  rw [wp_ite, if_neg l.data_ne, wp_ite, if_neg (by simp [Layout.state]; omega)]
  simp only [Layout.state, wp_bind]
  rw [l.wrap_offset (by omega)]
  apply wp_copy (l.width_lt (by omega)) (j := 0)
  · simp only [hblock, List.length_append, hfront.length_flatten, hold]
    omega
  · omega
  have hdone := hpost ⟨l.width, l.capacity, front ++ elem.take l.width :: back, l.rest,
    l.width_pos, uniform_append.2 ⟨hfront, uniform_cons.2 ⟨hnew, hback⟩⟩,
    by rw [hcount, l.length_eq], l.bytes_lt⟩ rfl rfl
  rw [hblock, List.drop_zero, write_slot hfront hnew hold, wp_modify, wp_pure, ← hcount]
  simpa [Layout.state, Layout.block] using hdone

/-- A pointer to an element points to its bytes. -/
theorem wp_deref {front back : List (List UInt8)} {elem : List UInt8}
    (helems : l.elems = front ++ elem :: back) {post : List UInt8 → State → Prop}
    (hpost : post elem l.state) :
    wp (deref (wrap ((front.length : ℤ) * l.width))) post l.state := by
  have huniform := l.uniform
  rw [helems] at huniform
  obtain ⟨hfront, hback⟩ := uniform_append.1 huniform
  obtain ⟨helem, hback⟩ := uniform_cons.1 hback
  have hcapacity := l.length_le
  rw [helems, List.length_append, List.length_cons] at hcapacity
  have hwidth := l.width_lt (by omega)
  have hblock : l.block = front.flatten ++ elem ++ (back.flatten ++ l.rest) := by
    simp [Layout.block, helems]
  unfold deref
  simp only [wp_bind, wp_get, Layout.state, sizeT_of_lt hwidth]
  rw [l.wrap_offset (by omega)]
  apply wp_copy hwidth (i := 0)
  · rw [List.length_replicate]
    omega
  · simp only [hblock, List.length_append, hfront.length_flatten, helem]
    omega
  rw [hblock, read_slot hfront helem, splice_zero, List.drop_eq_nil_of_le (by simp [helem]),
    List.append_nil, ← hblock]
  exact hpost

/-- The first element that compares equal. -/
theorem wp_find {cmp : List UInt8 → ℤ} {post : ℤ → State → Prop}
    (hpost : post (match l.elems.findIdx? (cmp · = 0) with
      | some index => index
      | none => -1) l.state) :
    wp (find cmp) post l.state := by
  have hcapacity := l.length_le
  have hcap := l.capacity_lt
  unfold find
  simp only [wp_bind, wp_get]
  rw [wp_ite, if_neg l.data_ne, wp_bind]
  -- the elements before `i` compare different
  refine wp_loop (fun n (i : ℤ) after ↦ after = l.state ∧ ∃ front back : List (List UInt8),
    l.elems = front ++ back ∧ n = back.length ∧ i = front.length ∧
      ∀ elem ∈ front, cmp elem ≠ 0) ?_
    (n := l.elems.length) ⟨rfl, [], l.elems, rfl, rfl, rfl, by simp⟩ ?_
  · rintro n i after ⟨rfl, front, back, hsplit, rfl, rfl, hfront⟩
    have hnone : front.findIdx? (cmp · = 0) = none := by
      rw [List.findIdx?_eq_none_iff]
      intro elem helem
      simpa using hfront elem helem
    cases back with
    | nil =>
      have hsize : l.state.size = front.length := by simp [Layout.state, hsplit]
      rw [hsplit, List.append_nil, hnone] at hpost
      rw [wp_ite, if_neg (by omega), wp_pure]
      simp only [LoopPost, wp_pure, hsize, if_true]
      exact hpost
    | cons elem back =>
      have hsize : l.state.size = front.length + 1 + back.length := by
        simp [Layout.state, hsplit]
        omega
      have hnext : wrap ((front.length : ℤ) + 1) = (front ++ [elem]).length := by
        have hlen : l.elems.length = front.length + 1 + back.length := by
          rw [hsplit, List.length_append, List.length_cons]
          omega
        rw [← Int.natCast_succ, wrap_of_lt (by omega), List.length_append, List.length_singleton]
      rw [wp_ite, if_pos (by omega), wp_bind]
      apply wp_deref l hsplit
      rw [wp_ite]
      split
      case isTrue hzero =>
        have hsome : l.elems.findIdx? (cmp · = 0) = some front.length := by
          rw [hsplit, List.findIdx?_append, hnone, List.findIdx?_cons,
            if_pos (by simpa using hzero)]
          simp
        rw [hsome] at hpost
        simp only [wp_pure, LoopPost]
        rw [if_neg (by omega)]
        exact hpost
      case isFalse hne =>
        rw [wp_pure, hnext]
        refine ⟨back.length, by simp, rfl, front ++ [elem], back, by simp [hsplit], rfl, rfl, ?_⟩
        intro elem' helem'
        rcases List.mem_append.1 helem' with hmem | hmem
        · exact hfront elem' hmem
        · rw [List.mem_singleton.1 hmem]
          exact hne
  · simp [Layout.state]

end

/-! ## Runs -/

/-- A call with what the allocator answers. -/
inductive Op
  | insert (elem : Option (List UInt8)) (index : ℤ) (fresh : Option (ℕ → UInt8))
  | prepend (elem : Option (List UInt8)) (fresh : Option (ℕ → UInt8))
  | append (elem : Option (List UInt8)) (fresh : Option (ℕ → UInt8))
  | delete (index : ℤ) (fresh : Option (ℕ → UInt8))
  | get (index : ℤ)
  | set (elem : List UInt8) (index : ℤ)
  | find (cmp : List UInt8 → ℤ)

/-- What the caller sees: the return value, and the element that a pointer points to. -/
structure Result where
  ret : ℤ
  elem : Option (List UInt8)
  deriving DecidableEq

def Op.run (op : Op) (int : ℤ → ℤ := wrap) : ArrayCmd Result :=
  match op with
  | .insert elem index fresh => return ⟨← Array.insert elem index fresh int, none⟩
  | .prepend elem fresh => return ⟨← Array.prepend elem fresh int, none⟩
  | .append elem fresh => return ⟨← Array.append elem fresh int, none⟩
  | .delete index fresh => return ⟨← Array.delete index fresh int, none⟩
  | .get index => do
      match ← Array.get index int with
      | some offset => return ⟨0, some (← deref offset)⟩
      | none => return ⟨0, none⟩
  | .set elem index => return ⟨← Array.set elem index int, none⟩
  | .find cmp => return ⟨← Array.find cmp int, none⟩

/-- The caller's element is as long as an element of the array, there is memory, and the growth
that one more element may need does not overflow. -/
def Insertable (thiz : State) (elem : Option (List UInt8)) (fresh : Option (ℕ → UInt8)) : Prop :=
  (∀ elem' ∈ elem, thiz.elemSize ≤ elem'.length) ∧ fresh.isSome ∧
    (thiz.size < thiz.capacity ∨
      thiz.elemSize * (thiz.capacity + thiz.capacity / 2 + ZBASELIB_ARRAY_MIN_NUM) < 2 ^ 31)

instance (thiz : State) (elem : Option (List UInt8)) (fresh : Option (ℕ → UInt8)) :
    Decidable (Insertable thiz elem fresh) :=
  inferInstanceAs (Decidable (_ ∧ _ ∧ _))

def Allowed (thiz : State) : Op → Prop
  | .insert elem index fresh => 0 ≤ index → index ≤ thiz.size → Insertable thiz elem fresh
  | .prepend elem fresh | .append elem fresh => Insertable thiz elem fresh
  | .delete _ fresh => fresh.isSome
  | .set elem index => 0 ≤ index → index < thiz.size → thiz.elemSize ≤ elem.length
  | .get _ | .find _ => True

instance (thiz : State) (op : Op) : Decidable (Allowed thiz op) :=
  match op with
  | .insert elem index fresh =>
    inferInstanceAs (Decidable (0 ≤ index → index ≤ thiz.size → Insertable thiz elem fresh))
  | .prepend elem fresh | .append elem fresh =>
    inferInstanceAs (Decidable (Insertable thiz elem fresh))
  | .delete _ fresh => inferInstanceAs (Decidable (fresh.isSome = true))
  | .set elem index =>
    inferInstanceAs (Decidable (0 ≤ index → index < thiz.size → thiz.elemSize ≤ elem.length))
  | .get _ | .find _ => inferInstanceAs (Decidable True)

def Step (label : Op × Result) (thiz thiz' : State) : Prop :=
  Allowed thiz label.1 ∧ label.1.run.run thiz = some (label.2, thiz')

/-- Insertion into a list of elements. -/
def specInsert (elemSize : ℕ) (elem : Option (List UInt8)) (index : ℤ)
    (elems : List (List UInt8)) : Result × List (List UInt8) :=
  match elem with
  | some elem =>
      if 0 ≤ index ∧ index ≤ elems.length then
        (⟨0, none⟩, elems.insertIdx index.toNat (elem.take elemSize))
      else (⟨-1, none⟩, elems)
  | none => (⟨-1, none⟩, elems)

/-- A list of elements. -/
def spec (elemSize : ℕ) (op : Op) (elems : List (List UInt8)) : Result × List (List UInt8) :=
  match op with
  | .insert elem index _ => specInsert elemSize elem index elems
  | .prepend elem _ => specInsert elemSize elem 0 elems
  | .append elem _ => specInsert elemSize elem elems.length elems
  | .delete index _ =>
      if 0 ≤ index ∧ index < elems.length then (⟨0, none⟩, elems.eraseIdx index.toNat)
      else (⟨-1, none⟩, elems)
  | .get index => (⟨0, if 0 ≤ index then elems[index.toNat]? else none⟩, elems)
  | .set elem index =>
      if 0 ≤ index ∧ index < elems.length then
        (⟨0, none⟩, elems.set index.toNat (elem.take elemSize))
      else (⟨-1, none⟩, elems)
  | .find cmp =>
      (⟨match elems.findIdx? (cmp · = 0) with
        | some index => index
        | none => -1, none⟩, elems)

def SpecStep (elemSize : ℕ) (label : Op × Result) (elems elems' : List (List UInt8)) : Prop :=
  spec elemSize label.1 elems = (label.2, elems')

/-- The calls that must leave the whole state alone: those that fail, `get` and `find`. -/
def Idle : Op × Result → Prop
  | (.get _, _) | (.find _, _) => True
  | (_, result) => result.ret = -1

section

variable (l : Layout)

theorem insertable_room (h : l.state.size < l.state.capacity ∨
      l.state.elemSize * (l.state.capacity + l.state.capacity / 2 + ZBASELIB_ARRAY_MIN_NUM) <
        2 ^ 31) :
    l.elems.length < l.capacity ∨ (l.capacity + l.capacity / 2 + 10) * l.width < 2 ^ 31 := by
  refine h.imp Int.ofNat_lt.1 fun hgrow ↦ ?_
  have hcast : l.state.elemSize * (l.state.capacity + l.state.capacity / 2 +
      ZBASELIB_ARRAY_MIN_NUM) = (((l.capacity + l.capacity / 2 + 10) * l.width : ℕ) : ℤ) := by
    rw [Nat.mul_comm]
    rfl
  rw [hcast] at hgrow
  omega

theorem wp_insert_run {elem : Option (List UInt8)} {index : ℤ} {fresh : Option (ℕ → UInt8)}
    (hop : 0 ≤ index → index ≤ l.elems.length → Insertable l.state elem fresh)
    {post : ℤ → State → Prop}
    (hfail : (specInsert l.width elem index l.elems) = (⟨-1, none⟩, l.elems) → post (-1) l.state)
    (hpost : ∀ l' : Layout, l'.width = l.width →
      specInsert l.width elem index l.elems = (⟨0, none⟩, l'.elems) → post 0 l'.state) :
    wp (insert elem index fresh) post l.state := by
  cases elem with
  | none =>
    unfold insert
    simp only [wp_bind, wp_get]
    rw [wp_ite, if_neg l.data_ne, wp_pure]
    exact hfail rfl
  | some elem =>
    by_cases hindex : 0 ≤ index ∧ index ≤ l.elems.length
    · obtain ⟨index, rfl⟩ := Int.eq_ofNat_of_zero_le hindex.1
      obtain ⟨helem, hfresh, hroom⟩ := hop hindex.1 hindex.2
      have hle : index ≤ l.elems.length := Int.ofNat_le.1 hindex.2
      apply wp_insert l hle hfresh (insertable_room l hroom) (Int.ofNat_le.1 (helem elem rfl))
      intro l' hwidth helems
      apply hpost l' hwidth
      rw [helems]
      exact if_pos hindex
    · unfold insert
      simp only [wp_bind, wp_get]
      rw [wp_ite, if_neg l.data_ne, wp_ite, if_pos (by simp [Layout.state]; omega), wp_pure]
      exact hfail (if_neg hindex)

/-- **Every call does what the list does**, and stays inside the block. -/
theorem wp_run {op : Op} (hop : Allowed l.state op) :
    wp op.run (fun result thiz' ↦ ∃ l' : Layout, thiz' = l'.state ∧ l'.width = l.width ∧
      SpecStep l.width (op, result) l.elems l'.elems ∧
        (Idle (op, result) → thiz' = l.state)) l.state := by
  -- the three ways to insert
  have hinsert {elem : Option (List UInt8)} {index : ℤ} {fresh : Option (ℕ → UInt8)}
      (hop : 0 ≤ index → index ≤ l.elems.length → Insertable l.state elem fresh) :
      wp (insert elem index fresh) (fun ret thiz' ↦ ∃ l' : Layout, thiz' = l'.state ∧
        l'.width = l.width ∧ specInsert l.width elem index l.elems = (⟨ret, none⟩, l'.elems) ∧
          (ret = -1 → thiz' = l.state)) l.state := by
    apply wp_insert_run l hop
    · intro hfail
      exact ⟨l, rfl, rfl, hfail, fun _ ↦ rfl⟩
    · intro l' hwidth hspec
      exact ⟨l', rfl, hwidth, hspec, fun hret ↦ absurd hret (by decide)⟩
  cases op with
  | insert elem index fresh =>
    simp only [Op.run, wp_bind, wp_pure]
    exact hinsert hop
  | prepend elem fresh =>
    simp only [Op.run, wp_bind, wp_pure]
    exact hinsert fun _ _ ↦ hop
  | append elem fresh =>
    simp only [Op.run, wp_bind, wp_pure, append, size, wp_get]
    rw [if_neg l.data_ne]
    exact hinsert fun _ _ ↦ hop
  | delete index fresh =>
    simp only [Op.run, wp_bind, wp_pure]
    by_cases hindex : 0 ≤ index ∧ index < l.elems.length
    · obtain ⟨index, rfl⟩ := Int.eq_ofNat_of_zero_le hindex.1
      apply wp_delete l (Int.ofNat_lt.1 hindex.2) hop
      intro l' hwidth helems
      refine ⟨l', rfl, hwidth, ?_, fun hret : (0 : ℤ) = -1 ↦ absurd hret (by decide)⟩
      rw [SpecStep, spec, if_pos hindex, helems]
      rfl
    · unfold delete
      simp only [wp_bind, wp_get]
      rw [wp_ite, if_neg l.data_ne, wp_ite, if_pos (by simp [Layout.state]; omega), wp_pure]
      exact ⟨l, rfl, rfl, if_neg hindex, fun _ ↦ rfl⟩
  | get index =>
    simp only [Op.run, wp_bind, Array.get, wp_get]
    rw [wp_ite, if_neg l.data_ne, wp_ite]
    by_cases hindex : 0 ≤ index ∧ index < l.elems.length
    · obtain ⟨index, rfl⟩ := Int.eq_ofNat_of_zero_le hindex.1
      obtain ⟨front, elem, back, hsplit, rfl⟩ := exists_slot (Int.ofNat_lt.1 hindex.2)
      rw [if_neg (by simp [Layout.state]; omega), wp_pure]
      simp only [wp_bind, wp_pure]
      apply wp_deref l hsplit
      refine ⟨l, rfl, rfl, ?_, fun _ ↦ rfl⟩
      rw [SpecStep, spec, if_pos hindex.1, hsplit]
      simp
    · rw [if_pos (by simp [Layout.state]; omega), wp_pure, wp_pure]
      refine ⟨l, rfl, rfl, ?_, fun _ ↦ rfl⟩
      have hnone : (if 0 ≤ index then l.elems[index.toNat]? else none) = none := by
        split
        · rw [List.getElem?_eq_none_iff]
          omega
        · rfl
      rw [SpecStep, spec, hnone]
  | set elem index =>
    simp only [Op.run, wp_bind, wp_pure]
    by_cases hindex : 0 ≤ index ∧ index < l.elems.length
    · obtain ⟨index, rfl⟩ := Int.eq_ofNat_of_zero_le hindex.1
      apply wp_setElement l (Int.ofNat_lt.1 hindex.2) (Int.ofNat_le.1 (hop hindex.1 hindex.2))
      intro l' hwidth helems
      refine ⟨l', rfl, hwidth, ?_, fun hret : (0 : ℤ) = -1 ↦ absurd hret (by decide)⟩
      rw [SpecStep, spec, if_pos hindex, helems]
      rfl
    · unfold Array.set
      simp only [wp_bind, wp_get]
      rw [wp_ite, if_neg l.data_ne, wp_ite, if_pos (by simp [Layout.state]; omega), wp_pure]
      exact ⟨l, rfl, rfl, if_neg hindex, fun _ ↦ rfl⟩
  | find cmp =>
    simp only [Op.run, wp_bind, wp_pure]
    apply wp_find l
    exact ⟨l, rfl, rfl, rfl, fun _ ↦ rfl⟩

end

theorem max_capacity (elemNum : ℤ) :
    (if elemNum < ZBASELIB_ARRAY_MIN_NUM then ZBASELIB_ARRAY_MIN_NUM else elemNum) =
      max ZBASELIB_ARRAY_MIN_NUM elemNum := by
  split <;> omega

/-- An array from `create` has a layout. -/
theorem create_eq_state {handle : Bool} {fresh : Option (ℕ → UInt8)} {elemSize elemNum : ℤ}
    {thiz : State} (hpos : 1 ≤ elemSize)
    (hbytes : elemSize * max ZBASELIB_ARRAY_MIN_NUM elemNum < 2 ^ 31)
    (h : create handle fresh elemSize elemNum = some thiz) :
    ∃ l : Layout, thiz = l.state ∧ l.width = elemSize ∧ l.elems = [] := by
  have hnonneg : 0 ≤ max ZBASELIB_ARRAY_MIN_NUM elemNum :=
    Int.le_trans (show 0 ≤ ZBASELIB_ARRAY_MIN_NUM by decide) (Int.le_max_left _ _)
  unfold create at h
  rw [max_capacity] at h
  obtain ⟨width, rfl⟩ := Int.eq_ofNat_of_zero_le (show 0 ≤ elemSize by omega)
  obtain ⟨capacity, hcap⟩ := Int.eq_ofNat_of_zero_le hnonneg
  rw [hcap] at hbytes h
  have hlt : capacity * width < 2 ^ 31 := by
    rw [Nat.mul_comm]
    exact Int.ofNat_lt.1 hbytes
  split at h
  case isTrue =>
    obtain ⟨block, hblock, rfl⟩ := Option.map_eq_some_iff.1 h
    obtain ⟨-, -, hlen⟩ := of_realloc_eq_some hblock
    rw [Int.mul_comm, ← Int.natCast_mul, wrap_of_lt hlt, sizeT_of_lt hlt] at hlen
    exact ⟨⟨width, capacity, [], block, by omega, uniform_nil, by simpa using hlen, hlt⟩, rfl, rfl,
      rfl⟩
  case isFalse => cases h

/-- **The dynamic array is a list of elements** under every run of its operations. -/
theorem refines_list {handle : Bool} {fresh : Option (ℕ → UInt8)} {elemSize elemNum : ℤ}
    {thiz₀ thiz : State} {labels : List (Op × Result)} (hpos : 1 ≤ elemSize)
    (hbytes : elemSize * max ZBASELIB_ARRAY_MIN_NUM elemNum < 2 ^ 31)
    (hcreate : create handle fresh elemSize elemNum = some thiz₀)
    (hrun : Run Step labels thiz₀ thiz) :
    0 ≤ thiz.size ∧ thiz.size ≤ thiz.capacity ∧
      Run (SpecStep elemSize.toNat) labels [] (elements thiz) ∧
      (∀ op, Allowed thiz op → ∃ result thiz', Step (op, result) thiz thiz') ∧
      ∀ label thiz', Step label thiz thiz' → Idle label → thiz' = thiz := by
  obtain ⟨l₀, rfl, rfl, hempty⟩ := create_eq_state hpos hbytes hcreate
  have hsim (label : Op × Result) (thiz thiz' : State) (elems : List (List UInt8))
      (hrel : ∃ l : Layout, thiz = l.state ∧ l.width = l₀.width ∧ l.elems = elems)
      (hstep : Step label thiz thiz') : ∃ elems', SpecStep l₀.width label elems elems' ∧
        ∃ l : Layout, thiz' = l.state ∧ l.width = l₀.width ∧ l.elems = elems' := by
    obtain ⟨l, rfl, hwidth, rfl⟩ := hrel
    obtain ⟨l', hl', hwidth', hspec, -⟩ := wp_outcome (wp_run l hstep.1) hstep.2
    rw [← hwidth]
    exact ⟨l'.elems, hspec, l', hl', hwidth', rfl⟩
  obtain ⟨elems, hspec, l, rfl, hwidth, rfl⟩ :=
    hrun.simulation _ hsim ⟨l₀, rfl, rfl, hempty⟩
  rw [elements_state]
  refine ⟨Int.natCast_nonneg _, Int.ofNat_le.2 l.length_le, hspec, ?_, ?_⟩
  · intro op hop
    obtain ⟨result, thiz', hstep, -⟩ := wp_run l hop
    exact ⟨result, thiz', hop, hstep⟩
  · intro label thiz' hstep hidle
    obtain ⟨l', -, -, -, hsame⟩ := wp_outcome (wp_run l hstep.1) hstep.2
    exact hsame hidle

/-- Room for twelve elements, with a delete that shrinks the block. -/
def shrinkLabels : List (Op × Result) :=
  [(.append (some [1, 2]) (some fun _ ↦ 0), ⟨0, none⟩),
    (.prepend (some [3, 4, 9]) (some fun _ ↦ 0), ⟨0, none⟩),
    (.find fun elem ↦ if elem = [1, 2] then 0 else 1, ⟨1, none⟩),
    (.delete 0 (some fun _ ↦ 0), ⟨0, none⟩), (.get 0, ⟨0, some [1, 2]⟩),
    (.set [5, 6] 1, ⟨-1, none⟩)]

theorem shrink_run :
    ∃ thiz₀ thiz, create true (some fun _ ↦ 0) 2 12 = some thiz₀ ∧
      Run Step shrinkLabels thiz₀ thiz ∧ thiz = ⟨2, 1, 1, .live [1, 2]⟩ :=
  ⟨_, _, rfl, .cons ⟨by decide, rfl⟩ <| .cons ⟨by decide, rfl⟩ <| .cons ⟨by decide, rfl⟩ <|
    .cons ⟨by decide, rfl⟩ <| .cons ⟨by decide, rfl⟩ <| .cons ⟨by decide, rfl⟩ <| .nil _, rfl⟩

theorem refines_list_shrink : Run (SpecStep 2) shrinkLabels [] [[1, 2]] := by
  obtain ⟨thiz₀, thiz, hcreate, hrun, rfl⟩ := shrink_run
  exact (refines_list (by decide) (by decide) hcreate hrun).2.2.1

end Zbaselib.Array
