import Zbaselib.Array.Refinement

/-!
# When the storage of an array stays live

`realloc` is the one of glibc here: it may refuse and leave the block alone, and
a request of 0 bytes frees the block and is answered with `NULL`.  `expand` and
`reduce` take every `NULL` for a refusal.
-/

namespace Zbaselib.Array

open Program Block Transition

/-- The block is live and holds `capacity` elements, and the elements fit. -/
def Intact (thiz : State) : Prop :=
  (∃ block, thiz.data = .live block ∧ thiz.elemSize * thiz.capacity ≤ block.length) ∧
    thiz.size ≤ thiz.capacity

/-! ## The request of a call -/

/-- The answer of the allocator to a call. -/
def Op.fresh : Op → Option (ℕ → UInt8)
  | .insert _ _ fresh | .prepend _ fresh | .append _ fresh | .delete _ fresh => fresh
  | .get _ | .set _ _ | .find _ => none

/-- The capacity, as an integer, to which an insertion enlarges the block. -/
def grows (thiz : State) (elem : Option (List UInt8)) (index : ℤ) : Option ℤ :=
  if elem.isSome ∧ 0 ≤ index ∧ index ≤ thiz.size ∧ wrap (thiz.size + 1) > thiz.capacity then
    some (thiz.capacity + thiz.capacity / 2 + ZBASELIB_ARRAY_MIN_NUM)
  else none

/-- The capacity to which a deletion shrinks the block. -/
def shrinks (thiz : State) (index : ℤ) : Option ℤ :=
  if 0 ≤ index ∧ index < thiz.size ∧ thiz.size - 1 < thiz.capacity / 2 ∧
      thiz.capacity > ZBASELIB_ARRAY_MIN_NUM then
    some (thiz.size - 1 + (thiz.size - 1) / 2)
  else none

/-- The capacity for which a call asks. -/
def resizes (thiz : State) : Op → Option ℤ
  | .insert elem index _ => grows thiz elem index
  | .prepend elem _ => grows thiz elem 0
  | .append elem _ => grows thiz elem thiz.size
  | .delete index _ => shrinks thiz index
  | .get _ | .set _ _ | .find _ => none

/-- The bytes that are requested for a capacity, after the conversions of the code. -/
def bytes (thiz : State) (capacity : ℤ) : ℕ := sizeT (wrap (thiz.elemSize * wrap capacity))

/-- `realloc` gives a block of this size. -/
def Granted (size : ℕ) (fresh : Option (ℕ → UInt8)) : Prop := fresh.isSome ∧ size < 2 ^ 63

/-- The allocator answers like glibc. -/
def Answers (thiz : State) (op : Op) : Prop :=
  ∀ capacity ∈ resizes thiz op, bytes thiz capacity = 0 → op.fresh = none

/-- A request is for at least one byte, and neither the capacity nor the byte count of a request
that is granted has overflowed. -/
def Fits (thiz : State) (fresh : Option (ℕ → UInt8)) (capacity : ℤ) : Prop :=
  bytes thiz capacity ≠ 0 ∧ (Granted (bytes thiz capacity) fresh →
    wrap capacity = capacity ∧ wrap (thiz.elemSize * capacity) = thiz.elemSize * capacity)

/-- A call that resizes the block asks for a number of bytes that fits. -/
def Sound (thiz : State) (op : Op) : Prop :=
  ∀ capacity ∈ resizes thiz op, Fits thiz op.fresh capacity

def GlibcStep (label : Op × Result) (thiz thiz' : State) : Prop :=
  Answers thiz label.1 ∧ label.1.run.run thiz = some (label.2, thiz')

def SoundStep (label : Op × Result) (thiz thiz' : State) : Prop :=
  Sound thiz label.1 ∧ label.1.run.run thiz = some (label.2, thiz')

/-! ## What a call leaves behind -/

/-- The state after a request for this capacity. -/
def resized (thiz : State) (block : List UInt8) (capacity : ℤ) (fresh : Option (ℕ → UInt8)) :
    State :=
  match realloc block (bytes thiz capacity) fresh with
  | some block => { thiz with data := .live block, capacity := wrap capacity }
  | none => if bytes thiz capacity = 0 then { thiz with data := .freed } else thiz

def expanded (thiz : State) (block : List UInt8) (fresh : Option (ℕ → UInt8)) : State :=
  if wrap (thiz.size + 1) > thiz.capacity then
    resized thiz block (thiz.capacity + thiz.capacity / 2 + ZBASELIB_ARRAY_MIN_NUM) fresh
  else thiz

def reduced (thiz : State) (block : List UInt8) (fresh : Option (ℕ → UInt8)) : State :=
  if thiz.size < thiz.capacity / 2 ∧ thiz.capacity > ZBASELIB_ARRAY_MIN_NUM then
    resized thiz block (thiz.size + thiz.size / 2) fresh
  else thiz

section

variable {thiz thiz' : State} {block : List UInt8} {fresh : Option (ℕ → UInt8)}

@[simp]
theorem resized_elemSize {capacity : ℤ} :
    (resized thiz block capacity fresh).elemSize = thiz.elemSize := by
  unfold resized
  split
  · rfl
  · split <;> rfl

@[simp]
theorem resized_size {capacity : ℤ} : (resized thiz block capacity fresh).size = thiz.size := by
  unfold resized
  split
  · rfl
  · split <;> rfl

theorem wrap_wrap_add (a b : ℤ) : wrap (wrap a + b) = wrap (a + b) := by
  unfold wrap
  omega

theorem wp_resize_live (hdata : thiz.data = .live block) {capacity capacity' : ℤ}
    (hcapacity : capacity' = wrap capacity) (post : Unit → State → Prop) :
    wp (resize capacity' fresh) post thiz ↔ post () (resized thiz block capacity fresh) := by
  unfold resize resized bytes
  subst hcapacity
  simp only [wp_bind, wp_get, hdata]
  cases hrealloc : realloc block (sizeT (wrap (thiz.elemSize * wrap capacity))) fresh with
  | some block' => simp only [wp_set]
  | none =>
    by_cases hzero : sizeT (wrap (thiz.elemSize * wrap capacity)) = 0
    · simp only [if_pos hzero, wp_set]
    · simp only [if_neg hzero, wp_pure]

/-- Copies stay inside the block and keep its length. -/
theorem wp_copy_iff {offset srcOffset size : ℤ} {src : List UInt8}
    {post : List UInt8 → State → Prop} :
    wp (copy block offset src srcOffset size) post thiz ↔
      (0 ≤ offset ∧ 0 ≤ srcOffset) ∧ (offset.toNat + sizeT size ≤ block.length ∧
        srcOffset.toNat + sizeT size ≤ src.length) ∧
        post (splice block offset.toNat ((src.drop srcOffset.toNat).take (sizeT size))) thiz := by
  unfold copy
  rw [wp_bind, wp_require, wp_memcpy]

theorem length_of_wp_copy {offset srcOffset size : ℤ} {src : List UInt8}
    {post : List UInt8 → State → Prop} (h : wp (copy block offset src srcOffset size) post thiz) :
    sizeT size ≤ block.length ∧ ∃ block', block'.length = block.length ∧ post block' thiz := by
  obtain ⟨-, ⟨hdst, hsrc⟩, hpost⟩ := wp_copy_iff.1 h
  refine ⟨by omega, _, length_splice ?_, hpost⟩
  rw [List.length_take, List.length_drop]
  omega

/-- Moving elements keeps the length of the block, too. -/
theorem length_of_loop {body : ℤ × List UInt8 → ArrayCmd ((ℤ × List UInt8) ⊕ List UInt8)}
    (hbody : ∀ i block' post, wp (body (i, block')) post thiz →
      ∃ next, post next thiz ∧ (Sum.elim Prod.snd id next).length = block'.length)
    {fuel : ℕ} {i : ℤ} {post : List UInt8 → State → Prop}
    (h : wp (loop body fuel (i, block)) post thiz) :
    ∃ block', block'.length = block.length ∧ post block' thiz := by
  obtain ⟨block', after, hrun, hpost⟩ := h
  have hloop := loop_outcome (fun locals s ↦ locals.2.length = block.length ∧ s = thiz)
    (fun b s ↦ b.length = block.length ∧ s = thiz) (fun locals s next after hinv hstep ↦ ?_) hrun
    ⟨rfl, rfl⟩
  · obtain ⟨hlength, rfl⟩ := hloop
    exact ⟨block', hlength, hpost⟩
  · obtain ⟨i, block'⟩ := locals
    obtain ⟨hlength, rfl⟩ := hinv
    obtain ⟨next', ⟨rfl, rfl⟩, hkept⟩ :=
      hbody i block' (fun r s' ↦ r = next ∧ s' = after) ⟨_, _, hstep, rfl, rfl⟩
    cases next' <;> exact ⟨hkept.trans hlength, rfl⟩

/-- An element is moved, or the loop is left. -/
theorem length_of_wp_moved {p : Prop} [Decidable p] {offset srcOffset size next : ℤ}
    {post : (ℤ × List UInt8) ⊕ List UInt8 → State → Prop}
    (h : wp (do
      if p then
        let block ← copy block offset block srcOffset size
        return .inl (next, block)
      else
        return .inr block) post thiz) :
    ∃ next, post next thiz ∧ (Sum.elim Prod.snd id next).length = block.length := by
  rw [wp_ite] at h
  split at h
  · rw [wp_bind] at h
    obtain ⟨-, block', hlength, hpost⟩ := length_of_wp_copy h
    rw [wp_pure] at hpost
    exact ⟨_, hpost, hlength⟩
  · rw [wp_pure] at h
    exact ⟨_, h, rfl⟩

theorem length_of_wp_shiftUp {elemSize size index : ℤ} {post : List UInt8 → State → Prop}
    (h : wp (shiftUp elemSize size index block) post thiz) :
    ∃ block', block'.length = block.length ∧ post block' thiz := by
  unfold shiftUp at h
  apply length_of_loop _ h
  intro i block' post hbody
  exact length_of_wp_moved hbody

theorem length_of_wp_shiftDown {elemSize size index : ℤ} {post : List UInt8 → State → Prop}
    (h : wp (shiftDown elemSize size index block) post thiz) :
    ∃ block', block'.length = block.length ∧ post block' thiz := by
  unfold shiftDown at h
  apply length_of_loop _ h
  intro i block' post hbody
  exact length_of_wp_moved hbody

theorem wp_expand_live (hdata : thiz.data = .live block) {post : ℤ → State → Prop} :
    wp (expand 1 fresh) post thiz ↔ post
      (if wrap ((expanded thiz block fresh).size + 1) ≤ (expanded thiz block fresh).capacity then 1
        else 0) (expanded thiz block fresh) := by
  have hcapacity : wrap (wrap (thiz.capacity + thiz.capacity / 2) + ZBASELIB_ARRAY_MIN_NUM) =
      wrap (thiz.capacity + thiz.capacity / 2 + ZBASELIB_ARRAY_MIN_NUM) := wrap_wrap_add _ _
  unfold expand expanded
  simp only [wp_bind, wp_get]
  rw [wp_ite, if_neg (by rw [hdata]; exact Storage.noConfusion)]
  split
  · simp only [wp_bind, wp_get, wp_pure, wp_resize_live hdata hcapacity]
  · simp only [wp_bind, wp_get, wp_pure]

/-- An insertion in range enlarges the block if it must, and then inserts or gives up. -/
theorem of_wp_insert (hdata : thiz.data = .live block) {elem : List UInt8} {index : ℤ}
    (hindex : 0 ≤ index ∧ index ≤ thiz.size) {post : ℤ → State → Prop}
    (h : wp (insert (some elem) index fresh) post thiz) :
    post 0 (expanded thiz block fresh) ∨
      wrap ((expanded thiz block fresh).size + 1) ≤ (expanded thiz block fresh).capacity ∧
        ∃ block₁ block', (expanded thiz block fresh).data = .live block₁ ∧
          block'.length = block₁.length ∧ sizeT thiz.elemSize ≤ block₁.length ∧
            post 0 { expanded thiz block fresh with
              data := .live block'
              size := wrap ((expanded thiz block fresh).size + 1) } := by
  unfold insert at h
  simp only [wp_bind, wp_get] at h
  rw [wp_ite, if_neg (by rw [hdata]; exact Storage.noConfusion), wp_ite, if_neg (by omega),
    wp_bind, wp_expand_live hdata] at h
  have helemSize : (expanded thiz block fresh).elemSize = thiz.elemSize := by
    unfold expanded
    split
    · exact resized_elemSize
    · rfl
  generalize expanded thiz block fresh = thiz₁ at *
  by_cases hroom : wrap (thiz₁.size + 1) ≤ thiz₁.capacity
  · rw [if_pos hroom, wp_ite, if_pos (by decide), wp_bind, wp_get] at h
    cases hdata₁ : thiz₁.data with
    | live block₁ =>
      simp only [hdata₁, wp_bind] at h
      obtain ⟨block₂, hlength₂, h⟩ := length_of_wp_shiftUp h
      obtain ⟨hsize, block', hlength', h⟩ := length_of_wp_copy h
      rw [wp_set, wp_pure] at h
      refine Or.inr ⟨hroom, block₁, block', rfl, hlength'.trans hlength₂, ?_, h⟩
      rw [← helemSize, ← hlength₂]
      exact hsize
    | null => simp [hdata₁] at h
    | freed => simp [hdata₁] at h
  · rw [if_neg hroom, wp_ite, if_neg (not_not.2 rfl), wp_pure] at h
    exact Or.inl h

/-- A deletion in range moves the elements and may shrink the block. -/
theorem of_wp_delete (hdata : thiz.data = .live block) {index : ℤ}
    (hindex : 0 ≤ index ∧ index < thiz.size) {post : ℤ → State → Prop}
    (h : wp (delete index fresh) post thiz) :
    ∃ block', block'.length = block.length ∧
      post 0 (reduced { thiz with data := .live block', size := wrap (thiz.size - 1) } block'
        fresh) := by
  unfold delete at h
  simp only [wp_bind, wp_get] at h
  rw [wp_ite, if_neg (by rw [hdata]; exact Storage.noConfusion), wp_ite, if_neg (by omega)] at h
  simp only [hdata, wp_bind] at h
  obtain ⟨block', hlength, h⟩ := length_of_wp_shiftDown h
  refine ⟨block', hlength, ?_⟩
  rw [wp_set] at h
  unfold reduce at h
  unfold reduced
  simp only [wp_bind, wp_get] at h
  rw [wp_ite, if_neg Storage.noConfusion, wp_ite] at h
  split at h
  · next hshrink =>
    rw [wp_bind, wp_resize_live rfl rfl] at h
    simpa only [if_pos hshrink, wp_pure] using h
  · next hshrink => simpa only [if_neg hshrink, wp_pure] using h

/-! ## One call -/

/-- What is known of an array whose storage is intact. -/
structure Kept (thiz : State) : Prop where
  live : ∃ block, thiz.data = .live block ∧ thiz.elemSize * thiz.capacity ≤ block.length ∧
    block.length < 2 ^ 31
  size_le : thiz.size ≤ thiz.capacity
  capacity_lt : thiz.capacity < 2 ^ 31
  elemSize_ge : -2 ^ 31 ≤ thiz.elemSize
  negative : thiz.elemSize < 0 → thiz.size = 0 ∧ ZBASELIB_ARRAY_MIN_NUM ≤ thiz.capacity

theorem Kept.intact (h : Kept thiz) : Intact thiz := by
  obtain ⟨block, hdata, hlength, -⟩ := h.live
  exact ⟨⟨block, hdata, hlength⟩, h.size_le⟩

theorem granted_iff (block : List UInt8) {size : ℕ} :
    Granted size fresh ↔ (realloc block size fresh).isSome := by
  constructor
  · rintro ⟨hfresh, hsize⟩
    obtain ⟨block', hblock', -⟩ := realloc_eq_some block hsize hfresh
    rw [hblock']
    rfl
  · intro hsome
    obtain ⟨block', hblock'⟩ := Option.isSome_iff_exists.1 hsome
    obtain ⟨hsize, hfresh, -⟩ := of_realloc_eq_some hblock'
    exact ⟨hfresh, hsize⟩

/-- A byte count that is granted is the converted product. -/
theorem sizeT_wrap {n : ℤ} (h : sizeT (wrap n) < 2 ^ 63) : (sizeT (wrap n) : ℤ) = wrap n := by
  unfold sizeT wrap at *
  omega

/-- **Resizing keeps the storage intact exactly when the request fits.** -/
theorem resized_kept_iff (h : Kept thiz) (block : List UInt8) {capacity : ℤ}
    (hlow : thiz.size ≤ capacity) (hsize : 0 ≤ thiz.size) (hhigh : capacity < 2 ^ 32)
    (helemSize : 0 ≤ thiz.elemSize) (hanswer : bytes thiz capacity = 0 → fresh = none) :
    (Fits thiz fresh capacity → Kept (resized thiz block capacity fresh)) ∧
      (Intact (resized thiz block capacity fresh) → Fits thiz fresh capacity) := by
  have hproduct : 0 ≤ thiz.elemSize * capacity := by
    apply Int.mul_nonneg helemSize
    omega
  unfold resized
  cases hrealloc : realloc block (bytes thiz capacity) fresh with
  | none =>
    have hrefused : ¬Granted (bytes thiz capacity) fresh := by
      rw [granted_iff block, hrealloc]
      exact Bool.false_ne_true
    dsimp only
    split
    · next hzero =>
      refine ⟨fun hfits ↦ absurd hzero hfits.1, fun hintact ↦ ?_⟩
      obtain ⟨⟨block', hlive, -⟩, -⟩ := hintact
      cases hlive
    · next hpos => exact ⟨fun _ ↦ h, fun _ ↦ ⟨hpos, fun hgranted ↦ absurd hgranted hrefused⟩⟩
  | some block' =>
    obtain ⟨hbytes, hfresh, hlength⟩ := of_realloc_eq_some hrealloc
    have hpos : bytes thiz capacity ≠ 0 := by
      intro hzero
      rw [hanswer hzero] at hfresh
      cases hfresh
    have hcount : (block'.length : ℤ) = wrap (thiz.elemSize * wrap capacity) := by
      rw [hlength]
      exact sizeT_wrap hbytes
    dsimp only
    constructor
    · intro hfits
      obtain ⟨hcapacity, hfit⟩ := hfits.2 ⟨hfresh, hbytes⟩
      rw [hcapacity, hfit] at hcount
      rw [hcapacity]
      have hlt : capacity < 2 ^ 31 := by
        unfold wrap at hcapacity
        omega
      have hproductLt : thiz.elemSize * capacity < 2 ^ 31 := by
        unfold wrap at hfit
        omega
      refine ⟨⟨block', rfl, hcount.ge, by omega⟩, hlow, hlt, h.elemSize_ge, fun hneg ↦ ?_⟩
      exact absurd hneg (Int.not_lt.2 helemSize)
    · rintro ⟨⟨block'', hlive, hroom⟩, hle⟩
      cases hlive
      dsimp only at hroom hle
      have hcapacity : wrap capacity = capacity := by
        unfold wrap at hle ⊢
        omega
      rw [hcapacity] at hroom hcount
      refine ⟨hpos, fun _ ↦ ⟨hcapacity, ?_⟩⟩
      rw [hcount] at hroom
      unfold wrap at hroom ⊢
      omega

/-- An element that goes in leaves everything but the size as it was. -/
theorem Kept.inserted (h : Kept thiz) {block' : List UInt8} (hdata : thiz.data = .live block)
    (hlength : block'.length = block.length) (helem : sizeT thiz.elemSize ≤ block.length)
    (hroom : wrap (thiz.size + 1) ≤ thiz.capacity) :
    Kept { thiz with data := .live block', size := wrap (thiz.size + 1) } := by
  obtain ⟨block₁, hlive, hbytes, hlt⟩ := h.live
  rw [hdata] at hlive
  cases hlive
  have helemSize := h.elemSize_ge
  refine ⟨⟨block', rfl, ?_, ?_⟩, hroom, h.capacity_lt, helemSize, fun hneg ↦ ?_⟩
  · rw [hlength]
    exact hbytes
  · rw [hlength]
    exact hlt
  · unfold sizeT at helem
    dsimp only at hneg
    omega

/-- The requests of a call fit if and only if the storage is intact after the call. -/
def Decided (thiz : State) (requests : Option ℤ) (fresh : Option (ℕ → UInt8)) (thiz' : State) :
    Prop :=
  ((∀ capacity ∈ requests, Fits thiz fresh capacity) → Kept thiz') ∧
    (Intact thiz' → ∀ capacity ∈ requests, Fits thiz fresh capacity)

theorem Kept.decided_none (h : Kept thiz) : Decided thiz none fresh thiz :=
  ⟨fun _ ↦ h, fun _ _ hmem ↦ absurd hmem (Option.not_mem_none _)⟩

theorem Kept.wp_insert (h : Kept thiz) {elem : Option (List UInt8)} {index : ℤ}
    (hanswer : ∀ capacity ∈ grows thiz elem index, bytes thiz capacity = 0 → fresh = none)
    {post : ℤ → State → Prop} (hwp : wp (insert elem index fresh) post thiz) :
    ∃ result thiz', post result thiz' ∧ Decided thiz (grows thiz elem index) fresh thiz' := by
  obtain ⟨block, hdata, -, -⟩ := h.live
  have hdata' : thiz.data ≠ .null := by
    rw [hdata]
    exact Storage.noConfusion
  cases elem with
  | none =>
    unfold insert at hwp
    simp only [wp_bind, Program.wp_get] at hwp
    rw [wp_ite, if_neg hdata', wp_pure] at hwp
    exact ⟨-1, thiz, hwp, h.decided_none⟩
  | some elem =>
    by_cases hindex : 0 ≤ index ∧ index ≤ thiz.size
    · have hcapacity := h.capacity_lt
      have hle := h.size_le
      by_cases hfull : wrap (thiz.size + 1) > thiz.capacity
      · have hgrows : grows thiz (some elem) index =
            some (thiz.capacity + thiz.capacity / 2 + ZBASELIB_ARRAY_MIN_NUM) :=
          if_pos ⟨rfl, hindex.1, hindex.2, hfull⟩
        have hmin : ZBASELIB_ARRAY_MIN_NUM = 10 := rfl
        have hone : wrap (thiz.size + 1) = thiz.size + 1 := by
          unfold wrap at hfull ⊢
          omega
        have helemSize : 0 ≤ thiz.elemSize := by
          by_contra hneg
          obtain ⟨hzero, hten⟩ := h.negative (Int.not_le.1 hneg)
          omega
        obtain ⟨hkept, hfits⟩ := resized_kept_iff h block (by omega)
          (Int.le_trans hindex.1 hindex.2) (by omega) helemSize (hanswer _ hgrows)
        have hexpanded : expanded thiz block fresh = resized thiz block
            (thiz.capacity + thiz.capacity / 2 + ZBASELIB_ARRAY_MIN_NUM) fresh := if_pos hfull
        have hwp' := of_wp_insert hdata hindex hwp
        rw [hexpanded] at hwp'
        rw [hgrows]
        obtain hgaveUp | ⟨hroom, block₁, block', hdata₁, hlength, helem, hdone⟩ := hwp'
        · refine ⟨0, _, hgaveUp, fun hall ↦ hkept (hall _ rfl), fun hintact capacity hmem ↦ ?_⟩
          cases hmem
          exact hfits hintact
        · refine ⟨0, _, hdone, fun hall ↦ ?_, fun hintact capacity hmem ↦ ?_⟩
          · apply (hkept (hall _ rfl)).inserted hdata₁ hlength _ hroom
            rw [resized_elemSize]
            exact helem
          · cases hmem
            obtain ⟨⟨block₂, hlive, hbytes⟩, -⟩ := hintact
            cases hlive
            apply hfits
            refine ⟨⟨block₁, hdata₁, ?_⟩, ?_⟩
            · rw [← hlength]
              exact hbytes
            · rw [resized_size] at hroom ⊢
              omega
      · have hgrows : grows thiz (some elem) index = none := if_neg fun hall ↦ hfull hall.2.2.2
        have hexpanded : expanded thiz block fresh = thiz := if_neg hfull
        have hwp' := of_wp_insert hdata hindex hwp
        rw [hexpanded] at hwp'
        rw [hgrows]
        obtain hgaveUp | ⟨hroom, block₁, block', hdata₁, hlength, helem, hdone⟩ := hwp'
        · exact ⟨0, thiz, hgaveUp, h.decided_none⟩
        · refine ⟨0, _, hdone, fun _ ↦ h.inserted hdata₁ hlength helem hroom,
            fun _ _ hmem ↦ absurd hmem (Option.not_mem_none _)⟩
    · have hgrows : grows thiz (some elem) index = none :=
        if_neg fun hall ↦ hindex ⟨hall.2.1, hall.2.2.1⟩
      unfold insert at hwp
      simp only [wp_bind, Program.wp_get] at hwp
      rw [wp_ite, if_neg hdata', wp_ite, if_pos (by omega), wp_pure] at hwp
      rw [hgrows]
      exact ⟨-1, thiz, hwp, h.decided_none⟩

theorem Kept.wp_delete (h : Kept thiz) {index : ℤ}
    (hanswer : ∀ capacity ∈ shrinks thiz index, bytes thiz capacity = 0 → fresh = none)
    {post : ℤ → State → Prop} (hwp : wp (delete index fresh) post thiz) :
    ∃ result thiz', post result thiz' ∧ Decided thiz (shrinks thiz index) fresh thiz' := by
  obtain ⟨block, hdata, hbytes, hlt⟩ := h.live
  by_cases hindex : 0 ≤ index ∧ index < thiz.size
  · have hcapacity := h.capacity_lt
    have hle := h.size_le
    have helemSize : 0 ≤ thiz.elemSize := by
      by_contra hneg
      obtain ⟨hzero, -⟩ := h.negative (Int.not_le.1 hneg)
      omega
    have hone : wrap (thiz.size - 1) = thiz.size - 1 := by
      unfold wrap
      omega
    obtain ⟨block', hlength, hdone⟩ := of_wp_delete hdata hindex hwp
    rw [hone] at hdone
    have hmoved : Kept { thiz with data := .live block', size := thiz.size - 1 } := by
      refine ⟨⟨block', rfl, ?_, ?_⟩, ?_, hcapacity, h.elemSize_ge, fun hneg ↦ ?_⟩
      · rw [hlength]
        exact hbytes
      · rw [hlength]
        exact hlt
      · dsimp only
        omega
      · exact absurd hneg (Int.not_lt.2 helemSize)
    refine ⟨0, _, hdone, ?_⟩
    unfold reduced
    by_cases hshrink : thiz.size - 1 < thiz.capacity / 2 ∧ thiz.capacity > ZBASELIB_ARRAY_MIN_NUM
    · have hshrinks : shrinks thiz index = some (thiz.size - 1 + (thiz.size - 1) / 2) :=
        if_pos ⟨hindex.1, hindex.2, hshrink⟩
      rw [hshrinks] at hanswer ⊢
      rw [if_pos hshrink]
      obtain ⟨hkept, hfits⟩ := resized_kept_iff hmoved block' (by dsimp only; omega)
        (by dsimp only; omega) (by omega) helemSize (hanswer _ rfl)
      refine ⟨fun hall ↦ hkept (hall _ rfl), fun hintact capacity hmem ↦ ?_⟩
      cases hmem
      exact hfits hintact
    · have hshrinks : shrinks thiz index = none := if_neg fun hall ↦ hshrink hall.2.2
      rw [hshrinks, if_neg hshrink]
      exact ⟨fun _ ↦ hmoved, fun _ _ hmem ↦ absurd hmem (Option.not_mem_none _)⟩
  · have hshrinks : shrinks thiz index = none := if_neg fun hall ↦ hindex ⟨hall.1, hall.2.1⟩
    unfold delete at hwp
    simp only [wp_bind, Program.wp_get] at hwp
    rw [wp_ite, if_neg (by rw [hdata]; exact Storage.noConfusion), wp_ite, if_pos (by omega),
      wp_pure] at hwp
    rw [hshrinks]
    exact ⟨-1, thiz, hwp, h.decided_none⟩

/-- Writing an element keeps the length of the block. -/
theorem Kept.wp_setElement (h : Kept thiz) {elem : List UInt8} {index : ℤ}
    {post : ℤ → State → Prop} (hwp : wp (Array.set elem index) post thiz) :
    ∃ result thiz', post result thiz' ∧ Kept thiz' := by
  obtain ⟨block, hdata, hbytes, hlt⟩ := h.live
  unfold Array.set at hwp
  simp only [wp_bind, Program.wp_get] at hwp
  rw [wp_ite, if_neg (by rw [hdata]; exact Storage.noConfusion), wp_ite] at hwp
  split at hwp
  · rw [wp_pure] at hwp
    exact ⟨-1, thiz, hwp, h⟩
  · simp only [hdata, wp_bind] at hwp
    obtain ⟨-, block', hlength, hdone⟩ := length_of_wp_copy hwp
    rw [wp_modify, wp_pure] at hdone
    refine ⟨0, _, hdone, ⟨block', rfl, ?_, ?_⟩, h.size_le, h.capacity_lt, h.elemSize_ge,
      h.negative⟩
    · rw [hlength]
      exact hbytes
    · rw [hlength]
      exact hlt

theorem leaves_deref (offset : ℤ) : Leaves (deref offset) := by
  unfold deref copy
  refine Leaves.get.bind fun thiz ↦ ?_
  cases thiz.data with
  | live block => exact (Leaves.require _).bind fun _ ↦ leaves_memcpy _ _ _ _ _
  | null | freed => exact .failure

/-- Reading through the pointer that `get` returns changes nothing. -/
theorem leaves_get (index : ℤ) : Leaves (Op.run (.get index)) := by
  unfold Op.run Array.get
  dsimp only
  refine Leaves.bind (Leaves.get.bind fun thiz ↦ ?_) fun offset ↦ ?_
  · exact .ite (.pure _) (.ite (.pure _) (.pure _))
  · cases offset with
    | none => exact .pure _
    | some offset => exact (leaves_deref offset).bind fun _ ↦ .pure _

theorem leaves_find (cmp : List UInt8 → ℤ) : Leaves (Op.run (.find cmp)) := by
  unfold Op.run find
  dsimp only
  refine Leaves.bind (Leaves.get.bind fun thiz ↦ .ite (.pure _) (.bind ?_ fun _ ↦ .pure _))
    fun _ ↦ .pure _
  refine Leaves.loop (fun i ↦ .ite ?_ (.pure _)) _ _
  exact (leaves_deref _).bind fun _ ↦ .ite (.pure _) (.pure _)

/-- **One call keeps the storage intact exactly when its request fits.** -/
theorem Kept.step (h : Kept thiz) {label : Op × Result} (hstep : GlibcStep label thiz thiz') :
    (Sound thiz label.1 → Kept thiz') ∧ (Intact thiz' → Sound thiz label.1) := by
  obtain ⟨op, result⟩ := label
  obtain ⟨hanswer, hrun⟩ := hstep
  have hwp : wp op.run (fun _ a ↦ a = thiz') thiz := ⟨_, _, hrun, rfl⟩
  have hdata : thiz.data ≠ .null := by
    obtain ⟨block, hlive, -⟩ := h.live
    rw [hlive]
    exact Storage.noConfusion
  have hquiet : Kept thiz' → resizes thiz op = none →
      (Sound thiz op → Kept thiz') ∧ (Intact thiz' → Sound thiz op) := by
    intro hkept hnone
    refine ⟨fun _ ↦ hkept, fun _ capacity hmem ↦ ?_⟩
    rw [hnone] at hmem
    cases hmem
  cases op with
  | insert elem index fresh =>
    simp only [Op.run, wp_bind, wp_pure] at hwp
    obtain ⟨ret, after, rfl, hdecided⟩ := h.wp_insert hanswer hwp
    exact hdecided
  | prepend elem fresh =>
    simp only [Op.run, prepend, wp_bind, wp_pure] at hwp
    obtain ⟨ret, after, rfl, hdecided⟩ := h.wp_insert hanswer hwp
    exact hdecided
  | append elem fresh =>
    simp only [Op.run, append, size, wp_bind, wp_pure, Program.wp_get] at hwp
    rw [if_neg hdata] at hwp
    obtain ⟨ret, after, rfl, hdecided⟩ := h.wp_insert hanswer hwp
    exact hdecided
  | delete index fresh =>
    simp only [Op.run, wp_bind, wp_pure] at hwp
    obtain ⟨ret, after, rfl, hdecided⟩ := h.wp_delete hanswer hwp
    exact hdecided
  | get index =>
    obtain ⟨-, rfl⟩ := (leaves_get index).of_wp hwp
    exact hquiet h rfl
  | set elem index =>
    simp only [Op.run, wp_bind, wp_pure] at hwp
    obtain ⟨ret, after, rfl, hkept⟩ := h.wp_setElement hwp
    exact hquiet hkept rfl
  | find cmp =>
    obtain ⟨-, rfl⟩ := (leaves_find cmp).of_wp hwp
    exact hquiet h rfl

theorem SoundStep.glibc {label : Op × Result} (h : SoundStep label thiz thiz') :
    GlibcStep label thiz thiz' :=
  ⟨fun capacity hmem hzero ↦ absurd hzero (h.1 capacity hmem).1, h.2⟩

end

/-- The block of a new array. -/
theorem create_kept_iff {handle : Bool} {fresh : Option (ℕ → UInt8)} {elemSize elemNum : ℤ}
    {thiz : State} (helemSize : -2 ^ 31 ≤ elemSize) (helemNum : elemNum < 2 ^ 31)
    (h : create handle fresh elemSize elemNum = some thiz) :
    (elemSize * max ZBASELIB_ARRAY_MIN_NUM elemNum < 2 ^ 31 → Kept thiz) ∧
      (Intact thiz → elemSize * max ZBASELIB_ARRAY_MIN_NUM elemNum < 2 ^ 31) := by
  have hmin : ZBASELIB_ARRAY_MIN_NUM = 10 := rfl
  have hten : ZBASELIB_ARRAY_MIN_NUM ≤ max ZBASELIB_ARRAY_MIN_NUM elemNum := Int.le_max_left _ _
  have hlt : max ZBASELIB_ARRAY_MIN_NUM elemNum < 2 ^ 31 := by omega
  unfold create at h
  rw [max_capacity] at h
  generalize max ZBASELIB_ARRAY_MIN_NUM elemNum = capacity at *
  split at h
  case isFalse => cases h
  case isTrue =>
    obtain ⟨block, hblock, rfl⟩ := Option.map_eq_some_iff.1 h
    obtain ⟨hbytes, -, hlen⟩ := of_realloc_eq_some hblock
    have hcount := sizeT_wrap hbytes
    rw [← hlen] at hcount
    have hsmall : wrap (elemSize * capacity) < 2 ^ 31 := by
      unfold wrap
      omega
    constructor
    · intro hproduct
      refine ⟨⟨block, rfl, ?_, by omega⟩, by dsimp only; omega, hlt, helemSize, fun _ ↦ ⟨rfl, hten⟩⟩
      dsimp only
      by_cases hneg : elemSize * capacity < 0
      · omega
      · have hwrap : wrap (elemSize * capacity) = elemSize * capacity := by
          unfold wrap
          omega
        omega
    · rintro ⟨⟨block', hlive, hroom⟩, -⟩
      cases hlive
      dsimp only at hroom
      omega

/-- **The storage stays live as long as every request fits**, and a request that does not fit
ends that. -/
theorem storage_intact_iff {handle : Bool} {fresh : Option (ℕ → UInt8)} {elemSize elemNum : ℤ}
    {thiz₀ : State} (helemSize : -2 ^ 31 ≤ elemSize) (helemNum : elemNum < 2 ^ 31)
    (hcreate : create handle fresh elemSize elemNum = some thiz₀) :
    (Intact thiz₀ ↔ elemSize * max ZBASELIB_ARRAY_MIN_NUM elemNum < 2 ^ 31) ∧
    ∀ labels thiz, Intact thiz₀ → Run SoundStep labels thiz₀ thiz →
      Intact thiz ∧
        ∀ label thiz', GlibcStep label thiz thiz' → (Intact thiz' ↔ Sound thiz label.1) := by
  obtain ⟨hkept, hproduct⟩ := create_kept_iff helemSize helemNum hcreate
  refine ⟨⟨hproduct, fun h ↦ (hkept h).intact⟩, fun labels thiz hintact hrun ↦ ?_⟩
  have h : Kept thiz := by
    refine hrun.invariant Kept (fun label thiz thiz' h hstep ↦ ?_) (hkept (hproduct hintact))
    exact (h.step hstep.glibc).1 hstep.1
  refine ⟨h.intact, fun label thiz' hstep ↦ ?_⟩
  obtain ⟨hsound, hfits⟩ := h.step hstep
  exact ⟨hfits, fun hs ↦ (hsound hs).intact⟩

/-- Twelve places, one of which is used and given back. -/
def emptyLabels : List (Op × Result) :=
  [(.append (some [7]) none, ⟨0, none⟩), (.delete 0 none, ⟨0, none⟩)]

/-- Giving back the last element of a large array frees the block, and the next insertion uses
it. -/
theorem not_intact_emptied :
    ∃ thiz₀ thiz, create true (some fun _ ↦ 0) 1 12 = some thiz₀ ∧
      Run GlibcStep emptyLabels thiz₀ thiz ∧ thiz.data = .freed ∧ ¬Intact thiz ∧
        (Op.append (some [7]) none).run.run thiz = none := by
  refine ⟨_, ⟨1, 0, 12, .freed⟩, rfl, .cons ⟨fun _ _ _ ↦ rfl, rfl⟩ <|
    .cons ⟨fun _ _ _ ↦ rfl, rfl⟩ <| .nil _, rfl, ?_, rfl⟩
  rintro ⟨⟨block, hlive, -⟩, -⟩
  cases hlive

/-- The same places, one of which stays in use. -/
def halveLabels : List (Op × Result) :=
  [(.append (some [7]) none, ⟨0, none⟩), (.append (some [8]) none, ⟨0, none⟩),
    (.delete 0 (some fun _ ↦ 0), ⟨0, none⟩)]

theorem halve_run :
    ∃ thiz₀ thiz, create true (some fun _ ↦ 0) 1 12 = some thiz₀ ∧ Intact thiz₀ ∧
      Run SoundStep halveLabels thiz₀ thiz ∧ thiz = ⟨1, 1, 1, .live [8]⟩ := by
  refine ⟨_, _, rfl, ⟨⟨_, rfl, by decide⟩, by decide⟩, .cons ⟨?_, rfl⟩ <| .cons ⟨?_, rfl⟩ <|
    .cons ⟨?_, rfl⟩ <| .nil _, rfl⟩
  · intro capacity hmem
    cases hmem
  · intro capacity hmem
    cases hmem
  · intro capacity hmem
    cases hmem
    exact ⟨by decide, fun _ ↦ ⟨by decide, by decide⟩⟩

theorem storage_intact_iff_halve :
    Intact ⟨1, 1, 1, .live [8]⟩ ∧ (Intact ⟨1, 0, 1, .live [8]⟩ ↔
      Sound ⟨1, 1, 1, .live [8]⟩ (.delete 0 none)) := by
  obtain ⟨thiz₀, thiz, hcreate, hintact, hrun, rfl⟩ := halve_run
  obtain ⟨hlive, hstep⟩ :=
    (storage_intact_iff (by decide) (by decide) hcreate).2 _ _ hintact hrun
  exact ⟨hlive, hstep (.delete 0 none, ⟨0, none⟩) _ ⟨fun _ _ _ ↦ rfl, rfl⟩⟩

end Zbaselib.Array
