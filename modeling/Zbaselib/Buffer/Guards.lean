import Zbaselib.Buffer.Refinement

/-!
# The guards of the ring buffer at large capacities

`pos + data_len` is computed modulo `2 ^ 32`.  Every call that gets past its
checks is described by the copies that the code makes, so that the two parts of
a wrapped copy can be compared with the bounds of both blocks.
-/

namespace Zbaselib.Buffer

open Program Block Transition

/-- The copies of a call from the caller's data to the ring, as the code computes them. -/
def copies (pos dataLen bufferSize : UInt32) : List Copy :=
  if pos + dataLen ≤ bufferSize then
    [⟨pos.toNat, 0, dataLen.toNat⟩]
  else
    [⟨pos.toNat, 0, (bufferSize - pos).toNat⟩,
      ⟨0, (bufferSize - pos).toNat, (dataLen + pos - bufferSize).toNat⟩]

/-- A copy from the ring to the caller. -/
def flip (c : Copy) : Copy := ⟨c.src, c.dst, c.length⟩

/-- The guard decides as it would over the integers, the copies stay inside the ring and inside the
caller's data, and together they are as long as the call says. -/
structure Exact (pos dataLen bufferSize : UInt32) : Prop where
  branch : pos + dataLen ≤ bufferSize ↔ pos.toNat + dataLen.toNat ≤ bufferSize.toNat
  inside : ∀ c ∈ copies pos dataLen bufferSize, c.Inside bufferSize.toNat dataLen.toNat
  total : ((copies pos dataLen bufferSize).map Copy.length).sum = dataLen.toNat

/-- The position and the length with which a call gets past its checks. -/
def Op.copying (b : State) : Op → Option (UInt32 × UInt32)
  | .write _ dataLen =>
    if 0 < dataLen ∧ dataLen ≤ b.bufferSize - b.busyNum then some (b.wpos, dataLen) else none
  | .read _ dataLen | .get _ dataLen | .skip dataLen =>
    if 0 < dataLen ∧ dataLen ≤ b.busyNum then some (b.rpos, dataLen) else none
  | .clear => none

/-- The caller's memory. -/
def Op.data : Op → Option (List UInt8)
  | .write data _ | .read data _ | .get data _ => some data
  | .skip _ | .clear => none

/-- A call that has an outcome, with whatever memory of the caller. -/
def Called (label : Op × Result) (b b' : State) : Prop :=
  label.1.run.run b = some (label.2, b')

/-! ## Sums below and above `2 ^ 32` -/

section

variable {pos dataLen bufferSize : UInt32}

theorem exact_of_lt (hpos : pos.toNat < bufferSize.toNat) (hlen : dataLen.toNat ≤ bufferSize.toNat)
    (hsum : pos.toNat + dataLen.toNat < 2 ^ 32) : Exact pos dataLen bufferSize := by
  have hadd : (pos + dataLen).toNat = pos.toNat + dataLen.toNat := by
    rw [UInt32.toNat_add]
    exact Nat.mod_eq_of_lt hsum
  have hbranch : pos + dataLen ≤ bufferSize ↔
      pos.toNat + dataLen.toNat ≤ bufferSize.toNat := by
    rw [UInt32.le_iff_toNat_le, hadd]
  by_cases hfit : pos + dataLen ≤ bufferSize
  · have hcopies : copies pos dataLen bufferSize = [⟨pos.toNat, 0, dataLen.toNat⟩] := if_pos hfit
    refine ⟨hbranch, ?_, ?_⟩
    · rw [hcopies]
      intro c hc
      rw [List.mem_singleton.1 hc]
      exact ⟨hbranch.1 hfit, Nat.le_of_eq (Nat.zero_add _)⟩
    · rw [hcopies]
      simp
  · have hcopies : copies pos dataLen bufferSize =
        [⟨pos.toNat, 0, (bufferSize - pos).toNat⟩,
          ⟨0, (bufferSize - pos).toNat, (dataLen + pos - bufferSize).toNat⟩] := if_neg hfit
    have hover : ¬pos.toNat + dataLen.toNat ≤ bufferSize.toNat := fun h ↦ hfit (hbranch.2 h)
    have hfirst : (bufferSize - pos).toNat = bufferSize.toNat - pos.toNat :=
      UInt32.toNat_sub_of_le _ _ (UInt32.le_iff_toNat_le.2 (Nat.le_of_lt hpos))
    have hrest : (dataLen + pos - bufferSize).toNat =
        pos.toNat + dataLen.toNat - bufferSize.toNat := by
      rw [UInt32.add_comm, UInt32.toNat_sub_of_le _ _ (UInt32.le_iff_toNat_le.2 (by omega)), hadd]
    refine ⟨hbranch, ?_, ?_⟩
    · rw [hcopies, hfirst, hrest]
      simp only [List.forall_mem_cons, List.not_mem_nil, false_implies, implies_true, and_true]
      unfold Copy.Inside
      dsimp only
      omega
    · rw [hcopies, hfirst, hrest]
      simp only [List.map_cons, List.map_nil, List.sum_cons, List.sum_nil]
      omega

/-- A sum that wraps passes for one that fits. -/
theorem add_le_of_ge (hpos : pos.toNat < bufferSize.toNat)
    (hsum : 2 ^ 32 ≤ pos.toNat + dataLen.toNat) :
    pos + dataLen ≤ bufferSize := by
  have hlen := dataLen.toNat_lt
  have hlt := pos.toNat_lt
  rw [UInt32.le_iff_toNat_le, UInt32.toNat_add]
  omega

theorem exact_iff (hpos : pos.toNat < bufferSize.toNat) (hlen : dataLen.toNat ≤ bufferSize.toNat) :
    Exact pos dataLen bufferSize ↔ pos.toNat + dataLen.toNat < 2 ^ 32 := by
  refine ⟨fun h ↦ ?_, exact_of_lt hpos hlen⟩
  by_contra hsum
  have hfit := h.branch.1 (add_le_of_ge hpos (Nat.le_of_not_lt hsum))
  have hsize := bufferSize.toNat_lt
  omega

end

/-! ## The code makes these copies -/

section

variable {b : State} {buffer data : List UInt8} {dataLen : UInt32}

theorem copyOut_eq (b : State) (buffer rdata : List UInt8) (dataLen : UInt32) :
    copyOut b buffer rdata dataLen =
      memcpys rdata ((copies b.rpos dataLen b.bufferSize).map flip) buffer := by
  unfold copyOut copies memcpys
  split
  · simp [flip]
  · simp [flip]

/-- The write position after a write. -/
def nextWpos (b : State) (dataLen : UInt32) : UInt32 :=
  if b.wpos + dataLen ≤ b.bufferSize then
    if b.wpos + dataLen ≥ b.bufferSize then 0 else b.wpos + dataLen
  else dataLen + b.wpos - b.bufferSize

theorem wp_write_iff (hbuffer : b.buffer = some buffer) (hpos : 0 < dataLen)
    (hroom : dataLen ≤ b.bufferSize - b.busyNum) {post : ℤ → State → Prop} :
    wp (write (some data) dataLen) post b ↔
      (∀ c ∈ copies b.wpos dataLen b.bufferSize, c.Inside buffer.length data.length) ∧
        post 0 { b with
          buffer := some (spliced buffer (copies b.wpos dataLen b.bufferSize) data)
          wpos := nextWpos b dataLen
          busyNum := b.busyNum + dataLen } := by
  have hcopies := wp_memcpys buffer (copies b.wpos dataLen b.bufferSize) data
    (fun buffer' _ ↦ post 0 { b with
      buffer := some buffer'
      wpos := nextWpos b dataLen
      busyNum := b.busyNum + dataLen }) b
  rw [← hcopies]
  unfold write copies nextWpos
  simp only [wp_bind, wp_get, hbuffer]
  rw [wp_ite, if_neg (UInt32.not_le.2 hpos), wp_ite, if_neg (UInt32.not_lt.2 hroom), wp_ite]
  split
  · simp [memcpys]
  · simp [memcpys]

theorem wp_fetch_iff (hbuffer : b.buffer = some buffer) (hpos : 0 < dataLen)
    (hbusy : dataLen ≤ b.busyNum) {after : State → State}
    {post : ℤ × Option (List UInt8) → State → Prop} :
    wp (fetch after (some data) dataLen) post b ↔
      (∀ c ∈ copies b.rpos dataLen b.bufferSize, c.Inside buffer.length data.length) ∧
        post (0, some (spliced data ((copies b.rpos dataLen b.bufferSize).map flip) buffer))
          (after b) := by
  unfold fetch
  simp only [wp_bind, wp_get, hbuffer]
  rw [wp_ite, if_neg (UInt32.not_le.2 hpos), wp_ite, if_neg (UInt32.not_lt.2 hbusy), wp_bind,
    copyOut_eq, wp_memcpys, List.forall_mem_map]
  simp only [wp_bind, wp_set, wp_pure, Copy.Inside, flip, and_comm]

end

/-! ## Reachable states -/

/-- What every call keeps, whatever the sums do. -/
structure Placed (bufferSize : UInt32) (b : State) : Prop where
  size_eq : b.bufferSize = bufferSize
  block : ∃ block, b.buffer = some block ∧ block.length = bufferSize.toNat
  busy_le : b.busyNum.toNat ≤ bufferSize.toNat
  wpos_lt : 0 < bufferSize.toNat → b.wpos.toNat < bufferSize.toNat
  rpos_lt : 0 < bufferSize.toNat → b.rpos.toNat < bufferSize.toNat

theorem placed_create {handle block : Bool} {bufferSize : UInt32} {b : State}
    (h : create handle block bufferSize = some b) : Placed bufferSize b := by
  unfold create at h
  split at h
  · cases h
    exact ⟨rfl, ⟨_, rfl, List.length_replicate⟩, Nat.zero_le _, id, id⟩
  · cases h

/-- The next position lies inside the ring even where the sum wraps. -/
theorem next_lt {pos dataLen bufferSize : UInt32} (hpos : pos.toNat < bufferSize.toNat)
    (hlen : dataLen.toNat ≤ bufferSize.toNat) :
    (if pos + dataLen ≤ bufferSize then if pos + dataLen ≥ bufferSize then 0 else pos + dataLen
      else dataLen + pos - bufferSize).toNat < bufferSize.toNat := by
  have hsum := UInt32.toNat_add pos dataLen
  have hsize := bufferSize.toNat_lt
  have hdata := dataLen.toNat_lt
  split
  · split
    · exact Nat.zero_lt_of_lt hpos
    · next hlt => exact UInt32.lt_iff_toNat_lt.1 (UInt32.not_le.1 hlt)
  · next hover =>
    have hgt := UInt32.lt_iff_toNat_lt.1 (UInt32.not_le.1 hover)
    rw [UInt32.add_comm, UInt32.toNat_sub_of_le _ _ (UInt32.le_iff_toNat_le.2 (Nat.le_of_lt hgt))]
    omega

section

variable {bufferSize : UInt32} {b b' : State} {op : Op} {pos dataLen : UInt32}

theorem Placed.advance (h : Placed bufferSize b) (hpos : 0 < dataLen)
    (hbusy : dataLen ≤ b.busyNum) : Placed bufferSize (advance dataLen b) := by
  have hle := UInt32.le_iff_toNat_le.1 hbusy
  have hlt := UInt32.lt_iff_toNat_lt.1 hpos
  have hbusyLe := h.busy_le
  refine ⟨h.size_eq, h.block, ?_, h.wpos_lt, fun hsize ↦ ?_⟩
  · change (b.busyNum - dataLen).toNat ≤ _
    rw [UInt32.toNat_sub_of_le _ _ hbusy]
    omega
  · have hnext := next_lt (h.rpos_lt hsize) (show dataLen.toNat ≤ _ by omega)
    unfold Buffer.advance
    dsimp only
    rw [h.size_eq]
    have hend : b.rpos + dataLen ≤ bufferSize →
        (b.rpos + dataLen ≥ bufferSize ↔ b.rpos + dataLen = bufferSize) := fun hle ↦
      ⟨fun hge ↦ UInt32.le_antisymm hle hge, fun heq ↦ heq ▸ UInt32.le_refl _⟩
    split at hnext
    · next hfit =>
      rw [if_pos hfit]
      simpa only [hend hfit] using hnext
    · next hover =>
      rw [if_neg hover]
      exact hnext

theorem Placed.written (h : Placed bufferSize b) {buffer' : List UInt8} (hpos : 0 < dataLen)
    (hroom : dataLen ≤ b.bufferSize - b.busyNum) (hlength : buffer'.length = bufferSize.toNat) :
    Placed bufferSize { b with
      buffer := some buffer'
      wpos := nextWpos b dataLen
      busyNum := b.busyNum + dataLen } := by
  have hlt := UInt32.lt_iff_toNat_lt.1 hpos
  have hle := UInt32.le_iff_toNat_le.1 hroom
  have hbusy := h.busy_le
  have hsize := bufferSize.toNat_lt
  rw [h.size_eq, UInt32.toNat_sub_of_le _ _ (UInt32.le_iff_toNat_le.2 hbusy)] at hle
  refine ⟨h.size_eq, ⟨buffer', rfl, hlength⟩, ?_, fun hsize ↦ ?_, h.rpos_lt⟩
  · change (b.busyNum + dataLen).toNat ≤ _
    rw [UInt32.toNat_add, Nat.mod_eq_of_lt (by omega)]
    omega
  · unfold nextWpos
    rw [h.size_eq]
    exact next_lt (h.wpos_lt hsize) (by omega)

/-- A call that does not get past its checks changes nothing. -/
theorem of_wp_checks {α : Type} {limit : UInt32} {zero few : α} {rest : BufferCmd α}
    {post : α → State → Prop} (hrefused : ¬(0 < dataLen ∧ dataLen ≤ limit))
    (hwp : wp (if dataLen ≤ 0 then pure zero else if limit < dataLen then pure few else rest)
      post b) : ∃ ret, post ret b := by
  rw [wp_ite] at hwp
  split at hwp
  · exact ⟨_, (wp_pure _ _ _).1 hwp⟩
  · next hpos =>
    rw [wp_ite, if_pos] at hwp
    · exact ⟨_, (wp_pure _ _ _).1 hwp⟩
    · exact UInt32.not_le.1 fun hle ↦ hrefused ⟨UInt32.not_le.1 hpos, hle⟩

theorem of_wp_write_refused {data : List UInt8} {post : ℤ → State → Prop}
    (hrefused : ¬(0 < dataLen ∧ dataLen ≤ b.bufferSize - b.busyNum))
    (hwp : wp (write (some data) dataLen) post b) : ∃ ret, post ret b := by
  unfold write at hwp
  rw [wp_bind, wp_get] at hwp
  cases hbuffer : b.buffer with
  | none =>
    simp only [hbuffer, wp_pure] at hwp
    exact ⟨_, hwp⟩
  | some buffer =>
    simp only [hbuffer] at hwp
    exact of_wp_checks hrefused hwp

theorem of_wp_fetch_refused {after : State → State} {data : List UInt8}
    {post : ℤ × Option (List UInt8) → State → Prop}
    (hrefused : ¬(0 < dataLen ∧ dataLen ≤ b.busyNum))
    (hwp : wp (fetch after (some data) dataLen) post b) : ∃ ret, post ret b := by
  unfold fetch at hwp
  rw [wp_bind, wp_get] at hwp
  cases hbuffer : b.buffer with
  | none =>
    simp only [hbuffer, wp_pure] at hwp
    exact ⟨_, hwp⟩
  | some buffer =>
    simp only [hbuffer] at hwp
    exact of_wp_checks hrefused hwp

/-- The copy that reads leaves the ring alone, so that only the position moves. -/
theorem Placed.fetched (h : Placed bufferSize b) {after : State → State} {data : List UInt8}
    {post : ℤ × Option (List UInt8) → State → Prop}
    (hafter : 0 < dataLen → dataLen ≤ b.busyNum → Placed bufferSize (after b))
    (hwp : wp (fetch after (some data) dataLen) post b) :
    ∃ ret b', post ret b' ∧ Placed bufferSize b' := by
  by_cases hpass : 0 < dataLen ∧ dataLen ≤ b.busyNum
  · obtain ⟨block, hblock, -⟩ := h.block
    exact ⟨_, _, ((wp_fetch_iff hblock hpass.1 hpass.2).1 hwp).2, hafter hpass.1 hpass.2⟩
  · obtain ⟨ret, hpost⟩ := of_wp_fetch_refused hpass hwp
    exact ⟨ret, b, hpost, h⟩

/-- **Every call that has an outcome keeps the positions inside the ring.** -/
theorem Placed.step (h : Placed bufferSize b) {label : Op × Result} (hstep : Called label b b') :
    Placed bufferSize b' := by
  obtain ⟨op, result⟩ := label
  have hwp : wp op.run (fun _ a ↦ a = b') b := ⟨_, _, hstep, rfl⟩
  cases op with
  | write data dataLen =>
    simp only [Op.run, wp_bind, wp_pure] at hwp
    by_cases hpass : 0 < dataLen ∧ dataLen ≤ b.bufferSize - b.busyNum
    · obtain ⟨block, hblock, hlength⟩ := h.block
      obtain ⟨hinside, rfl⟩ := (wp_write_iff hblock hpass.1 hpass.2).1 hwp
      exact h.written hpass.1 hpass.2 ((length_spliced hinside).trans hlength)
    · obtain ⟨ret, rfl⟩ := of_wp_write_refused hpass hwp
      exact h
  | read data dataLen =>
    simp only [Op.run, wp_bind, wp_pure] at hwp
    obtain ⟨ret, after, rfl, hplaced⟩ := h.fetched (fun hpos hbusy ↦ h.advance hpos hbusy) hwp
    exact hplaced
  | get data dataLen =>
    simp only [Op.run, wp_bind, wp_pure] at hwp
    obtain ⟨ret, after, rfl, hplaced⟩ := h.fetched (fun _ _ ↦ h) hwp
    exact hplaced
  | skip dataLen =>
    simp only [Op.run, skip, wp_bind, wp_pure, wp_get] at hwp
    rw [wp_ite] at hwp
    split at hwp
    · rw [wp_pure] at hwp
      exact hwp ▸ h
    · next hpos =>
      rw [wp_ite] at hwp
      split at hwp
      · rw [wp_pure] at hwp
        exact hwp ▸ h
      · next hbusy =>
        rw [wp_bind, wp_set, wp_pure] at hwp
        rw [← hwp]
        exact h.advance (UInt32.not_le.1 fun hle ↦ hpos (.inr hle)) (UInt32.not_lt.1 hbusy)
  | clear =>
    simp only [Op.run, clear, wp_bind, wp_pure, wp_get] at hwp
    rw [wp_ite] at hwp
    split at hwp
    · rw [wp_set] at hwp
      rw [← hwp]
      exact ⟨h.size_eq, h.block, Nat.zero_le _, id, id⟩
    · rw [wp_pure] at hwp
      exact hwp ▸ h

/-- A call that gets past its checks has a position inside the ring, and asks for no more than the
ring holds. -/
theorem Placed.copying (h : Placed bufferSize b) (hop : op.copying b = some (pos, dataLen)) :
    pos.toNat < bufferSize.toNat ∧ dataLen.toNat ≤ bufferSize.toNat := by
  have hbusy := h.busy_le
  have hread (n : UInt32) (hread : (if 0 < n ∧ n ≤ b.busyNum then some (b.rpos, n) else none) =
      some (pos, dataLen)) : pos.toNat < bufferSize.toNat ∧ dataLen.toNat ≤ bufferSize.toNat := by
    split at hread
    · next hpass =>
      cases hread
      have hlt := UInt32.lt_iff_toNat_lt.1 hpass.1
      have hle := UInt32.le_iff_toNat_le.1 hpass.2
      exact ⟨h.rpos_lt (by omega), by omega⟩
    · cases hread
  cases op with
  | write data n =>
    unfold Op.copying at hop
    dsimp only at hop
    split at hop
    · next hpass =>
      cases hop
      have hlt := UInt32.lt_iff_toNat_lt.1 hpass.1
      have hle := UInt32.le_iff_toNat_le.1 hpass.2
      rw [h.size_eq, UInt32.toNat_sub_of_le _ _ (UInt32.le_iff_toNat_le.2 hbusy)] at hle
      exact ⟨h.wpos_lt (by omega), by omega⟩
    · cases hop
  | read data n => exact hread n hop
  | get data n => exact hread n hop
  | skip n => exact hread n hop
  | clear => cases hop

/-- With memory as long as the call says, the call has an outcome if its copies stay inside. -/
theorem Placed.isSome_run_iff (h : Placed bufferSize b) (hop : op.copying b = some (pos, dataLen))
    {data : List UInt8} (hdata : op.data = some data) (hlength : data.length = dataLen.toNat) :
    (op.run.run b).isSome ↔
      ∀ c ∈ copies pos dataLen bufferSize, c.Inside bufferSize.toNat dataLen.toNat := by
  obtain ⟨block, hblock, hsize⟩ := h.block
  have hwp : (op.run.run b).isSome ↔ wp op.run (fun _ _ ↦ True) b := by
    rw [Option.isSome_iff_exists]
    constructor
    · rintro ⟨⟨result, after⟩, hrun⟩
      exact ⟨result, after, hrun, trivial⟩
    · rintro ⟨result, after, hrun, -⟩
      exact ⟨_, hrun⟩
  rw [hwp, ← hsize, ← hlength, ← h.size_eq]
  cases op with
  | write data' n =>
    unfold Op.copying at hop
    cases hdata
    dsimp only at hop
    split at hop
    · next hpass =>
      cases hop
      simp only [Op.run, wp_bind, wp_pure]
      rw [wp_write_iff hblock hpass.1 hpass.2, and_true]
    · cases hop
  | read data' n =>
    unfold Op.copying at hop
    cases hdata
    dsimp only at hop
    split at hop
    · next hpass =>
      cases hop
      simp only [Op.run, Buffer.read, wp_bind, wp_pure]
      rw [wp_fetch_iff hblock hpass.1 hpass.2, and_true]
    · cases hop
  | get data' n =>
    unfold Op.copying at hop
    cases hdata
    dsimp only at hop
    split at hop
    · next hpass =>
      cases hop
      simp only [Op.run, Buffer.get, wp_bind, wp_pure]
      rw [wp_fetch_iff hblock hpass.1 hpass.2, and_true]
    · cases hop
  | skip n => cases hdata
  | clear => cases hop

/-- The guard of a call and its copies are right if and only if the sum does not wrap. -/
theorem Placed.exact_iff (h : Placed bufferSize b) (hop : op.copying b = some (pos, dataLen)) :
    (Exact pos dataLen bufferSize ↔ pos.toNat + dataLen.toNat < 2 ^ 32) ∧
    ∀ data, op.data = some data → data.length = dataLen.toNat →
      ((op.run.run b).isSome ↔ pos.toNat + dataLen.toNat < 2 ^ 32) := by
  obtain ⟨hpos, hlen⟩ := h.copying hop
  refine ⟨Buffer.exact_iff hpos hlen, fun data hdata hlength ↦ ?_⟩
  rw [h.isSome_run_iff hop hdata hlength]
  constructor
  · intro hinside
    by_contra hsum
    have hone : copies pos dataLen bufferSize = [⟨pos.toNat, 0, dataLen.toNat⟩] :=
      if_pos (add_le_of_ge hpos (Nat.le_of_not_lt hsum))
    rw [hone] at hinside
    have hring := (hinside _ (List.mem_singleton_self _)).1
    have hsize := bufferSize.toNat_lt
    dsimp only at hring
    omega
  · intro hsum
    exact (exact_of_lt hpos hlen hsum).inside

end

theorem placed_of_run {handle block : Bool} {bufferSize : UInt32} {b₀ b : State}
    {labels : List (Op × Result)} (hcreate : create handle block bufferSize = some b₀)
    (hrun : Run Called labels b₀ b) : Placed bufferSize b :=
  hrun.invariant _ (fun _ _ _ hplaced hstep ↦ hplaced.step hstep) (placed_create hcreate)

/-- **The guards and copies are exact as long as no sum wraps**, in every reachable state. -/
theorem guards_exact_iff {handle block : Bool} {bufferSize : UInt32} {b₀ b : State}
    {labels : List (Op × Result)} (hcreate : create handle block bufferSize = some b₀)
    (hrun : Run Called labels b₀ b) {op : Op} {pos dataLen : UInt32}
    (hop : op.copying b = some (pos, dataLen)) :
    b.bufferSize = bufferSize ∧
    (Exact pos dataLen bufferSize ↔ pos.toNat + dataLen.toNat < 2 ^ 32) ∧
    ∀ data, op.data = some data → data.length = dataLen.toNat →
      ((op.run.run b).isSome ↔ pos.toNat + dataLen.toNat < 2 ^ 32) :=
  have h := placed_of_run hcreate hrun
  ⟨h.size_eq, h.exact_iff hop⟩

theorem guards_exact_iff_wrapped :
    Exact 2 3 4 ∧ ((Op.read [0, 0, 0] 3).run.run ⟨some [5, 6, 3, 4], 4, 2, 2, 4⟩).isSome := by
  have hrun : Run Called wrapLabels ⟨some [0, 0, 0, 0], 4, 0, 0, 0⟩
      ⟨some [5, 6, 3, 4], 4, 2, 2, 4⟩ :=
    .cons rfl <| .cons rfl <| .cons rfl <| .cons rfl <| .cons rfl <| .nil _
  have hop : (Op.read [0, 0, 0] 3).copying ⟨some [5, 6, 3, 4], 4, 2, 2, 4⟩ = some (2, 3) := rfl
  obtain ⟨-, hexact, hsome⟩ := guards_exact_iff wrap_create hrun hop
  exact ⟨hexact.2 (by decide), (hsome _ rfl rfl).2 (by decide)⟩

/-- Both positions can be moved to any place in the ring. -/
theorem moved_run {size n : UInt32} (hpos : 0 < n) (hlt : n < size) {buffer data : List UInt8}
    (hbuffer : buffer.length = size.toNat) (hdata : data.length = n.toNat) :
    ∃ filled, Run Called [(.write data n, ⟨0, none⟩), (.skip n, ⟨0, none⟩)]
      ⟨some buffer, size, 0, 0, 0⟩ ⟨some filled, size, n, n, 0⟩ := by
  have hsize := UInt32.lt_iff_toNat_lt.1 hlt
  have hpositive := UInt32.lt_iff_toNat_lt.1 hpos
  have hle : n ≤ size := UInt32.le_of_lt hlt
  have hexact : Exact 0 n size :=
    exact_of_lt (Nat.zero_lt_of_lt hsize) (Nat.le_of_lt hsize) (by simpa using n.toNat_lt)
  have hnext : nextWpos ⟨some buffer, size, 0, 0, 0⟩ n = n := by
    unfold nextWpos
    dsimp only
    rw [UInt32.zero_add, if_pos hle, if_neg (UInt32.not_le.2 hlt)]
  have hwrite : wp (Op.write data n).run (fun result full ↦ result = ⟨0, none⟩ ∧
      ∃ filled, full = ⟨some filled, size, n, 0, n⟩) ⟨some buffer, size, 0, 0, 0⟩ := by
    simp only [Op.run, wp_bind, wp_pure]
    rw [wp_write_iff rfl hpos (by rw [UInt32.sub_zero]; exact hle), hnext, hbuffer, hdata,
      UInt32.zero_add]
    exact ⟨hexact.inside, rfl, _, rfl⟩
  obtain ⟨result, full, hwrite, rfl, filled, rfl⟩ := hwrite
  have hskip : wp (Op.skip n).run (fun result moved ↦ result = ⟨0, none⟩ ∧
      moved = ⟨some filled, size, n, n, 0⟩) ⟨some filled, size, n, 0, n⟩ := by
    simp only [Op.run, skip, wp_bind, wp_pure, wp_get, reduceCtorEq, false_or]
    rw [wp_ite, if_neg (UInt32.not_le.2 hpos), wp_ite, if_neg (UInt32.lt_irrefl n), wp_bind,
      wp_set, wp_pure]
    unfold Buffer.advance
    dsimp only
    rw [UInt32.zero_add, if_pos hle, if_neg (UInt32.ne_of_lt hlt), UInt32.sub_self]
    exact ⟨rfl, rfl⟩
  obtain ⟨result, moved, hskip, rfl, rfl⟩ := hskip
  exact ⟨filled, .cons hwrite <| .cons hskip <| .nil _⟩

/-- Two bytes at the last position of a ring of `2 ^ 32 - 1` bytes: the sum wraps to 0, the guard
passes, and the copy leaves the ring. -/
theorem not_exact_filled :
    ∃ labels b₀ b, create true true 4294967295 = some b₀ ∧ Run Called labels b₀ b ∧
      (Op.write [1, 2] 2).copying b = some (4294967294, 2) ∧
      ¬Exact 4294967294 2 4294967295 ∧ (Op.write [1, 2] 2).run.run b = none := by
  have hcreate : create true true 4294967295 =
      some ⟨some (List.replicate (4294967295 : UInt32).toNat 0), 4294967295, 0, 0, 0⟩ := rfl
  obtain ⟨filled, hrun⟩ := moved_run (show (0 : UInt32) < 4294967294 by decide)
    (show (4294967294 : UInt32) < 4294967295 by decide)
    (List.length_replicate (n := (4294967295 : UInt32).toNat) (a := (0 : UInt8)))
    (List.length_replicate (n := (4294967294 : UInt32).toNat) (a := (0 : UInt8)))
  have hpass : (0 : UInt32) < 2 ∧ (2 : UInt32) ≤ 4294967295 - 0 := by decide
  have hop : (Op.write [1, 2] 2).copying ⟨some filled, 4294967295, 4294967294, 4294967294, 0⟩ =
      some (4294967294, 2) := by
    unfold Op.copying
    dsimp only
    rw [if_pos hpass]
  have hover : ¬(4294967294 : UInt32).toNat + (2 : UInt32).toNat < 2 ^ 32 := by decide
  obtain ⟨hexact, hsome⟩ := (placed_of_run hcreate hrun).exact_iff hop
  refine ⟨_, _, _, hcreate, hrun, hop, fun h ↦ hover (hexact.1 h), ?_⟩
  have hnone := mt (hsome _ rfl rfl).1 hover
  rwa [Bool.not_eq_true, Option.isSome_eq_false_iff, Option.isNone_iff_eq_none] at hnone

end Zbaselib.Buffer
