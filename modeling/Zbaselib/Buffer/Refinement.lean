import Zbaselib.Buffer.Model
import Zbaselib.Lib.Transition

/-!
# The ring buffer refines a bounded byte queue
-/

namespace Zbaselib.Buffer

open Program Block Zbaselib.Ring Transition

/-- The positions of a buffer of `size` bytes agree with its count. -/
structure WellFormed (size : ℕ) (b : State) : Prop where
  size_eq : b.bufferSize.toNat = size
  block : ∃ block, b.buffer = some block ∧ block.length = size
  rpos_lt : b.rpos.toNat < size
  wpos_lt : b.wpos.toNat < size
  busy_le : b.busyNum.toNat ≤ size
  wpos_eq : b.wpos.toNat = (b.rpos.toNat + b.busyNum.toNat) % size

theorem wellFormed_create {handle block : Bool} {bufferSize : UInt32} {b : State}
    (hpos : 0 < bufferSize.toNat) (h : create handle block bufferSize = some b) :
    WellFormed bufferSize.toNat b ∧ content b = [] := by
  unfold create at h
  split at h
  · cases h
    exact ⟨⟨rfl, ⟨_, rfl, List.length_replicate⟩, hpos, hpos, Nat.zero_le _,
      (Nat.zero_mod _).symm⟩, rfl⟩
  · cases h

section

variable {size : ℕ} {b : State}

/-! ## Unsigned arithmetic without wrap-around -/

theorem add_le_iff (hsize : size ≤ 2 ^ 31) {pos len : UInt32} {bufferSize : UInt32}
    (hb : bufferSize.toNat = size) (hpos : pos.toNat < size) (hlen : len.toNat ≤ size) :
    (pos + len).toNat = pos.toNat + len.toNat ∧
      (pos + len ≤ bufferSize ↔ pos.toNat + len.toNat ≤ size) := by
  have hadd : (pos + len).toNat = pos.toNat + len.toNat := by
    rw [UInt32.toNat_add]
    exact Nat.mod_eq_of_lt (by omega)
  rw [UInt32.le_iff_toNat_le, hadd, hb]
  exact ⟨rfl, Iff.rfl⟩

/-- The two parts of a wrapped copy. -/
theorem toNat_wrapped (hsize : size ≤ 2 ^ 31) {pos len : UInt32} {bufferSize : UInt32}
    (hb : bufferSize.toNat = size) (hpos : pos.toNat < size) (hlen : len.toNat ≤ size)
    (hwrap : size < pos.toNat + len.toNat) :
    (bufferSize - pos).toNat = size - pos.toNat ∧
      (len + pos - bufferSize).toNat = pos.toNat + len.toNat - size := by
  have hadd : (len + pos).toNat = len.toNat + pos.toNat := by
    rw [UInt32.toNat_add]
    exact Nat.mod_eq_of_lt (by omega)
  constructor
  · rw [UInt32.toNat_sub_of_le _ _ (UInt32.le_iff_toNat_le.2 (by omega)), hb]
  · rw [UInt32.toNat_sub_of_le _ _ (UInt32.le_iff_toNat_le.2 (by omega)), hadd, hb]
    omega

/-- The next position, written as the code computes it. -/
theorem toNat_next (hsize : size ≤ 2 ^ 31) {pos len : UInt32} {bufferSize : UInt32}
    (hb : bufferSize.toNat = size) (hpos : pos.toNat < size) (hlen : len.toNat ≤ size) :
    (if pos + len ≤ bufferSize then if pos + len = bufferSize then 0 else pos + len
      else len + pos - bufferSize).toNat = (pos.toNat + len.toNat) % size := by
  obtain ⟨hadd, hle⟩ := add_le_iff hsize hb hpos hlen
  by_cases hfit : pos.toNat + len.toNat ≤ size
  · rw [if_pos (hle.2 hfit)]
    by_cases hend : pos.toNat + len.toNat = size
    · rw [if_pos (UInt32.toNat_inj.1 (by rw [hadd, hb, hend])), hend, Nat.mod_self]
      rfl
    · rw [if_neg fun h ↦ hend (by rw [← hadd, h, hb]), hadd, Nat.mod_eq_of_lt (by omega)]
  · rw [if_neg fun h ↦ hfit (hle.1 h), (toNat_wrapped hsize hb hpos hlen (by omega)).2,
      Nat.mod_eq_sub_mod (by omega), Nat.mod_eq_of_lt (by omega)]

/-! ## The operations -/

theorem eq_zero_of_le {n : UInt32} (h : n ≤ 0) : n = 0 :=
  UInt32.toNat_inj.1 (Nat.le_zero.1 (UInt32.le_iff_toNat_le.1 h))

theorem toNat_pos_of_not_le {n : UInt32} (h : ¬n ≤ 0) : 0 < n.toNat := by
  by_contra hzero
  exact h (UInt32.le_iff_toNat_le.2 (Nat.le_of_not_lt hzero))

theorem WellFormed.toNat_left (h : WellFormed size b) :
    (b.bufferSize - b.busyNum).toNat = size - b.busyNum.toNat := by
  rw [UInt32.toNat_sub_of_le _ _ (UInt32.le_iff_toNat_le.2 (h.size_eq ▸ h.busy_le)), h.size_eq]

/-- Moving the read position drops the oldest bytes. -/
theorem WellFormed.advance (hsize : size ≤ 2 ^ 31) (h : WellFormed size b) {n : UInt32}
    (hn : n.toNat ≤ b.busyNum.toNat) :
    WellFormed size (advance n b) ∧ content (advance n b) = (content b).drop n.toNat := by
  obtain ⟨hsz, ⟨block, hblock, hlen⟩, hrpos, hwpos, hbusy, hw⟩ := h
  have hrnext : (Buffer.advance n b).rpos.toNat = (b.rpos.toNat + n.toNat) % size :=
    toNat_next hsize hsz hrpos (by omega)
  have hbusy' : (Buffer.advance n b).busyNum.toNat = b.busyNum.toNat - n.toNat :=
    UInt32.toNat_sub_of_le _ _ (UInt32.le_iff_toNat_le.2 hn)
  refine ⟨⟨hsz, ⟨block, hblock, hlen⟩, ?_, hwpos, ?_, ?_⟩, ?_⟩
  · rw [hrnext]
    exact Nat.mod_lt _ (by omega)
  · rw [hbusy']
    omega
  · rw [hrnext, hbusy', Nat.mod_add_mod, Nat.add_assoc, Nat.add_sub_cancel' hn]
    exact hw
  · unfold content
    rw [drop_window hn, hrnext, hbusy']
    simp only [Buffer.advance, hblock, Option.getD_some, hlen]

/-- Both branches of the copy deliver the oldest bytes. -/
theorem wp_copyOut (hsize : size ≤ 2 ^ 31) (h : WellFormed size b) {block rdata : List UInt8}
    {n : UInt32} (hblock : b.buffer = some block) (hn : n.toNat ≤ b.busyNum.toNat)
    (hrdata : n.toNat ≤ rdata.length) {post : List UInt8 → State → Prop}
    (hpost : post ((content b).take n.toNat ++ rdata.drop n.toNat) b) :
    wp (copyOut b block rdata n) post b := by
  obtain ⟨hsz, ⟨block', hblock', hlen⟩, hrpos, hwpos, hbusy, hw⟩ := h
  obtain rfl : block = block' := by
    rw [hblock] at hblock'
    exact Option.some.inj hblock'
  unfold content at hpost
  rw [hblock, Option.getD_some, take_window hn] at hpost
  unfold copyOut
  obtain ⟨hadd, hle⟩ := add_le_iff hsize hsz hrpos (show n.toNat ≤ size by omega)
  by_cases hfit : b.rpos.toNat + n.toNat ≤ size
  · rw [wp_ite, if_pos (hle.2 hfit), wp_memcpy]
    rw [window_of_le (by omega)] at hpost
    refine ⟨⟨by omega, by omega⟩, ?_⟩
    rwa [splice_zero, List.length_take, List.length_drop, Nat.min_eq_left (by omega)]
  · obtain ⟨hfirst, hrest⟩ :=
      toNat_wrapped hsize hsz hrpos (show n.toNat ≤ size by omega) (by omega)
    rw [window_of_gt (by omega) (by omega) (by omega)] at hpost
    have hxs : ((block.drop b.rpos.toNat).take (size - b.rpos.toNat)).length =
        size - b.rpos.toNat := by
      simp only [List.length_take, List.length_drop]
      omega
    have hys : ((block.drop 0).take (b.rpos.toNat + n.toNat - size)).length =
        b.rpos.toNat + n.toNat - size := by
      simp only [List.length_take, List.length_drop]
      omega
    rw [wp_ite, if_neg fun h ↦ hfit (hle.1 h)]
    simp only [wp_bind, wp_memcpy, hfirst, hrest]
    refine ⟨⟨by omega, by omega⟩, ⟨?_, by omega⟩, ?_⟩
    · rw [length_splice (by omega)]
      omega
    have hsum : size - b.rpos.toNat + (b.rpos.toNat + n.toNat - size) = n.toNat := by omega
    rw [splice_zero_splice hxs (by rw [hys]; omega), hys, hsum, List.drop_zero,
      List.take_of_length_le (by simp; omega)]
    rwa [Nat.add_comm n.toNat, hlen] at hpost

/-- The bytes of a write come behind the content. -/
theorem WellFormed.written (h : WellFormed size b) (hsize : size ≤ 2 ^ 31)
    {block block' wdata : List UInt8} {n : UInt32} {b' : State} (hblock : b.buffer = some block)
    (hroom : b.busyNum.toNat + n.toNat ≤ size) (hwdata : n.toNat ≤ wdata.length)
    (hput : Put block b.wpos.toNat (wdata.take n.toNat) block') (hb' : b'.buffer = some block')
    (hsz' : b'.bufferSize = b.bufferSize) (hr' : b'.rpos = b.rpos)
    (hw' : b'.wpos.toNat = (b.wpos.toNat + n.toNat) % size) (hbusy' : b'.busyNum = b.busyNum + n) :
    WellFormed size b' ∧ content b' = content b ++ wdata.take n.toNat := by
  obtain ⟨hsz, ⟨block, hblock', hlen⟩, hrpos, hwpos, hbusy, hw⟩ := h
  obtain rfl : _ = block := Option.some.inj (hblock.symm.trans hblock')
  have hcount : b'.busyNum.toNat = b.busyNum.toNat + n.toNat := by
    rw [hbusy', UInt32.toNat_add]
    exact Nat.mod_eq_of_lt (by omega)
  refine ⟨⟨by rw [hsz', hsz], ⟨block', hb', hput.length.trans hlen⟩, by rw [hr']; exact hrpos, ?_,
    by omega, ?_⟩, ?_⟩
  · rw [hw']
    exact Nat.mod_lt _ (by omega)
  · rw [hw', hr', hcount, hw, Nat.mod_add_mod, Nat.add_assoc]
  · rw [hw, ← hlen] at hput
    have hd : (wdata.take n.toNat).length = n.toNat := by
      rw [List.length_take]
      omega
    have happend := hput.window_append (by omega)
    rw [hd] at happend
    unfold content
    rw [hb', hblock, hcount, hr', Option.getD_some, Option.getD_some, happend]

/-- Both branches of the copy put the bytes behind the newest one. -/
theorem wp_write (hsize : size ≤ 2 ^ 31) (h : WellFormed size b) {wdata : List UInt8}
    {n : UInt32} (hwdata : n.toNat ≤ wdata.length) {post : ℤ → State → Prop}
    (hzero : n = 0 → post (-1) b) (hfull : size < b.busyNum.toNat + n.toNat → post (-2) b)
    (hpost : ∀ b', 0 < n.toNat → b.busyNum.toNat + n.toNat ≤ size → WellFormed size b' →
      content b' = content b ++ wdata.take n.toNat → post 0 b') :
    wp (write (some wdata) n) post b := by
  have hleft := h.toNat_left
  obtain ⟨block, hblock, hlen⟩ := h.block
  have hsz := h.size_eq
  have hwpos := h.wpos_lt
  unfold write
  simp only [wp_bind, wp_get, hblock]
  by_cases hn : n ≤ 0
  · rw [wp_ite, if_pos hn, wp_pure]
    exact hzero (eq_zero_of_le hn)
  rw [wp_ite, if_neg hn]
  have hpos := toNat_pos_of_not_le hn
  by_cases hover : size < b.busyNum.toNat + n.toNat
  · rw [wp_ite, if_pos (UInt32.lt_iff_toNat_lt.2 (by omega)), wp_pure]
    exact hfull hover
  rw [wp_ite, if_neg fun hgt ↦ by have := UInt32.lt_iff_toNat_lt.1 hgt; omega]
  have hdone (b' : State) (block' : List UInt8) (hput : Put block b.wpos.toNat
      (wdata.take n.toNat) block') (hb' : b'.buffer = some block')
      (hsz' : b'.bufferSize = b.bufferSize) (hr' : b'.rpos = b.rpos)
      (hw' : b'.wpos.toNat = (b.wpos.toNat + n.toNat) % size)
      (hbusy' : b'.busyNum = b.busyNum + n) : post 0 b' := by
    obtain ⟨h', hcontent⟩ :=
      h.written hsize hblock (by omega) hwdata hput hb' hsz' hr' hw' hbusy'
    exact hpost b' hpos (by omega) h' hcontent
  obtain ⟨hadd, hle⟩ := add_le_iff hsize hsz hwpos (show n.toNat ≤ size by omega)
  have hnext := toNat_next hsize hsz hwpos (show n.toNat ≤ size by omega)
  by_cases hfit : b.wpos.toNat + n.toNat ≤ size
  · rw [if_pos (hle.2 hfit)] at hnext
    rw [wp_ite, if_pos (hle.2 hfit)]
    simp only [wp_bind, wp_memcpy, wp_set, wp_pure, List.drop_zero]
    refine ⟨⟨by omega, by omega⟩, hdone _ _ (put_splice ?_) rfl rfl rfl ?_ rfl⟩
    · rw [List.length_take]
      omega
    · rw [← hnext]
      have hend : b.wpos + n ≥ b.bufferSize ↔ b.wpos + n = b.bufferSize := by
        rw [ge_iff_le, UInt32.le_iff_toNat_le, ← UInt32.toNat_inj]
        omega
      simp only [hend]
  · obtain ⟨hfirst, hrest⟩ :=
      toNat_wrapped hsize hsz hwpos (show n.toNat ≤ size by omega) (by omega)
    rw [if_neg fun h ↦ hfit (hle.1 h)] at hnext
    rw [wp_ite, if_neg fun h ↦ hfit (hle.1 h)]
    simp only [wp_bind, wp_memcpy, wp_set, wp_pure, List.drop_zero, hfirst, hrest]
    have hxs : (wdata.take (size - b.wpos.toNat)).length = size - b.wpos.toNat := by
      rw [List.length_take]
      omega
    have hys : ((wdata.drop (size - b.wpos.toNat)).take
        (b.wpos.toNat + n.toNat - size)).length = b.wpos.toNat + n.toNat - size := by
      rw [List.length_take, List.length_drop]
      omega
    have hfirstPut := put_splice (show b.wpos.toNat + _ ≤ block.length by rw [hxs]; omega)
    refine ⟨⟨by omega, by omega⟩, ⟨?_, by omega⟩, hdone _ _ ?_ rfl rfl rfl hnext rfl⟩
    · rw [hfirstPut.length]
      omega
    · have hmod : (b.wpos.toNat + (size - b.wpos.toNat)) % size = 0 := by
        rw [Nat.add_sub_cancel' (by omega), Nat.mod_self]
      have htake : wdata.take n.toNat = wdata.take (size - b.wpos.toNat) ++
          (wdata.drop (size - b.wpos.toNat)).take (b.wpos.toNat + n.toNat - size) := by
        rw [← List.take_add]
        congr 1
        omega
      rw [htake]
      refine hfirstPut.append ?_ (by omega)
      rw [hxs, hlen, hmod]
      exact put_splice (by rw [hys, hfirstPut.length]; omega)

theorem wp_fetch (hsize : size ≤ 2 ^ 31) (h : WellFormed size b) {after : State → State}
    {rdata : List UInt8} {n : UInt32} (hrdata : n.toNat ≤ rdata.length)
    {post : ℤ × Option (List UInt8) → State → Prop}
    (hzero : n = 0 → post (-1, some rdata) b)
    (hempty : b.busyNum.toNat < n.toNat → post (-2, some rdata) b)
    (hpost : 0 < n.toNat → n.toNat ≤ b.busyNum.toNat →
      post (0, some ((content b).take n.toNat ++ rdata.drop n.toNat)) (after b)) :
    wp (fetch after (some rdata) n) post b := by
  obtain ⟨block, hblock, -⟩ := h.block
  unfold fetch
  simp only [wp_bind, wp_get, hblock]
  by_cases hn : n ≤ 0
  · rw [wp_ite, if_pos hn, wp_pure]
    exact hzero (eq_zero_of_le hn)
  rw [wp_ite, if_neg hn]
  by_cases hless : b.busyNum < n
  · rw [wp_ite, if_pos hless, wp_pure]
    exact hempty (UInt32.lt_iff_toNat_lt.1 hless)
  have hle : n.toNat ≤ b.busyNum.toNat :=
    Nat.le_of_not_lt fun h ↦ hless (UInt32.lt_iff_toNat_lt.2 h)
  rw [wp_ite, if_neg hless, wp_bind]
  apply wp_copyOut hsize h hblock hle hrdata
  simp only [wp_bind, wp_set, wp_pure]
  exact hpost (toNat_pos_of_not_le hn) hle

theorem wp_skip (h : WellFormed size b) {n : UInt32} {post : ℤ → State → Prop}
    (hzero : n = 0 → post (-1) b) (hempty : b.busyNum.toNat < n.toNat → post (-2) b)
    (hpost : 0 < n.toNat → n.toNat ≤ b.busyNum.toNat → post 0 (advance n b)) :
    wp (skip n) post b := by
  obtain ⟨block, hblock, -⟩ := h.block
  unfold skip
  simp only [wp_bind, wp_get, hblock, reduceCtorEq, false_or]
  by_cases hn : n ≤ 0
  · rw [wp_ite, if_pos hn, wp_pure]
    exact hzero (eq_zero_of_le hn)
  rw [wp_ite, if_neg hn]
  by_cases hless : b.busyNum < n
  · rw [wp_ite, if_pos hless, wp_pure]
    exact hempty (UInt32.lt_iff_toNat_lt.1 hless)
  rw [wp_ite, if_neg hless, wp_bind, wp_set, wp_pure]
  exact hpost (toNat_pos_of_not_le hn)
    (Nat.le_of_not_lt fun h ↦ hless (UInt32.lt_iff_toNat_lt.2 h))

theorem wp_clear (h : WellFormed size b) :
    wp clear (fun _ b' ↦ WellFormed size b' ∧ content b' = []) b := by
  obtain ⟨hsz, ⟨block, hblock, hlen⟩, hrpos, -, -, -⟩ := h
  unfold clear
  simp only [wp_bind, wp_get, hblock, ne_eq, reduceCtorEq, not_false_eq_true, wp_ite, if_true,
    wp_set]
  exact ⟨⟨hsz, ⟨block, rfl, hlen⟩, Nat.zero_lt_of_lt hrpos, Nat.zero_lt_of_lt hrpos,
    Nat.zero_le _, (Nat.zero_mod _).symm⟩, rfl⟩

end

/-! ## Runs -/

/-- A call with the caller's buffers. -/
inductive Op
  | write (wdata : List UInt8) (dataLen : UInt32)
  | read (rdata : List UInt8) (dataLen : UInt32)
  | get (rdata : List UInt8) (dataLen : UInt32)
  | skip (dataLen : UInt32)
  | clear

/-- What the caller sees: the return value, and what its buffer holds afterwards. -/
structure Result where
  ret : ℤ
  rdata : Option (List UInt8)
  deriving DecidableEq

def Op.run : Op → BufferCmd Result
  | .write wdata dataLen => return ⟨← Buffer.write (some wdata) dataLen, none⟩
  | .read rdata dataLen => do
      let (ret, rdata) ← Buffer.read (some rdata) dataLen
      return ⟨ret, rdata⟩
  | .get rdata dataLen => do
      let (ret, rdata) ← Buffer.get (some rdata) dataLen
      return ⟨ret, rdata⟩
  | .skip dataLen => return ⟨← Buffer.skip dataLen, none⟩
  | .clear => do
      Buffer.clear
      return ⟨0, none⟩

/-- The caller's buffers are as long as it says. -/
def Allowed : Op → Prop
  | .write data dataLen | .read data dataLen | .get data dataLen => dataLen.toNat ≤ data.length
  | .skip _ | .clear => True

instance (op : Op) : Decidable (Allowed op) :=
  match op with
  | .write data dataLen | .read data dataLen | .get data dataLen =>
    inferInstanceAs (Decidable (dataLen.toNat ≤ data.length))
  | .skip _ | .clear => inferInstanceAs (Decidable True)

def Step (label : Op × Result) (b b' : State) : Prop :=
  Allowed label.1 ∧ label.1.run.run b = some (label.2, b')

/-- A queue of at most `size` bytes. -/
def spec (size : ℕ) (op : Op) (queue : List UInt8) : Result × List UInt8 :=
  match op with
  | .write wdata dataLen =>
      if dataLen.toNat = 0 then (⟨-1, none⟩, queue)
      else if size < queue.length + dataLen.toNat then (⟨-2, none⟩, queue)
      else (⟨0, none⟩, queue ++ wdata.take dataLen.toNat)
  | .read rdata dataLen =>
      if dataLen.toNat = 0 then (⟨-1, some rdata⟩, queue)
      else if queue.length < dataLen.toNat then (⟨-2, some rdata⟩, queue)
      else (⟨0, some (queue.take dataLen.toNat ++ rdata.drop dataLen.toNat)⟩,
        queue.drop dataLen.toNat)
  | .get rdata dataLen =>
      if dataLen.toNat = 0 then (⟨-1, some rdata⟩, queue)
      else if queue.length < dataLen.toNat then (⟨-2, some rdata⟩, queue)
      else (⟨0, some (queue.take dataLen.toNat ++ rdata.drop dataLen.toNat)⟩, queue)
  | .skip dataLen =>
      if dataLen.toNat = 0 then (⟨-1, none⟩, queue)
      else if queue.length < dataLen.toNat then (⟨-2, none⟩, queue)
      else (⟨0, none⟩, queue.drop dataLen.toNat)
  | .clear => (⟨0, none⟩, [])

def SpecStep (size : ℕ) (label : Op × Result) (queue queue' : List UInt8) : Prop :=
  spec size label.1 queue = (label.2, queue')

/-- The calls that must leave the whole state alone: those that fail, and `get`. -/
def Idle : Op × Result → Prop
  | (.get _ _, _) => True
  | (_, result) => result.ret ≠ 0

section

variable {size : ℕ} {b : State}

@[simp]
theorem length_content : (content b).length = b.busyNum.toNat := length_window

/-- **Every call does what the queue does**, and stays inside every block. -/
theorem wp_run (hsize : size ≤ 2 ^ 31) (h : WellFormed size b) {op : Op} (hop : Allowed op) :
    wp op.run (fun result b' ↦ WellFormed size b' ∧
      SpecStep size (op, result) (content b) (content b') ∧ (Idle (op, result) → b' = b)) b := by
  have hbusy := h.busy_le
  cases op with
  | write wdata n =>
    simp only [Op.run, wp_bind, wp_pure]
    apply wp_write hsize h hop
    · intro hn
      exact ⟨h, by simp [SpecStep, spec, hn], fun _ ↦ rfl⟩
    · intro hfull
      have hn : n.toNat ≠ 0 := by omega
      exact ⟨h, by simp [SpecStep, spec, hn, hfull], fun _ ↦ rfl⟩
    · intro b' hpos hfit h' hcontent
      have hn : n.toNat ≠ 0 := by omega
      refine ⟨h', ?_, fun hidle ↦ absurd rfl hidle⟩
      simp [SpecStep, spec, hn, Nat.not_lt.2 hfit, hcontent]
  | read rdata n =>
    simp only [Op.run, wp_bind, wp_pure]
    apply wp_fetch hsize h hop
    · intro hn
      exact ⟨h, by simp [SpecStep, spec, hn], fun _ ↦ rfl⟩
    · intro hless
      have hn : n.toNat ≠ 0 := by omega
      exact ⟨h, by simp [SpecStep, spec, hn, hless], fun _ ↦ rfl⟩
    · intro hpos hle
      obtain ⟨h', hcontent⟩ := h.advance hsize hle
      have hn : n.toNat ≠ 0 := by omega
      refine ⟨h', ?_, fun hidle ↦ absurd rfl hidle⟩
      simp [SpecStep, spec, hn, Nat.not_lt.2 hle, hcontent]
  | get rdata n =>
    simp only [Op.run, wp_bind, wp_pure]
    apply wp_fetch hsize h hop
    · intro hn
      exact ⟨h, by simp [SpecStep, spec, hn], fun _ ↦ rfl⟩
    · intro hless
      have hn : n.toNat ≠ 0 := by omega
      exact ⟨h, by simp [SpecStep, spec, hn, hless], fun _ ↦ rfl⟩
    · intro hpos hle
      have hn : n.toNat ≠ 0 := by omega
      exact ⟨h, by simp [SpecStep, spec, hn, Nat.not_lt.2 hle], fun _ ↦ rfl⟩
  | skip n =>
    simp only [Op.run, wp_bind, wp_pure]
    apply wp_skip h
    · intro hn
      exact ⟨h, by simp [SpecStep, spec, hn], fun _ ↦ rfl⟩
    · intro hless
      have hn : n.toNat ≠ 0 := by omega
      exact ⟨h, by simp [SpecStep, spec, hn, hless], fun _ ↦ rfl⟩
    · intro hpos hle
      obtain ⟨h', hcontent⟩ := h.advance hsize hle
      have hn : n.toNat ≠ 0 := by omega
      refine ⟨h', ?_, fun hidle ↦ absurd rfl hidle⟩
      simp [SpecStep, spec, hn, Nat.not_lt.2 hle, hcontent]
  | clear =>
    simp only [Op.run, wp_bind, wp_pure]
    apply wp_mono (wp_clear h)
    rintro - b' ⟨h', hcontent⟩
    refine ⟨h', ?_, fun hidle ↦ absurd rfl hidle⟩
    simp [SpecStep, spec, hcontent]

/-- `skip` reaches the state that `read` reaches. -/
theorem skip_of_read (hsize : size ≤ 2 ^ 31) (h : WellFormed size b) {rdata : List UInt8}
    {n : UInt32} {result : Result} {b' : State} (hstep : Step (.read rdata n, result) b b') :
    Step (.skip n, ⟨result.ret, none⟩) b b' := by
  obtain ⟨hop, hrun⟩ := hstep
  -- whatever `read` answered, `skip` answers the same and takes the same step
  have hread : wp (Op.read rdata n).run (fun result b' ↦ wp (Op.skip n).run
      (fun result' b'' ↦ result' = ⟨result.ret, none⟩ ∧ b'' = b') b) b := by
    simp only [Op.run, wp_bind, wp_pure]
    apply wp_fetch hsize h hop
    · intro hn
      exact wp_skip h (fun _ ↦ ⟨rfl, rfl⟩) (fun hless ↦ by simp [hn] at hless)
        (fun hpos ↦ by simp [hn] at hpos)
    · intro hless
      exact wp_skip h (fun hn ↦ by simp [hn] at hless) (fun _ ↦ ⟨rfl, rfl⟩)
        (fun _ hle ↦ absurd hle (Nat.not_le.2 hless))
    · intro hpos hle
      exact wp_skip h (fun hn ↦ by simp [hn] at hpos)
        (fun hless ↦ absurd hle (Nat.not_le.2 hless)) (fun _ _ ↦ ⟨rfl, rfl⟩)
  obtain ⟨result', b'', hskip, rfl, rfl⟩ := wp_outcome hread hrun
  exact ⟨trivial, hskip⟩

/-- **The ring buffer is a bounded byte queue** under every run of its operations. -/
theorem refines_bounded_queue {bufferSize : UInt32} (hpos : 0 < bufferSize.toNat)
    (hsize : bufferSize.toNat ≤ 2 ^ 31) {handle block : Bool} {b₀ b : State}
    {labels : List (Op × Result)} (hcreate : create handle block bufferSize = some b₀)
    (hrun : Run Step labels b₀ b) :
    WellFormed bufferSize.toNat b ∧ Run (SpecStep bufferSize.toNat) labels [] (content b) ∧
      (∀ op, Allowed op → ∃ result b', Step (op, result) b b') ∧
      (∀ label b', Step label b b' → Idle label → b' = b) ∧
      ∀ rdata n result b', Step (.read rdata n, result) b b' →
        Step (.skip n, ⟨result.ret, none⟩) b b' := by
  obtain ⟨h₀, hempty⟩ := wellFormed_create hpos hcreate
  have hsim (label : Op × Result) (b b' : State) (queue : List UInt8)
      (hrel : WellFormed bufferSize.toNat b ∧ content b = queue) (hstep : Step label b b') :
      ∃ queue', SpecStep bufferSize.toNat label queue queue' ∧
        WellFormed bufferSize.toNat b' ∧ content b' = queue' := by
    obtain ⟨h, rfl⟩ := hrel
    obtain ⟨h', hspec, -⟩ := wp_outcome (wp_run hsize h hstep.1) hstep.2
    exact ⟨content b', hspec, h', rfl⟩
  obtain ⟨queue, hspec, h, hqueue⟩ := hrun.simulation _ hsim ⟨h₀, hempty⟩
  refine ⟨h, hqueue ▸ hspec, fun op hop ↦ ?_, fun label b' hstep ↦ ?_,
    fun rdata n result b' ↦ skip_of_read hsize h⟩
  · obtain ⟨result, b', hstep, -⟩ := wp_run hsize h hop
    exact ⟨result, b', hop, hstep⟩
  · exact (wp_outcome (wp_run hsize h hstep.1) hstep.2).2.2

end

/-- Four bytes, with a write that wraps and a full buffer at the end. -/
def wrapLabels : List (Op × Result) :=
  [(.write [1, 2, 3] 3, ⟨0, none⟩), (.read [0, 0] 2, ⟨0, some [1, 2]⟩),
    (.write [4, 5, 6] 3, ⟨0, none⟩), (.write [7] 1, ⟨-2, none⟩), (.get [0] 1, ⟨0, some [3]⟩)]

theorem wrap_create : create true true 4 = some ⟨some [0, 0, 0, 0], 4, 0, 0, 0⟩ := rfl

theorem wrap_run :
    Run Step wrapLabels ⟨some [0, 0, 0, 0], 4, 0, 0, 0⟩ ⟨some [5, 6, 3, 4], 4, 2, 2, 4⟩ :=
  .cons ⟨by decide, rfl⟩ <| .cons ⟨by decide, rfl⟩ <| .cons ⟨by decide, rfl⟩ <|
    .cons ⟨by decide, rfl⟩ <| .cons ⟨by decide, rfl⟩ <| .nil _

theorem refines_bounded_queue_wrapped :
    Run (SpecStep 4) wrapLabels [] [3, 4, 5, 6] :=
  (refines_bounded_queue (by decide) (by decide) wrap_create wrap_run).2.1

end Zbaselib.Buffer
