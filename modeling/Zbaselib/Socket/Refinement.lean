import Zbaselib.Socket.Model
import Zbaselib.Lib.Transition

/-!
# The socket buffer refines a byte queue

The bytes lie in one piece between the two positions.  Compaction, growth and
the reset of an empty buffer move that piece, and only arrivals and departures
change what it holds.
-/

namespace Zbaselib.Socket

open Program Block Transition

/-- The positions agree with the count and stay inside the block. -/
structure WellFormed (b : State) : Prop where
  block : ∃ buf, b.buf = some buf ∧ buf.length = b.bufSize.toNat
  wpos_eq : b.wpos.toNat = b.rpos.toNat + b.dataSize.toNat
  wpos_le : b.wpos.toNat ≤ b.bufSize.toNat
  rpos_of_empty : b.dataSize.toNat = 0 → b.rpos.toNat = 0

theorem wellFormed_create {handle : Bool} {sndBuf : Option ℤ} {bufSize bufMaxSize : UInt32}
    {sock : ℤ} {b : State}
    (h : create handle true sndBuf bufSize bufMaxSize sock = some b) :
    WellFormed b ∧ content b = [] := by
  unfold create at h
  split at h
  · cases h
    exact ⟨⟨⟨_, rfl, List.length_replicate⟩, rfl, Nat.zero_le _, fun _ ↦ rfl⟩, by simp [content]⟩
  · cases h

/-! ## Conversions without wrap-around -/

theorem asInt_of_lt {n : ℕ} (h : n < 2 ^ 31) : asInt n = n := if_pos h

@[simp]
theorem asInt_zero : asInt 0 = 0 := asInt_of_lt (by decide)

theorem sizeT_toInt {n : UInt32} (h : n.toNat < 2 ^ 31) : sizeT (toInt n) = n.toNat := by
  unfold sizeT toInt
  rw [asInt_of_lt h]
  omega

theorem le_sizeT_toInt (n : UInt32) : n.toNat ≤ sizeT (toInt n) := by
  have hlt := n.toNat_lt
  unfold sizeT toInt asInt
  split <;> omega

/-- The window of a buffer with room, as `recv` gets it. -/
theorem sizeT_window {m n : UInt32} (hlt : n.toNat < m.toNat)
    (hsmall : m.toNat - n.toNat < 2 ^ 31) : sizeT (toInt (m - n)) = m.toNat - n.toNat := by
  have hsize : (m - n).toNat = m.toNat - n.toNat :=
    UInt32.toNat_sub_of_le _ _ (UInt32.le_iff_toNat_le.2 hlt.le)
  rw [sizeT_toInt (by omega), hsize]

@[simp]
theorem ofInt_toInt (n : UInt32) : UInt32.ofInt (toInt n) = n := by
  have hmod : toInt n % 2 ^ 32 = n.toNat := by
    have hlt := n.toNat_lt
    unfold toInt asInt
    split <;> omega
  unfold UInt32.ofInt
  rw [hmod, Int.toNat_natCast, UInt32.ofNat_toNat]

theorem toNat_grown {n extra : UInt32} (h : n.toNat + n.toNat / 2 + extra.toNat < 2 ^ 31) :
    (n + (n >>> 1) + extra).toNat = n.toNat + n.toNat / 2 + extra.toNat := by
  have hhalf : (n >>> 1).toNat = n.toNat / 2 := by
    rw [UInt32.toNat_shiftRight, Nat.shiftRight_eq_div_pow]
    rfl
  rw [UInt32.toNat_add, UInt32.toNat_add, hhalf, Nat.mod_add_mod]
  exact Nat.mod_eq_of_lt (by omega)

section

variable {b : State}

/-! ## Moving the bytes -/

/-- Compaction moves the bytes to the front and nothing else. -/
theorem wp_compact (h : WellFormed b) {post : Unit → State → Prop}
    (hpost : ∀ buf, WellFormed { b with buf := some buf, wpos := b.wpos - b.rpos, rpos := 0 } →
      content { b with buf := some buf, wpos := b.wpos - b.rpos, rpos := 0 } = content b →
      (b.wpos - b.rpos).toNat = b.dataSize.toNat →
      post () { b with buf := some buf, wpos := b.wpos - b.rpos, rpos := 0 }) :
    wp compact post b := by
  obtain ⟨⟨buf, hbuf, hlen⟩, hwpos, hle, -⟩ := h
  have hwpos' : (b.wpos - b.rpos).toNat = b.dataSize.toNat := by
    rw [UInt32.toNat_sub_of_le _ _ (UInt32.le_iff_toNat_le.2 (by omega))]
    omega
  have hxs : ((buf.drop b.rpos.toNat).take b.dataSize.toNat).length = b.dataSize.toNat := by
    rw [List.length_take, List.length_drop]
    omega
  unfold compact
  simp only [wp_bind, wp_get, hbuf, wp_memcpy, wp_set]
  refine ⟨⟨by omega, by omega⟩, hpost _ ⟨⟨_, rfl, ?_⟩, ?_, ?_, fun _ ↦ rfl⟩ ?_ hwpos'⟩
  · rw [length_splice (by rw [hxs]; omega)]
    exact hlen
  · simp [hwpos']
  · simp only [hwpos']
    omega
  · have htake := take_splice (i := 0) (Nat.zero_le buf.length)
      ((buf.drop b.rpos.toNat).take b.dataSize.toNat)
    rw [Nat.zero_add, hxs, List.take_zero, List.nil_append] at htake
    simp only [content, hwpos', hbuf, Option.getD_some, htake, UInt32.toNat_zero, List.drop_zero,
      hwpos, List.drop_take, Nat.add_sub_cancel_left, Nat.sub_zero]

/-- The size of the grown block does not wrap, and there is memory for it. -/
def Fits (extra : UInt32) (fresh : Option (ℕ → UInt8)) (b : State) : Prop :=
  b.bufSize.toNat + b.bufSize.toNat / 2 + extra.toNat < 2 ^ 31 ∧ fresh.isSome

/-- Growth keeps the bytes where they are. -/
theorem wp_grow (h : WellFormed b) {extra : UInt32} {fresh : Option (ℕ → UInt8)}
    (hfits : Fits extra fresh b) {post : Unit → State → Prop}
    (hpost : ∀ buf bufSize, bufSize.toNat = b.bufSize.toNat + b.bufSize.toNat / 2 + extra.toNat →
      WellFormed { b with buf := some buf, bufSize } →
      content { b with buf := some buf, bufSize } = content b →
      post () { b with buf := some buf, bufSize }) : wp (grow extra fresh) post b := by
  obtain ⟨⟨buf, hbuf, hlen⟩, hwpos, hle, hempty⟩ := h
  have hsize := toNat_grown hfits.1
  obtain ⟨buf', hrealloc, hlen', hkeep⟩ := realloc_eq_some buf
    (show (b.bufSize + (b.bufSize >>> 1) + extra).toNat < 2 ^ 63 by
      have := hfits.1
      omega) hfits.2
  unfold grow
  simp only [wp_bind, wp_get, hbuf, wp_set, ofInt_toInt,
    sizeT_toInt (show (b.bufSize + (b.bufSize >>> 1) + extra).toNat < 2 ^ 31 by
      rw [hsize]
      exact hfits.1), hrealloc]
  refine hpost _ _ hsize ⟨⟨buf', rfl, hlen'⟩, hwpos, ?_, hempty⟩ ?_
  · simp only [hsize]
    omega
  · simp only [content, hbuf, Option.getD_some]
    rw [hkeep _ (by omega) (by omega)]

/-- The bytes that arrive follow those that are there. -/
theorem wp_append (h : WellFormed b) {src : List UInt8} {size : UInt32}
    (hsrc : size.toNat ≤ src.length) (hroom : b.wpos.toNat + size.toNat ≤ b.bufSize.toNat)
    {post : Unit → State → Prop}
    (hpost : ∀ b', WellFormed b' → content b' = content b ++ src.take size.toNat → post () b') :
    wp (append src size) post b := by
  obtain ⟨⟨buf, hbuf, hlen⟩, hwpos, hle, hempty⟩ := h
  have hlt := b.bufSize.toNat_lt
  have hwpos' : (b.wpos + size).toNat = b.wpos.toNat + size.toNat := by
    rw [UInt32.toNat_add]
    exact Nat.mod_eq_of_lt (by omega)
  have hdata' : (b.dataSize + size).toNat = b.dataSize.toNat + size.toNat := by
    rw [UInt32.toNat_add]
    exact Nat.mod_eq_of_lt (by omega)
  have hxs : (src.take size.toNat).length = size.toNat := by
    rw [List.length_take]
    omega
  unfold append
  simp only [wp_bind, wp_get, hbuf, wp_memcpy, wp_set, List.drop_zero]
  refine ⟨⟨by omega, by omega⟩, hpost _ ⟨⟨_, rfl, ?_⟩, ?_, ?_, ?_⟩ ?_⟩
  · rw [length_splice (by rw [hxs]; omega)]
    exact hlen
  · simp only [hwpos', hdata']
    omega
  · simp only [hwpos']
    exact hroom
  · simp only [hdata']
    intro hzero
    exact hempty (by omega)
  · have htake := take_splice (show b.wpos.toNat ≤ buf.length by omega) (src.take size.toNat)
    rw [hxs] at htake
    simp only [content, hwpos', hbuf, Option.getD_some, htake]
    rw [List.drop_append_of_le_length]
    rw [List.length_take]
    omega

/-- Departing bytes leave the others in order. -/
theorem WellFormed.consume (h : WellFormed b) {size : UInt32}
    (hsize : size.toNat ≤ b.dataSize.toNat) :
    WellFormed (consume size b) ∧ content (consume size b) = (content b).drop size.toNat := by
  obtain ⟨⟨buf, hbuf, hlen⟩, hwpos, hle, hempty⟩ := h
  have hlt := b.bufSize.toNat_lt
  have hrpos' : (b.rpos + size).toNat = b.rpos.toNat + size.toNat := by
    rw [UInt32.toNat_add]
    exact Nat.mod_eq_of_lt (by omega)
  have hdata' : (b.dataSize - size).toNat = b.dataSize.toNat - size.toNat :=
    UInt32.toNat_sub_of_le _ _ (UInt32.le_iff_toNat_le.2 hsize)
  unfold Socket.consume
  dsimp only
  split_ifs with hdone
  · obtain ⟨hzero, -⟩ := hdone
    rw [← UInt32.toNat_inj, hdata'] at hzero
    refine ⟨⟨⟨buf, hbuf, hlen⟩, ?_, Nat.zero_le _, fun _ ↦ rfl⟩, ?_⟩
    · simp only [hdata', hzero]
      rfl
    · simp only [content, UInt32.toNat_zero, List.take_zero, List.drop_nil]
      rw [List.drop_drop, List.drop_eq_nil_of_le]
      rw [List.length_take]
      have : (0 : UInt32).toNat = 0 := rfl
      omega
  · refine ⟨⟨⟨buf, hbuf, hlen⟩, ?_, hle, ?_⟩, ?_⟩
    · simp only [hrpos', hdata']
      omega
    · simp only [hrpos', hdata']
      intro hzero
      refine absurd ⟨?_, ?_⟩ hdone
      · rw [← UInt32.toNat_inj, hdata', hzero]
        rfl
      · rw [← UInt32.toNat_inj, hrpos', hwpos]
        omega
    · simp only [content, hrpos', List.drop_drop]

/-! ## The operations -/

theorem lt_add_iff {pos size bufSize : UInt32} (hsum : pos.toNat + size.toNat < 2 ^ 32) :
    pos + size > bufSize ↔ bufSize.toNat < pos.toNat + size.toNat := by
  rw [gt_iff_lt, UInt32.lt_iff_toNat_lt, UInt32.toNat_add, Nat.mod_eq_of_lt hsum]

/-- Afterwards the bytes do not fit only if they would not fit into the whole block. -/
theorem wp_compactFor (h : WellFormed b) {size : UInt32}
    (hsum : b.wpos.toNat + size.toNat < 2 ^ 32) {post : Unit → State → Prop}
    (hpost : ∀ b', WellFormed b' → content b' = content b → b'.bufSize = b.bufSize →
      b'.bufMaxSize = b.bufMaxSize → b'.wpos.toNat + size.toNat < 2 ^ 32 →
      (b.bufSize.toNat < b'.wpos.toNat + size.toNat ↔
        b.bufSize.toNat < b.dataSize.toNat + size.toNat) → post () b') :
    wp (compactFor size) post b := by
  have hwpos := h.wpos_eq
  unfold compactFor
  rw [wp_bind, wp_get, wp_ite]
  split
  · apply wp_compact h
    intro buf h' hcontent hwpos'
    exact hpost _ h' hcontent rfl rfl (by simp only [hwpos']; omega) (by simp only [hwpos'])
  · next hno =>
    rw [lt_add_iff hsum, gt_iff_lt, UInt32.lt_iff_toNat_lt, UInt32.toNat_zero] at hno
    rw [wp_pure]
    exact hpost b h rfl rfl rfl hsum (by omega)

/-- `write` refuses exactly when the bytes do not fit and the buffer may not grow. -/
theorem wp_write (h : WellFormed b) {data : List UInt8} {size : UInt32}
    {fresh : Option (ℕ → UInt8)}
    (hdata : (b.bufSize.toNat < b.dataSize.toNat + size.toNat → b.bufSize ≤ b.bufMaxSize) →
      size.toNat ≤ data.length)
    (hsum : b.wpos.toNat + size.toNat < 2 ^ 32)
    (hfits : b.bufSize.toNat < b.dataSize.toNat + size.toNat → b.bufSize ≤ b.bufMaxSize →
      Fits size fresh b) {post : ℤ → State → Prop}
    (hfull : b.bufSize.toNat < b.dataSize.toNat + size.toNat → b.bufMaxSize < b.bufSize →
      ∀ b', WellFormed b' → content b' = content b → post (-2) b')
    (hpost : (b.bufSize.toNat < b.dataSize.toNat + size.toNat → b.bufSize ≤ b.bufMaxSize) →
      ∀ b', WellFormed b' → content b' = content b ++ data.take size.toNat → post 0 b') :
    wp (write (some data) size fresh) post b := by
  obtain ⟨buf, hbuf, hlen⟩ := h.block
  unfold write
  simp only [wp_bind, wp_get, hbuf]
  apply wp_compactFor h hsum
  intro b₁ h₁ hcontent hsize hmax hsum₁ hover
  by_cases hgrow : b.bufSize.toNat < b.dataSize.toNat + size.toNat
  · rw [wp_ite, if_pos ((lt_add_iff hsum₁).2 (hsize ▸ hover.2 hgrow)), wp_ite]
    split
    · next hgt =>
      rw [wp_pure]
      exact hfull hgrow (by rwa [hsize, hmax] at hgt) b₁ h₁ hcontent
    · next hle =>
      rw [hsize, hmax, gt_iff_lt, UInt32.not_lt] at hle
      rw [wp_bind]
      apply wp_grow h₁ (show Fits size fresh b₁ by
        unfold Fits
        rw [hsize]
        exact hfits hgrow hle)
      intro buf' bufSize' hbufSize' h₂ hcontent₂
      have hle₁ := h₁.wpos_le
      rw [wp_bind]
      apply wp_append h₂ (hdata fun _ ↦ hle) (by simp only [hbufSize']; omega)
      intro b' h' hcontent'
      rw [wp_pure]
      exact hpost (fun _ ↦ hle) b' h' (by rw [hcontent', hcontent₂, hcontent])
  · rw [wp_ite, if_neg fun hgt ↦ hgrow (hover.1 (hsize ▸ (lt_add_iff hsum₁).1 hgt)), wp_bind]
    have hroom : b.bufSize.toNat < b.dataSize.toNat + size.toNat → b.bufSize ≤ b.bufMaxSize :=
      fun hlt ↦ absurd hlt hgrow
    apply wp_append h₁ (hdata hroom) (by rw [hsize]; omega)
    intro b' h' hcontent'
    rw [wp_pure]
    exact hpost hroom b' h' (by rw [hcontent', hcontent])

/-- The window of `recv` in a buffer that does not grow. -/
def windowSize (b : State) : ℕ :=
  if b.wpos < b.bufSize then b.bufSize.toNat - b.wpos.toNat
  else b.bufSize.toNat - b.dataSize.toNat

theorem wp_reserve (h : WellFormed b) {fresh : Option (ℕ → UInt8)}
    (hfits : b.dataSize = b.bufSize → b.bufSize ≤ b.bufMaxSize →
      Fits ZBASELIB_SKBUFFER_MIN_NUM fresh b)
    (hwindow : windowSize b < 2 ^ 31) {post : Bool → State → Prop}
    (hfull : b.dataSize = b.bufSize → b.bufMaxSize < b.bufSize → post false b)
    (hpost : (b.dataSize = b.bufSize → b.bufSize ≤ b.bufMaxSize) →
      ∀ b', WellFormed b' → content b' = content b → b'.wpos.toNat < b'.bufSize.toNat →
      b'.bufSize.toNat - b'.wpos.toNat < 2 ^ 31 → post true b') :
    wp (reserve fresh) post b := by
  have hwpos := h.wpos_eq
  have hle := h.wpos_le
  unfold windowSize at hwindow
  unfold reserve
  rw [wp_bind, wp_get, wp_ite]
  by_cases hend : b.wpos ≥ b.bufSize
  · have hend' := UInt32.le_iff_toNat_le.1 hend
    rw [if_neg (UInt32.not_lt.2 hend)] at hwindow
    rw [if_pos hend, wp_ite]
    by_cases hrpos : b.rpos > 0
    · have hrpos' := UInt32.lt_iff_toNat_lt.1 hrpos
      rw [UInt32.toNat_zero] at hrpos'
      rw [if_pos hrpos, wp_bind]
      apply wp_compact h
      intro buf h' hcontent hwpos'
      rw [wp_pure]
      refine hpost (fun heq ↦ ?_) _ h' hcontent ?_ ?_
      · rw [← UInt32.toNat_inj] at heq
        omega
      · simp only [hwpos']
        omega
      · simp only [hwpos']
        exact hwindow
    · have hdata : b.dataSize = b.bufSize := by
        rw [gt_iff_lt, UInt32.lt_iff_toNat_lt, UInt32.toNat_zero] at hrpos
        rw [← UInt32.toNat_inj]
        omega
      rw [if_neg hrpos, wp_ite]
      split
      · next hgt =>
        rw [wp_pure]
        exact hfull hdata hgt
      · next hmax =>
        rw [gt_iff_lt, UInt32.not_lt] at hmax
        have hgrown := (hfits hdata hmax).1
        rw [wp_bind]
        apply wp_grow h (hfits hdata hmax)
        intro buf bufSize hbufSize h' hcontent
        rw [wp_pure]
        have h64 : ZBASELIB_SKBUFFER_MIN_NUM.toNat = 64 := rfl
        refine hpost (fun _ ↦ hmax) _ h' hcontent ?_ ?_
        · simp only [hbufSize]
          omega
        · simp only [hbufSize]
          omega
  · have hlt : b.wpos < b.bufSize := UInt32.not_le.1 hend
    rw [if_pos hlt] at hwindow
    rw [if_neg hend, wp_pure]
    have hlt' := UInt32.lt_iff_toNat_lt.1 hlt
    refine hpost (fun heq ↦ ?_) b h rfl hlt' hwindow
    rw [← UInt32.toNat_inj] at heq
    omega

/-- What the kernel puts into its window follows the bytes that are there, if they have room. -/
theorem wp_receive_fits (h : WellFormed b) {kernel : Kernel}
    (hfits : (kernel.answer (sizeT (toInt (b.bufSize - b.wpos)))).bytes.length ≤
      b.bufSize.toNat - b.wpos.toNat) {post : Received → State → Prop}
    (hpost : ∀ b', WellFormed b' → content b' = content b ++
        (kernel.answer (sizeT (toInt (b.bufSize - b.wpos)))).bytes →
      post (kernel.answer (sizeT (toInt (b.bufSize - b.wpos)))) b') :
    wp (receive kernel) post b := by
  obtain ⟨buf, hbuf, -⟩ := h.block
  unfold receive
  rw [wp_bind, wp_get]
  dsimp only
  generalize kernel.answer (sizeT (toInt (b.bufSize - b.wpos))) = answer at hfits hpost
  rw [wp_ite]
  split
  · next hnil =>
    rw [wp_pure]
    exact hpost b h (by rw [hnil, List.append_nil])
  · next hbytes =>
    rw [wp_ite, if_neg (by rw [hbuf]; simp), wp_bind]
    have hlt := b.bufSize.toNat_lt
    have hmore := List.length_pos_iff.2 hbytes
    have hcount : (UInt32.ofNat answer.bytes.length).toNat = answer.bytes.length :=
      UInt32.toNat_ofNat_of_lt' (show _ < 2 ^ 32 by omega)
    apply wp_append h (Nat.le_of_eq hcount) (by rw [hcount]; omega)
    intro b' h' hcontent
    rw [hcount, List.take_length] at hcontent
    rw [wp_pure]
    exact hpost b' h' hcontent

/-- A window that is an `int` has room for what the kernel puts into it. -/
theorem wp_receive (h : WellFormed b) {kernel : Kernel}
    (hroom : b.wpos.toNat < b.bufSize.toNat) (hsmall : b.bufSize.toNat - b.wpos.toNat < 2 ^ 31)
    {post : Received → State → Prop}
    (hpost : ∀ b', WellFormed b' →
      content b' = content b ++ (kernel.answer (b.bufSize.toNat - b.wpos.toNat)).bytes →
      post (kernel.answer (b.bufSize.toNat - b.wpos.toNat)) b') : wp (receive kernel) post b := by
  have hwindow := sizeT_window hroom hsmall
  apply wp_receive_fits h
  · rw [hwindow]
    exact kernel.fits _
  · rw [hwindow]
    exact hpost

theorem wp_recv (h : WellFormed b) {kernel : Kernel} {fresh : Option (ℕ → UInt8)}
    (hfits : 0 ≤ b.sock → windowSize b < 2 ^ 31 ∧ (b.dataSize = b.bufSize →
      b.bufSize ≤ b.bufMaxSize → Fits ZBASELIB_SKBUFFER_MIN_NUM fresh b))
    {post : ℤ → State → Prop}
    (hinvalid : b.sock < 0 → post (-2) b)
    (hfull : 0 ≤ b.sock → b.dataSize = b.bufSize → b.bufMaxSize < b.bufSize → post (-3) b)
    (hpost : 0 ≤ b.sock → (b.dataSize = b.bufSize → b.bufSize ≤ b.bufMaxSize) →
      ∀ window b', 0 < window → WellFormed b' →
      content b' = content b ++ (kernel.answer window).bytes →
      post (match kernel.answer window with
        | .data bytes => if bytes = [] then -1 else 0
        | .wouldBlock => 0
        | .error => -1) b') : wp (recv kernel fresh) post b := by
  obtain ⟨buf, hbuf, -⟩ := h.block
  unfold recv
  simp only [wp_bind, wp_get, hbuf, reduceCtorEq, false_or]
  rw [wp_ite]
  split
  · next hinv =>
    rw [wp_pure]
    exact hinvalid hinv
  next hsock =>
  have hsock' : 0 ≤ b.sock := by omega
  rw [wp_bind]
  apply wp_reserve h (hfits hsock').2 (hfits hsock').1
  · intro hdata hmax
    simp only [Bool.false_eq_true, if_false, wp_pure]
    exact hfull hsock' hdata hmax
  · intro hmax b₁ h₁ hcontent hroom hwindow₁
    simp only [if_true, wp_bind]
    apply wp_receive h₁ hroom hwindow₁
    intro b' h' hcontent'
    have hpositive : 0 < b₁.bufSize.toNat - b₁.wpos.toNat := by omega
    have hdone := hpost hsock' hmax _ b' hpositive h' (by rw [hcontent', hcontent])
    cases hanswer : kernel.answer (b₁.bufSize.toNat - b₁.wpos.toNat) <;>
      simpa [hanswer] using hdone

theorem toNat_pos_of_ne_zero {n : UInt32} (h : ¬n = 0) : 0 < n.toNat := by
  by_contra hzero
  exact h (UInt32.toNat_inj.1 (Nat.eq_zero_of_not_pos hzero))

/-- The smaller of the two sizes, as the code computes it. -/
theorem toNat_min (size dataSize : UInt32) :
    (if size < dataSize then size else dataSize).toNat = min size.toNat dataSize.toNat := by
  split
  · next hlt =>
    have := UInt32.lt_iff_toNat_lt.1 hlt
    omega
  · next hle =>
    have := UInt32.le_iff_toNat_le.1 (UInt32.not_lt.1 hle)
    omega

@[simp]
theorem WellFormed.length_content (h : WellFormed b) :
    (content b).length = b.dataSize.toNat := by
  obtain ⟨⟨buf, hbuf, hlen⟩, hwpos, hle, -⟩ := h
  simp only [content, hbuf, Option.getD_some, List.length_drop, List.length_take]
  omega

theorem wp_fetch (h : WellFormed b) {after : UInt32 → State → State} {data : List UInt8}
    {size : UInt32} (hdata : size.toNat ≤ data.length)
    {post : ℤ × Option (List UInt8) → State → Prop}
    (hzero : min size.toNat b.dataSize.toNat = 0 → post (0, some data) b)
    (hpost : ∀ n : UInt32, 0 < n.toNat → n.toNat = min size.toNat b.dataSize.toNat →
      post (toInt n, some ((content b).take n.toNat ++ data.drop n.toNat)) (after n b)) :
    wp (fetch after (some data) size) post b := by
  have hmin := toNat_min size b.dataSize
  obtain ⟨⟨buf, hbuf, hlen⟩, hwpos, hle, -⟩ := h
  unfold fetch
  simp only [wp_bind, wp_get, hbuf]
  generalize (if size < b.dataSize then size else b.dataSize) = n at hmin
  rw [wp_ite]
  split
  · next hn =>
    rw [wp_pure]
    rw [hn] at hmin
    exact hzero hmin.symm
  · next hn =>
    have hpositive := toNat_pos_of_ne_zero hn
    simp only [wp_bind, wp_memcpy, wp_set, wp_pure]
    refine ⟨⟨by omega, by omega⟩, ?_⟩
    have hbytes : (buf.drop b.rpos.toNat).take n.toNat = (content b).take n.toNat := by
      simp only [content, hbuf, Option.getD_some, List.drop_take, List.take_take]
      congr 1
      omega
    have hlength : ((content b).take n.toNat).length = n.toNat := by
      rw [← hbytes, List.length_take, List.length_drop]
      omega
    rw [hbytes, splice_zero, hlength]
    exact hpost n hpositive hmin

theorem wp_skip (h : WellFormed b) {size : UInt32} {post : ℤ → State → Prop}
    (hzero : min size.toNat b.dataSize.toNat = 0 → post 0 b)
    (hpost : ∀ n : UInt32, 0 < n.toNat → n.toNat = min size.toNat b.dataSize.toNat →
      post (toInt n) (consume n b)) : wp (skip size) post b := by
  have hmin := toNat_min size b.dataSize
  obtain ⟨buf, hbuf, -⟩ := h.block
  unfold skip
  simp only [wp_bind, wp_get, hbuf, reduceCtorEq, if_false]
  generalize (if size < b.dataSize then size else b.dataSize) = n at hmin
  rw [wp_ite]
  split
  · next hn =>
    rw [wp_pure]
    rw [hn] at hmin
    exact hzero hmin.symm
  · next hn =>
    rw [wp_bind, wp_set, wp_pure]
    exact hpost n (toNat_pos_of_ne_zero hn) hmin

theorem wp_clear (h : WellFormed b) :
    wp clear (fun _ b' ↦ WellFormed b' ∧ content b' = []) b := by
  obtain ⟨buf, hbuf, hlen⟩ := h.block
  unfold clear
  simp only [wp_bind, wp_get, hbuf, ne_eq, reduceCtorEq, not_false_eq_true, if_true, wp_set]
  exact ⟨⟨⟨buf, rfl, hlen⟩, rfl, Nat.zero_le _, fun _ ↦ rfl⟩, by simp [content]⟩

end

/-! ## Runs -/

/-- A call, with the caller's buffer and the answers of the kernel and the allocator. -/
inductive Op
  | write (data : List UInt8) (size : UInt32) (fresh : Option (ℕ → UInt8))
  | recv (kernel : Kernel) (fresh : Option (ℕ → UInt8))
  | read (data : List UInt8) (size : UInt32)
  | get (data : List UInt8) (size : UInt32)
  | skip (size : UInt32)
  | clear

/-- What the caller sees: the return value, and what its buffer holds afterwards. -/
structure Result where
  ret : ℤ
  data : Option (List UInt8)
  deriving DecidableEq

def Op.run : Op → SkCmd Result
  | .write data size fresh => return ⟨← Socket.write (some data) size fresh, none⟩
  | .recv kernel fresh => return ⟨← Socket.recv kernel fresh, none⟩
  | .read data size => do
      let (ret, data) ← Socket.read (some data) size
      return ⟨ret, data⟩
  | .get data size => do
      let (ret, data) ← Socket.get (some data) size
      return ⟨ret, data⟩
  | .skip size => return ⟨← Socket.skip size, none⟩
  | .clear => do
      Socket.clear
      return ⟨0, none⟩

/-- The caller's buffers are as long as it says, no size that the call computes wraps, and the
allocations that it makes succeed. -/
def Allowed (b : State) : Op → Prop
  | .write data size fresh =>
      size.toNat ≤ data.length ∧ b.wpos.toNat + size.toNat < 2 ^ 32 ∧
        (b.bufSize.toNat < b.dataSize.toNat + size.toNat → b.bufSize ≤ b.bufMaxSize →
          Fits size fresh b)
  | .recv _ fresh => 0 ≤ b.sock → windowSize b < 2 ^ 31 ∧ (b.dataSize = b.bufSize →
      b.bufSize ≤ b.bufMaxSize → Fits ZBASELIB_SKBUFFER_MIN_NUM fresh b)
  | .read data size | .get data size => size.toNat ≤ data.length
  | .skip _ | .clear => True

instance (extra : UInt32) (fresh : Option (ℕ → UInt8)) (b : State) :
    Decidable (Fits extra fresh b) :=
  inferInstanceAs (Decidable (_ ∧ _))

instance (b : State) (op : Op) : Decidable (Allowed b op) :=
  match op with
  | .write _ _ _ => inferInstanceAs (Decidable (_ ∧ _ ∧ (_ → _ → _)))
  | .recv _ _ => inferInstanceAs (Decidable (_ → _ ∧ (_ → _ → _)))
  | .read data size | .get data size =>
    inferInstanceAs (Decidable (size.toNat ≤ data.length))
  | .skip _ | .clear => inferInstanceAs (Decidable True)

def Step (label : Op × Result) (b b' : State) : Prop :=
  Allowed b label.1 ∧ label.1.run.run b = some (label.2, b')

/-- When the buffer refuses a call, and with which code. -/
def refusal (b : State) : Op → Option ℤ
  | .write _ size _ =>
      if b.bufSize.toNat < b.dataSize.toNat + size.toNat ∧ b.bufMaxSize < b.bufSize then some (-2)
      else none
  | .recv _ _ =>
      if b.sock < 0 then some (-2)
      else if b.dataSize = b.bufSize ∧ b.bufMaxSize < b.bufSize then some (-3)
      else none
  | _ => none

/-- A byte queue.  A refused call changes nothing. -/
def Spec (refused : Option ℤ) (op : Op) (queue : List UInt8) (result : Result)
    (queue' : List UInt8) : Prop :=
  match refused, op with
  | some ret, _ => result = ⟨ret, none⟩ ∧ queue' = queue
  | none, .write data size _ => result = ⟨0, none⟩ ∧ queue' = queue ++ data.take size.toNat
  | none, .recv kernel _ => ∃ window, 0 < window ∧
      result = ⟨match kernel.answer window with
        | .data bytes => if bytes = [] then -1 else 0
        | .wouldBlock => 0
        | .error => -1, none⟩ ∧ queue' = queue ++ (kernel.answer window).bytes
  | none, .read data size =>
      let n := min size.toNat queue.length
      result = ⟨asInt n, some (queue.take n ++ data.drop n)⟩ ∧ queue' = queue.drop n
  | none, .get data size =>
      let n := min size.toNat queue.length
      result = ⟨asInt n, some (queue.take n ++ data.drop n)⟩ ∧ queue' = queue
  | none, .skip size =>
      let n := min size.toNat queue.length
      result = ⟨asInt n, none⟩ ∧ queue' = queue.drop n
  | none, .clear => result = ⟨0, none⟩ ∧ queue' = []

def SpecStep (label : Op × Result) (queue queue' : List UInt8) : Prop :=
  ∃ refused, Spec refused label.1 queue label.2 queue'

section

variable {b : State}

/-- **Every call does what the queue does**, and stays inside every block. -/
theorem wp_run (h : WellFormed b) {op : Op} (hop : Allowed b op) :
    wp op.run (fun result b' ↦ WellFormed b' ∧
      Spec (refusal b op) op (content b) result (content b')) b := by
  have hlength := h.length_content
  cases op with
  | write data size fresh =>
    obtain ⟨hdata, hsum, hfits⟩ := hop
    simp only [Op.run, wp_bind, wp_pure]
    apply wp_write h (fun _ ↦ hdata) hsum hfits
    · intro hover hmax b' h' hcontent
      exact ⟨h', by simp [Spec, refusal, hover, hmax, hcontent]⟩
    · intro hroom b' h' hcontent
      have hno : ¬(b.bufSize.toNat < b.dataSize.toNat + size.toNat ∧ b.bufMaxSize < b.bufSize) := by
        intro hrefuse
        exact UInt32.not_lt.2 (hroom hrefuse.1) hrefuse.2
      exact ⟨h', by simp only [refusal, if_neg hno, Spec, hcontent, and_self]⟩
  | recv kernel fresh =>
    simp only [Op.run, wp_bind, wp_pure]
    apply wp_recv h hop
    · intro hinvalid
      exact ⟨h, by simp [Spec, refusal, hinvalid]⟩
    · intro hsock hdata hmax
      exact ⟨h, by simp [Spec, refusal, Int.not_lt.2 hsock, hdata, hmax]⟩
    · intro hsock hroom window b' hpositive h' hcontent
      have hno : ¬(b.dataSize = b.bufSize ∧ b.bufMaxSize < b.bufSize) := by
        intro hrefuse
        exact UInt32.not_lt.2 (hroom hrefuse.1) hrefuse.2
      refine ⟨h', ?_⟩
      simp only [refusal, if_neg (Int.not_lt.2 hsock), if_neg hno, Spec]
      exact ⟨window, hpositive, rfl, hcontent⟩
  | read data size =>
    simp only [Op.run, wp_bind, wp_pure]
    apply wp_fetch h hop
    · intro hzero
      exact ⟨h, by simp [Spec, refusal, hlength, hzero]⟩
    · intro n _ hn
      obtain ⟨h', hcontent⟩ := h.consume (by omega : n.toNat ≤ b.dataSize.toNat)
      exact ⟨h', by simp [Spec, refusal, hlength, ← hn, hcontent, toInt]⟩
  | get data size =>
    simp only [Op.run, wp_bind, wp_pure]
    apply wp_fetch h hop
    · intro hzero
      exact ⟨h, by simp [Spec, refusal, hlength, hzero]⟩
    · intro n _ hn
      exact ⟨h, by simp [Spec, refusal, hlength, ← hn, toInt]⟩
  | skip size =>
    simp only [Op.run, wp_bind, wp_pure]
    apply wp_skip h
    · intro hzero
      exact ⟨h, by simp [Spec, refusal, hlength, hzero]⟩
    · intro n _ hn
      obtain ⟨h', hcontent⟩ := h.consume (by omega : n.toNat ≤ b.dataSize.toNat)
      exact ⟨h', by simp [Spec, refusal, hlength, ← hn, hcontent, toInt]⟩
  | clear =>
    simp only [Op.run, wp_bind, wp_pure]
    apply wp_mono (wp_clear h)
    rintro - b' ⟨h', hcontent⟩
    refine ⟨h', ?_⟩
    simp [Spec, refusal, hcontent]

theorem get_idle (h : WellFormed b) {data : List UInt8} {size : UInt32} {result : Result}
    {b' : State} (hstep : Step (.get data size, result) b b') : b' = b := by
  obtain ⟨hop, hrun⟩ := hstep
  have hget : wp (Op.get data size).run (fun _ b' ↦ b' = b) b := by
    simp only [Op.run, wp_bind, wp_pure]
    exact wp_fetch h hop (fun _ ↦ rfl) fun _ _ _ ↦ rfl
  have hidle := wp_outcome hget hrun
  exact hidle

/-- `skip` reaches the state that `read` reaches. -/
theorem skip_of_read (h : WellFormed b) {data : List UInt8} {size : UInt32} {result : Result}
    {b' : State} (hstep : Step (.read data size, result) b b') :
    Step (.skip size, ⟨result.ret, none⟩) b b' := by
  obtain ⟨hop, hrun⟩ := hstep
  have hread : wp (Op.read data size).run (fun result b' ↦ wp (Op.skip size).run
      (fun result' b'' ↦ result' = ⟨result.ret, none⟩ ∧ b'' = b') b) b := by
    simp only [Op.run, wp_bind, wp_pure]
    apply wp_fetch h hop
    · intro hzero
      exact wp_skip h (fun _ ↦ ⟨rfl, rfl⟩) fun n hpositive hn ↦ absurd hpositive (by omega)
    · intro n hpositive hn
      refine wp_skip h (fun hzero ↦ absurd hpositive (by omega)) fun n' _ hn' ↦ ?_
      obtain rfl : n' = n := UInt32.toNat_inj.1 (hn'.trans hn.symm)
      simp only [and_self]
  obtain ⟨result', b'', hskip, rfl, rfl⟩ := wp_outcome hread hrun
  exact ⟨trivial, hskip⟩

/-- **The socket buffer is a byte queue** under every run of its operations. -/
theorem refines_byte_queue {sndBuf : Option ℤ} {bufSize bufMaxSize : UInt32} {sock : ℤ}
    {b₀ b : State} {labels : List (Op × Result)}
    (hcreate : create true true sndBuf bufSize bufMaxSize sock = some b₀)
    (hrun : Run Step labels b₀ b) :
    WellFormed b ∧ Run SpecStep labels [] (content b) ∧
      (∀ label b', Step label b b' →
        Spec (refusal b label.1) label.1 (content b) label.2 (content b')) ∧
      (∀ op, Allowed b op → ∃ result b', Step (op, result) b b') ∧
      (∀ data n result b', Step (.get data n, result) b b' → b' = b) ∧
      ∀ data n result b', Step (.read data n, result) b b' →
        Step (.skip n, ⟨result.ret, none⟩) b b' := by
  obtain ⟨h₀, hempty⟩ := wellFormed_create hcreate
  have hsim (label : Op × Result) (b b' : State) (queue : List UInt8)
      (hrel : WellFormed b ∧ content b = queue) (hstep : Step label b b') :
      ∃ queue', SpecStep label queue queue' ∧ WellFormed b' ∧ content b' = queue' := by
    obtain ⟨h, rfl⟩ := hrel
    obtain ⟨h', hspec⟩ := wp_outcome (wp_run h hstep.1) hstep.2
    exact ⟨content b', ⟨_, hspec⟩, h', rfl⟩
  obtain ⟨queue, hspec, h, hqueue⟩ := hrun.simulation _ hsim ⟨h₀, hempty⟩
  refine ⟨h, hqueue ▸ hspec, fun label b' hstep ↦ ?_, fun op hop ↦ ?_,
    fun data n result b' ↦ get_idle h, fun data n result b' ↦ skip_of_read h⟩
  · exact (wp_outcome (wp_run h hstep.1) hstep.2).2
  · obtain ⟨result, b', hstep, -⟩ := wp_run h hop
    exact ⟨result, b', hop, hstep⟩

end

/-- The kernel has two bytes at hand. -/
def twoBytes : Kernel where
  answer window := .data (List.take window [8, 9])
  fits window := by
    simp only [Received.bytes, List.length_take]
    exact Nat.min_le_left _ _

/-- A write, a compaction by `recv`, and a growth by the second write. -/
def growLabels : List (Op × Result) :=
  [(.write [1, 2, 3, 4] 4 none, ⟨0, none⟩), (.read [0, 0] 2, ⟨2, some [1, 2]⟩),
    (.recv twoBytes none, ⟨0, none⟩), (.write [5] 1 (some fun _ ↦ 0), ⟨0, none⟩),
    (.write [6] 1 none, ⟨0, none⟩)]

def growStart : State := ⟨0, some [0, 0, 0, 0], 4, 16, 0, 0, 0, 4096⟩

def growEnd : State := ⟨0, some [3, 4, 8, 9, 5, 6, 0], 7, 16, 6, 0, 6, 4096⟩

theorem grow_create : create true true none 4 16 0 = some growStart := rfl

theorem grow_run : Run Step growLabels growStart growEnd :=
  .cons ⟨by decide, rfl⟩ <| .cons ⟨by decide, rfl⟩ <| .cons ⟨by decide, rfl⟩ <|
    .cons ⟨by decide, rfl⟩ <| .cons ⟨by decide, rfl⟩ <| .nil _

theorem refines_byte_queue_grow : Run SpecStep growLabels [] [3, 4, 8, 9, 5, 6] :=
  (refines_byte_queue grow_create grow_run).2.1

end Zbaselib.Socket
