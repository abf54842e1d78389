import Zbaselib.Lib.BlockHash
import Zbaselib.Md5.Model

/-!
# MD5 in pieces

A context holds the state after the whole blocks of what it was given, and the
bytes that make no whole block.  `update` loses its place in the data when it
fills a block that was begun and has bytes left: the pointer that it goes on with
is that of the context.  Without such a call the digest is that of all pieces in
a row.
-/

namespace Zbaselib.Md5

open Program Block BlockHash

/-- What `init` starts from. -/
def Regs.start : Regs := ⟨0x67452301, 0xefcdab89, 0x98badcfe, 0x10325476⟩

/-- The eight bytes of the length in bits. -/
def lengthBytes (n : ℕ) : List UInt8 :=
  (List.range 8).map fun k ↦ .ofNat (8 * n / 256 ^ k)

/-- What is hashed after a message of `n` bytes. -/
def padding (n : ℕ) : List UInt8 :=
  0x80 :: List.replicate ((119 - n % 64) % 64) 0 ++ lengthBytes n

/-- The digest of a message: its blocks are hashed one by one. -/
def md5 (message : List UInt8) : List UInt8 :=
  ((blocks 64 (message ++ padding message.length)).foldl transform .start).result

/-- What a call of `update` is given. -/
structure Chunk where
  data : List UInt8
  size : UInt64
  size_le : size.toNat ≤ data.length

/-- The bytes that are to be hashed. -/
def Chunk.bytes (c : Chunk) : List UInt8 := c.data.take c.size.toNat

/-- What was absorbed since a block boundary. -/
def absorbFrom (r : Regs) (xs : List UInt8) : Stream Regs UInt8 64 :=
  absorb transform (.start r (by decide)) xs

def updates : List Chunk → Cmd Ctx Unit
  | [] => return ()
  | c :: chunks => do
    update c.data c.size
    updates chunks

/-- A digest in pieces. -/
def hash (chunks : List Chunk) : Cmd Ctx (List UInt8) := do
  init
  updates chunks
  final

/-- After `n` bytes, no piece begins inside a block and ends behind it. -/
def Whole : ℕ → List Chunk → Prop
  | _, [] => True
  | n, c :: chunks =>
    (n % 64 = 0 ∨ n % 64 + c.size.toNat ≤ 64) ∧ Whole (n + c.size.toNat) chunks

instance : ∀ n chunks, Decidable (Whole n chunks)
  | _, [] => inferInstanceAs (Decidable True)
  | n, c :: chunks =>
    have := instDecidableWhole (n + c.size.toNat) chunks
    inferInstanceAs (Decidable (_ ∧ _))

theorem absorbFrom_append (r : Regs) (xs ys : List UInt8) :
    absorbFrom r (xs ++ ys) = absorb transform (absorbFrom r xs) ys := absorb_append _ _ _ _

theorem length_pending_absorbFrom (r : Regs) (xs : List UInt8) :
    (absorbFrom r xs).pending.length = xs.length % 64 :=
  calc
    _ = (0 + xs.length) % 64 := length_pending_absorb _ _ _
    _ = _ := by rw [Nat.zero_add]

/-! ## Blocks -/

/-- The state, and the bytes at the beginning of the block. -/
structure Filled (ctx : Ctx) (r : Regs) (xs : List UInt8) : Prop where
  toRegs_eq : ctx.toRegs = r
  buffer_take : ctx.buffer.take xs.length = xs

section

variable {ctx : Ctx} {r : Regs} {xs : List UInt8}

theorem Filled.nil (ctx : Ctx) : Filled ctx ctx.toRegs [] := ⟨rfl, rfl⟩

theorem Filled.buffer_eq (h : Filled ctx r xs) (hxs : xs.length = 64) : ctx.buffer = xs := by
  have htake := h.buffer_take
  rwa [hxs, ← ctx.length_buffer, List.take_length] at htake

theorem Filled.write (h : Filled ctx r xs) {i : ℕ} {ys : List UInt8} (hi : i = xs.length)
    (hlen : i + ys.length ≤ 64) : Filled (ctx.write i ys hlen) r (xs ++ ys) where
  toRegs_eq := h.toRegs_eq
  buffer_take := by
    subst hi
    rw [List.length_append, Ctx.write, take_splice (by rw [ctx.length_buffer]; omega),
      h.buffer_take]

/-- Bytes behind those that are there. -/
theorem Filled.wp_copyBuffer (h : Filled ctx r xs) {i n : UInt64} {data : List UInt8}
    {post : Unit → Ctx → Prop} (hi : i.toNat = xs.length) (hlen : xs.length + n.toNat ≤ 64)
    (hdata : n.toNat ≤ data.length)
    (hpost : ∀ after, Filled after r (xs ++ data.take n.toNat) → after.bytes = ctx.bytes →
      post () after) :
    wp (copyBuffer i data n) post ctx := by
  have htake : (data.take n.toNat).length = n.toNat := by rw [List.length_take, min_eq_left hdata]
  have hlen' : i.toNat + (data.take n.toNat).length ≤ 64 := by rwa [htake, hi]
  unfold copyBuffer
  rw [dif_pos ⟨hlen', hdata⟩, wp_modify]
  exact hpost _ (h.write hi hlen') rfl

theorem not_wp_copyBuffer {i n : UInt64} {data : List UInt8} {post : Unit → Ctx → Prop}
    (h : data.length < n.toNat) : ¬wp (copyBuffer i data n) post ctx := by
  unfold copyBuffer
  rw [dif_neg fun hcopy ↦ absurd hcopy.2 (by omega), wp_failure]
  exact id

theorem Filled.wp_zeroBuffer (h : Filled ctx r xs) {i n : UInt64} {post : Unit → Ctx → Prop}
    (hi : i.toNat = xs.length) (hlen : xs.length + n.toNat ≤ 64)
    (hpost : ∀ after, Filled after r (xs ++ List.replicate n.toNat 0) → after.bytes = ctx.bytes →
      post () after) :
    wp (zeroBuffer i n) post ctx :=
  h.wp_copyBuffer hi hlen (by rw [List.length_replicate]) fun after hafter ↦
    hpost after (by rwa [List.take_of_length_le (by rw [List.length_replicate])] at hafter)

theorem Filled.wp_setBuffer (h : Filled ctx r xs) {i : UInt64} {x : UInt8}
    {post : Unit → Ctx → Prop} (hi : i.toNat = xs.length) (hlen : xs.length < 64)
    (hpost : ∀ after, Filled after r (xs ++ [x]) → after.bytes = ctx.bytes → post () after) :
    wp (setBuffer i x) post ctx :=
  h.wp_copyBuffer hi hlen (Nat.le_refl 1) hpost

/-- Before an iteration of `body`, with the end of the run in view. -/
structure BodyInv (r : Regs) (rest : List UInt8) (measure : ℕ)
    (locals : Regs × List UInt8 × UInt64) : Prop where
  measure_eq : 64 * measure = locals.2.2.toNat
  measure_pos : 0 < measure
  size_le : locals.2.2.toNat ≤ locals.2.1.length
  regs_eq : (absorbFrom locals.1 (locals.2.1.take locals.2.2.toNat)).state = r
  rest_eq : locals.2.1.drop locals.2.2.toNat = rest

/-- The first block of several, or the only one. -/
theorem absorbFrom_take {r : Regs} {p : List UInt8} {n : ℕ} (hn : 64 ≤ n) (hp : n ≤ p.length) :
    absorbFrom r (p.take n) =
      absorbFrom (transform r (p.take 64)) ((p.drop 64).take (n - 64)) := by
  have hsplit : p.take n = p.take 64 ++ (p.drop 64).take (n - 64) := by
    rw [← List.take_add, Nat.add_sub_cancel' hn]
  have hblock : (([] : List UInt8) ++ p.take 64).length = 64 := by
    rw [List.nil_append, List.length_take]
    omega
  have hfirst : absorbFrom r (p.take 64) = .start (transform r (p.take 64)) (by decide) :=
    absorb_of_eq transform hblock
  rw [hsplit, absorbFrom_append, hfirst]
  rfl

/-- A block is read from its own 64 bytes. -/
theorem transform_take (r : Regs) (p : List UInt8) : transform r (p.take 64) = transform r p := by
  have hword (n : ℕ) (hn : n < 16) : word (p.take 64) n = word p n := by
    unfold word
    simp only [List.getD_eq_getElem?_getD]
    rw [List.getElem?_take_of_lt (by omega), List.getElem?_take_of_lt (by omega),
      List.getElem?_take_of_lt (by omega), List.getElem?_take_of_lt (by omega)]
  have hindex : ∀ i ∈ round1 ++ round2 ++ round3 ++ round4, i.n < 16 := by decide
  have hsteps : (round1 ++ round2 ++ round3 ++ round4).foldl (Step.run (p.take 64)) r =
      (round1 ++ round2 ++ round3 ++ round4).foldl (Step.run p) r := by
    refine List.foldl_ext _ _ _ fun r' i hi ↦ ?_
    unfold Step.run
    rw [hword i.n (hindex i hi)]
  unfold transform
  rw [hsteps]

/-- One block. -/
theorem wp_bodyStep {final : Regs} {rest : List UInt8} {measure : ℕ} {r : Regs} {p : List UInt8}
    {n : UInt64} (h : BodyInv final rest measure (r, p, n)) :
    wp (bodyStep (r, p, n)) (LoopPost (fun measure locals state ↦ state = ctx ∧
      BodyInv final rest measure locals)
        (fun result after ↦ after = ctx ∧ result = (final, rest)) measure) ctx := by
  obtain ⟨hmeasure, hmeasurePos, hle, hregs, hrest⟩ := h
  dsimp only at hmeasure hle hregs hrest
  have hsub : (n - 64).toNat = n.toNat - 64 :=
    UInt64.toNat_sub_of_le _ _ (by rw [UInt64.le_iff_toNat_le]; exact (by omega : 64 ≤ n.toNat))
  have hne : n - 64 ≠ 0 ↔ n.toNat ≠ 64 := by
    rw [Ne, ← UInt64.toNat_inj, hsub]
    exact (by omega : ¬n.toNat - 64 = 0 ↔ n.toNat ≠ 64)
  rw [absorbFrom_take (by omega) hle, transform_take] at hregs
  unfold bodyStep
  simp only [wp_bind, wp_require, wp_ite, wp_pure, hne]
  refine ⟨by omega, ?_⟩
  by_cases hlast : n.toNat = 64
  · rw [if_neg (not_not.2 hlast)]
    rw [hlast, Nat.sub_self, List.take_zero] at hregs
    rw [hlast] at hrest
    exact ⟨rfl, Prod.ext hregs hrest⟩
  · rw [if_pos hlast]
    refine ⟨measure - 1, by omega, rfl, ⟨?_, by omega, ?_, ?_, ?_⟩⟩
    · dsimp only
      omega
    · dsimp only
      rw [List.length_drop]
      omega
    · dsimp only
      rwa [hsub]
    · dsimp only
      rw [List.drop_drop, hsub, Nat.add_sub_cancel' (by omega), hrest]

/-- `zbaselib_md5_body` on whole blocks, at least one. -/
theorem wp_body {data : List UInt8} {size : UInt64} {post : List UInt8 → Ctx → Prop}
    (hdvd : 64 ∣ size.toNat) (hpos : 0 < size.toNat) (hsize : size.toNat ≤ data.length)
    (hpost : post (data.drop size.toNat)
      { ctx with toRegs := (absorbFrom ctx.toRegs (data.take size.toNat)).state }) :
    wp (body data size) post ctx := by
  obtain ⟨blocks, hblocks⟩ := hdvd
  have hinv : BodyInv _ (data.drop size.toNat) blocks (ctx.toRegs, data, size) :=
    ⟨hblocks.symm, by omega, hsize, rfl, rfl⟩
  unfold body
  simp only [wp_bind, wp_get]
  have hloop : wp (loop bodyStep (data.length / 64 + 1) (ctx.toRegs, data, size))
      (fun result after ↦ after = ctx ∧ result =
        ((absorbFrom ctx.toRegs (data.take size.toNat)).state, data.drop size.toNat)) ctx := by
    refine wp_loop (fun measure locals state ↦ state = ctx ∧ BodyInv
      (absorbFrom ctx.toRegs (data.take size.toNat)).state (data.drop size.toNat) measure locals)
      ?_ ⟨rfl, hinv⟩ (by omega)
    rintro measure ⟨r, p, n⟩ state ⟨rfl, h⟩
    exact wp_bodyStep h
  refine wp_mono hloop ?_
  rintro ⟨r, p⟩ after ⟨rfl, hresult⟩
  rw [Prod.mk.injEq] at hresult
  obtain ⟨rfl, rfl⟩ := hresult
  simpa only [wp_bind, wp_modify, wp_pure] using hpost

theorem not_wp_body {size : UInt64} {post : List UInt8 → Ctx → Prop} :
    ¬wp (body [] size) post ctx := by
  unfold body
  simp [loop, bodyStep]

/-! ## Words -/

theorem toNat_and_63 (n : UInt64) : (n &&& 0x3f).toNat = n.toNat % 64 := by
  rw [UInt64.toNat_and]
  exact Nat.and_two_pow_sub_one_eq_mod n.toNat 6

theorem toNat_and_not_63 (n : UInt64) : (n &&& ~~~(0x3f : UInt64)).toNat = n.toNat / 64 * 64 := by
  have hmask : ∀ k (hk : k < 64), (18446744073709551552#64)[k] = !decide (k < 6) := by decide
  have hshift : n &&& ~~~(0x3f : UInt64) = n >>> 6 <<< 6 := by
    rw [← UInt64.toBitVec_inj]
    ext k hk
    by_cases hlow : k < 6
    · simp [hmask k hk, hlow]
    · simp [hmask k hk, hlow, Nat.add_sub_cancel' (not_lt.1 hlow), BitVec.getLsbD_eq_getElem hk]
  have hlt := n.toNat_lt
  rw [hshift, UInt64.toNat_shiftLeft, UInt64.toNat_shiftRight]
  simp only [Nat.shiftRight_eq_div_pow, Nat.shiftLeft_eq, UInt64.reduceToNat, Nat.reduceMod,
    Nat.reducePow]
  omega

/-! ## The calls -/

/-- The context after what was absorbed. -/
def Holds (ctx : Ctx) (s : Stream Regs UInt8 64) : Prop := Filled ctx s.state s.pending

/-- The whole blocks of what is there, and the bytes behind them. -/
theorem absorbFrom_blocks (r : Regs) {xs : List UInt8} {q : ℕ} (hdvd : 64 ∣ q)
    (hq : q ≤ xs.length) (hrest : xs.length < q + 64) :
    (absorbFrom r xs).state = (absorbFrom r (xs.take q)).state ∧
      (absorbFrom r xs).pending = xs.drop q := by
  have hpending : (absorbFrom r (xs.take q)).pending = [] := by
    rw [List.eq_nil_iff_length_eq_zero, length_pending_absorbFrom, List.length_take,
      min_eq_left hq]
    exact Nat.mod_eq_zero_of_dvd hdvd
  have hlt : ((absorbFrom r (xs.take q)).pending ++ xs.drop q).length < 64 := by
    rw [hpending, List.nil_append, List.length_drop]
    omega
  have habsorb : absorbFrom r xs =
      ⟨(absorbFrom r (xs.take q)).state, (absorbFrom r (xs.take q)).pending ++ xs.drop q, hlt⟩ :=
    calc
      absorbFrom r xs = absorb transform (absorbFrom r (xs.take q)) (xs.drop q) := by
        rw [← absorbFrom_append, List.take_append_drop]
      _ = _ := absorb_of_lt transform hlt
  rw [habsorb]
  exact ⟨rfl, by simp only [hpending, List.nil_append]⟩

theorem wp_updateBlocks {data : List UInt8} {size : UInt64} {post : Unit → Ctx → Prop}
    (hsize : size.toNat ≤ data.length)
    (hpost : ∀ after, Holds after (absorbFrom ctx.toRegs (data.take size.toNat)) →
      after.bytes = ctx.bytes → post () after) :
    wp (updateBlocks data size) post ctx := by
  have hlength : (data.take size.toNat).length = size.toNat := by
    rw [List.length_take, min_eq_left hsize]
  have hle : 64 ≤ size ↔ 64 ≤ size.toNat := UInt64.le_iff_toNat_le
  have habsorb := @absorbFrom_blocks ctx.toRegs (data.take size.toNat) (size.toNat / 64 * 64)
    (Nat.dvd_mul_left _ _) (by omega) (by omega)
  rw [List.take_take, min_eq_left (by omega), List.drop_take] at habsorb
  unfold Holds at hpost
  rw [habsorb.1, habsorb.2] at hpost
  have hrest : size.toNat - size.toNat / 64 * 64 = size.toNat % 64 := by omega
  unfold updateBlocks
  rw [wp_ite]
  split
  · next hblocks =>
    have hblocks' := hle.1 hblocks
    rw [wp_bind]
    refine wp_body ?_ ?_ ?_ ?_
    · rw [toNat_and_not_63]
      exact Nat.dvd_mul_left _ _
    · rw [toNat_and_not_63]
      omega
    · rw [toNat_and_not_63]
      omega
    rw [toNat_and_not_63]
    refine (Filled.nil _).wp_copyBuffer (by rfl) ?_ ?_
      fun after hafter hbytes ↦ hpost after ?_ hbytes
    · rw [toNat_and_63, List.length_nil]
      omega
    · rw [toNat_and_63, List.length_drop]
      omega
    · rw [toNat_and_63] at hafter
      simpa only [hrest, List.nil_append] using hafter
  · next hblocks =>
    rw [hle] at hblocks
    have hzero : size.toNat / 64 * 64 = 0 := by omega
    refine (Filled.nil _).wp_copyBuffer (by rfl) ?_ hsize fun after hafter hbytes ↦
      hpost after ?_ hbytes
    · rw [List.length_nil]
      omega
    · simp only [hzero, List.take_zero, List.drop_zero, Nat.sub_zero]
      exact hafter

/-- With the pointer to the end of the context there must be nothing left to read. -/
theorem not_wp_updateBlocks {size : UInt64} {post : Unit → Ctx → Prop} (hsize : size.toNat ≠ 0) :
    ¬wp (updateBlocks [] size) post ctx := by
  unfold updateBlocks
  rw [wp_ite]
  split
  · rw [wp_bind]
    exact not_wp_body
  · exact not_wp_copyBuffer (Nat.pos_of_ne_zero hsize)

/-- A full block. -/
theorem Filled.wp_body (h : Filled ctx r xs) (hxs : xs.length = 64)
    {post : List UInt8 → Ctx → Prop}
    (hpost : ∀ p after, Filled after (transform r xs) [] → after.bytes = ctx.bytes →
      post p after) :
    wp (body ctx.buffer 64) post ctx := by
  have hstate : (absorbFrom ctx.toRegs (ctx.buffer.take 64)).state = transform r xs := by
    rw [h.buffer_eq hxs, h.toRegs_eq, absorbFrom_take (Nat.le_refl 64) hxs.ge, transform_take,
      Nat.sub_self, List.take_zero]
    rfl
  refine Md5.wp_body (Nat.dvd_refl 64) (by decide) ctx.length_buffer.ge ?_
  exact hpost _ _ ⟨hstate, rfl⟩ rfl

theorem Filled.wp_cpymem (h : Filled ctx r xs) {i n : UInt64} {data : List UInt8}
    {post : List UInt8 → Ctx → Prop} (hi : i.toNat = xs.length) (hlen : xs.length + n.toNat = 64)
    (hdata : n.toNat ≤ data.length)
    (hpost : ∀ after, Filled after r (xs ++ data.take n.toNat) → after.bytes = ctx.bytes →
      post [] after) :
    wp (cpymem i data n) post ctx := by
  unfold cpymem
  rw [wp_bind]
  refine h.wp_copyBuffer hi hlen.le hdata fun after hafter hbytes ↦ ?_
  have hend : after.buffer.drop (i.toNat + n.toNat) = [] := by
    rw [hi, hlen, ← after.length_buffer, List.drop_length]
  simp only [wp_bind, wp_get, wp_pure, hend]
  exact hpost after hafter hbytes

section Update

variable {s : Stream Regs UInt8 64} {used size : UInt64} {data : List UInt8}
  {post : Unit → Ctx → Prop}

theorem toNat_sub_64 (hused : used.toNat < 64) : (64 - used).toNat = 64 - used.toNat :=
  UInt64.toNat_sub_of_le _ _ (by rw [UInt64.le_iff_toNat_le]; exact hused.le)

/-- Data that makes the block full and no more. -/
theorem wp_updateBegun (h : Holds ctx s) (hused : used.toNat = s.pending.length)
    (hfull : s.pending.length + size.toNat = 64) (hsize : size.toNat ≤ data.length)
    (hpost : ∀ after, Holds after (absorb transform s (data.take size.toNat)) →
      after.bytes = ctx.bytes → post () after) :
    wp (updateBegun used data size) post ctx := by
  have hlt := s.pending_lt
  have hfree := toNat_sub_64 (hused.trans_lt hlt)
  have hfree' : (64 - used).toNat = size.toNat := by omega
  have hrest : (size - (64 - used)).toNat = 0 := by
    rw [UInt64.toNat_inj.1 hfree', UInt64.sub_self]
    rfl
  have hlength : (s.pending ++ data.take size.toNat).length = 64 := by
    rw [List.length_append, List.length_take, min_eq_left hsize, hfull]
  unfold updateBegun
  simp only [wp_bind, wp_get]
  refine h.wp_cpymem hused (by omega) (by omega) fun after hafter hbytes ↦ ?_
  rw [hfree'] at hafter
  refine hafter.wp_body hlength fun p after' hafter' hbytes' ↦ ?_
  refine wp_updateBlocks (by rw [hrest, List.length_nil]) fun after'' hafter'' hbytes'' ↦ ?_
  refine hpost after'' ?_ (by rw [hbytes'', hbytes', hbytes])
  rw [hrest, List.take_zero, hafter'.toRegs_eq] at hafter''
  rw [absorb_of_eq transform hlength]
  exact hafter''

/-- Data that goes on behind the block is looked for behind the context. -/
theorem not_wp_updateBegun (h : Holds ctx s) (hused : used.toNat = s.pending.length)
    (hbehind : 64 < s.pending.length + size.toNat) (hsize : size.toNat ≤ data.length) :
    ¬wp (updateBegun used data size) post ctx := by
  have hlt := s.pending_lt
  have hfree := toNat_sub_64 (hused.trans_lt hlt)
  have hrest : (size - (64 - used)).toNat ≠ 0 := by
    rw [UInt64.toNat_sub_of_le _ _ (by rw [UInt64.le_iff_toNat_le]; omega)]
    omega
  have hcopy : wp (cpymem used data (64 - used)) (fun p _ ↦ p = []) ctx :=
    h.wp_cpymem hused (by omega) (by omega) fun _ _ _ ↦ rfl
  intro hwp
  unfold updateBegun at hwp
  rw [wp_bind] at hwp
  obtain ⟨p, after, -, rfl, hrun⟩ := wp_and hcopy hwp
  simp only [wp_bind, wp_get] at hrun
  obtain ⟨-, after', -, hblocks⟩ := hrun
  exact not_wp_updateBlocks hrest hblocks

variable {n : ℕ}

/-- How much of the block is used. -/
theorem toNat_used (hbytes : ctx.bytes = .ofNat n) (hpending : s.pending.length = n % 64) :
    (ctx.bytes &&& 0x3f).toNat = s.pending.length := by
  rw [toNat_and_63, hbytes, UInt64.toNat_ofNat', hpending]
  omega

/-- **A piece that does not go behind the block that was begun is absorbed.** -/
theorem wp_update (h : Holds ctx s) (hbytes : ctx.bytes = .ofNat n)
    (hpending : s.pending.length = n % 64) (hsize : size.toNat ≤ data.length)
    (hfits : n % 64 = 0 ∨ n % 64 + size.toNat ≤ 64)
    (hpost : ∀ after, Holds after (absorb transform s (data.take size.toNat)) →
      after.bytes = .ofNat (n + size.toNat) → post () after) :
    wp (update data size) post ctx := by
  have hused := toNat_used hbytes hpending
  have hlt := s.pending_lt
  have hbytes' : ctx.bytes + size = .ofNat (n + size.toNat) := by
    rw [hbytes, UInt64.ofNat_add, UInt64.ofNat_toNat]
  have hholds : Holds { ctx with bytes := ctx.bytes + size } s := ⟨h.toRegs_eq, h.buffer_take⟩
  unfold update
  simp only [wp_bind, wp_get, wp_modify, wp_ite]
  split
  · next hne =>
    have hne' : s.pending.length ≠ 0 := by
      rw [← hused]
      exact fun h ↦ hne (UInt64.toNat_inj.1 h)
    split
    · next hroom =>
      rw [UInt64.lt_iff_toNat_lt, toNat_sub_64 (hused.trans_lt hlt), hused] at hroom
      have habsorb : (s.pending ++ data.take size.toNat).length < 64 := by
        rw [List.length_append, List.length_take, min_eq_left hsize]
        omega
      rw [absorb_of_lt transform habsorb] at hpost
      exact hholds.wp_copyBuffer hused (by omega) hsize fun after hafter hafterBytes ↦
        hpost after hafter (hafterBytes.trans hbytes')
    · next hroom =>
      rw [UInt64.lt_iff_toNat_lt, toNat_sub_64 (hused.trans_lt hlt), hused] at hroom
      exact wp_updateBegun hholds hused (by omega) hsize fun after hafter hafterBytes ↦
        hpost after hafter (hafterBytes.trans hbytes')
  · next heq =>
    have hempty : s.pending = [] := by
      rw [List.eq_nil_iff_length_eq_zero, ← hused, not_not.1 heq]
      rfl
    rw [Stream.eq_start hempty (by decide), ← h.toRegs_eq] at hpost
    exact wp_updateBlocks hsize fun after hafter hafterBytes ↦
      hpost after hafter (hafterBytes.trans hbytes')

theorem not_wp_update (h : Holds ctx s) (hbytes : ctx.bytes = .ofNat n)
    (hpending : s.pending.length = n % 64) (hsize : size.toNat ≤ data.length)
    (hbegun : n % 64 ≠ 0) (hbehind : 64 < n % 64 + size.toNat) :
    ¬wp (update data size) post ctx := by
  have hused := toNat_used hbytes hpending
  have hne : ctx.bytes &&& 0x3f ≠ 0 := by
    intro heq
    rw [heq, hpending] at hused
    exact hbegun hused.symm
  have hroom : ¬size < 64 - (ctx.bytes &&& 0x3f) := by
    rw [UInt64.lt_iff_toNat_lt, toNat_sub_64 (hused.trans_lt s.pending_lt), hused]
    omega
  have hholds : Holds { ctx with bytes := ctx.bytes + size } s := ⟨h.toRegs_eq, h.buffer_take⟩
  unfold update
  simp only [wp_bind, wp_get, wp_modify, if_pos hne, if_neg hroom]
  exact not_wp_updateBegun hholds hused (by omega) hsize

end Update

/-! ## The end of the message -/

/-- A byte of the length. -/
theorem toUInt8_shift (n : ℕ) {k : ℕ} (hk : k < 8) :
    (UInt64.ofNat n <<< 3 >>> .ofNat (8 * k)).toUInt8 = .ofNat (8 * n / 256 ^ k) := by
  have hthree : (3 : UInt64).toNat % 64 = 3 := rfl
  have hamount : (UInt64.ofNat (8 * k)).toNat % 64 = 8 * k := by
    rw [UInt64.toNat_ofNat']
    omega
  have hpow : 256 ^ k = 2 ^ (8 * k) := by
    rw [pow_mul]
    rfl
  have hsplit : 2 ^ 64 = 2 ^ (8 * k) * (2 ^ 8 * 2 ^ (56 - 8 * k)) := by
    rw [← pow_add, ← pow_add]
    congr 1
    omega
  have hbits : n % 2 ^ 64 * 2 ^ 3 % 2 ^ 64 = 8 * n % 2 ^ 64 := by omega
  rw [← UInt8.toNat_inj, UInt64.toNat_toUInt8, UInt64.toNat_shiftRight, UInt64.toNat_shiftLeft,
    hamount, hthree, UInt64.toNat_ofNat', UInt8.toNat_ofNat', Nat.shiftRight_eq_div_pow,
    Nat.shiftLeft_eq, hbits, hpow, hsplit, Nat.mod_mul_right_div_self, Nat.mod_mul_right_mod]

theorem length_lengthBytes (n : ℕ) : (lengthBytes n).length = 8 := by
  rw [lengthBytes, List.length_map, List.length_range]

theorem lengthBytes_eq (n : ℕ) : lengthBytes n =
    [(UInt64.ofNat n <<< 3).toUInt8, (UInt64.ofNat n <<< 3 >>> 8).toUInt8,
      (UInt64.ofNat n <<< 3 >>> 16).toUInt8, (UInt64.ofNat n <<< 3 >>> 24).toUInt8,
      (UInt64.ofNat n <<< 3 >>> 32).toUInt8, (UInt64.ofNat n <<< 3 >>> 40).toUInt8,
      (UInt64.ofNat n <<< 3 >>> 48).toUInt8, (UInt64.ofNat n <<< 3 >>> 56).toUInt8] :=
  calc
    lengthBytes n = (List.range 8).map fun k ↦
        (UInt64.ofNat n <<< 3 >>> .ofNat (8 * k)).toUInt8 :=
      List.map_congr_left fun k hk ↦ (toUInt8_shift n (List.mem_range.1 hk)).symm
    _ = _ := by
      have hzero : UInt64.ofNat n <<< 3 >>> .ofNat (8 * 0) = UInt64.ofNat n <<< 3 := by simp
      rw [show List.range 8 = [0, 1, 2, 3, 4, 5, 6, 7] from rfl, List.map_cons, hzero]
      rfl

/-- The length is written where the block has eight bytes left. -/
theorem Filled.wp_setLength (h : Filled ctx r xs) (hxs : xs.length = 56) {n : ℕ}
    {post : Unit → Ctx → Prop}
    (hpost : ∀ after, Filled after r (xs ++ lengthBytes n) → post () after) :
    wp (setLength (UInt64.ofNat n <<< 3)) post ctx := by
  unfold setLength
  simp only [wp_bind]
  refine h.wp_setBuffer hxs.symm (by omega) fun _ h1 _ ↦ ?_
  refine h1.wp_setBuffer (by simp [hxs]) (by simp [hxs]) fun _ h2 _ ↦ ?_
  refine h2.wp_setBuffer (by simp [hxs]) (by simp [hxs]) fun _ h3 _ ↦ ?_
  refine h3.wp_setBuffer (by simp [hxs]) (by simp [hxs]) fun _ h4 _ ↦ ?_
  refine h4.wp_setBuffer (by simp [hxs]) (by simp [hxs]) fun _ h5 _ ↦ ?_
  refine h5.wp_setBuffer (by simp [hxs]) (by simp [hxs]) fun _ h6 _ ↦ ?_
  refine h6.wp_setBuffer (by simp [hxs]) (by simp [hxs]) fun _ h7 _ ↦ ?_
  refine h7.wp_setBuffer (by simp [hxs]) (by simp [hxs]) fun after h8 _ ↦ hpost after ?_
  rw [lengthBytes_eq]
  simpa only [List.append_assoc, List.cons_append, List.nil_append] using h8

/-- The last blocks: what is there, zeros, and the length at the end. -/
def closed (r : Regs) (xs : List UInt8) (n : ℕ) : Regs :=
  if xs.length ≤ 56 then
    transform r (xs ++ List.replicate (56 - xs.length) 0 ++ lengthBytes n)
  else
    transform (transform r (xs ++ List.replicate (64 - xs.length) 0))
      (List.replicate 56 0 ++ lengthBytes n)

/-- The padding makes the last blocks whole. -/
theorem absorb_padding (s : Stream Regs UInt8 64) {n : ℕ} (hpending : s.pending.length = n % 64) :
    (absorb transform s (padding n)).state = closed s.state (s.pending ++ [0x80]) n := by
  have hlt := s.pending_lt
  have hlen := length_lengthBytes n
  unfold closed padding
  rw [List.length_append, List.length_singleton]
  split
  · next hfits =>
    have hzeros : (119 - n % 64) % 64 = 56 - (s.pending.length + 1) := by omega
    have hlist : s.pending ++ (0x80 :: List.replicate ((119 - n % 64) % 64) 0 ++ lengthBytes n) =
        s.pending ++ [0x80] ++ List.replicate (56 - (s.pending.length + 1)) 0 ++ lengthBytes n := by
      rw [hzeros]
      simp
    have hfull : (s.pending ++
        (0x80 :: List.replicate ((119 - n % 64) % 64) 0 ++ lengthBytes n)).length = 64 := by
      rw [hlist]
      simp only [List.length_append, List.length_singleton, List.length_replicate, hlen]
      omega
    rw [absorb_of_eq transform hfull, hlist]
    rfl
  · next hspill =>
    have hzeros : (119 - n % 64) % 64 = 64 - (s.pending.length + 1) + 56 := by omega
    have hlist : (0x80 : UInt8) :: List.replicate ((119 - n % 64) % 64) 0 ++ lengthBytes n =
        (0x80 :: List.replicate (64 - (s.pending.length + 1)) 0) ++
          (List.replicate 56 0 ++ lengthBytes n) := by
      rw [hzeros, List.replicate_add]
      simp
    have hfirst : (s.pending ++
        0x80 :: List.replicate (64 - (s.pending.length + 1)) 0).length = 64 := by
      simp only [List.length_append, List.length_cons, List.length_replicate]
      omega
    have hsecond : ([] ++ (List.replicate 56 0 ++ lengthBytes n)).length = 64 := by
      simp only [List.nil_append, List.length_append, List.length_replicate, hlen]
    have happend : s.pending ++ 0x80 :: List.replicate (64 - (s.pending.length + 1)) 0 =
        s.pending ++ [0x80] ++ List.replicate (64 - (s.pending.length + 1)) 0 := by simp
    rw [hlist, absorb_append, absorb_of_eq transform hfirst, happend]
    exact congrArg Stream.state (absorb_of_eq transform hsecond)

theorem Filled.wp_finish (h : Filled ctx r xs) (hxs : xs.length = 56) {n : ℕ}
    (hbytes : ctx.bytes = .ofNat n) {post : List UInt8 → Ctx → Prop}
    (hpost : post (transform r (xs ++ lengthBytes n)).result .zero) : wp finish post ctx := by
  have hshift : Filled { ctx with bytes := UInt64.ofNat n <<< 3 } r xs :=
    ⟨h.toRegs_eq, h.buffer_take⟩
  unfold finish
  simp only [wp_bind, wp_get, wp_modify, wp_set, wp_pure, hbytes]
  refine hshift.wp_setLength hxs fun after hafter ↦ ?_
  refine hafter.wp_body (by rw [List.length_append, hxs, length_lengthBytes])
    fun p after' hafter' _ ↦ ?_
  rw [hafter'.toRegs_eq]
  exact hpost

/-- `zbaselib_md5_final` -/
theorem wp_final {s : Stream Regs UInt8 64} (h : Holds ctx s) {n : ℕ}
    (hbytes : ctx.bytes = .ofNat n) (hpending : s.pending.length = n % 64)
    {post : List UInt8 → Ctx → Prop}
    (hpost : post (absorb transform s (padding n)).state.result .zero) :
    wp final post ctx := by
  have hlt := s.pending_lt
  have hused := toNat_used hbytes hpending
  have hlength : (s.pending ++ [0x80]).length = s.pending.length + 1 := by simp
  have hone : (1 : UInt64).toNat = 1 := rfl
  have height : (8 : UInt64).toNat = 8 := rfl
  have hnext : ((ctx.bytes &&& 0x3f) + 1).toNat = s.pending.length + 1 := by
    rw [UInt64.toNat_add, hused]
    exact Nat.mod_eq_of_lt (by rw [hone]; omega)
  have hfree : (64 - ((ctx.bytes &&& 0x3f) + 1)).toNat = 64 - (s.pending.length + 1) := by
    rw [UInt64.toNat_sub_of_le _ _ (by rw [UInt64.le_iff_toNat_le, hnext]; exact hlt), hnext]
    rfl
  rw [absorb_padding s hpending, closed, hlength] at hpost
  unfold final makeRoom
  simp only [wp_bind, wp_get, wp_ite, wp_pure]
  refine h.wp_setBuffer hused hlt fun after hafter hafterBytes ↦ ?_
  have hwritten : after.bytes = .ofNat n := hafterBytes.trans hbytes
  split
  · next hspill =>
    rw [UInt64.lt_iff_toNat_lt, hfree, height] at hspill
    rw [if_neg (by omega)] at hpost
    refine hafter.wp_zeroBuffer (by rw [hnext, hlength]) (by rw [hlength, hfree]; omega)
      fun _ hfull hfullBytes ↦ ?_
    refine hfull.wp_body ?_ fun _ _ hempty hemptyBytes ↦ ?_
    · rw [List.length_append, hlength, List.length_replicate, hfree]
      omega
    refine hempty.wp_zeroBuffer (by rfl) (by decide) fun _ hzeros hzerosBytes ↦ ?_
    refine hzeros.wp_finish (by rfl) (by rw [hzerosBytes, hemptyBytes, hfullBytes, hwritten]) ?_
    rw [hfree]
    exact hpost
  · next hfits =>
    rw [UInt64.lt_iff_toNat_lt, hfree, height] at hfits
    rw [if_pos (by omega)] at hpost
    have hroom : (64 - ((ctx.bytes &&& 0x3f) + 1) - 8).toNat = 56 - (s.pending.length + 1) := by
      rw [UInt64.toNat_sub_of_le _ _ (by rw [UInt64.le_iff_toNat_le, hfree]; exact not_lt.1 hfits),
        hfree, height]
      omega
    refine hafter.wp_zeroBuffer (by rw [hnext, hlength]) (by rw [hlength, hroom]; omega)
      fun _ hzeros hzerosBytes ↦ ?_
    refine hzeros.wp_finish ?_ (by rw [hzerosBytes, hwritten]) ?_
    · rw [List.length_append, hlength, List.length_replicate, hroom]
      omega
    · rw [hroom]
      exact hpost

end

/-! ## Whole digests -/

theorem length_padding (n : ℕ) : 64 ∣ n + (padding n).length := by
  have hlen := length_lengthBytes n
  simp only [padding, List.length_append, List.length_cons, List.length_replicate, hlen]
  omega

/-- The digest in one go. -/
theorem md5_eq (message : List UInt8) :
    md5 message =
      (absorb transform (absorbFrom .start message) (padding message.length)).state.result := by
  have hdvd : 64 ∣ (message ++ padding message.length).length := by
    rw [List.length_append]
    exact length_padding message.length
  have hblocks : absorbFrom .start (message ++ padding message.length) = _ :=
    absorb_blocks transform hdvd _ (by decide)
  rw [md5, ← absorbFrom_append, hblocks]
  rfl

/-- The pieces in a row. -/
def message (chunks : List Chunk) : List UInt8 := (chunks.map Chunk.bytes).flatten

theorem length_bytes (c : Chunk) : c.bytes.length = c.size.toNat := by
  rw [Chunk.bytes, List.length_take, min_eq_left c.size_le]

theorem wp_update_chunk {before : List UInt8} {ctx : Ctx}
    (h : Holds ctx (absorbFrom .start before)) (hbytes : ctx.bytes = .ofNat before.length)
    {c : Chunk} (hfits : before.length % 64 = 0 ∨ before.length % 64 + c.size.toNat ≤ 64) :
    wp (update c.data c.size) (fun _ after ↦ Holds after (absorbFrom .start (before ++ c.bytes)) ∧
      after.bytes = .ofNat (before ++ c.bytes).length) ctx := by
  refine wp_update h hbytes (length_pending_absorbFrom .start before) c.size_le hfits
    fun after hafter hafterBytes ↦ ⟨?_, ?_⟩
  · rwa [absorbFrom_append]
  · rw [hafterBytes, List.length_append, length_bytes]

/-- Updates and the end, from a context that holds what came before. -/
theorem wp_updates {before : List UInt8} {ctx : Ctx} (h : Holds ctx (absorbFrom .start before))
    (hbytes : ctx.bytes = .ofNat before.length) (chunks : List Chunk)
    {post : List UInt8 → Ctx → Prop} :
    wp (do updates chunks; final) post ctx ↔
      Whole before.length chunks ∧ post (md5 (before ++ message chunks)) .zero := by
  induction chunks generalizing before ctx with
  | nil =>
    have hfinal : wp final (fun result after ↦ result = md5 before ∧ after = .zero) ctx :=
      wp_final h hbytes (length_pending_absorbFrom .start before) ⟨(md5_eq before).symm, rfl⟩
    simp only [updates, wp_bind, wp_pure, Whole, true_and, message, List.map_nil,
      List.flatten_nil, List.append_nil]
    constructor
    · intro hwp
      obtain ⟨_, _, -, ⟨rfl, rfl⟩, hpost⟩ := wp_and hfinal hwp
      exact hpost
    · rintro hpost
      refine wp_mono hfinal ?_
      rintro _ _ ⟨rfl, rfl⟩
      exact hpost
  | cons c chunks ih =>
    have hrest : message (c :: chunks) = c.bytes ++ message chunks := rfl
    have hlength : (before ++ c.bytes).length = before.length + c.size.toNat := by
      rw [List.length_append, length_bytes]
    rw [wp_bind, updates, wp_bind, Whole, hrest, ← List.append_assoc, ← hlength]
    constructor
    · intro hwp
      by_cases hfits : before.length % 64 = 0 ∨ before.length % 64 + c.size.toNat ≤ 64
      · obtain ⟨_, after, -, ⟨hafter, hafterBytes⟩, hrun⟩ :=
          wp_and (wp_update_chunk h hbytes hfits) hwp
        obtain ⟨hwhole, hpost⟩ := (ih hafter hafterBytes).1 ((wp_bind _ _ _ _).2 hrun)
        exact ⟨⟨hfits, hwhole⟩, hpost⟩
      · rw [not_or, not_le] at hfits
        exact absurd hwp (not_wp_update h hbytes (length_pending_absorbFrom .start before)
          c.size_le hfits.1 hfits.2)
    · rintro ⟨⟨hfits, hwhole⟩, hpost⟩
      refine wp_mono (wp_update_chunk h hbytes hfits) fun _ after hafter ↦ ?_
      exact (wp_bind _ _ _ _).1 ((ih hafter.1 hafter.2).2 ⟨hwhole, hpost⟩)

/-- **The digest of a message in pieces.**  The calls have an outcome exactly if no piece begins
inside a block and ends behind it; the outcome is the digest of the pieces in a row, and nothing
of the message is left in the context. -/
theorem hash_run (ctx : Ctx) (chunks : List Chunk) : (hash chunks).run ctx =
    if Whole 0 chunks then some (md5 (message chunks), .zero) else none := by
  have hstart : Holds { ctx with toRegs := .start, bytes := 0 } (absorbFrom .start []) :=
    Filled.nil _
  have hwp {post : List UInt8 → Ctx → Prop} :
      wp (hash chunks) post ctx ↔ Whole 0 chunks ∧ post (md5 (message chunks)) .zero := by
    unfold hash init
    rw [wp_bind, wp_modify]
    exact wp_updates hstart rfl chunks
  split
  · next hwhole =>
    obtain ⟨_, _, hrun, rfl, rfl⟩ :=
      (@hwp fun result after ↦ result = md5 (message chunks) ∧ after = .zero).2 ⟨hwhole, rfl, rfl⟩
    exact hrun
  · next hnot =>
    rw [Option.eq_none_iff_forall_ne_some]
    intro outcome hrun
    exact hnot ((@hwp fun _ _ ↦ True).1 ⟨outcome.1, outcome.2, hrun, trivial⟩).1

end Zbaselib.Md5
