import Zbaselib.Socket.Stream

/-!
# All calls of the socket buffer

`recv` is one round of the loop of `udp_recv`, and `write` makes room as a
round does.  Where the buffer grows is said once for all of them: a call
enlarges the buffer in a state that it comes to.
-/

namespace Zbaselib.Socket

open Program Block Transition

/-- The loop comes to a round in a state. -/
inductive Comes : List Round → State → Round → State → Prop
  | here {round : Round} {rest : List Round} {b : State} : Comes (round :: rest) b round b
  | later {round round' : Round} {rest : List Round} {b b' b₁ : State}
      (head : (udpRound round).run b = some (none, b')) (tail : Comes rest b' round' b₁) :
      Comes (round :: rest) b round' b₁

inductive Call
  | plain (op : Op)
  | udpRecv (addr : Bool) (rounds : List Round)
  | send (answers : List Sent)

def Call.run : Call → SkCmd Result
  | .plain op => op.run
  | .udpRecv addr rounds => return ⟨← Socket.udpRecv addr rounds, none⟩
  | .send answers => return ⟨(← Socket.send answers).ret, none⟩

/-- A call that has an outcome, whatever the kernel and the allocator answer. -/
def Called (label : Call × Result) (b b' : State) : Prop :=
  label.1.run.run b = some (label.2, b')

/-- The rounds of a call, if it gets past its checks. -/
def Call.rounds (b : State) : Call → List Round
  | .plain (.recv kernel fresh) => if b.buf = none ∨ b.sock < 0 then [] else [(kernel, fresh)]
  | .udpRecv addr rounds => if b.buf = none ∨ b.sock < 0 then [] else asked addr rounds
  | _ => []

/-- The call grows the buffer by half and `extra` bytes in the state `b₁`, and the allocator
answers `fresh`. -/
inductive Enlarges : Call → State → UInt32 → Option (ℕ → UInt8) → State → Prop
  | write {data : List UInt8} {size : UInt32} {fresh : Option (ℕ → UInt8)} {b b₁ : State}
      (block : b.buf ≠ none) (compacted : (compactFor size).run b = some ((), b₁))
      (full : b₁.wpos + size > b₁.bufSize) (below : ¬b₁.bufSize > b₁.bufMaxSize) :
      Enlarges (.plain (.write data size fresh)) b size fresh b₁
  | round {call : Call} {kernel : Kernel} {fresh : Option (ℕ → UInt8)} {b b₁ : State}
      (comes : Comes (call.rounds b) b (kernel, fresh) b₁) (full : b₁.wpos ≥ b₁.bufSize)
      (front : ¬b₁.rpos > 0) (below : ¬b₁.bufSize > b₁.bufMaxSize) :
      Enlarges call b ZBASELIB_SKBUFFER_MIN_NUM fresh b₁

section

variable {b b' : State}

/-! ## Rounds -/

theorem wp_udpRecvLoop_cons {round : Round} {rest : List Round} {post : ℤ → State → Prop} :
    wp (udpRecvLoop (round :: rest)) post b ↔
      wp (udpRound round) (fun next b' ↦
        next.elim (wp (udpRecvLoop rest) post b') (post · b')) b := by
  rw [udpRecvLoop, wp_bind]
  apply wp_congr
  intro next b'
  cases next with
  | some ret => exact wp_pure ret post b'
  | none => rfl

/-- `recv` is one round, whose bytes are a success. -/
theorem wp_recv_iff {kernel : Kernel} {fresh : Option (ℕ → UInt8)} {post : ℤ → State → Prop} :
    wp (recv kernel fresh) post b ↔
      if b.buf = none ∨ b.sock < 0 then post (-2) b
      else wp (udpRound (kernel, fresh)) (fun next b' ↦ post (next.getD 0) b') b := by
  unfold recv udpRound
  simp only [wp_bind, wp_get]
  rw [wp_ite]
  split
  · simp
  · simp only [wp_bind]
    apply wp_congr
    intro room b₁
    cases room with
    | false => simp
    | true =>
      simp only [if_true, wp_bind, wp_pure]
      apply wp_congr
      intro answer b₂
      cases answer with
      | data bytes => by_cases hbytes : bytes = [] <;> simp [Received.ends, hbytes]
      | wouldBlock => simp [Received.ends]
      | error => simp [Received.ends]

theorem asked_append (addr : Bool) (rounds more : List Round) :
    asked addr (rounds ++ more) = asked addr rounds ++ asked addr more := List.map_append

/-- What the allocator answers does not depend on the kernel. -/
theorem isSome_of_mem_asked {addr : Bool} {rounds : List Round}
    (h : ∀ round ∈ rounds, round.2.isSome) : ∀ round ∈ asked addr rounds, round.2.isSome := by
  intro round hround
  obtain ⟨round', hmem, rfl⟩ := List.mem_map.1 hround
  exact h round' hmem

theorem wp_udpRecv_iff {addr : Bool} {rounds : List Round} {post : ℤ → State → Prop} :
    wp (udpRecv addr rounds) post b ↔
      if b.buf = none ∨ b.sock < 0 then post (-2) b
      else wp (udpRecvLoop (asked addr rounds)) post b := by
  unfold udpRecv
  simp only [wp_bind, wp_get]
  rw [wp_ite]
  split <;> simp

/-! ## Growth -/

/-- The size that growth asks for, as the code computes it. -/
def grownSize (b : State) (extra : UInt32) : UInt32 := b.bufSize + (b.bufSize >>> 1) + extra

/-- The same size over the integers. -/
def grownTo (b : State) (extra : UInt32) : ℕ :=
  b.bufSize.toNat + b.bufSize.toNat / 2 + extra.toNat

/-- The state after growth, whatever the allocator answered. -/
def grown (b : State) (buf : List UInt8) (extra : UInt32) (fresh : Option (ℕ → UInt8)) : State :=
  { b with
    buf := realloc buf (sizeT (toInt (grownSize b extra))) fresh
    bufSize := grownSize b extra }

theorem wp_grow_iff {buf : List UInt8} (hbuf : b.buf = some buf) {extra : UInt32}
    {fresh : Option (ℕ → UInt8)} {post : Unit → State → Prop} :
    wp (grow extra fresh) post b ↔ post () (grown b buf extra fresh) := by
  unfold grow grown grownSize
  simp only [wp_bind, wp_get, hbuf, wp_set, ofInt_toInt]

theorem toNat_grownSize {extra : UInt32} :
    (grownSize b extra).toNat = grownTo b extra % 2 ^ 32 := by
  have hhalf : (b.bufSize >>> 1).toNat = b.bufSize.toNat / 2 := by
    rw [UInt32.toNat_shiftRight, Nat.shiftRight_eq_div_pow]
    rfl
  unfold grownSize grownTo
  rw [UInt32.toNat_add, UInt32.toNat_add, hhalf, Nat.mod_add_mod]

/-- Nothing is lost by growth that does not wrap, unless there is no memory. -/
theorem grown_outcome (h : WellFormed b) {buf : List UInt8} (hbuf : b.buf = some buf)
    {extra : UInt32} (fresh : Option (ℕ → UInt8)) (hwrap : grownTo b extra < 2 ^ 32) :
    (grown b buf extra fresh).buf = none ∨
      WellFormed (grown b buf extra fresh) ∧ content (grown b buf extra fresh) = content b := by
  have hsize : (grownSize b extra).toNat = grownTo b extra := by
    rw [toNat_grownSize, Nat.mod_eq_of_lt hwrap]
  cases hrealloc : realloc buf (sizeT (toInt (grownSize b extra))) fresh with
  | none => exact Or.inl hrealloc
  | some buf' =>
    obtain ⟨hlt, hfresh, -⟩ := of_realloc_eq_some hrealloc
    have hfits : Fits extra fresh b := by
      refine ⟨?_, hfresh⟩
      have hsmall := toNat_lt_of_sizeT hlt
      rwa [hsize] at hsmall
    have hwp : wp (grow extra fresh) (fun _ b' ↦ WellFormed b' ∧ content b' = content b) b :=
      wp_grow h hfits fun buf bufSize _ h' hcontent ↦ ⟨h', hcontent⟩
    exact Or.inr ((wp_grow_iff hbuf).1 hwp)

/-! ## Calls that have an outcome -/

/-- Sizes and socket are the same, and the positions fit as they did. -/
structure Steady (b b' : State) : Prop where
  bufSize_eq : b'.bufSize = b.bufSize
  bufMaxSize_eq : b'.bufMaxSize = b.bufMaxSize
  sock_eq : b'.sock = b.sock
  wellFormed : WellFormed b → WellFormed b'
  null : b.buf = none → b'.buf = none

theorem Steady.refl (b : State) : Steady b b := ⟨rfl, rfl, rfl, id, id⟩

theorem Steady.trans {b'' : State} (h : Steady b b') (h' : Steady b' b'') : Steady b b'' :=
  ⟨h'.bufSize_eq.trans h.bufSize_eq, h'.bufMaxSize_eq.trans h.bufMaxSize_eq,
    h'.sock_eq.trans h.sock_eq, fun hb ↦ h'.wellFormed (h.wellFormed hb),
    fun hb ↦ h'.null (h.null hb)⟩

/-- Bytes that arrived had room. -/
theorem of_wp_append {src : List UInt8} {size : UInt32} {post : Unit → State → Prop}
    (h : WellFormed b) (hwp : wp (append src size) post b) :
    b.wpos.toNat + size.toNat ≤ b.bufSize.toNat ∧ size.toNat ≤ src.length ∧
      ∃ b', post () b' ∧ Steady b b' ∧ b'.rpos = b.rpos ∧
        content b' = content b ++ src.take size.toNat := by
  obtain ⟨buf, hbuf, hlen⟩ := h.block
  obtain ⟨result, b', hrun, hpost⟩ := hwp
  have hbounds : wp (append src size) (fun _ after ↦ after = b') b := ⟨_, _, hrun, rfl⟩
  have hsizes := hbounds
  unfold append at hbounds hsizes
  simp only [wp_bind, wp_get, hbuf, wp_memcpy, wp_set] at hbounds hsizes
  have hroom : b.wpos.toNat + size.toNat ≤ b.bufSize.toNat := hlen ▸ hbounds.1.1
  have hsrc : size.toNat ≤ src.length := by
    have hsrc := hbounds.1.2
    rwa [Nat.zero_add] at hsrc
  have hspec : wp (append src size) (fun _ after ↦ WellFormed after ∧
      content after = content b ++ src.take size.toNat) b :=
    wp_append h hsrc hroom fun after h' hcontent ↦ ⟨h', hcontent⟩
  obtain ⟨h', hcontent⟩ := wp_outcome hspec hrun
  have hsame := hsizes.2
  refine ⟨hroom, hsrc, b', hpost, ⟨?_, ?_, ?_, fun _ ↦ h', fun hnone ↦ ?_⟩, ?_, hcontent⟩
  · rw [← hsame]
  · rw [← hsame]
  · rw [← hsame]
  · rw [hbuf] at hnone
    cases hnone
  · rw [← hsame]

/-- A round whose buffer has room, or can make some, comes to its system call. -/
theorem wp_reserve_roomy (h : WellFormed b) {fresh : Option (ℕ → UInt8)}
    (hroom : ¬(b.wpos ≥ b.bufSize ∧ ¬b.rpos > 0)) {post : Bool → State → Prop}
    (hpost : ∀ b', Steady b b' → content b' = content b → b'.wpos.toNat < b'.bufSize.toNat →
      (b'.bufSize - b'.wpos).toNat = windowSize b → post true b') :
    wp (reserve fresh) post b := by
  have hwpos := h.wpos_eq
  have hle := h.wpos_le
  unfold windowSize at hpost
  unfold reserve
  rw [wp_bind, wp_get, wp_ite]
  by_cases hend : b.wpos ≥ b.bufSize
  · have hrpos : b.rpos > 0 := not_not.1 fun hno ↦ hroom ⟨hend, hno⟩
    have hend' := UInt32.le_iff_toNat_le.1 hend
    have hrpos' := UInt32.lt_iff_toNat_lt.1 hrpos
    rw [UInt32.toNat_zero] at hrpos'
    rw [if_pos hend, wp_ite, if_pos hrpos, wp_bind]
    apply wp_compact h
    intro buf h' hcontent hwpos'
    rw [wp_pure]
    have hlt : (b.wpos - b.rpos).toNat < b.bufSize.toNat := by omega
    refine hpost _ ⟨rfl, rfl, rfl, fun _ ↦ h', fun hnone ↦ ?_⟩ hcontent hlt ?_
    · obtain ⟨buf', hbuf, -⟩ := h.block
      rw [hbuf] at hnone
      cases hnone
    · rw [if_neg (UInt32.not_lt.2 hend)]
      change (b.bufSize - (b.wpos - b.rpos)).toNat = _
      rw [UInt32.toNat_sub_of_le _ _ (UInt32.le_iff_toNat_le.2 (Nat.le_of_lt hlt)), hwpos']
  · have hlt : b.wpos < b.bufSize := UInt32.not_le.1 hend
    rw [if_neg hend, wp_pure]
    refine hpost b (.refl b) rfl (UInt32.lt_iff_toNat_lt.1 hlt) ?_
    rw [if_pos hlt, UInt32.toNat_sub_of_le _ _ (UInt32.le_of_lt hlt)]

theorem wp_reserve_refused {fresh : Option (ℕ → UInt8)} (hend : b.wpos ≥ b.bufSize)
    (hfront : ¬b.rpos > 0) (hmax : b.bufSize > b.bufMaxSize) {post : Bool → State → Prop} :
    wp (reserve fresh) post b ↔ post false b := by
  unfold reserve
  rw [wp_bind, wp_get, wp_ite, if_pos hend, wp_ite, if_neg hfront, wp_ite, if_pos hmax, wp_pure]

/-- A round that has to grow the buffer grows it. -/
theorem of_wp_reserve_grown {fresh : Option (ℕ → UInt8)} (hend : b.wpos ≥ b.bufSize)
    (hfront : ¬b.rpos > 0) (hmax : ¬b.bufSize > b.bufMaxSize) {post : Bool → State → Prop}
    (hwp : wp (reserve fresh) post b) :
    ∃ buf, b.buf = some buf ∧ post true (grown b buf ZBASELIB_SKBUFFER_MIN_NUM fresh) := by
  unfold reserve at hwp
  rw [wp_bind, wp_get, wp_ite, if_pos hend, wp_ite, if_neg hfront, wp_ite, if_neg hmax, wp_bind]
    at hwp
  cases hbuf : b.buf with
  | none =>
    unfold grow at hwp
    simp [hbuf] at hwp
  | some buf =>
    rw [wp_grow_iff hbuf, wp_pure] at hwp
    exact ⟨buf, rfl, hwp⟩

/-- What arrives in a round keeps the sizes and the read position. -/
theorem of_wp_receive (h : WellFormed b) {kernel : Kernel} {post : Received → State → Prop}
    (hwp : wp (receive kernel) post b) :
    ∃ b', post (kernel.answer (sizeT (toInt (b.bufSize - b.wpos)))) b' ∧ Steady b b' ∧
      b'.rpos = b.rpos := by
  obtain ⟨buf, hbuf, -⟩ := h.block
  unfold receive at hwp
  rw [wp_bind, wp_get] at hwp
  dsimp only at hwp
  by_cases hnil : (kernel.answer (sizeT (toInt (b.bufSize - b.wpos)))).bytes = []
  · rw [wp_ite, if_pos hnil, wp_pure] at hwp
    exact ⟨b, hwp, .refl b, rfl⟩
  · rw [wp_ite, if_neg hnil, wp_ite, if_neg (by rw [hbuf]; simp), wp_bind] at hwp
    obtain ⟨-, -, b', hpost, hsteady, hrpos, -⟩ := of_wp_append h hwp
    rw [wp_pure] at hpost
    exact ⟨b', hpost, hsteady, hrpos⟩

/-- Nothing arrives behind the end of the block, or without a block. -/
theorem of_wp_receive_outside (hbuf : ∀ buf, b.buf = some buf → buf.length < b.wpos.toNat)
    {kernel : Kernel} {post : Received → State → Prop} (hwp : wp (receive kernel) post b) :
    ∃ answer : Received, answer.bytes = [] ∧ post answer b := by
  unfold receive at hwp
  rw [wp_bind, wp_get] at hwp
  dsimp only at hwp
  by_cases hnil : (kernel.answer (sizeT (toInt (b.bufSize - b.wpos)))).bytes = []
  · rw [wp_ite, if_pos hnil, wp_pure] at hwp
    exact ⟨_, hnil, hwp⟩
  rw [wp_ite, if_neg hnil, wp_ite] at hwp
  split at hwp
  · rw [wp_pure] at hwp
    exact ⟨.error, rfl, hwp⟩
  · next hsome =>
    obtain ⟨buf, hblock⟩ := Option.ne_none_iff_exists'.1 hsome
    have hlt := hbuf buf hblock
    rw [wp_bind] at hwp
    unfold append at hwp
    simp only [wp_bind, wp_get, hblock, wp_memcpy] at hwp
    have hroom := hwp.1.1
    omega

theorem of_wp_receive_null (hbuf : b.buf = none) {kernel : Kernel}
    {post : Received → State → Prop} (hwp : wp (receive kernel) post b) :
    ∃ answer : Received, answer.bytes = [] ∧ post answer b :=
  of_wp_receive_outside (by simp [hbuf]) hwp

/-- The three ways in which a round goes. -/
theorem of_wp_udpRound (h : WellFormed b) {kernel : Kernel} {fresh : Option (ℕ → UInt8)}
    {post : Option ℤ → State → Prop} (hwp : wp (udpRound (kernel, fresh)) post b) :
    (¬(b.wpos ≥ b.bufSize ∧ ¬b.rpos > 0) ∧ ∃ next b', post next b' ∧ Steady b b') ∨
      (b.wpos ≥ b.bufSize ∧ ¬b.rpos > 0 ∧ b.bufSize > b.bufMaxSize ∧ post (some (-3)) b) ∨
      (b.wpos ≥ b.bufSize ∧ ¬b.rpos > 0 ∧ ¬b.bufSize > b.bufMaxSize ∧
        ∃ buf, b.buf = some buf ∧ wp (receive kernel) (fun answer b' ↦ post answer.ends b')
          (grown b buf ZBASELIB_SKBUFFER_MIN_NUM fresh)) := by
  unfold udpRound at hwp
  rw [wp_bind] at hwp
  by_cases hroom : b.wpos ≥ b.bufSize ∧ ¬b.rpos > 0
  · obtain ⟨hend, hfront⟩ := hroom
    refine Or.inr ?_
    by_cases hmax : b.bufSize > b.bufMaxSize
    · rw [wp_reserve_refused hend hfront hmax] at hwp
      simp only [Bool.false_eq_true, if_false, wp_pure] at hwp
      exact Or.inl ⟨hend, hfront, hmax, hwp⟩
    · obtain ⟨buf, hbuf, hwp⟩ := of_wp_reserve_grown hend hfront hmax hwp
      simp only [if_true, wp_bind, wp_pure] at hwp
      exact Or.inr ⟨hend, hfront, hmax, buf, hbuf, hwp⟩
  · refine Or.inl ⟨hroom, ?_⟩
    have hreserve : wp (reserve fresh) (fun room b' ↦ room = true ∧ Steady b b') b :=
      wp_reserve_roomy h hroom fun b' hsteady _ _ _ ↦ ⟨rfl, hsteady⟩
    obtain ⟨room, b₁, -, hwp, rfl, hsteady⟩ := wp_and hwp hreserve
    simp only [if_true, wp_bind, wp_pure] at hwp
    obtain ⟨b', hpost, hsteady', -⟩ := of_wp_receive (hsteady.wellFormed h) hwp
    exact ⟨_, b', hpost, hsteady.trans hsteady'⟩

theorem udpRound_outcome (h : WellFormed b) {kernel : Kernel} {fresh : Option (ℕ → UInt8)}
    (hwrap : b.wpos ≥ b.bufSize → ¬b.rpos > 0 → ¬b.bufSize > b.bufMaxSize →
      grownTo b ZBASELIB_SKBUFFER_MIN_NUM < 2 ^ 32) {next : Option ℤ}
    (hrun : (udpRound (kernel, fresh)).run b = some (next, b')) :
    (¬(b.wpos ≥ b.bufSize ∧ ¬b.rpos > 0 ∧ ¬b.bufSize > b.bufMaxSize) ∧ Steady b b') ∨
      (b.wpos ≥ b.bufSize ∧ ¬b.rpos > 0 ∧ ¬b.bufSize > b.bufMaxSize ∧
        (b'.buf = none ∧ next ≠ none ∨ WellFormed b') ∧ b'.bufMaxSize = b.bufMaxSize ∧
          b'.bufSize.toNat = grownTo b ZBASELIB_SKBUFFER_MIN_NUM) := by
  have hwp : wp (udpRound (kernel, fresh)) (fun r a ↦ r = next ∧ a = b') b :=
    ⟨_, _, hrun, rfl, rfl⟩
  obtain ⟨hroom, next, after, ⟨rfl, rfl⟩, hsteady⟩ | ⟨-, -, hmax, rfl, rfl⟩ |
    ⟨hend, hfront, hbelow, buf, hbuf, hwp⟩ := of_wp_udpRound h hwp
  · exact Or.inl ⟨fun hgrow ↦ hroom ⟨hgrow.1, hgrow.2.1⟩, hsteady⟩
  · exact Or.inl ⟨fun hgrow ↦ hgrow.2.2 hmax, .refl b⟩
  · refine Or.inr ⟨hend, hfront, hbelow, ?_⟩
    have hlt := hwrap hend hfront hbelow
    have hsize : (grownSize b ZBASELIB_SKBUFFER_MIN_NUM).toNat =
        grownTo b ZBASELIB_SKBUFFER_MIN_NUM := by
      rw [toNat_grownSize, Nat.mod_eq_of_lt hlt]
    obtain hnull | ⟨hgrown, -⟩ := grown_outcome h hbuf fresh hlt
    · obtain ⟨answer, hbytes, hends, rfl⟩ := of_wp_receive_null hnull hwp
      refine ⟨Or.inl ⟨hnull, ?_⟩, rfl, hsize⟩
      rw [← hends]
      cases answer with
      | data bytes =>
        rw [Received.ends, if_pos (show bytes = [] from hbytes)]
        exact Option.some_ne_none _
      | wouldBlock => exact Option.some_ne_none _
      | error => exact Option.some_ne_none _
    · obtain ⟨after, ⟨-, rfl⟩, hsteady, -⟩ := of_wp_receive hgrown hwp
      refine ⟨Or.inr (hsteady.wellFormed hgrown), hsteady.bufMaxSize_eq, ?_⟩
      rw [hsteady.bufSize_eq]
      exact hsize

/-- The rounds of a loop start from well-formed states. -/
theorem Comes.wellFormed {rounds : List Round} {round : Round} {b₁ : State}
    (h : Comes rounds b round b₁) (hb : WellFormed b)
    (hwrap : ∀ kernel fresh b', Comes rounds b (kernel, fresh) b' → b'.wpos ≥ b'.bufSize →
      ¬b'.rpos > 0 → ¬b'.bufSize > b'.bufMaxSize →
        grownTo b' ZBASELIB_SKBUFFER_MIN_NUM < 2 ^ 32) : WellFormed b₁ := by
  induction h with
  | here => exact hb
  | @later round round' rest b b' b₁ head _ ih =>
    refine ih ?_ fun kernel fresh b'' hcomes ↦ hwrap kernel fresh b'' (.later head hcomes)
    obtain ⟨-, hsteady⟩ | ⟨-, -, -, ⟨-, hends⟩ | hb', -, -⟩ :=
      udpRound_outcome hb (hwrap round.1 round.2 b .here) head
    · exact hsteady.wellFormed hb
    · exact absurd rfl hends
    · exact hb'

/-- A round that a call comes to has an outcome if the call has one, and may be its last. -/
theorem Comes.of_wp_udpRecvLoop {rounds : List Round} {round : Round} {b₁ : State}
    (h : Comes rounds b round b₁) {post : ℤ → State → Prop}
    (hwp : wp (udpRecvLoop rounds) post b) :
    wp (udpRound round) (fun next b' ↦ ∀ ret, next = some ret → post ret b') b₁ := by
  induction h with
  | here =>
    apply wp_mono (wp_udpRecvLoop_cons.1 hwp)
    rintro next b' hnext ret rfl
    exact hnext
  | later head _ ih =>
    have hnext := wp_outcome (wp_udpRecvLoop_cons.1 hwp) head
    exact ih hnext

/-- What every round keeps holds where a later round starts. -/
theorem Comes.kept {rounds : List Round} {round : Round} {b₁ : State} (h : Comes rounds b round b₁)
    (inv : State → Prop) (hround : ∀ round b₁ next b₂, Comes rounds b round b₁ → inv b₁ →
      (udpRound round).run b₁ = some (next, b₂) → inv b₂) (hb : inv b) : inv b₁ := by
  induction h with
  | here => exact hb
  | later head _ ih =>
    exact ih (fun round' b' next b'' hcomes ↦ hround round' b' next b'' (.later head hcomes))
      (hround _ _ _ _ .here hb head)

theorem Comes.mem {rounds : List Round} {round : Round} {b₁ : State}
    (h : Comes rounds b round b₁) : round ∈ rounds := by
  induction h with
  | here => exact List.mem_cons_self
  | later _ _ ih => exact List.mem_cons_of_mem _ ih

theorem Comes.eq_of_singleton {round round' : Round} {b₁ : State} (h : Comes [round'] b round b₁) :
    round = round' ∧ b₁ = b := by
  cases h with
  | here => exact ⟨rfl, rfl⟩
  | later _ tail => cases tail

/-- A call that has rounds runs them: `recv` its only one, `udp_recv` the loop. -/
theorem wp_of_rounds {call : Call} (hrounds : call.rounds b ≠ []) {post : Result → State → Prop}
    (hwp : wp call.run post b) :
    (∃ round, call.rounds b = [round] ∧
        wp (udpRound round) (fun next b' ↦ post ⟨next.getD 0, none⟩ b') b) ∨
      wp (udpRecvLoop (call.rounds b)) (fun ret b' ↦ post ⟨ret, none⟩ b') b := by
  cases call with
  | plain op =>
    cases op with
    | recv kernel fresh =>
      unfold Call.rounds at hrounds ⊢
      dsimp only at hrounds ⊢
      simp only [Call.run, Op.run, wp_bind, wp_pure] at hwp
      rw [wp_recv_iff] at hwp
      by_cases hvalid : b.buf = none ∨ b.sock < 0
      · rw [if_pos hvalid] at hrounds
        exact absurd rfl hrounds
      · rw [if_neg hvalid] at hwp ⊢
        exact Or.inl ⟨_, rfl, hwp⟩
    | write | read | get | skip | clear => exact absurd rfl hrounds
  | udpRecv addr rounds =>
    unfold Call.rounds at hrounds ⊢
    dsimp only at hrounds ⊢
    simp only [Call.run, wp_bind, wp_pure] at hwp
    rw [wp_udpRecv_iff] at hwp
    by_cases hvalid : b.buf = none ∨ b.sock < 0
    · rw [if_pos hvalid] at hrounds
      exact absurd rfl hrounds
    · rw [if_neg hvalid] at hwp ⊢
      exact Or.inr hwp
  | send => exact absurd rfl hrounds

theorem Comes.of_wp_run {call : Call} {round : Round} {b₁ : State}
    (h : Comes (call.rounds b) b round b₁) {post : Result → State → Prop}
    (hwp : wp call.run post b) :
    wp (udpRound round) (fun next b' ↦ ∀ ret, next = some ret → post ⟨ret, none⟩ b') b₁ := by
  obtain ⟨round', hone, hwp⟩ | hwp := wp_of_rounds (List.ne_nil_of_mem h.mem) hwp
  · rw [hone] at h
    obtain ⟨rfl, rfl⟩ := h.eq_of_singleton
    apply wp_mono hwp
    rintro next b' hnext ret rfl
    exact hnext
  · exact h.of_wp_udpRecvLoop hwp

/-! ## Making room for a write -/

/-- What `write` does before its `memcpy`; `false` when the buffer may not grow. -/
def prepare (size : UInt32) (fresh : Option (ℕ → UInt8)) : SkCmd Bool := do
  compactFor size
  let thiz ← MonadState.get
  if thiz.wpos + size > thiz.bufSize then
    if thiz.bufSize > thiz.bufMaxSize then
      return false
    else
      grow size fresh
  return true

theorem wp_write_iff (hbuf : b.buf ≠ none) {data : List UInt8} {size : UInt32}
    {fresh : Option (ℕ → UInt8)} {post : ℤ → State → Prop} :
    wp (write (some data) size fresh) post b ↔
      wp (prepare size fresh) (fun room b₁ ↦
        if room then wp (append data size) (fun _ b' ↦ post 0 b') b₁ else post (-2) b₁) b := by
  obtain ⟨buf, hbuf⟩ := Option.ne_none_iff_exists'.1 hbuf
  unfold write prepare
  simp only [wp_bind, wp_get, hbuf]
  apply wp_congr
  intro done b₁
  by_cases hfull : b₁.wpos + size > b₁.bufSize
  · by_cases hmax : b₁.bufSize > b₁.bufMaxSize <;> simp [hfull, hmax]
  · simp [hfull]

/-- Making room either grows the buffer, or leaves it as large as it is. -/
theorem of_wp_prepare {size : UInt32} {fresh : Option (ℕ → UInt8)} {b₁ : State}
    (hcompact : (compactFor size).run b = some ((), b₁)) {post : Bool → State → Prop}
    (hwp : wp (prepare size fresh) post b) :
    (¬b₁.wpos + size > b₁.bufSize ∧ post true b₁) ∨
      (b₁.wpos + size > b₁.bufSize ∧ b₁.bufSize > b₁.bufMaxSize ∧ post false b₁) ∨
      (b₁.wpos + size > b₁.bufSize ∧ ¬b₁.bufSize > b₁.bufMaxSize ∧
        ∃ buf, b₁.buf = some buf ∧ post true (grown b₁ buf size fresh)) := by
  unfold prepare at hwp
  rw [wp_bind] at hwp
  have hwp := wp_outcome hwp hcompact
  rw [wp_bind, wp_get] at hwp
  by_cases hfull : b₁.wpos + size > b₁.bufSize
  · refine Or.inr ?_
    by_cases hmax : b₁.bufSize > b₁.bufMaxSize
    · simp only [if_pos hfull, if_pos hmax, wp_pure] at hwp
      exact Or.inl ⟨hfull, hmax, hwp⟩
    · simp only [if_pos hfull, if_neg hmax, wp_bind, wp_pure] at hwp
      cases hbuf : b₁.buf with
      | none =>
        unfold grow at hwp
        simp [hbuf] at hwp
      | some buf =>
        rw [wp_grow_iff hbuf] at hwp
        exact Or.inr ⟨hfull, hmax, buf, rfl, hwp⟩
  · simp only [if_neg hfull, wp_pure] at hwp
    exact Or.inl ⟨hfull, hwp⟩

/-- The state after compaction. -/
theorem exists_compactFor (h : WellFormed b) {size : UInt32}
    (hsum : b.wpos.toNat + size.toNat < 2 ^ 32) :
    ∃ b₁, (compactFor size).run b = some ((), b₁) ∧ WellFormed b₁ ∧ content b₁ = content b ∧
      b₁.bufSize = b.bufSize ∧ b₁.bufMaxSize = b.bufMaxSize ∧
      b₁.wpos.toNat + size.toNat < 2 ^ 32 ∧ (b.bufSize.toNat < b₁.wpos.toNat + size.toNat ↔
        b.bufSize.toNat < b.dataSize.toNat + size.toNat) := by
  have hwp : wp (compactFor size) (fun _ b₁ ↦ WellFormed b₁ ∧ content b₁ = content b ∧
      b₁.bufSize = b.bufSize ∧ b₁.bufMaxSize = b.bufMaxSize ∧
      b₁.wpos.toNat + size.toNat < 2 ^ 32 ∧ (b.bufSize.toNat < b₁.wpos.toNat + size.toNat ↔
        b.bufSize.toNat < b.dataSize.toNat + size.toNat)) b :=
    wp_compactFor h hsum fun b₁ h₁ hcontent hsize hmax hsum₁ hover ↦
      ⟨h₁, hcontent, hsize, hmax, hsum₁, hover⟩
  obtain ⟨⟨⟩, b₁, hrun, hrest⟩ := hwp
  exact ⟨b₁, hrun, hrest⟩

/-! ## Calls that do not grow the buffer -/

theorem steady_consume (h : WellFormed b) {size : UInt32} (hsize : size.toNat ≤ b.dataSize.toNat) :
    Steady b (consume size b) := by
  refine ⟨?_, ?_, ?_, fun h ↦ (h.consume hsize).1, fun hnone ↦ ?_⟩
  · unfold consume
    dsimp only
    split <;> rfl
  · unfold consume
    dsimp only
    split <;> rfl
  · unfold consume
    dsimp only
    split <;> rfl
  · obtain ⟨buf, hbuf, -⟩ := h.block
    rw [hbuf] at hnone
    cases hnone

theorem of_wp_fetch (h : WellFormed b) {after : UInt32 → State → State} {data : List UInt8}
    {size : UInt32} (hafter : ∀ n : UInt32, n.toNat ≤ b.dataSize.toNat → Steady b (after n b))
    {post : ℤ × Option (List UInt8) → State → Prop}
    (hwp : wp (fetch after (some data) size) post b) : ∃ value b', post value b' ∧ Steady b b' := by
  obtain ⟨buf, hbuf, -⟩ := h.block
  have hmin := toNat_min size b.dataSize
  unfold fetch at hwp
  simp only [wp_bind, wp_get, hbuf] at hwp
  generalize (if size < b.dataSize then size else b.dataSize) = n at hmin hwp
  rw [wp_ite] at hwp
  split at hwp
  · rw [wp_pure] at hwp
    exact ⟨_, b, hwp, .refl b⟩
  · simp only [wp_bind, wp_memcpy, wp_set, wp_pure] at hwp
    exact ⟨_, _, hwp.2, hafter n (by omega)⟩

theorem of_wp_send (h : WellFormed b) {answers : List Sent} {post : Sending → State → Prop}
    (hwp : wp (send answers) post b) : ∃ sending b', post sending b' ∧ Steady b b' := by
  obtain ⟨buf, hbuf, -⟩ := h.block
  unfold send at hwp
  simp only [wp_bind, wp_get, hbuf] at hwp
  rw [wp_ite] at hwp
  split at hwp
  · rw [wp_pure] at hwp
    exact ⟨_, b, hwp, .refl b⟩
  rw [wp_ite] at hwp
  split at hwp
  · rw [wp_pure] at hwp
    exact ⟨_, b, hwp, .refl b⟩
  have hmin := toNat_min b.dataSize (UInt32.ofInt b.sockSndBufSize)
  generalize (if b.dataSize < UInt32.ofInt b.sockSndBufSize then b.dataSize
    else UInt32.ofInt b.sockSndBufSize) = sendSize at hmin hwp
  split at hwp
  · exact ((wp_failure _ _).1 hwp).elim
  next sending hsendn =>
  obtain ⟨asked, count, -, hsends⟩ := sendnLoop_spec hsendn
  rw [wp_ite] at hwp
  split at hwp
  · next hret =>
    simp only [wp_bind, wp_set, wp_pure] at hwp
    refine ⟨_, _, hwp, steady_consume h ?_⟩
    obtain ⟨hall, -, -⟩ | ⟨hfail, -⟩ := hsends.outcome
    · rw [hall, ofInt_toInt]
      omega
    · omega
  · rw [wp_pure] at hwp
    exact ⟨_, b, hwp, .refl b⟩

/-! ## Whole calls -/

/-- What every round keeps holds after the loop. -/
theorem kept_of_wp_udpRecvLoop {rounds : List Round} (inv : State → Prop)
    (hround : ∀ round b₁ next b₂, Comes rounds b round b₁ → inv b₁ →
      (udpRound round).run b₁ = some (next, b₂) → inv b₂)
    {post : ℤ → State → Prop} (hwp : wp (udpRecvLoop rounds) post b) (hb : inv b) :
    ∃ ret b', post ret b' ∧ inv b' := by
  induction rounds generalizing b with
  | nil =>
    unfold udpRecvLoop at hwp
    exact ((wp_failure _ _).1 hwp).elim
  | cons round rest ih =>
    obtain ⟨next, b₁, hrun, hnext⟩ := wp_udpRecvLoop_cons.1 hwp
    have hb₁ := hround round b next b₁ .here hb hrun
    cases next with
    | none =>
      exact ih (fun round' b' next' b₂ hcomes ↦ hround round' b' next' b₂ (.later hrun hcomes))
        hnext hb₁
    | some ret => exact ⟨ret, b₁, hnext, hb₁⟩

/-- What every round keeps holds after a call that receives. -/
theorem of_wp_receiving {call : Call} (inv : State → Prop)
    (hcall : (∃ kernel fresh, call = .plain (.recv kernel fresh)) ∨
      ∃ addr rounds, call = .udpRecv addr rounds)
    (hround : ∀ round b₁ next b₂, Comes (call.rounds b) b round b₁ → inv b₁ →
      (udpRound round).run b₁ = some (next, b₂) → inv b₂)
    {post : Result → State → Prop} (hwp : wp call.run post b) (hb : inv b) :
    ∃ result b', post result b' ∧ inv b' := by
  obtain ⟨kernel, fresh, rfl⟩ | ⟨addr, rounds, rfl⟩ := hcall
  · unfold Call.rounds at hround
    dsimp only at hround
    simp only [Call.run, Op.run, wp_bind, wp_pure] at hwp
    rw [wp_recv_iff] at hwp
    split at hwp
    · exact ⟨_, b, hwp, hb⟩
    · next hvalid =>
      rw [if_neg hvalid] at hround
      obtain ⟨next, b₁, hrun, hnext⟩ := hwp
      exact ⟨_, b₁, hnext, hround _ b next b₁ .here hb hrun⟩
  · unfold Call.rounds at hround
    dsimp only at hround
    simp only [Call.run, wp_bind, wp_pure] at hwp
    rw [wp_udpRecv_iff] at hwp
    split at hwp
    · exact ⟨_, b, hwp, hb⟩
    · next hvalid =>
      rw [if_neg hvalid] at hround
      obtain ⟨ret, b', hpost, hb'⟩ := kept_of_wp_udpRecvLoop inv hround hwp hb
      exact ⟨_, b', hpost, hb'⟩

/-- What holds after a round and is kept by the rounds that follow holds after the loop. -/
theorem Comes.of_wp_rest {rounds : List Round} {round : Round} {b₁ : State}
    (h : Comes rounds b round b₁) (inv : State → Prop)
    (hround : ∀ round b₁ next b₂, Comes rounds b round b₁ → inv b₁ →
      (udpRound round).run b₁ = some (next, b₂) → inv b₂)
    {post : ℤ → State → Prop} (hwp : wp (udpRecvLoop rounds) post b) :
    wp (udpRound round) (fun _ b₂ ↦ inv b₂ → ∃ ret b', post ret b' ∧ inv b') b₁ := by
  induction h with
  | here =>
    obtain ⟨next, b₂, hrun, hnext⟩ := wp_udpRecvLoop_cons.1 hwp
    refine ⟨next, b₂, hrun, fun hinv ↦ ?_⟩
    cases next with
    | none =>
      exact kept_of_wp_udpRecvLoop inv
        (fun round' b' next' b'' hcomes ↦ hround round' b' next' b'' (.later hrun hcomes))
        hnext hinv
    | some ret => exact ⟨ret, b₂, hnext, hinv⟩
  | later head _ ih =>
    have hnext := wp_outcome (wp_udpRecvLoop_cons.1 hwp) head
    exact ih (fun round' b' next' b'' hcomes ↦ hround round' b' next' b'' (.later head hcomes))
      hnext

theorem Comes.of_wp_call {call : Call} {round : Round} {b₁ : State}
    (h : Comes (call.rounds b) b round b₁) (inv : State → Prop)
    (hround : ∀ round b₁ next b₂, Comes (call.rounds b) b round b₁ → inv b₁ →
      (udpRound round).run b₁ = some (next, b₂) → inv b₂)
    {post : Result → State → Prop} (hwp : wp call.run post b) :
    wp (udpRound round) (fun _ b₂ ↦ inv b₂ → ∃ result b', post result b' ∧ inv b') b₁ := by
  obtain ⟨round', hone, hwp⟩ | hwp := wp_of_rounds (List.ne_nil_of_mem h.mem) hwp
  · rw [hone] at h
    obtain ⟨rfl, rfl⟩ := h.eq_of_singleton
    apply wp_mono hwp
    intro next b₂ hnext hinv
    exact ⟨_, b₂, hnext, hinv⟩
  · apply wp_mono (h.of_wp_rest inv hround hwp)
    intro next b₂ hrest hinv
    obtain ⟨ret, b', hpost, hb'⟩ := hrest hinv
    exact ⟨_, b', hpost, hb'⟩

/-- The calls that neither write nor receive leave the sizes alone. -/
def Call.Quiet : Call → Prop
  | .plain (.write _ _ _) | .plain (.recv _ _) | .udpRecv _ _ => False
  | _ => True

theorem of_wp_quiet (h : WellFormed b) {call : Call} (hquiet : call.Quiet)
    {post : Result → State → Prop} (hwp : wp call.run post b) :
    ∃ result b', post result b' ∧ Steady b b' := by
  cases call with
  | plain op =>
    cases op with
    | write data size fresh => exact hquiet.elim
    | recv kernel fresh => exact hquiet.elim
    | read data size =>
      simp only [Call.run, Op.run, wp_bind, wp_pure] at hwp
      obtain ⟨value, b', hpost, hsteady⟩ :=
        of_wp_fetch h (fun n hn ↦ steady_consume h hn) hwp
      exact ⟨_, b', hpost, hsteady⟩
    | get data size =>
      simp only [Call.run, Op.run, wp_bind, wp_pure] at hwp
      obtain ⟨value, b', hpost, hsteady⟩ := of_wp_fetch h (fun n hn ↦ .refl b) hwp
      exact ⟨_, b', hpost, hsteady⟩
    | skip size =>
      simp only [Call.run, Op.run, wp_bind, wp_pure] at hwp
      obtain ⟨ret, b', hrun, hpost⟩ := hwp
      have hskip : wp (skip size) (fun _ after ↦ Steady b after) b :=
        wp_skip h (fun _ ↦ .refl b) fun n _ hn ↦ steady_consume h (by omega)
      have hsteady := wp_outcome hskip hrun
      exact ⟨_, b', hpost, hsteady⟩
    | clear =>
      simp only [Call.run, Op.run, wp_bind, wp_pure] at hwp
      obtain ⟨buf, hbuf, -⟩ := h.block
      have hclear : wp clear (fun _ after ↦ Steady b after) b := by
        have hcleared := wp_clear h
        unfold clear at hcleared ⊢
        simp only [wp_bind, wp_get, hbuf, ne_eq, reduceCtorEq, not_false_eq_true, if_true,
          wp_set] at hcleared ⊢
        refine ⟨rfl, rfl, rfl, fun _ ↦ hcleared.1, fun hnone ↦ ?_⟩
        rw [hbuf] at hnone
        cases hnone
      obtain ⟨⟨⟩, b', hrun, hpost⟩ := hwp
      have hsteady := wp_outcome hclear hrun
      exact ⟨_, b', hpost, hsteady⟩
  | udpRecv addr rounds => exact hquiet.elim
  | send answers =>
    simp only [Call.run, wp_bind, wp_pure] at hwp
    obtain ⟨sending, b', hpost, hsteady⟩ := of_wp_send h hwp
    exact ⟨_, b', hpost, hsteady⟩

theorem Call.Quiet.rounds {call : Call} (h : call.Quiet) : call.rounds b = [] := by
  cases call with
  | plain op => cases op <;> first | rfl | exact h.elim
  | udpRecv addr rounds => exact h.elim
  | send answers => rfl

/-- A call leaves the sizes alone, writes or receives. -/
theorem Call.quiet_or (call : Call) : call.Quiet ∨
    (∃ data size fresh, call = .plain (.write data size fresh)) ∨
      (∃ kernel fresh, call = .plain (.recv kernel fresh)) ∨
        ∃ addr rounds, call = .udpRecv addr rounds := by
  cases call with
  | plain op =>
    cases op with
    | write data size fresh => exact .inr (.inl ⟨_, _, _, rfl⟩)
    | recv kernel fresh => exact .inr (.inr (.inl ⟨_, _, rfl⟩))
    | read data size => exact .inl trivial
    | get data size => exact .inl trivial
    | skip size => exact .inl trivial
    | clear => exact .inl trivial
  | udpRecv addr rounds => exact .inr (.inr (.inr ⟨_, _, rfl⟩))
  | send answers => exact .inl trivial

theorem rounds_null (hbuf : b.buf = none) (call : Call) : call.rounds b = [] := by
  cases call with
  | plain op =>
    cases op with
    | recv kernel fresh => exact if_pos (.inl hbuf)
    | write data size fresh => rfl
    | read data size => rfl
    | get data size => rfl
    | skip size => rfl
    | clear => rfl
  | udpRecv addr rounds => exact if_pos (.inl hbuf)
  | send answers => rfl

/-- Without a block no call changes anything. -/
theorem of_wp_null (hbuf : b.buf = none) {call : Call} {post : Result → State → Prop}
    (hwp : wp call.run post b) : ∃ result, post result b := by
  cases call with
  | plain op =>
    cases op with
    | write data size fresh =>
      simp only [Call.run, Op.run, write, wp_bind, wp_pure, wp_get, hbuf] at hwp
      exact ⟨_, hwp⟩
    | recv kernel fresh =>
      simp only [Call.run, Op.run, wp_bind, wp_pure] at hwp
      rw [wp_recv_iff, if_pos (.inl hbuf)] at hwp
      exact ⟨_, hwp⟩
    | read data size =>
      simp only [Call.run, Op.run, read, fetch, wp_bind, wp_pure, wp_get, hbuf] at hwp
      exact ⟨_, hwp⟩
    | get data size =>
      simp only [Call.run, Op.run, Socket.get, fetch, wp_bind, wp_pure, wp_get, hbuf] at hwp
      exact ⟨_, hwp⟩
    | skip size =>
      simp only [Call.run, Op.run, skip, wp_bind, wp_pure, wp_get, hbuf, if_true] at hwp
      exact ⟨_, hwp⟩
    | clear =>
      simp only [Call.run, Op.run, clear, wp_bind, wp_pure, wp_get, hbuf, ne_eq,
        not_true_eq_false, if_false] at hwp
      exact ⟨_, hwp⟩
  | udpRecv addr rounds =>
    simp only [Call.run, wp_bind, wp_pure] at hwp
    rw [wp_udpRecv_iff, if_pos (.inl hbuf)] at hwp
    exact ⟨_, hwp⟩
  | send answers =>
    simp only [Call.run, Socket.send, wp_bind, wp_pure, wp_get, hbuf] at hwp
    exact ⟨_, hwp⟩

end

end Zbaselib.Socket
