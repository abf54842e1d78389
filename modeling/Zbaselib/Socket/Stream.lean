import Zbaselib.Socket.Refinement

/-!
# The byte stream that a socket buffer sends

The peer should see the written bytes, each once and in order.  `sendn` forgets
how much the kernel took when it ends with an error, and the read position
stays behind: these bytes are sent once more by the next call.  Nothing else
disturbs the stream.
-/

namespace Zbaselib.Socket

open Program Block Transition

/-! ## One call of `sendn` -/

/-- What a call did that got these answers: a prefix was accepted, all of it unless the kernel
answered with an error. -/
structure Sends (size : UInt32) (ptr : List UInt8) (nleft : ℤ) (asked : List Sent) (count : ℕ)
    (sending : Sending) : Prop where
  count_le : count ≤ ptr.length
  accepted_eq : sending.accepted = ptr.take count
  count_eq_zero : count = 0 ↔ ∀ n, Sent.accepted n ∉ asked
  outcome : sending.ret = toInt size ∧ Sent.error ∉ asked ∧ count = nleft.toNat ∨
    sending.ret = -1 ∧ Sent.error ∈ asked

theorem sends_done {size : UInt32} {ptr : List UInt8} {nleft : ℤ} {rest : List Sent}
    (h : ¬nleft > 0) : Sends size ptr nleft [] 0 ⟨toInt size, [], rest⟩ :=
  ⟨Nat.zero_le _, rfl, by simp, Or.inl ⟨rfl, by simp, by omega⟩⟩

theorem sendnLoop_spec {size : UInt32} {ptr : List UInt8} {nleft : ℤ} {answers : List Sent}
    {sending : Sending} (h : sendnLoop size ptr nleft answers = some sending) :
    ∃ asked count, answers = asked ++ sending.rest ∧ Sends size ptr nleft asked count sending := by
  induction answers generalizing ptr nleft sending with
  | nil =>
    unfold sendnLoop at h
    split at h
    · cases h
    · next hle =>
      cases h
      exact ⟨[], 0, rfl, sends_done hle⟩
  | cons answer rest ih =>
    unfold sendnLoop at h
    split at h
    · next hpos =>
      cases answer with
      | accepted nwritten =>
        dsimp only at h
        split at h
        · next hcount =>
          obtain ⟨hpositive, hleft, hptr⟩ := hcount
          obtain ⟨sending', hloop, rfl⟩ := Option.map_eq_some_iff.1 h
          obtain ⟨asked, count, hrest, hle, haccepted, hzero, houtcome⟩ := ih hloop
          rw [List.length_drop] at hle
          refine ⟨.accepted nwritten :: asked, nwritten + count, by rw [hrest]; rfl, by omega,
            ?_, ⟨fun h ↦ by omega, fun h ↦ absurd List.mem_cons_self (h nwritten)⟩, ?_⟩
          · rw [haccepted, List.take_add]
          · apply houtcome.imp
            · rintro ⟨hret, hno, hall⟩
              exact ⟨hret, by simpa using hno, by omega⟩
            · rintro ⟨hret, herror⟩
              exact ⟨hret, List.mem_cons_of_mem _ herror⟩
        · cases h
      | wouldBlock =>
        obtain ⟨asked, count, hrest, hle, haccepted, hzero, houtcome⟩ := ih h
        exact ⟨.wouldBlock :: asked, count, by rw [hrest]; rfl, hle, haccepted,
          by simpa using hzero,
          by simpa using houtcome⟩
      | error =>
        cases h
        exact ⟨[.error], 0, rfl, Nat.zero_le _, rfl, by simp, Or.inr ⟨rfl, by simp⟩⟩
    · next hle =>
      cases h
      exact ⟨[], 0, rfl, sends_done hle⟩

/-! ## The operations -/

theorem toNat_of_toInt_pos {n : UInt32} (h : toInt n > 0) : (toInt n).toNat = n.toNat := by
  have hlt := n.toNat_lt
  unfold toInt asInt at h ⊢
  split at h
  · next hsmall => rw [if_pos hsmall, Int.toNat_natCast]
  · omega

section

variable {b b' : State}

/-- A `send` that ends without an error moves on by what the kernel took; after an error nothing
moves, whatever the kernel took before. -/
theorem send_outcome (h : WellFormed b) {answers : List Sent} {ret : ℤ} {accepted : List UInt8}
    (hrun : (send answers).run b = some (⟨ret, accepted, []⟩, b')) :
    WellFormed b' ∧
      ((Sent.error ∉ answers ∧ accepted ++ content b' = content b) ∨
        (Sent.error ∈ answers ∧ content b' = content b ∧
          (accepted = [] ↔ ∀ n, Sent.accepted n ∉ answers))) := by
  obtain ⟨buf, hbuf, hlen⟩ := h.block
  have hidle : Sent.error ∉ ([] : List Sent) ∧ [] ++ content b = content b := ⟨by simp, rfl⟩
  have hwp : wp (send answers) (fun sending after ↦ sending = ⟨ret, accepted, []⟩ ∧ after = b') b :=
    ⟨_, _, hrun, rfl, rfl⟩
  unfold send at hwp
  simp only [wp_bind, wp_get, hbuf] at hwp
  rw [wp_ite] at hwp
  split at hwp
  · obtain ⟨⟨⟩, rfl⟩ := (wp_pure _ _ _).1 hwp
    exact ⟨h, Or.inl hidle⟩
  rw [wp_ite] at hwp
  split at hwp
  · obtain ⟨⟨⟩, rfl⟩ := (wp_pure _ _ _).1 hwp
    exact ⟨h, Or.inl hidle⟩
  have hmin := toNat_min b.dataSize (UInt32.ofInt b.sockSndBufSize)
  generalize (if b.dataSize < UInt32.ofInt b.sockSndBufSize then b.dataSize
    else UInt32.ofInt b.sockSndBufSize) = sendSize at hmin hwp
  split at hwp
  · exact ((wp_failure _ _).1 hwp).elim
  next sending hsendn =>
  obtain ⟨asked, count, hanswers, hsends⟩ := sendnLoop_spec hsendn
  have haccepted := hsends.accepted_eq
  have hlength := h.length_content
  have hptr : buf.drop b.rpos.toNat = content b ++ buf.drop b.wpos.toNat := by
    have hwpos := h.wpos_eq
    have hle := h.wpos_le
    calc buf.drop b.rpos.toNat
        = (buf.take b.wpos.toNat ++ buf.drop b.wpos.toNat).drop b.rpos.toNat := by
          rw [List.take_append_drop]
      _ = content b ++ buf.drop b.wpos.toNat := by
          rw [List.drop_append_of_le_length (by rw [List.length_take]; omega), content, hbuf,
            Option.getD_some]
  rw [wp_ite] at hwp
  split at hwp
  · next hret =>
    simp only [wp_bind, wp_set, wp_pure, Sending.mk.injEq] at hwp
    obtain ⟨⟨rfl, rfl, hrest⟩, rfl⟩ := hwp
    rw [hrest, List.append_nil] at hanswers
    subst hanswers
    obtain ⟨hall, hno, hcount⟩ | ⟨hfail, -⟩ := hsends.outcome
    · have hsmall := toNat_of_toInt_pos (hall ▸ hret)
      obtain ⟨h', hcontent⟩ := h.consume (show sendSize.toNat ≤ b.dataSize.toNat by omega)
      rw [hall, ofInt_toInt]
      refine ⟨h', Or.inl ⟨hno, ?_⟩⟩
      rw [haccepted, hcontent, hcount, hsmall, hptr, List.take_append_of_le_length (by omega),
        List.take_append_drop]
    · omega
  · next hret =>
    simp only [wp_pure, Sending.mk.injEq] at hwp
    obtain ⟨⟨rfl, rfl, hrest⟩, rfl⟩ := hwp
    rw [hrest, List.append_nil] at hanswers
    subst hanswers
    refine ⟨h, ?_⟩
    obtain ⟨hall, hno, hcount⟩ | ⟨hfail, herror⟩ := hsends.outcome
    · refine Or.inl ⟨hno, ?_⟩
      rw [haccepted, hcount, show (toInt sendSize).toNat = 0 by omega]
      rfl
    · refine Or.inr ⟨herror, rfl, ?_⟩
      rw [haccepted, ← hsends.count_eq_zero, List.take_eq_nil_iff]
      have hle := hsends.count_le
      constructor
      · rintro (hzero | hnil)
        · exact hzero
        · rw [hnil] at hle
          exact Nat.le_zero.1 hle
      · exact Or.inl

theorem toNat_lt_of_sizeT {n : UInt32} (h : sizeT (toInt n) < 2 ^ 63) : n.toNat < 2 ^ 31 := by
  have hlt := n.toNat_lt
  by_contra hbig
  unfold sizeT toInt asInt at h
  rw [if_neg hbig] at h
  omega

/-- An allocation that went through had room for what it was made for. -/
theorem fits_of_grow {extra : UInt32} {fresh : Option (ℕ → UInt8)} {data : List UInt8}
    (h : WellFormed b) (hover : b.bufSize.toNat < b.wpos.toNat + extra.toNat)
    (hwp : wp (grow extra fresh) (fun _ b₁ ↦ wp (append data extra) (fun _ _ ↦ True) b₁) b) :
    Fits extra fresh b ∧ extra.toNat ≤ data.length := by
  obtain ⟨buf, hbuf, hlen⟩ := h.block
  unfold grow append at hwp
  simp only [wp_bind, wp_get, hbuf, wp_set] at hwp
  cases hrealloc : realloc buf (sizeT (toInt (b.bufSize + (b.bufSize >>> 1) + extra))) fresh with
  | none =>
    rw [hrealloc] at hwp
    exact ((wp_failure _ _).1 hwp).elim
  | some buf' =>
    obtain ⟨hsize, hfresh, hlen'⟩ := of_realloc_eq_some hrealloc
    rw [hrealloc] at hwp
    simp only [wp_bind, wp_memcpy] at hwp
    obtain ⟨⟨hroom, hdata⟩, -⟩ := hwp
    have hsmall := toNat_lt_of_sizeT hsize
    rw [hlen', sizeT_toInt hsmall] at hroom
    have hhalf : (b.bufSize >>> 1).toNat = b.bufSize.toNat / 2 := by
      rw [UInt32.toNat_shiftRight, Nat.shiftRight_eq_div_pow]
      rfl
    rw [UInt32.toNat_add, UInt32.toNat_add, hhalf] at hsmall hroom
    have hlt := b.bufSize.toNat_lt
    have hextra := extra.toNat_lt
    exact ⟨⟨by omega, hfresh⟩, by omega⟩

/-- A `write` that comes back computed no size that wrapped. -/
theorem fits_of_write (h : WellFormed b) {data : List UInt8} {size : UInt32}
    {fresh : Option (ℕ → UInt8)}
    (hwp : wp (write (some data) size fresh) (fun _ _ ↦ True) b) :
    b.wpos.toNat + size.toNat < 2 ^ 32 ∧
      ((b.bufSize.toNat < b.dataSize.toNat + size.toNat → b.bufSize ≤ b.bufMaxSize) →
        size.toNat ≤ data.length) ∧
      (b.bufSize.toNat < b.dataSize.toNat + size.toNat → b.bufSize ≤ b.bufMaxSize →
        Fits size fresh b) := by
  obtain ⟨buf, hbuf, hlen⟩ := h.block
  have hwpos := h.wpos_eq
  have hle := h.wpos_le
  unfold write at hwp
  simp only [wp_bind, wp_get, hbuf] at hwp
  have hsum : b.wpos.toNat + size.toNat < 2 ^ 32 := by
    by_contra hwrap
    have hlt := b.bufSize.toNat_lt
    have hsize := size.toNat_lt
    -- the sum wraps to a small number, so that the copy runs over the end of the block
    have hno : ¬b.wpos + size > b.bufSize := by
      rw [gt_iff_lt, UInt32.lt_iff_toNat_lt, UInt32.toNat_add]
      omega
    unfold compactFor append at hwp
    simp only [wp_bind, wp_get, hno, false_and, if_false, wp_pure, hbuf, wp_memcpy] at hwp
    omega
  refine ⟨hsum, ?_⟩
  have hcompact : wp (compactFor size) (fun _ b₁ ↦ WellFormed b₁ ∧ b₁.bufSize = b.bufSize ∧
      b₁.bufMaxSize = b.bufMaxSize ∧ b₁.wpos.toNat + size.toNat < 2 ^ 32 ∧
      (b.bufSize.toNat < b₁.wpos.toNat + size.toNat ↔
        b.bufSize.toNat < b.dataSize.toNat + size.toNat)) b :=
    wp_compactFor h hsum fun b₁ h₁ _ hsize hmax hsum₁ hover ↦ ⟨h₁, hsize, hmax, hsum₁, hover⟩
  obtain ⟨-, b₁, -, hrest, h₁, hsize, hmax, hsum₁, hover⟩ := wp_and hwp hcompact
  rw [← hover, ← hmax, ← hsize]
  unfold Fits
  rw [← hsize]
  by_cases hgrow : b₁.bufSize.toNat < b₁.wpos.toNat + size.toNat
  · rw [wp_ite, if_pos ((lt_add_iff hsum₁).2 hgrow), wp_ite] at hrest
    split at hrest
    · next hgt =>
      exact ⟨fun hroom ↦ absurd hgt (UInt32.not_lt.2 (hroom hgrow)),
        fun _ hroom ↦ absurd hgt (UInt32.not_lt.2 hroom)⟩
    · simp only [wp_bind, wp_pure] at hrest
      obtain ⟨hfits, hdata⟩ := fits_of_grow h₁ hgrow hrest
      exact ⟨fun _ ↦ hdata, fun _ _ ↦ hfits⟩
  · rw [wp_ite, if_neg fun hgt ↦ hgrow ((lt_add_iff hsum₁).1 hgt)] at hrest
    obtain ⟨buf₁, hbuf₁, -⟩ := h₁.block
    unfold append at hrest
    simp only [wp_bind, wp_get, hbuf₁, wp_memcpy] at hrest
    exact ⟨fun _ ↦ by omega, fun hlt ↦ absurd hlt hgrow⟩

theorem write_outcome (h : WellFormed b) {data : List UInt8} {size : UInt32}
    {fresh : Option (ℕ → UInt8)} {ret : ℤ}
    (hrun : (write (some data) size fresh).run b = some (ret, b')) :
    WellFormed b' ∧ ((ret = 0 ∧ content b' = content b ++ data.take size.toNat) ∨
      (ret = -2 ∧ content b' = content b)) := by
  obtain ⟨hsum, hdata, hfits⟩ := fits_of_write h ⟨_, _, hrun, trivial⟩
  have hwp : wp (write (some data) size fresh) (fun ret b' ↦ WellFormed b' ∧
      ((ret = 0 ∧ content b' = content b ++ data.take size.toNat) ∨
        (ret = -2 ∧ content b' = content b))) b :=
    wp_write h hdata hsum hfits (fun _ _ b' h' hcontent ↦ ⟨h', Or.inr ⟨rfl, hcontent⟩⟩)
      fun _ b' h' hcontent ↦ ⟨h', Or.inl ⟨rfl, hcontent⟩⟩
  have houtcome := wp_outcome hwp hrun
  exact houtcome

/-! ## Without a block -/

theorem write_null (hbuf : b.buf = none) {data : List UInt8} {size : UInt32}
    {fresh : Option (ℕ → UInt8)} {ret : ℤ}
    (hrun : (write (some data) size fresh).run b = some (ret, b')) : ret = -1 ∧ b' = b := by
  have hwp : wp (write (some data) size fresh) (fun ret b' ↦ ret = -1 ∧ b' = b) b := by
    unfold write
    simp only [wp_bind, wp_get, hbuf, wp_pure, and_self]
  have houtcome := wp_outcome hwp hrun
  exact houtcome

theorem send_null (hbuf : b.buf = none) {answers : List Sent} {sending : Sending}
    (hrun : (send answers).run b = some (sending, b')) :
    sending = ⟨-2, [], answers⟩ ∧ b' = b := by
  have hwp : wp (send answers) (fun sending b' ↦ sending = ⟨-2, [], answers⟩ ∧ b' = b) b := by
    unfold send
    simp only [wp_bind, wp_get, hbuf, wp_pure, and_self]
  have houtcome := wp_outcome hwp hrun
  exact houtcome

end

/-! ## Runs -/

/-- The buffer, what the kernel took from it and what was written into it. -/
structure Stream where
  buffer : State
  sent : List UInt8
  written : List UInt8

inductive StreamOp
  | write (data : List UInt8) (size : UInt32) (fresh : Option (ℕ → UInt8))
  | send (answers : List Sent)

/-- The answers of a `send` are those that the call asked for. -/
inductive StreamStep : StreamOp × ℤ → Stream → Stream → Prop
  | write {s : Stream} {data : List UInt8} {size : UInt32} {fresh : Option (ℕ → UInt8)} {ret : ℤ}
      {b' : State} (h : (write (some data) size fresh).run s.buffer = some (ret, b')) :
      StreamStep (.write data size fresh, ret) s
        ⟨b', s.sent, if ret = 0 then s.written ++ data.take size.toNat else s.written⟩
  | send {s : Stream} {answers : List Sent} {ret : ℤ} {accepted : List UInt8} {b' : State}
      (h : (send answers).run s.buffer = some (⟨ret, accepted, []⟩, b')) :
      StreamStep (.send answers, ret) s ⟨b', s.sent ++ accepted, s.written⟩

/-- No byte is lost, sent twice or out of order. -/
def Conserved (s : Stream) : Prop := s.sent ++ content s.buffer = s.written

/-- No call gets an error from the kernel after the kernel took bytes in the same call. -/
def Clean : StreamOp → Prop
  | .write _ _ _ => True
  | .send answers => Sent.error ∈ answers → ∀ n, Sent.accepted n ∉ answers

/-- The block of a buffer was never there, or it is there for good. -/
def Sound (s : Stream) : Prop := s.buffer.buf = none ∨ WellFormed s.buffer

/-- **One step**: the stream survives it exactly when the step is clean. -/
theorem conserved_step {s s' : Stream} {label : StreamOp × ℤ} (h : Sound s)
    (hconserved : Conserved s) (hstep : StreamStep label s s') :
    Sound s' ∧ (Conserved s' ↔ Clean label.1) := by
  unfold Conserved at hconserved
  cases hstep with
  | @write _ data size fresh ret b' hrun =>
    simp only [Clean, iff_true]
    obtain hnull | h := h
    · obtain ⟨rfl, rfl⟩ := write_null hnull hrun
      exact ⟨Or.inl hnull, hconserved⟩
    obtain ⟨h', ⟨rfl, hcontent⟩ | ⟨rfl, hcontent⟩⟩ := write_outcome h hrun
    · refine ⟨Or.inr h', ?_⟩
      simp only [Conserved, if_true, hcontent, ← List.append_assoc, hconserved]
    · refine ⟨Or.inr h', ?_⟩
      simp only [Conserved, hcontent, hconserved, Int.reduceNeg, Int.reduceEq, if_false]
  | @send _ answers ret accepted b' hrun =>
    obtain hnull | h := h
    · obtain ⟨hsending, rfl⟩ := send_null hnull hrun
      cases hsending
      refine ⟨Or.inl hnull, iff_of_true ?_ (by simp [Clean])⟩
      simp only [Conserved, List.append_nil, hconserved]
    obtain ⟨h', ⟨hno, hcontent⟩ | ⟨herror, hcontent, hnil⟩⟩ := send_outcome h hrun
    · refine ⟨Or.inr h', iff_of_true ?_ fun herror ↦ absurd herror hno⟩
      simp only [Conserved, List.append_assoc, hcontent, hconserved]
    · refine ⟨Or.inr h', ?_⟩
      have hkept : s.sent ++ accepted ++ content b' = s.written ↔ accepted = [] := by
        rw [hcontent, ← hconserved, List.append_assoc, List.append_cancel_left_eq,
          List.append_left_eq_self]
      simp only [Conserved, Clean, hkept, hnil, herror, forall_true_left]

/-- **The stream is conserved as long as every step is clean**, and no longer. -/
theorem conserved_of_clean {handle block : Bool} {sndBuf : Option ℤ} {bufSize bufMaxSize : UInt32}
    {sock : ℤ} {b₀ : State} (hcreate : create handle block sndBuf bufSize bufMaxSize sock = some b₀)
    {labels : List (StreamOp × ℤ)} {s : Stream} (hrun : Run StreamStep labels ⟨b₀, [], []⟩ s)
    (hclean : ∀ label ∈ labels, Clean label.1) :
    Conserved s ∧ ∀ label s', StreamStep label s s' → (Conserved s' ↔ Clean label.1) := by
  have hstart : Sound ⟨b₀, [], []⟩ ∧ Conserved ⟨b₀, [], []⟩ := by
    cases block with
    | true =>
      obtain ⟨h₀, hempty⟩ := wellFormed_create hcreate
      exact ⟨Or.inr h₀, hempty⟩
    | false =>
      unfold create at hcreate
      split at hcreate
      · cases hcreate
        exact ⟨Or.inl rfl, rfl⟩
      · cases hcreate
  have hs : Sound s ∧ Conserved s := by
    generalize Stream.mk b₀ [] [] = s₀ at hrun hstart
    induction hrun with
    | nil => exact hstart
    | cons head _ ih =>
      obtain ⟨hsound, hiff⟩ := conserved_step hstart.1 hstart.2 head
      exact ih (fun label hlabel ↦ hclean label (List.mem_cons_of_mem _ hlabel))
        ⟨hsound, hiff.2 (hclean _ List.mem_cons_self)⟩
  exact ⟨hs.2, fun label s' hstep ↦ (conserved_step hs.1 hs.2 hstep).2⟩

def streamStart : State := ⟨0, some [0, 0, 0, 0], 4, 16, 0, 0, 0, 4096⟩

theorem stream_create : create true true none 4 16 0 = some streamStart := rfl

/-- Partial answers and an error before anything was sent do no harm. -/
def patientLabels : List (StreamOp × ℤ) :=
  [(.write [1, 2, 3] 3 none, 0), (.send [.wouldBlock, .error], -1),
    (.send [.accepted 2, .wouldBlock, .accepted 1], 0)]

theorem patient_run : Run StreamStep patientLabels ⟨streamStart, [], []⟩
    ⟨⟨0, some [1, 2, 3, 0], 4, 16, 0, 0, 0, 4096⟩, [1, 2, 3], [1, 2, 3]⟩ :=
  .cons (.write rfl) <| .cons (.send rfl) <| .cons (.send rfl) <| .nil _

theorem conserved_of_clean_patient :
    Conserved ⟨⟨0, some [1, 2, 3, 0], 4, 16, 0, 0, 0, 4096⟩, [1, 2, 3], [1, 2, 3]⟩ :=
  (conserved_of_clean stream_create patient_run (by simp [patientLabels, Clean])).1

/-- The kernel takes one byte and then reports an error.  The next call sends that byte again. -/
def resendLabels : List (StreamOp × ℤ) :=
  [(.write [1, 2] 2 none, 0), (.send [.accepted 1, .error], -1), (.send [.accepted 2], 0)]

def resendEnd : Stream := ⟨⟨0, some [1, 2, 0, 0], 4, 16, 0, 0, 0, 4096⟩, [1, 1, 2], [1, 2]⟩

theorem duplicated_resend :
    create true true none 4 16 0 = some streamStart ∧
      Run StreamStep resendLabels ⟨streamStart, [], []⟩ resendEnd ∧ ¬Conserved resendEnd :=
  ⟨rfl, .cons (.write rfl) <| .cons (.send rfl) <| .cons (.send rfl) <| .nil _,
    by unfold Conserved resendEnd content; decide⟩

end Zbaselib.Socket
