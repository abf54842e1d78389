import Zbaselib.Socket.Rounds

/-!
# Two socket buffers and the connection between them

One buffer writes and sends, the other receives and is read.  Between them the
kernels keep the bytes that were accepted and not yet handed over, in order.
Any calls of the two sides may alternate.  Bytes are lost or doubled by three
kinds of calls only: a `send` that fails after a part was accepted, a `recv`
that fails to grow a full buffer, and a `read` or `skip` of more bytes than an
`int` counts.
-/

namespace Zbaselib.Socket

open Program Block Transition

/-- The two buffers, the bytes in flight, what was written on one side and what was taken on the
other. -/
structure Link where
  sender : State
  wire : List UInt8
  receiver : State
  taken : List UInt8
  written : List UInt8

inductive LinkOp
  | write (data : List UInt8) (size : UInt32) (fresh : Option (ℕ → UInt8))
  | send (answers : List Sent)
  | recv (kernel : Kernel) (fresh : Option (ℕ → UInt8))
  | read (data : List UInt8) (size : UInt32)
  | get (data : List UInt8) (size : UInt32)
  | skip (size : UInt32)

/-- The kernel hands over the front of the wire, and no more in one call than an `int` counts. -/
structure Delivers (wire : List UInt8) (kernel : Kernel) : Prop where
  front : ∀ window, (kernel.answer window).bytes <+: wire
  count : ∀ window, (kernel.answer window).bytes.length < 2 ^ 31

/-- The bytes that leave the kernel in a call of `recv`: the answer to the window that it offers.
Nothing goes to a null buffer. -/
def handed (kernel : Kernel) (fresh : Option (ℕ → UInt8)) (b : State) : List UInt8 :=
  if b.buf = none ∨ b.sock < 0 then []
  else
    match (reserve fresh).run b with
    | some (true, b₁) =>
      if b₁.buf = none then []
      else (kernel.answer (sizeT (toInt (b₁.bufSize - b₁.wpos)))).bytes
    | _ => []

/-- The bytes of a `skip` are taken, too. -/
inductive LinkStep : LinkOp × Result → Link → Link → Prop
  | write {s : Link} {data : List UInt8} {size : UInt32} {fresh : Option (ℕ → UInt8)} {ret : ℤ}
      {b' : State} (h : (write (some data) size fresh).run s.sender = some (ret, b')) :
      LinkStep (.write data size fresh, ⟨ret, none⟩) s
        { s with
          sender := b'
          written := if ret = 0 then s.written ++ data.take size.toNat else s.written }
  | send {s : Link} {answers : List Sent} {ret : ℤ} {accepted : List UInt8} {b' : State}
      (h : (send answers).run s.sender = some (⟨ret, accepted, []⟩, b')) :
      LinkStep (.send answers, ⟨ret, none⟩) s
        { s with sender := b', wire := s.wire ++ accepted }
  | recv {s : Link} {kernel : Kernel} {fresh : Option (ℕ → UInt8)} {ret : ℤ} {b' : State}
      (hdelivers : Delivers s.wire kernel)
      (h : (recv kernel fresh).run s.receiver = some (ret, b')) :
      LinkStep (.recv kernel fresh, ⟨ret, none⟩) s
        { s with
          receiver := b'
          wire := s.wire.drop (handed kernel fresh s.receiver).length }
  | read {s : Link} {data data' : List UInt8} {size : UInt32} {ret : ℤ} {b' : State}
      (h : (read (some data) size).run s.receiver = some ((ret, some data'), b')) :
      LinkStep (.read data size, ⟨ret, some data'⟩) s
        { s with receiver := b', taken := s.taken ++ data'.take ret.toNat }
  | get {s : Link} {data : List UInt8} {size : UInt32} {value : ℤ × Option (List UInt8)}
      {b' : State} (h : (get (some data) size).run s.receiver = some (value, b')) :
      LinkStep (.get data size, ⟨value.1, value.2⟩) s { s with receiver := b' }
  | skip {s : Link} {size : UInt32} {ret : ℤ} {b' : State}
      (h : (skip size).run s.receiver = some (ret, b')) :
      LinkStep (.skip size, ⟨ret, none⟩) s
        { s with receiver := b', taken := s.taken ++ (content s.receiver).take ret.toNat }

/-- Every byte that was written is in exactly one place, and all are in order. -/
def Link.Conserved (s : Link) : Prop :=
  s.taken ++ content s.receiver ++ s.wire ++ content s.sender = s.written

/-- A full buffer that may grow has the memory for it. -/
def Grows (fresh : Option (ℕ → UInt8)) (b : State) : Prop :=
  0 ≤ b.sock → b.dataSize = b.bufSize → b.bufSize ≤ b.bufMaxSize →
    Fits ZBASELIB_SKBUFFER_MIN_NUM fresh b

/-- The call neither loses nor doubles a byte. -/
def Link.Clean (s : Link) : LinkOp → Prop
  | .send answers => Sent.error ∈ answers → ∀ n, Sent.accepted n ∉ answers
  | .recv _ fresh => s.receiver.buf ≠ none → Grows fresh s.receiver
  | .read _ size | .skip size =>
      s.receiver.buf ≠ none → min size.toNat s.receiver.dataSize.toNat < 2 ^ 31
  | .write _ _ _ | .get _ _ => True

def CleanStep (label : LinkOp × Result) (s s' : Link) : Prop :=
  s.Clean label.1 ∧ LinkStep label s s'

/-- The block of a buffer was never there, or the buffer is well formed and has room. -/
def Ready (b : State) : Prop := b.buf = none ∨ WellFormed b ∧ 0 < b.bufSize.toNat

section

variable {b b' : State} {kernel : Kernel} {fresh : Option (ℕ → UInt8)}

/-! ## Receiving -/

theorem handed_of_wp_reserve (hvalid : ¬(b.buf = none ∨ b.sock < 0)) {b₁ : State}
    (hreserve : (reserve fresh).run b = some (true, b₁)) (hbuf : b₁.buf ≠ none) :
    handed kernel fresh b = (kernel.answer (sizeT (toInt (b₁.bufSize - b₁.wpos)))).bytes := by
  unfold handed
  rw [if_neg hvalid, hreserve]
  exact if_neg hbuf

/-- The bytes that a buffer with a block gets follow those that are there. -/
theorem receive_outcome (h : WellFormed b)
    (hcount : ∀ window, (kernel.answer window).bytes.length < 2 ^ 31) {answer : Received}
    (hrun : (receive kernel).run b = some (answer, b')) :
    Steady b b' ∧ WellFormed b' ∧ content b' = content b ++
      (kernel.answer (sizeT (toInt (b.bufSize - b.wpos)))).bytes := by
  have hwp : wp (receive kernel) (fun _ after ↦ after = b') b := ⟨_, _, hrun, rfl⟩
  obtain ⟨buf, hbuf, -⟩ := h.block
  have hlength := hcount (sizeT (toInt (b.bufSize - b.wpos)))
  unfold receive at hwp
  rw [wp_bind, wp_get] at hwp
  dsimp only at hwp
  generalize kernel.answer (sizeT (toInt (b.bufSize - b.wpos))) = answer' at hwp hlength
  rw [wp_ite] at hwp
  split at hwp
  · next hnil =>
    rw [wp_pure] at hwp
    subst hwp
    exact ⟨.refl b, h, by rw [hnil, List.append_nil]⟩
  · rw [wp_ite, if_neg (by simp [hbuf]), wp_bind] at hwp
    simp only [wp_pure] at hwp
    obtain ⟨-, -, after, rfl, hsteady, -, hcontent⟩ := of_wp_append h hwp
    have hsize : (UInt32.ofNat answer'.bytes.length).toNat = answer'.bytes.length :=
      UInt32.toNat_ofNat_of_lt' (show _ < 2 ^ 32 by omega)
    rw [hsize, List.take_length] at hcontent
    exact ⟨hsteady, hsteady.wellFormed h, hcontent⟩

/-- A growth without memory, or with a size that wraps, leaves fewer bytes than there were. -/
theorem length_content_grown_lt (h : WellFormed b) (hpos : 0 < b.bufSize.toNat)
    (hfull : b.dataSize = b.bufSize) {buf : List UInt8}
    (hfits : ¬Fits ZBASELIB_SKBUFFER_MIN_NUM fresh b) :
    (∀ buf', (grown b buf ZBASELIB_SKBUFFER_MIN_NUM fresh).buf = some buf' →
        buf'.length < (grown b buf ZBASELIB_SKBUFFER_MIN_NUM fresh).wpos.toNat) ∧
      (content (grown b buf ZBASELIB_SKBUFFER_MIN_NUM fresh)).length < (content b).length := by
  have hwpos := h.wpos_eq
  have hle := h.wpos_le
  have hdata := congrArg UInt32.toNat hfull
  have hshort (buf' : List UInt8)
      (hbuf' : (grown b buf ZBASELIB_SKBUFFER_MIN_NUM fresh).buf = some buf') :
      buf'.length < b.wpos.toNat := by
    obtain ⟨hsize, hfresh, hlen⟩ := of_realloc_eq_some hbuf'
    have hsmall := toNat_lt_of_sizeT hsize
    have hbig : ¬grownTo b ZBASELIB_SKBUFFER_MIN_NUM < 2 ^ 31 := fun hlt ↦ hfits ⟨hlt, hfresh⟩
    have hgrown : (grownSize b ZBASELIB_SKBUFFER_MIN_NUM).toNat =
        grownTo b ZBASELIB_SKBUFFER_MIN_NUM % 2 ^ 32 := toNat_grownSize
    have hextra : ZBASELIB_SKBUFFER_MIN_NUM.toNat = 64 := rfl
    have hlt := b.bufSize.toNat_lt
    rw [hlen, sizeT_toInt hsmall, hgrown]
    unfold grownTo at hbig hgrown ⊢
    omega
  refine ⟨hshort, ?_⟩
  rw [h.length_content]
  cases hbuf' : (grown b buf ZBASELIB_SKBUFFER_MIN_NUM fresh).buf with
  | none =>
    simp only [content, hbuf', Option.getD_none, List.take_nil, List.drop_nil, List.length_nil]
    omega
  | some buf' =>
    have hless := hshort buf' hbuf'
    have hrpos : (grown b buf ZBASELIB_SKBUFFER_MIN_NUM fresh).rpos = b.rpos := rfl
    simp only [content, hbuf', hrpos, Option.getD_some, List.length_drop, List.length_take]
    omega

/-- **One `recv`** keeps what is there and adds what was handed over, unless a growth goes wrong:
then bytes are gone. -/
theorem recv_outcome (h : WellFormed b) (hpos : 0 < b.bufSize.toNat)
    (hcount : ∀ window, (kernel.answer window).bytes.length < 2 ^ 31) {ret : ℤ}
    (hrun : (recv kernel fresh).run b = some (ret, b')) :
    (Grows fresh b → WellFormed b' ∧ 0 < b'.bufSize.toNat ∧
        content b' = content b ++ handed kernel fresh b) ∧
      (¬Grows fresh b → (content b').length < (content b).length) := by
  have hwp : wp (recv kernel fresh) (fun _ after ↦ after = b') b := ⟨_, _, hrun, rfl⟩
  obtain ⟨buf, hbuf, -⟩ := h.block
  rw [wp_recv_iff] at hwp
  by_cases hvalid : b.buf = none ∨ b.sock < 0
  · have hinvalid : b.sock < 0 := hvalid.resolve_left (by simp [hbuf])
    have hnone : handed kernel fresh b = [] := if_pos hvalid
    rw [if_pos hvalid] at hwp
    subst hwp
    refine ⟨fun _ ↦ ⟨h, hpos, by rw [hnone, List.append_nil]⟩, fun hno ↦ ?_⟩
    exact absurd (fun hsock ↦ absurd hinvalid (not_lt.2 hsock)) hno
  rw [if_neg hvalid] at hwp
  have hsock : 0 ≤ b.sock := by
    rw [not_or] at hvalid
    exact not_lt.1 hvalid.2
  unfold udpRound at hwp
  rw [wp_bind] at hwp
  -- the kernel answers in a state with a block
  have harrive {b₁ : State} (h₁ : WellFormed b₁) (hpos₁ : 0 < b₁.bufSize.toNat)
      (hcontent₁ : content b₁ = content b) (hreserve : (reserve fresh).run b = some (true, b₁))
      {answer : Received} (hreceive : (receive kernel).run b₁ = some (answer, b')) :
      WellFormed b' ∧ 0 < b'.bufSize.toNat ∧ content b' = content b ++ handed kernel fresh b := by
    obtain ⟨buf₁, hbuf₁, -⟩ := h₁.block
    obtain ⟨hsteady, h', hcontent⟩ := receive_outcome h₁ hcount hreceive
    refine ⟨h', by rwa [hsteady.bufSize_eq], ?_⟩
    rw [hcontent, hcontent₁, handed_of_wp_reserve hvalid hreserve (by simp [hbuf₁])]
  obtain ⟨room, b₁, hreserve, hnext⟩ := hwp
  by_cases hdata : b.dataSize = b.bufSize
  · obtain ⟨hend, hfront⟩ := (full_iff h).1 hdata
    have hreserved : wp (reserve fresh) (fun room' after ↦ room' = room ∧ after = b₁) b :=
      ⟨_, _, hreserve, rfl, rfl⟩
    by_cases hmax : b.bufSize > b.bufMaxSize
    · rw [wp_reserve_refused hend hfront hmax] at hreserved
      obtain ⟨rfl, rfl⟩ := hreserved
      have hnone : handed kernel fresh b = [] := by
        unfold handed
        rw [if_neg hvalid, hreserve]
      simp only [Bool.false_eq_true, if_false, wp_pure] at hnext
      subst hnext
      refine ⟨fun _ ↦ ⟨h, hpos, by rw [hnone, List.append_nil]⟩, fun hno ↦ ?_⟩
      exact absurd (fun _ _ hle ↦ absurd hmax (UInt32.not_lt.2 hle)) hno
    · obtain ⟨buf', hbuf', rfl, rfl⟩ := of_wp_reserve_grown hend hfront hmax hreserved
      obtain rfl : buf' = buf := Option.some_inj.1 (hbuf'.symm.trans hbuf)
      simp only [if_true, wp_bind, wp_pure] at hnext
      constructor
      · intro hgrows
        have hfits := hgrows hsock hdata (UInt32.not_lt.1 hmax)
        have hgrown : wp (grow ZBASELIB_SKBUFFER_MIN_NUM fresh) (fun _ b₁ ↦ WellFormed b₁ ∧
            0 < b₁.bufSize.toNat ∧ content b₁ = content b) b :=
          wp_grow h hfits fun _ _ hsize h₁ hcontent ↦ ⟨h₁, by simp only [hsize]; omega, hcontent⟩
        obtain ⟨h₁, hpos₁, hcontent₁⟩ := (wp_grow_iff hbuf).1 hgrown
        obtain ⟨answer, after, hreceive, rfl⟩ := hnext
        exact harrive h₁ hpos₁ hcontent₁ hreserve hreceive
      · intro hno
        have hfits : ¬Fits ZBASELIB_SKBUFFER_MIN_NUM fresh b := fun hfits ↦ hno fun _ _ _ ↦ hfits
        obtain ⟨hshort, hless⟩ := @length_content_grown_lt _ _ h hpos hdata buf' hfits
        obtain ⟨answer, -, rfl⟩ := of_wp_receive_outside hshort hnext
        exact hless
  · have hroom : ¬(b.wpos ≥ b.bufSize ∧ ¬b.rpos > 0) := fun hno ↦ hdata ((full_iff h).2 hno)
    have hreserved : wp (reserve fresh) (fun room' after ↦ room' = true ∧ Steady b after ∧
        content after = content b) b :=
      wp_reserve_roomy h hroom fun _ hsteady hcontent _ _ ↦ ⟨rfl, hsteady, hcontent⟩
    obtain ⟨rfl, hsteady, hcontent₁⟩ := wp_outcome hreserved hreserve
    simp only [if_true, wp_bind, wp_pure] at hnext
    obtain ⟨answer, after, hreceive, rfl⟩ := hnext
    have hkept := harrive (hsteady.wellFormed h) (by rwa [hsteady.bufSize_eq]) hcontent₁ hreserve
      hreceive
    exact ⟨fun _ ↦ hkept, fun hno ↦ absurd (fun _ hfull ↦ absurd hfull hdata) hno⟩

/-! ## Taking bytes out -/

theorem toNat_asInt {n : ℕ} (hlt : n < 2 ^ 32) :
    (asInt n).toNat = if n < 2 ^ 31 then n else 0 := by
  unfold asInt
  split <;> omega

/-- A caller that trusts the count gets what left the buffer if the count is not negative. -/
theorem take_asInt_append_drop_iff {xs : List UInt8} {n : ℕ} (hle : n ≤ xs.length)
    (hlt : n < 2 ^ 32) : xs.take (asInt n).toNat ++ xs.drop n = xs ↔ n < 2 ^ 31 := by
  rw [toNat_asInt hlt]
  split
  · next hsmall => exact iff_of_true (List.take_append_drop n xs) hsmall
  · next hbig =>
    refine iff_of_false (fun heq ↦ ?_) hbig
    have hlength := congrArg List.length heq
    rw [List.take_zero, List.nil_append, List.length_drop] at hlength
    omega

/-- A count that is no `int` counts nothing. -/
theorem take_asInt_congr {xs ys : List UInt8} {n : ℕ} (h : xs.take n = ys.take n) :
    xs.take (asInt n).toNat = ys.take (asInt n).toNat := by
  have hle : (asInt n).toNat ≤ n := by
    unfold asInt
    split <;> omega
  calc xs.take (asInt n).toNat
      = (xs.take n).take (asInt n).toNat := by rw [List.take_take, Nat.min_eq_left hle]
    _ = (ys.take n).take (asInt n).toNat := by rw [h]
    _ = ys.take (asInt n).toNat := by rw [List.take_take, Nat.min_eq_left hle]

/-- The buffer without its first `n` bytes. -/
structure Left (b : State) (n : ℕ) (b' : State) : Prop where
  wellFormed : WellFormed b'
  bufSize_eq : b'.bufSize = b.bufSize
  content_eq : content b' = (content b).drop n

theorem Left.zero (h : WellFormed b) : Left b 0 b := ⟨h, rfl, rfl⟩

theorem left_consume (h : WellFormed b) {n : UInt32} (hn : n.toNat ≤ b.dataSize.toNat) :
    Left b n.toNat (consume n b) :=
  ⟨(h.consume hn).1, (steady_consume h hn).bufSize_eq, (h.consume hn).2⟩

theorem fetch_outcome (h : WellFormed b) {after : UInt32 → State → State} {data : List UInt8}
    {size : UInt32} {value : ℤ × Option (List UInt8)}
    (hrun : (fetch after (some data) size).run b = some (value, b')) :
    ∃ (n : UInt32) (data' : List UInt8), n.toNat = min size.toNat b.dataSize.toNat ∧
      value = (asInt n.toNat, some data') ∧ data'.take n.toNat = (content b).take n.toNat ∧
        (n.toNat = 0 ∧ b' = b ∨ b' = after n b) := by
  have hmin := toNat_min size b.dataSize
  obtain ⟨⟨buf, hbuf, hlen⟩, hwpos, hle, -⟩ := h
  have hwp : wp (fetch after (some data) size) (fun r a ↦ r = value ∧ a = b') b :=
    ⟨_, _, hrun, rfl, rfl⟩
  unfold fetch at hwp
  simp only [wp_bind, wp_get, hbuf] at hwp
  generalize (if size < b.dataSize then size else b.dataSize) = n at hmin hwp
  rw [wp_ite] at hwp
  split at hwp
  · next hzero =>
    obtain ⟨rfl, rfl⟩ := (wp_pure _ _ _).1 hwp
    subst hzero
    exact ⟨0, data, hmin, rfl, rfl, Or.inl ⟨rfl, rfl⟩⟩
  · simp only [wp_bind, wp_memcpy, wp_set, wp_pure] at hwp
    obtain ⟨⟨hdata, hroom⟩, rfl, rfl⟩ := hwp
    refine ⟨n, _, hmin, rfl, ?_, Or.inr rfl⟩
    have hbytes : (buf.drop b.rpos.toNat).take n.toNat = (content b).take n.toNat := by
      simp only [content, hbuf, Option.getD_some, List.drop_take, List.take_take]
      congr 1
      omega
    have hlength : ((buf.drop b.rpos.toNat).take n.toNat).length = n.toNat := by
      rw [List.length_take, List.length_drop]
      omega
    rw [splice_zero, List.take_left' hlength, hbytes]

theorem read_outcome (h : WellFormed b) {data : List UInt8} {size : UInt32}
    {value : ℤ × Option (List UInt8)}
    (hrun : (read (some data) size).run b = some (value, b')) :
    ∃ data', value = (asInt (min size.toNat b.dataSize.toNat), some data') ∧
      data'.take (min size.toNat b.dataSize.toNat) =
        (content b).take (min size.toNat b.dataSize.toNat) ∧
      Left b (min size.toNat b.dataSize.toNat) b' := by
  obtain ⟨n, data', hn, hvalue, hdata', hafter⟩ := fetch_outcome h hrun
  rw [← hn]
  refine ⟨data', hvalue, hdata', ?_⟩
  obtain ⟨hzero, rfl⟩ | rfl := hafter
  · rw [hzero]
    exact .zero h
  · exact left_consume h (by omega)

theorem skip_outcome (h : WellFormed b) {size : UInt32} {ret : ℤ}
    (hrun : (skip size).run b = some (ret, b')) :
    ret = asInt (min size.toNat b.dataSize.toNat) ∧
      Left b (min size.toNat b.dataSize.toNat) b' := by
  have hwp : wp (skip size) (fun ret b' ↦ ret = asInt (min size.toNat b.dataSize.toNat) ∧
      Left b (min size.toNat b.dataSize.toNat) b') b := by
    apply wp_skip h
    · intro hzero
      rw [hzero]
      exact ⟨asInt_zero.symm, .zero h⟩
    · intro n _ hn
      rw [← hn]
      exact ⟨rfl, left_consume h (by omega)⟩
  have houtcome := wp_outcome hwp hrun
  exact houtcome

/-! ## Without a block -/

theorem recv_null (hbuf : b.buf = none) {ret : ℤ}
    (hrun : (recv kernel fresh).run b = some (ret, b')) : b' = b := by
  have hwp : wp (recv kernel fresh) (fun _ b' ↦ b' = b) b := by
    rw [wp_recv_iff, if_pos (Or.inl hbuf)]
  have houtcome := wp_outcome hwp hrun
  exact houtcome

theorem fetch_null (hbuf : b.buf = none) {after : UInt32 → State → State} {data : List UInt8}
    {size : UInt32} {value : ℤ × Option (List UInt8)}
    (hrun : (fetch after (some data) size).run b = some (value, b')) :
    value = (-1, some data) ∧ b' = b := by
  have hwp : wp (fetch after (some data) size)
      (fun value b' ↦ value = (-1, some data) ∧ b' = b) b := by
    unfold fetch
    simp only [wp_bind, wp_get, hbuf, wp_pure, and_self]
  have houtcome := wp_outcome hwp hrun
  exact houtcome

theorem skip_null (hbuf : b.buf = none) {size : UInt32} {ret : ℤ}
    (hrun : (skip size).run b = some (ret, b')) : ret = -1 ∧ b' = b := by
  have hwp : wp (skip size) (fun ret b' ↦ ret = -1 ∧ b' = b) b := by
    unfold skip
    simp only [wp_bind, wp_get, hbuf, if_true, wp_pure, and_self]
  have houtcome := wp_outcome hwp hrun
  exact houtcome

end

/-! ## Steps -/

section

variable {s s' : Link}

/-- What has left the sender's buffer. -/
def Link.arrived (s : Link) : List UInt8 := s.taken ++ content s.receiver ++ s.wire

/-- The sender's view: what has left its buffer was sent. -/
def Link.stream (s : Link) : Stream := ⟨s.sender, s.arrived, s.written⟩

structure Link.Sound (s : Link) : Prop where
  sender : s.sender.buf = none ∨ WellFormed s.sender
  receiver : Ready s.receiver

/-- A call on the receiver's side is good when the bytes beyond the sender's buffer are the same
afterwards. -/
theorem Link.step_of_receiver (hs : s.Sound) (hconserved : s.Conserved) {clean : Prop}
    {receiver : State} {wire taken : List UInt8}
    (harrived : taken ++ content receiver ++ wire = s.arrived ↔ clean)
    (hready : clean → Ready receiver) :
    (({ s with receiver, wire, taken } : Link).Conserved ↔ clean) ∧
      (clean → ({ s with receiver, wire, taken } : Link).Sound) := by
  rw [← harrived]
  refine ⟨?_, fun hclean ↦ ⟨hs.sender, hready (harrived.1 hclean)⟩⟩
  unfold Link.Conserved at hconserved ⊢
  rw [← hconserved, List.append_cancel_right_eq]
  rfl

theorem handed_prefix {wire : List UInt8} {kernel : Kernel} (hdelivers : Delivers wire kernel)
    (fresh : Option (ℕ → UInt8)) (b : State) : handed kernel fresh b <+: wire := by
  unfold handed
  split
  · exact List.nil_prefix
  · split
    · split
      · exact List.nil_prefix
      · exact hdelivers.front _
    · exact List.nil_prefix

/-- What `recv` hands over goes from the wire to the buffer, unless a growth goes wrong. -/
theorem recv_moves_iff {b b' : State} (hb : Ready b) {wire : List UInt8} {kernel : Kernel}
    {fresh : Option (ℕ → UInt8)} (hdelivers : Delivers wire kernel) {ret : ℤ}
    (hrun : (recv kernel fresh).run b = some (ret, b')) :
    (content b' ++ wire.drop (handed kernel fresh b).length = content b ++ wire ↔
        (b.buf ≠ none → Grows fresh b)) ∧ ((b.buf ≠ none → Grows fresh b) → Ready b') := by
  obtain hnull | ⟨h, hpos⟩ := hb
  · obtain rfl := recv_null hnull hrun
    have hnone : handed kernel fresh b' = [] := if_pos (Or.inl hnull)
    rw [hnone, List.length_nil, List.drop_zero]
    exact ⟨iff_of_true rfl fun hsome ↦ absurd hnull hsome, fun _ ↦ Or.inl hnull⟩
  obtain ⟨hkeeps, hloses⟩ := recv_outcome h hpos hdelivers.count hrun
  obtain ⟨buf, hbuf, -⟩ := h.block
  have hclean : (b.buf ≠ none → Grows fresh b) ↔ Grows fresh b := by
    simp only [hbuf, ne_eq, reduceCtorEq, not_false_eq_true, forall_true_left]
  rw [hclean]
  refine ⟨⟨fun heq ↦ ?_, fun hgrows ↦ ?_⟩, fun hgrows ↦ ?_⟩
  · by_contra hno
    have hless := hloses hno
    have hlength := congrArg List.length heq
    rw [List.length_append, List.length_append, List.length_drop] at hlength
    omega
  · obtain ⟨-, -, hcontent⟩ := hkeeps hgrows
    obtain ⟨rest, rfl⟩ := handed_prefix hdelivers fresh b
    rw [hcontent, List.drop_left, List.append_assoc]
  · obtain ⟨h', hpos', -⟩ := hkeeps hgrows
    exact Or.inr ⟨h', hpos'⟩

/-- The bytes that a caller takes are those that leave the buffer, if an `int` counts them. -/
theorem Link.step_of_left (hs : s.Sound) (hconserved : s.Conserved) (h : WellFormed s.receiver)
    (hpos : 0 < s.receiver.bufSize.toNat) {n : ℕ} (hn : n ≤ s.receiver.dataSize.toNat)
    {b' : State} (hleft : Left s.receiver n b') :
    (({ s with
        receiver := b'
        taken := s.taken ++ (content s.receiver).take (asInt n).toNat } : Link).Conserved ↔
          (s.receiver.buf ≠ none → n < 2 ^ 31)) ∧
      ((s.receiver.buf ≠ none → n < 2 ^ 31) → ({ s with
        receiver := b'
        taken := s.taken ++ (content s.receiver).take (asInt n).toNat } : Link).Sound) := by
  have hlt := s.receiver.dataSize.toNat_lt
  obtain ⟨buf, hbuf, -⟩ := h.block
  apply Link.step_of_receiver hs hconserved
  · rw [Link.arrived, List.append_cancel_right_eq, List.append_assoc, List.append_cancel_left_eq,
      hleft.content_eq, take_asInt_append_drop_iff (by rwa [h.length_content]) (by omega)]
    simp only [hbuf, ne_eq, reduceCtorEq, not_false_eq_true, forall_true_left]
  · exact fun _ ↦ Or.inr ⟨hleft.wellFormed, hleft.bufSize_eq ▸ hpos⟩

/-- **One step**: the stream survives it exactly when the call is clean. -/
theorem Link.step (hs : s.Sound) (hconserved : s.Conserved) {label : LinkOp × Result}
    (hstep : LinkStep label s s') :
    (s'.Conserved ↔ s.Clean label.1) ∧ (s.Clean label.1 → s'.Sound) := by
  have hstream : Socket.Sound s.stream := hs.sender
  cases hstep with
  | @write _ data size fresh ret b' hrun =>
    obtain ⟨hsound, hiff⟩ := conserved_step hstream hconserved (.write hrun)
    exact ⟨hiff, fun _ ↦ ⟨hsound, hs.receiver⟩⟩
  | @send _ answers ret accepted b' hrun =>
    obtain ⟨hsound, hiff⟩ := conserved_step hstream hconserved (.send hrun)
    change (_ ↔ Socket.Clean (.send answers)) ∧ _
    rw [← hiff]
    constructor
    · unfold Link.Conserved Socket.Conserved Link.stream Link.arrived
      simp only [List.append_assoc]
    · exact fun _ ↦ ⟨hsound, hs.receiver⟩
  | @recv _ kernel fresh ret b' hdelivers hrun =>
    obtain ⟨hmoves, hready⟩ := recv_moves_iff hs.receiver hdelivers hrun
    apply Link.step_of_receiver hs hconserved _ hready
    rw [Link.arrived, List.append_assoc, List.append_assoc, List.append_cancel_left_eq]
    exact hmoves
  | @read _ data data' size ret b' hrun =>
    obtain hnull | ⟨h, hpos⟩ := hs.receiver
    · obtain ⟨hvalue, rfl⟩ := fetch_null hnull hrun
      cases hvalue
      apply Link.step_of_receiver hs hconserved _ fun _ ↦ hs.receiver
      exact iff_of_true (by simp [Link.arrived]) fun hsome ↦ absurd hnull hsome
    · obtain ⟨data'', hvalue, hdata', hleft⟩ := read_outcome h hrun
      cases hvalue
      rw [take_asInt_congr hdata']
      exact Link.step_of_left hs hconserved h hpos (Nat.min_le_right _ _) hleft
  | @get _ data size value b' hrun =>
    obtain rfl : b' = s.receiver := by
      obtain hnull | ⟨h, hpos⟩ := hs.receiver
      · exact (fetch_null hnull hrun).2
      · obtain ⟨_, _, _, _, _, hafter⟩ := fetch_outcome h hrun
        exact hafter.elim And.right id
    exact ⟨iff_of_true hconserved trivial, fun _ ↦ hs⟩
  | @skip _ size ret b' hrun =>
    obtain hnull | ⟨h, hpos⟩ := hs.receiver
    · obtain ⟨rfl, rfl⟩ := skip_null hnull hrun
      apply Link.step_of_receiver hs hconserved _ fun _ ↦ hs.receiver
      exact iff_of_true (by simp [Link.arrived]) fun hsome ↦ absurd hnull hsome
    · obtain ⟨rfl, hleft⟩ := skip_outcome h hrun
      exact Link.step_of_left hs hconserved h hpos (Nat.min_le_right _ _) hleft

end

/-! ## Runs -/

theorem ready_create {handle block : Bool} {sndBuf : Option ℤ} {bufSize bufMaxSize : UInt32}
    {sock : ℤ} {b : State}
    (hcreate : create handle block sndBuf bufSize bufMaxSize sock = some b) :
    Ready b ∧ content b = [] := by
  cases block with
  | true =>
    obtain ⟨h, hempty⟩ := wellFormed_create hcreate
    refine ⟨Or.inr ⟨h, ?_⟩, hempty⟩
    unfold create at hcreate
    split at hcreate
    · cases hcreate
      dsimp only
      split
      · decide
      · next hne => exact toNat_pos_of_ne_zero hne
    · cases hcreate
  | false =>
    unfold create at hcreate
    split at hcreate
    · cases hcreate
      exact ⟨Or.inl rfl, rfl⟩
    · cases hcreate

/-- What a run of clean calls keeps. -/
theorem Link.run {b₀ r₀ : State} (hsender : Ready b₀ ∧ content b₀ = [])
    (hreceiver : Ready r₀ ∧ content r₀ = []) {labels : List (LinkOp × Result)} {s : Link}
    (hrun : Run CleanStep labels ⟨b₀, [], r₀, [], []⟩ s) : s.Sound ∧ s.Conserved := by
  have hsound : Link.Sound ⟨b₀, [], r₀, [], []⟩ :=
    ⟨hsender.1.imp_right And.left, hreceiver.1⟩
  have hconserved : Link.Conserved ⟨b₀, [], r₀, [], []⟩ := by
    simp [Link.Conserved, hsender.2, hreceiver.2]
  refine hrun.invariant (fun s ↦ s.Sound ∧ s.Conserved) ?_ ⟨hsound, hconserved⟩
  rintro label s s' ⟨hs, hconserved⟩ ⟨hclean, hstep⟩
  obtain ⟨hiff, hsound⟩ := Link.step hs hconserved hstep
  exact ⟨hsound hclean, hiff.2 hclean⟩

/-- **Every byte arrives once and in order, however the calls of the two sides alternate**, and
the first call that is not clean ends that. -/
theorem delivered_of_clean {handle block handle' block' : Bool} {sndBuf sndBuf' : Option ℤ}
    {bufSize bufMaxSize bufSize' bufMaxSize' : UInt32} {sock sock' : ℤ} {b₀ r₀ : State}
    (hsender : create handle block sndBuf bufSize bufMaxSize sock = some b₀)
    (hreceiver : create handle' block' sndBuf' bufSize' bufMaxSize' sock' = some r₀)
    {labels : List (LinkOp × Result)} {s : Link}
    (hrun : Run CleanStep labels ⟨b₀, [], r₀, [], []⟩ s) :
    s.taken ++ content s.receiver ++ s.wire ++ content s.sender = s.written ∧
      ∀ label s', LinkStep label s s' → (s'.Conserved ↔ s.Clean label.1) := by
  obtain ⟨hs, hconserved⟩ := Link.run (ready_create hsender) (ready_create hreceiver) hrun
  exact ⟨hconserved, fun label s' hstep ↦ (Link.step hs hconserved hstep).1⟩

/-- The kernel hands over one byte at a time. -/
def bytewise (wire : List UInt8) : Kernel where
  answer window := .data (wire.take (min window 1))
  fits window := by
    simp only [Received.bytes, List.length_take]
    omega

theorem delivers_bytewise (wire : List UInt8) : Delivers wire (bytewise wire) := by
  refine ⟨fun window ↦ List.take_prefix _ _, fun window ↦ ?_⟩
  simp only [bytewise, Received.bytes, List.length_take]
  omega

def linkStart : Link := ⟨streamStart, [], growStart, [], []⟩

/-- Three bytes are written and sent in two pieces, one of them is received and read. -/
def linkLabels : List (LinkOp × Result) :=
  [(.write [1, 2, 3] 3 none, ⟨0, none⟩),
    (.send [.accepted 2, .wouldBlock, .accepted 1], ⟨0, none⟩),
    (.recv (bytewise [1, 2, 3]) none, ⟨0, none⟩), (.read [0, 0] 2, ⟨1, some [1, 0]⟩)]

def linkEnd : Link :=
  ⟨⟨0, some [1, 2, 3, 0], 4, 16, 0, 0, 0, 4096⟩, [2, 3],
    ⟨0, some [1, 0, 0, 0], 4, 16, 0, 0, 0, 4096⟩, [1], [1, 2, 3]⟩

theorem link_run : Run CleanStep linkLabels linkStart linkEnd :=
  .cons ⟨trivial, .write rfl⟩ <| .cons ⟨fun herror ↦ absurd herror (by decide), .send rfl⟩ <|
    .cons ⟨fun _ _ hfull ↦ absurd hfull (by decide), .recv (delivers_bytewise _) rfl⟩ <|
    .cons ⟨fun _ ↦ by decide, .read rfl⟩ <| .nil _

theorem delivered_of_clean_link :
    linkEnd.taken ++ content linkEnd.receiver ++ linkEnd.wire ++ content linkEnd.sender =
      linkEnd.written :=
  (delivered_of_clean stream_create grow_create link_run).1

/-! ## Nothing gets stuck -/

/-- Both buffers have a block and a valid socket, and the kernel says that it takes something. -/
structure Link.Open (s : Link) : Prop where
  sender : s.sender.buf ≠ none
  receiver : s.receiver.buf ≠ none
  sender_sock : 0 ≤ s.sender.sock
  receiver_sock : 0 ≤ s.receiver.sock
  sndBuf_pos : 0 < s.sender.sockSndBufSize
  sndBuf_lt : s.sender.sockSndBufSize < 2 ^ 31

section

variable {b : State}

theorem consume_same (size : UInt32) (b : State) :
    (consume size b).buf = b.buf ∧ (consume size b).sock = b.sock ∧
      (consume size b).sockSndBufSize = b.sockSndBufSize := by
  unfold consume
  dsimp only
  split <;> exact ⟨rfl, rfl, rfl⟩

/-- A kernel that takes what it is offered. -/
theorem send_all (h : WellFormed b) (hsock : 0 ≤ b.sock) (hpos : 0 < b.sockSndBufSize)
    (hlt : b.sockSndBufSize < 2 ^ 31) (hdata : 0 < b.dataSize.toNat) :
    ∃ n : UInt32, 0 < n.toNat ∧ n.toNat ≤ b.dataSize.toNat ∧ ∃ accepted,
      (send [.accepted n.toNat]).run b = some (⟨0, accepted, []⟩, consume n b) := by
  obtain ⟨buf, hbuf, hlen⟩ := h.block
  have hwpos := h.wpos_eq
  have hle := h.wpos_le
  have hmin := toNat_min b.dataSize (UInt32.ofInt b.sockSndBufSize)
  have hsnd : (UInt32.ofInt b.sockSndBufSize).toNat = b.sockSndBufSize.toNat := by
    unfold UInt32.ofInt
    have hmod : b.sockSndBufSize % 2 ^ 32 = b.sockSndBufSize :=
      Int.emod_eq_of_lt (by omega) (by omega)
    rw [hmod]
    exact UInt32.toNat_ofNat_of_lt' (show _ < 2 ^ 32 by omega)
  generalize hn : (if b.dataSize < UInt32.ofInt b.sockSndBufSize then b.dataSize
    else UInt32.ofInt b.sockSndBufSize) = n at hmin
  have hsmall : n.toNat < 2 ^ 31 := by omega
  have hint : toInt n = n.toNat := asInt_of_lt hsmall
  refine ⟨n, by omega, by omega, (buf.drop b.rpos.toNat).take n.toNat, ?_⟩
  have hroom : n.toNat ≤ (buf.drop b.rpos.toNat).length := by
    rw [List.length_drop]
    omega
  have hsendn : sendn (buf.drop b.rpos.toNat) n [.accepted n.toNat] =
      some ⟨toInt n, (buf.drop b.rpos.toNat).take n.toNat, []⟩ := by
    unfold sendn sendnLoop
    rw [if_pos (by omega)]
    dsimp only
    rw [if_pos ⟨by omega, by omega, hroom⟩, sendnLoop, if_neg (by omega)]
    simp
  have hwp : wp (send [.accepted n.toNat]) (fun sending after ↦
      sending = ⟨0, (buf.drop b.rpos.toNat).take n.toNat, []⟩ ∧ after = consume n b) b := by
    unfold send
    simp only [wp_bind, wp_get, hbuf]
    rw [wp_ite, if_neg (not_lt.2 hsock), wp_ite, if_neg (fun hzero ↦ by simp [hzero] at hdata), hn,
      hsendn]
    dsimp only
    rw [wp_ite, if_pos (by omega)]
    simp only [wp_bind, wp_set, wp_pure, ofInt_toInt, and_self]
  obtain ⟨_, _, hrun, rfl, rfl⟩ := hwp
  exact hrun

/-- An empty buffer has room for a byte. -/
theorem recv_bytewise (h : WellFormed b) (hpos : 0 < b.bufSize.toNat) (hsock : 0 ≤ b.sock)
    (hdata : b.dataSize.toNat = 0) (wire : List UInt8) :
    ∃ ret b', (recv (bytewise wire) none).run b = some (ret, b') ∧ Steady b b' ∧
      handed (bytewise wire) none b = wire.take 1 := by
  have hrpos := h.rpos_of_empty hdata
  have hwpos := h.wpos_eq
  obtain ⟨buf, hbuf, -⟩ := h.block
  have hvalid : ¬(b.buf = none ∨ b.sock < 0) := by
    rw [hbuf]
    simpa using hsock
  have hreserve : (reserve none).run b = some (true, b) := by
    have hwp : wp (reserve none) (fun room after ↦ room = true ∧ after = b) b := by
      unfold reserve
      rw [wp_bind, wp_get, wp_ite, if_neg, wp_pure]
      · exact ⟨rfl, rfl⟩
      · rw [ge_iff_le, UInt32.le_iff_toNat_le]
        omega
    obtain ⟨_, _, hrun, rfl, rfl⟩ := hwp
    exact hrun
  have hwindow : 0 < sizeT (toInt (b.bufSize - b.wpos)) := by
    have hle := le_sizeT_toInt (b.bufSize - b.wpos)
    rw [UInt32.toNat_sub_of_le _ _ (UInt32.le_iff_toNat_le.2 (by omega))] at hle
    omega
  have hbytes : ((bytewise wire).answer (sizeT (toInt (b.bufSize - b.wpos)))).bytes =
      wire.take 1 := by
    simp only [bytewise, Received.bytes]
    rw [Nat.min_eq_right hwindow]
  have hreceive : wp (recv (bytewise wire) none) (fun _ b' ↦ Steady b b') b := by
    rw [wp_recv_iff, if_neg hvalid]
    unfold udpRound
    rw [wp_bind]
    refine ⟨true, b, hreserve, ?_⟩
    simp only [if_true, wp_bind, wp_pure]
    apply wp_receive_steady h
    · rw [hbytes, List.length_take]
      omega
    · exact fun _ hsteady _ _ _ ↦ hsteady
  obtain ⟨ret, b', hrun, hsteady⟩ := hreceive
  refine ⟨ret, b', hrun, hsteady, ?_⟩
  rw [handed_of_wp_reserve hvalid hreserve (by simp [hbuf]), hbytes]

end

/-- How far the bytes still have to go. -/
def Link.distance (s : Link) : ℕ :=
  3 * (content s.sender).length + 2 * s.wire.length + (content s.receiver).length

/-- A clean step that writes nothing. -/
def DrainStep (label : LinkOp × Result) (s s' : Link) : Prop :=
  CleanStep label s s' ∧ s'.written = s.written

/-- What holds while the bytes move on. -/
structure Link.Live (s : Link) : Prop where
  sound : s.Sound
  conserved : s.Conserved
  isOpen : s.Open

/-- Some call brings a byte closer to the reader. -/
def Link.Advances (s : Link) : Prop :=
  ∃ label s', DrainStep label s s' ∧ s'.Live ∧ s'.distance < s.distance

section

variable {s : Link}

theorem Link.Live.advances (h : s.Live) {label : LinkOp × Result} {s' : Link}
    (hstep : LinkStep label s s') (hclean : s.Clean label.1) (hwritten : s'.written = s.written)
    (hopen : s'.Open) (hless : s'.distance < s.distance) : s.Advances := by
  obtain ⟨hiff, hsound⟩ := Link.step h.sound h.conserved hstep
  exact ⟨label, s', ⟨⟨hclean, hstep⟩, hwritten⟩, ⟨hsound hclean, hiff.2 hclean, hopen⟩, hless⟩

/-- From the sender's buffer onto the wire. -/
theorem Link.Live.sends (h : s.Live) (hdata : 0 < s.sender.dataSize.toNat) : s.Advances := by
  obtain ⟨hbuf, hvalid, hsock, hsock', hpos, hlt⟩ := h.isOpen
  have hsender := h.sound.sender.resolve_left hbuf
  obtain ⟨n, hn, hle, accepted, hrun⟩ := send_all hsender hsock hpos hlt hdata
  obtain ⟨hbuf', hsock_eq, hsnd_eq⟩ := consume_same n s.sender
  obtain ⟨-, houtcome⟩ := send_outcome hsender hrun
  have haccepted := (houtcome.resolve_right fun hfail ↦ by simp at hfail).2
  refine h.advances (.send hrun) (fun herror ↦ by simp at herror) rfl ?_ ?_
  · exact ⟨hbuf' ▸ hbuf, hvalid, hsock_eq ▸ hsock, hsock', hsnd_eq ▸ hpos, hsnd_eq ▸ hlt⟩
  · have hlength := congrArg List.length haccepted
    have hafter := congrArg List.length (hsender.consume hle).2
    rw [List.length_append] at hlength
    rw [List.length_drop, hsender.length_content] at hafter
    rw [hsender.length_content] at hlength
    unfold Link.distance
    rw [hsender.length_content, List.length_append]
    dsimp only
    omega

/-- From the wire into the receiver's buffer, when it is empty. -/
theorem Link.Live.receives (h : s.Live) (hwire : s.wire ≠ [])
    (hdata : s.receiver.dataSize.toNat = 0) : s.Advances := by
  obtain ⟨hbuf, hvalid, hsock, hsock', hpos, hlt⟩ := h.isOpen
  obtain ⟨hreceiver, hroom⟩ := h.sound.receiver.resolve_left hvalid
  obtain ⟨ret, b', hrun, hsteady, hhanded⟩ := recv_bytewise hreceiver hroom hsock' hdata s.wire
  have hgrows : Grows none s.receiver := by
    intro _ hfull
    rw [hfull] at hdata
    omega
  have hcontent :=
    ((recv_outcome hreceiver hroom (delivers_bytewise s.wire).count hrun).1 hgrows).2.2
  have h' := hsteady.wellFormed hreceiver
  refine h.advances (.recv (delivers_bytewise s.wire) hrun) (fun _ ↦ hgrows) rfl ?_ ?_
  · refine ⟨hbuf, ?_, hsock, hsteady.sock_eq ▸ hsock', hpos, hlt⟩
    obtain ⟨buf', hbuf', -⟩ := h'.block
    simp [hbuf']
  · have hlength := congrArg List.length hcontent
    have hone : (s.wire.take 1).length = 1 := by
      rw [List.length_take]
      exact Nat.min_eq_left (List.length_pos_iff.2 hwire)
    have hmore := List.length_pos_iff.2 hwire
    rw [List.length_append, hhanded, hone] at hlength
    unfold Link.distance
    rw [hhanded, hone, List.length_drop]
    dsimp only
    omega

/-- From the receiver's buffer to the reader. -/
theorem Link.Live.reads (h : s.Live) (hdata : 0 < s.receiver.dataSize.toNat) : s.Advances := by
  obtain ⟨hbuf, hvalid, hsock, hsock', hpos, hlt⟩ := h.isOpen
  obtain ⟨hreceiver, hroom⟩ := h.sound.receiver.resolve_left hvalid
  have hread : wp (read (some [0]) 1) (fun value b' ↦ (∃ data', value.2 = some data') ∧
      ∃ n, b' = consume n s.receiver ∧ n.toNat = 1) s.receiver := by
    apply wp_fetch hreceiver (show (1 : UInt32).toNat ≤ _ from le_rfl)
    · intro hzero
      have hone : (1 : UInt32).toNat = 1 := rfl
      omega
    · intro n _ hn
      have hone : (1 : UInt32).toNat = 1 := rfl
      exact ⟨⟨_, rfl⟩, n, rfl, by omega⟩
  obtain ⟨⟨ret, value⟩, b', hrun, ⟨data', rfl⟩, n, rfl, hn⟩ := hread
  obtain ⟨hbuf', hsock_eq, -⟩ := consume_same n s.receiver
  refine h.advances (.read hrun) (fun _ ↦ ?_) rfl ?_ ?_
  · have hone : (1 : UInt32).toNat = 1 := rfl
    omega
  · exact ⟨hbuf, hbuf' ▸ hvalid, hsock, hsock_eq ▸ hsock', hpos, hlt⟩
  · have hafter := congrArg List.length (hreceiver.consume (show n.toNat ≤ _ by omega)).2
    rw [List.length_drop, hreceiver.length_content] at hafter
    unfold Link.distance
    rw [hreceiver.length_content]
    dsimp only
    omega

theorem Link.Live.drain (h : s.Live) (hdistance : 0 < s.distance) : s.Advances := by
  by_cases hread : s.receiver.dataSize.toNat = 0
  · by_cases hwire : s.wire = []
    · have hsender := h.sound.sender.resolve_left h.isOpen.sender
      have hreceiver := (h.sound.receiver.resolve_left h.isOpen.receiver).1
      rw [Link.distance, hsender.length_content, hreceiver.length_content, hwire, hread,
        List.length_nil] at hdistance
      exact h.sends (by omega)
    · exact h.receives hwire hread
  · exact h.reads (Nat.pos_of_ne_zero hread)

end

/-- **Nothing gets stuck**: wherever clean calls have led, more of them bring everything that was
written to the reader. -/
theorem drained_of_clean {handle block handle' block' : Bool} {sndBuf sndBuf' : Option ℤ}
    {bufSize bufMaxSize bufSize' bufMaxSize' : UInt32} {sock sock' : ℤ} {b₀ r₀ : State}
    (hsender : create handle block sndBuf bufSize bufMaxSize sock = some b₀)
    (hreceiver : create handle' block' sndBuf' bufSize' bufMaxSize' sock' = some r₀)
    {labels : List (LinkOp × Result)} {s : Link}
    (hrun : Run CleanStep labels ⟨b₀, [], r₀, [], []⟩ s) (hopen : s.Open) :
    ∃ more s', Run DrainStep more s s' ∧ s'.taken = s.written := by
  obtain ⟨hs, hconserved⟩ := Link.run (ready_create hsender) (ready_create hreceiver) hrun
  obtain ⟨more, s', hmore, ⟨hlive, hwritten⟩, hzero⟩ :=
    exists_run_of_measure (fun s' ↦ s'.Live ∧ s'.written = s.written) Link.distance
      (fun s₁ hs₁ hpos ↦ by
        obtain ⟨label, s₂, hstep, hlive, hless⟩ := hs₁.1.drain hpos
        exact ⟨label, s₂, hstep, ⟨hlive, hstep.2.trans hs₁.2⟩, hless⟩)
      ⟨⟨hs, hconserved, hopen⟩, rfl⟩
  refine ⟨more, s', hmore, ?_⟩
  have hconserved' := hlive.conserved
  unfold Link.distance at hzero
  have hcontent : content s'.sender = [] := List.eq_nil_of_length_eq_zero (by omega)
  have hwire : s'.wire = [] := List.eq_nil_of_length_eq_zero (by omega)
  have hreceived : content s'.receiver = [] := List.eq_nil_of_length_eq_zero (by omega)
  rw [Link.Conserved, hcontent, hwire, hreceived, List.append_nil, List.append_nil,
    List.append_nil] at hconserved'
  exact hconserved'.trans hwritten

theorem drained_of_clean_link :
    ∃ more s', Run DrainStep more linkEnd s' ∧ s'.taken = [1, 2, 3] :=
  drained_of_clean stream_create grow_create link_run
    ⟨by decide, by decide, by decide, by decide, by decide, by decide⟩

end Zbaselib.Socket
