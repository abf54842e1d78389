import Zbaselib.Socket.Sizes

/-!
# The maximum size of a socket buffer

The maximum is compared with the size before growth, not with the size that
growth would lead to.  As long as no call overshoots, every buffer stays within
its maximum; the first call that does ends that.
-/

namespace Zbaselib.Socket

open Program Block Transition

/-- No sum that the call computes wraps. -/
structure Unwrapped (call : Call) (b : State) : Prop where
  sum : ∀ data size fresh, call = .plain (.write data size fresh) → b.buf ≠ none →
    b.wpos.toNat + size.toNat < 2 ^ 32
  growth : ∀ extra fresh b₁, Enlarges call b extra fresh b₁ → grownTo b₁ extra < 2 ^ 32

/-- The call grows the buffer over its maximum. -/
def Overshoots (call : Call) (b : State) : Prop :=
  ∃ extra fresh b₁, Enlarges call b extra fresh b₁ ∧ b₁.bufMaxSize.toNat < grownTo b₁ extra

/-- In the state `b₁` the call needs more bytes than the maximum: those of `write`, or one more byte
in a round. -/
inductive Exceeds : Call → State → State → Prop
  | write {data : List UInt8} {size : UInt32} {fresh : Option (ℕ → UInt8)} {b : State}
      (block : b.buf ≠ none) (more : b.bufMaxSize.toNat < b.dataSize.toNat + size.toNat) :
      Exceeds (.plain (.write data size fresh)) b b
  | round {call : Call} {round : Round} {b b₁ : State} (comes : Comes (call.rounds b) b round b₁)
      (more : b₁.bufMaxSize.toNat < b₁.dataSize.toNat + 1) : Exceeds call b b₁

/-- The code for a full buffer. -/
def Call.fullCode : Call → ℤ
  | .plain (.write _ _ _) => -2
  | _ => -3

/-- The size stays within the maximum, and what exceeds it is refused. -/
def Limited (call : Call) (b : State) (result : Result) (b' : State) : Prop :=
  b'.bufSize ≤ b.bufMaxSize ∧
    ∀ b₁, Exceeds call b b₁ → result.ret = call.fullCode ∧ content b' = content b₁

/-- A step that overshoots nothing. -/
def WithinStep (label : Call × Result) (b b' : State) : Prop :=
  Unwrapped label.1 b ∧ ¬Overshoots label.1 b ∧ Called label b b'

/-- A call in which no sum wraps; the allocator may answer anything. -/
def UnwrappedStep (label : Call × Result) (b b' : State) : Prop :=
  Unwrapped label.1 b ∧ Called label b b'

/-- A buffer that is well formed, unless it has lost its block. -/
structure Intact (b : State) : Prop where
  wellFormed : b.buf = none ∨ WellFormed b
  size_pos : 0 < b.bufSize.toNat

/-- A buffer with this maximum, well formed unless it has lost its block. -/
structure Within (max : UInt32) (b : State) : Prop where
  intact : b.buf = none ∨ WellFormed b
  max_eq : b.bufMaxSize = max
  le_max : b.bufSize ≤ max

section

variable {b b' : State} {max : UInt32}

theorem Within.steady (h : Within max b) (hsteady : Steady b b') : Within max b' := by
  refine ⟨h.intact.imp hsteady.null hsteady.wellFormed, ?_, ?_⟩
  · rw [hsteady.bufMaxSize_eq]
    exact h.max_eq
  · rw [hsteady.bufSize_eq]
    exact h.le_max

/-! ## Writing -/

/-- What overshooting means for a `write`. -/
theorem overshoots_write_iff {data : List UInt8} {size : UInt32} {fresh : Option (ℕ → UInt8)}
    {b₁ : State} (hbuf : b.buf ≠ none) (hcompact : (compactFor size).run b = some ((), b₁)) :
    Overshoots (.plain (.write data size fresh)) b ↔ b₁.wpos + size > b₁.bufSize ∧
      ¬b₁.bufSize > b₁.bufMaxSize ∧ b₁.bufMaxSize.toNat < grownTo b₁ size := by
  constructor
  · rintro ⟨extra, fresh', b₂, henlarges, hover⟩
    cases henlarges with
    | write block compacted full below =>
      rw [hcompact] at compacted
      cases compacted
      exact ⟨full, below, hover⟩
    | round comes full front below => cases comes
  · rintro ⟨hfull, hbelow, hover⟩
    exact ⟨size, fresh, b₁, .write hbuf hcompact hfull hbelow, hover⟩

/-- A `write` that comes back left the buffer as large as it was, or grew it. -/
theorem write_cases (h : WellFormed b) {data : List UInt8} {size : UInt32}
    {fresh : Option (ℕ → UInt8)} (hwrap : Unwrapped (.plain (.write data size fresh)) b) {ret : ℤ}
    (hrun : (write (some data) size fresh).run b = some (ret, b')) :
    WellFormed b' ∧ b'.bufMaxSize = b.bufMaxSize ∧
      ∃ b₁, (compactFor size).run b = some ((), b₁) ∧ b₁.bufSize = b.bufSize ∧
        b₁.bufMaxSize = b.bufMaxSize ∧
        ((¬(b₁.wpos + size > b₁.bufSize ∧ ¬b₁.bufSize > b₁.bufMaxSize) ∧
            b'.bufSize = b.bufSize) ∨
          (b₁.wpos + size > b₁.bufSize ∧ ¬b₁.bufSize > b₁.bufMaxSize ∧
            b'.bufSize.toNat = grownTo b₁ size)) := by
  obtain ⟨buf, hbuf, -⟩ := h.block
  have hne : b.buf ≠ none := by
    rw [hbuf]
    exact Option.some_ne_none _
  obtain ⟨b₁, hcompact, h₁, -, hsize, hmax, -, -⟩ :=
    exists_compactFor h (hwrap.sum data size fresh rfl hne)
  have hwp : wp (write (some data) size fresh) (fun _ a ↦ a = b') b := ⟨_, _, hrun, rfl⟩
  rw [wp_write_iff hne] at hwp
  obtain ⟨hroom, hwp⟩ | ⟨hfull, habove, hwp⟩ | ⟨hfull, hbelow, buf₁, hbuf₁, hwp⟩ :=
    of_wp_prepare hcompact hwp
  · obtain ⟨-, -, after, rfl, hsteady, -⟩ := of_wp_append h₁ hwp
    refine ⟨hsteady.wellFormed h₁, hsteady.bufMaxSize_eq.trans hmax, b₁, hcompact, hsize, hmax,
      Or.inl ⟨fun hgrow ↦ hroom hgrow.1, ?_⟩⟩
    exact hsteady.bufSize_eq.trans hsize
  · have hwp : b₁ = b' := hwp
    subst hwp
    exact ⟨h₁, hmax, b₁, hcompact, hsize, hmax, Or.inl ⟨fun hgrow ↦ hgrow.2 habove, hsize⟩⟩
  · have hlt := hwrap.growth _ _ _ (.write hne hcompact hfull hbelow)
    simp only [if_true] at hwp
    obtain hnull | ⟨hgrown, -⟩ := grown_outcome h₁ hbuf₁ fresh hlt
    · unfold append at hwp
      rw [wp_bind, wp_get, hnull] at hwp
      exact ((wp_failure _ _).1 hwp).elim
    · obtain ⟨-, -, after, rfl, hsteady, -⟩ := of_wp_append hgrown hwp
      refine ⟨hsteady.wellFormed hgrown, hsteady.bufMaxSize_eq.trans hmax, b₁, hcompact, hsize,
        hmax, Or.inr ⟨hfull, hbelow, ?_⟩⟩
      rw [hsteady.bufSize_eq]
      exact toNat_grownSize.trans (Nat.mod_eq_of_lt hlt)

/-- A `write` to a buffer within its maximum leaves it there, unless it overshoots. -/
theorem write_sizes (h : WellFormed b) (hle : b.bufSize ≤ b.bufMaxSize) {data : List UInt8}
    {size : UInt32} {fresh : Option (ℕ → UInt8)}
    (hwrap : Unwrapped (.plain (.write data size fresh)) b) {ret : ℤ}
    (hrun : (write (some data) size fresh).run b = some (ret, b')) :
    WellFormed b' ∧ b'.bufMaxSize = b.bufMaxSize ∧
      (b'.bufSize ≤ b.bufMaxSize ↔ ¬Overshoots (.plain (.write data size fresh)) b) := by
  obtain ⟨buf, hbuf, -⟩ := h.block
  have hne : b.buf ≠ none := by
    rw [hbuf]
    exact Option.some_ne_none _
  obtain ⟨h', hmax', b₁, hcompact, hsize, hmax, hcases⟩ := write_cases h hwrap hrun
  rw [overshoots_write_iff hne hcompact]
  refine ⟨h', hmax', ?_⟩
  obtain ⟨hno, hsame⟩ | ⟨hfull, hbelow, hgrown⟩ := hcases
  · refine iff_of_true ?_ fun hover ↦ hno ⟨hover.1, hover.2.1⟩
    rw [hsame]
    exact hle
  · rw [UInt32.le_iff_toNat_le, hgrown, ← hmax]
    constructor
    · exact fun hle hover ↦ absurd hover.2.2 (Nat.not_lt.2 hle)
    · exact fun hno ↦ Nat.not_lt.1 fun hlt ↦ hno ⟨hfull, hbelow, hlt⟩

/-! ## Receiving -/

section

variable {call : Call}

theorem Unwrapped.wellFormed (hwrap : Unwrapped call b) (h : WellFormed b) {round : Round}
    {b₁ : State} (hcomes : Comes (call.rounds b) b round b₁) : WellFormed b₁ :=
  hcomes.wellFormed h fun _ _ _ hcomes' hend hfront hbelow ↦
    hwrap.growth _ _ _ (.round hcomes' hend hfront hbelow)

theorem Unwrapped.outcome (hwrap : Unwrapped call b) (h : WellFormed b) {round : Round}
    {b₁ b₂ : State} (hcomes : Comes (call.rounds b) b round b₁) {next : Option ℤ}
    (hrun : (udpRound round).run b₁ = some (next, b₂)) :
    (¬(b₁.wpos ≥ b₁.bufSize ∧ ¬b₁.rpos > 0 ∧ ¬b₁.bufSize > b₁.bufMaxSize) ∧ Steady b₁ b₂) ∨
      (b₁.wpos ≥ b₁.bufSize ∧ ¬b₁.rpos > 0 ∧ ¬b₁.bufSize > b₁.bufMaxSize ∧
        (b₂.buf = none ∧ next ≠ none ∨ WellFormed b₂) ∧ b₂.bufMaxSize = b₁.bufMaxSize ∧
          b₂.bufSize.toNat = grownTo b₁ ZBASELIB_SKBUFFER_MIN_NUM) :=
  udpRound_outcome (hwrap.wellFormed h hcomes)
    (fun hend hfront hbelow ↦ hwrap.growth _ _ _ (.round hcomes hend hfront hbelow)) hrun

/-- Rounds that do not wrap leave the buffer as large as it was, or larger. -/
theorem Unwrapped.round (hwrap : Unwrapped call b) (hb : WellFormed b) (round : Round)
    (b₁ : State) (next : Option ℤ) (b₂ : State) (hcomes : Comes (call.rounds b) b round b₁)
    (h : (b₁.buf = none ∨ WellFormed b₁) ∧ b.bufSize.toNat ≤ b₁.bufSize.toNat)
    (hrun : (udpRound round).run b₁ = some (next, b₂)) :
    (b₂.buf = none ∨ WellFormed b₂) ∧ b.bufSize.toNat ≤ b₂.bufSize.toNat := by
  obtain ⟨hintact, hle⟩ := h
  obtain ⟨-, hsteady⟩ | ⟨-, -, -, hintact', -, hsize⟩ := hwrap.outcome hb hcomes hrun
  · refine ⟨hintact.imp hsteady.null hsteady.wellFormed, ?_⟩
    rw [hsteady.bufSize_eq]
    exact hle
  · refine ⟨hintact'.imp_left And.left, ?_⟩
    rw [hsize, grownTo]
    omega

/-- A round that does not overshoot keeps the buffer within its maximum. -/
theorem Within.round (hwrap : Unwrapped call b) (hb : WellFormed b) (hno : ¬Overshoots call b)
    (round : Round) (b₁ : State) (next : Option ℤ) (b₂ : State)
    (hcomes : Comes (call.rounds b) b round b₁) (h : Within max b₁)
    (hrun : (udpRound round).run b₁ = some (next, b₂)) : Within max b₂ := by
  obtain ⟨-, hsteady⟩ | ⟨hend, hfront, hbelow, hintact, hmax, hsize⟩ :=
    hwrap.outcome hb hcomes hrun
  · exact h.steady hsteady
  · refine ⟨hintact.imp_left And.left, hmax.trans h.max_eq, ?_⟩
    rw [UInt32.le_iff_toNat_le, hsize, ← h.max_eq]
    by_contra hover
    exact hno ⟨_, _, b₁, .round hcomes hend hfront hbelow, Nat.not_le.1 hover⟩

/-- Once over its maximum the buffer does not grow. -/
theorem over_round (hwrap : Unwrapped call b) (hb : WellFormed b) (round : Round) (b₁ : State)
    (next : Option ℤ) (b₂ : State) (hcomes : Comes (call.rounds b) b round b₁)
    (h : b₁.bufMaxSize = max ∧ max < b₁.bufSize)
    (hrun : (udpRound round).run b₁ = some (next, b₂)) :
    b₂.bufMaxSize = max ∧ max < b₂.bufSize := by
  obtain ⟨-, hsteady⟩ | ⟨-, -, hbelow, -, -, -⟩ := hwrap.outcome hb hcomes hrun
  · rw [hsteady.bufMaxSize_eq, hsteady.bufSize_eq]
    exact h
  · rw [h.1] at hbelow
    exact absurd h.2 hbelow

theorem max_round (hwrap : Unwrapped call b) (hb : WellFormed b) (round : Round) (b₁ : State)
    (next : Option ℤ) (b₂ : State) (hcomes : Comes (call.rounds b) b round b₁)
    (h : b₁.bufMaxSize = max) (hrun : (udpRound round).run b₁ = some (next, b₂)) :
    b₂.bufMaxSize = max := by
  obtain ⟨-, hsteady⟩ | ⟨-, -, -, -, hmax, -⟩ := hwrap.outcome hb hcomes hrun
  · exact hsteady.bufMaxSize_eq.trans h
  · exact hmax.trans h

/-- A call that overshoots in a round leaves the buffer over its maximum. -/
theorem over_of_overshoots (hwrap : Unwrapped call b) (hb : WellFormed b)
    {kernel : Kernel} {fresh : Option (ℕ → UInt8)} {b₁ : State}
    (hcomes : Comes (call.rounds b) b (kernel, fresh) b₁) (hend : b₁.wpos ≥ b₁.bufSize)
    (hfront : ¬b₁.rpos > 0) (hbelow : ¬b₁.bufSize > b₁.bufMaxSize)
    (hover : b₁.bufMaxSize.toNat < grownTo b₁ ZBASELIB_SKBUFFER_MIN_NUM)
    {post : Result → State → Prop} (hwp : wp call.run post b) :
    ∃ result b', post result b' ∧ b.bufMaxSize < b'.bufSize := by
  have hsame : b₁.bufMaxSize = b.bufMaxSize :=
    hcomes.kept (fun b' ↦ b'.bufMaxSize = b.bufMaxSize) (max_round hwrap hb) rfl
  rw [← hsame]
  obtain ⟨next, b₂, hrun, hrest⟩ := hcomes.of_wp_call
    (fun b' ↦ b'.bufMaxSize = b₁.bufMaxSize ∧ b₁.bufMaxSize < b'.bufSize)
    (over_round hwrap hb) hwp
  obtain ⟨hno, -⟩ | ⟨-, -, -, -, hmax, hsize⟩ := hwrap.outcome hb hcomes hrun
  · exact absurd ⟨hend, hfront, hbelow⟩ hno
  · obtain ⟨result, b', hpost, -, hlt⟩ := hrest ⟨hmax, UInt32.lt_iff_toNat_lt.2 (hsize ▸ hover)⟩
    exact ⟨result, b', hpost, hlt⟩

/-! ## Calls -/

/-- Growth to more than the maximum is the only way to more bytes than the maximum. -/
theorem overshoots_of_exceeds (h : Within max b) (hb : WellFormed b) (hwrap : Unwrapped call b)
    {b₁ : State} (hexceeds : Exceeds call b b₁) : Overshoots call b := by
  cases hexceeds with
  | @write data size fresh b block more =>
    have hsum := hwrap.sum data size fresh rfl block
    obtain ⟨b₁, hcompact, h₁, -, hsize, hmax, hsum₁, hover⟩ := exists_compactFor hb hsum
    have hle := UInt32.le_iff_toNat_le.1 h.le_max
    rw [← h.max_eq] at hle
    have hwpos := hb.wpos_eq
    have hwle := hb.wpos_le
    refine (overshoots_write_iff block hcompact).2 ⟨?_, ?_, ?_⟩
    · rw [lt_add_iff hsum₁, hsize]
      exact hover.2 (by omega)
    · rw [hsize, hmax, gt_iff_lt, UInt32.not_lt, UInt32.le_iff_toNat_le]
      exact hle
    · unfold grownTo
      rw [hmax, hsize]
      omega
  | @round _ round _ b₁ comes more =>
    by_contra hno
    have h₁ : Within max b₁ := comes.kept (Within max) (Within.round hwrap hb hno) h
    have hb₁ := hwrap.wellFormed hb comes
    have hle := UInt32.le_iff_toNat_le.1 h₁.le_max
    rw [← h₁.max_eq] at hle
    have hwpos := hb₁.wpos_eq
    have hwle := hb₁.wpos_le
    have hextra : ZBASELIB_SKBUFFER_MIN_NUM.toNat = 64 := rfl
    refine hno ⟨_, round.2, b₁, .round comes ?_ ?_ ?_, ?_⟩
    · rw [ge_iff_le, UInt32.le_iff_toNat_le]
      omega
    · rw [gt_iff_lt, UInt32.lt_iff_toNat_lt, UInt32.toNat_zero]
      omega
    · rw [gt_iff_lt, UInt32.lt_iff_toNat_lt]
      omega
    · unfold grownTo
      omega

/-- Without a block there is nothing to enlarge. -/
theorem not_overshoots_null (hbuf : b.buf = none) : ¬Overshoots call b := by
  rintro ⟨extra, fresh, b₁, henlarges, -⟩
  cases henlarges with
  | write block compacted full below => exact block hbuf
  | round comes full front below =>
    rw [rounds_null hbuf] at comes
    cases comes

theorem not_exceeds_null (hbuf : b.buf = none) {b₁ : State} : ¬Exceeds call b b₁ := by
  intro hexceeds
  cases hexceeds with
  | write block more => exact block hbuf
  | round comes more =>
    rw [rounds_null hbuf] at comes
    cases comes

theorem not_overshoots_quiet (hquiet : call.Quiet) : ¬Overshoots call b := by
  rintro ⟨extra, fresh, b₁, henlarges, -⟩
  cases henlarges with
  | write block compacted full below => exact hquiet
  | round comes full front below =>
    rw [hquiet.rounds] at comes
    cases comes

theorem Unwrapped.intact (hwrap : Unwrapped call b) (h : Intact b) {result : Result}
    (hrun : Called (call, result) b b') : Intact b' := by
  have hwp : wp call.run (fun _ a ↦ a = b') b := ⟨_, _, hrun, rfl⟩
  have hpos := h.size_pos
  obtain hnull | hb := h.wellFormed
  · obtain ⟨result', rfl⟩ := of_wp_null hnull hwp
    exact h
  obtain hquiet | ⟨data, size, fresh, rfl⟩ | hreceives := call.quiet_or
  · obtain ⟨result', after, rfl, hsteady⟩ := of_wp_quiet hb hquiet hwp
    refine ⟨Or.inr (hsteady.wellFormed hb), ?_⟩
    rw [hsteady.bufSize_eq]
    exact hpos
  · simp only [Call.run, Op.run, wp_bind, wp_pure] at hwp
    obtain ⟨ret, after, hwrite, rfl⟩ := hwp
    obtain ⟨hb', -, b₁, -, hsize₁, -, ⟨-, hsame⟩ | ⟨-, -, hgrown⟩⟩ := write_cases hb hwrap hwrite
    · refine ⟨Or.inr hb', ?_⟩
      rw [hsame]
      exact hpos
    · refine ⟨Or.inr hb', ?_⟩
      rw [hgrown, grownTo, hsize₁]
      omega
  · obtain ⟨result', after, rfl, hintact, hle⟩ :=
      of_wp_receiving (fun b₁ ↦ (b₁.buf = none ∨ WellFormed b₁) ∧
        b.bufSize.toNat ≤ b₁.bufSize.toNat) hreceives (hwrap.round hb) hwp ⟨Or.inr hb, le_rfl⟩
    exact ⟨hintact, Nat.lt_of_lt_of_le hpos hle⟩

/-- **One call stays within the maximum exactly when it does not overshoot.** -/
theorem Within.step (h : Within max b) (hwrap : Unwrapped call b) {result : Result}
    (hrun : Called (call, result) b b') :
    (¬Overshoots call b → Within max b') ∧ (b'.bufSize ≤ max → ¬Overshoots call b) := by
  have hwp : wp call.run (fun _ a ↦ a = b') b := ⟨_, _, hrun, rfl⟩
  obtain hnull | hb := h.intact
  · obtain ⟨result', rfl⟩ := of_wp_null hnull hwp
    exact ⟨fun _ ↦ h, fun _ ↦ not_overshoots_null hnull⟩
  obtain hquiet | ⟨data, size, fresh, rfl⟩ | hreceives := call.quiet_or
  · obtain ⟨result', after, rfl, hsteady⟩ := of_wp_quiet hb hquiet hwp
    exact ⟨fun _ ↦ h.steady hsteady, fun _ ↦ not_overshoots_quiet hquiet⟩
  · simp only [Call.run, Op.run, wp_bind, wp_pure] at hwp
    obtain ⟨ret, after, hwrite, rfl⟩ := hwp
    have hle : b.bufSize ≤ b.bufMaxSize := by
      rw [h.max_eq]
      exact h.le_max
    obtain ⟨hb', hmax, hlimit⟩ := write_sizes hb hle hwrap hwrite
    rw [h.max_eq] at hmax hlimit
    exact ⟨fun hno ↦ ⟨.inr hb', hmax, hlimit.2 hno⟩, hlimit.1⟩
  · constructor
    · intro hno
      obtain ⟨result', after, rfl, h'⟩ :=
        of_wp_receiving (Within max) hreceives (Within.round hwrap hb hno) hwp h
      exact h'
    · rintro hle ⟨extra, fresh, b₁, henlarges, hover⟩
      cases henlarges with
      | write block compacted full below => simp at hreceives
      | round comes full front below =>
        obtain ⟨result', after, rfl, hlt⟩ :=
          over_of_overshoots hwrap hb comes full front below hover hwp
        rw [h.max_eq] at hlt
        exact absurd hle (UInt32.not_le.2 hlt)

end

end

theorem intact_create {handle block : Bool} {sndBuf : Option ℤ} {bufSize bufMaxSize : UInt32}
    {sock : ℤ} {b₀ : State}
    (hcreate : create handle block sndBuf bufSize bufMaxSize sock = some b₀) : Intact b₀ := by
  constructor
  · cases block with
    | true => exact Or.inr (wellFormed_create hcreate).1
    | false =>
      unfold create at hcreate
      split at hcreate
      · cases hcreate
        exact Or.inl rfl
      · cases hcreate
  · unfold create at hcreate
    split at hcreate
    · cases hcreate
      dsimp only
      split
      · decide
      · next hsize => exact Nat.pos_of_ne_zero fun hzero ↦ hsize (UInt32.toNat_inj.1 hzero)
    · cases hcreate

theorem within_create {handle block : Bool} {sndBuf : Option ℤ} {bufSize bufMaxSize : UInt32}
    {sock : ℤ} {b₀ : State}
    (hcreate : create handle block sndBuf bufSize bufMaxSize sock = some b₀)
    (hdefault : b₀.bufSize < bufMaxSize ∨ 4 * b₀.bufSize.toNat < 2 ^ 32) :
    Within b₀.bufMaxSize b₀ :=
  ⟨(intact_create hcreate).wellFormed, rfl, ((exactCreate_iff hcreate).2 hdefault).le_max⟩

/-- **The buffer stays within its maximum as long as no call overshoots it**, and no longer. -/
theorem limited_iff {handle block : Bool} {sndBuf : Option ℤ} {bufSize bufMaxSize : UInt32}
    {sock : ℤ} {b₀ b : State}
    (hcreate : create handle block sndBuf bufSize bufMaxSize sock = some b₀)
    (hdefault : b₀.bufSize < bufMaxSize ∨ 4 * b₀.bufSize.toNat < 2 ^ 32)
    {labels : List (Call × Result)} (hrun : Run WithinStep labels b₀ b) :
    b.bufMaxSize = b₀.bufMaxSize ∧ b.bufSize ≤ b₀.bufMaxSize ∧
      ∀ label b', Unwrapped label.1 b → Called label b b' →
        (Limited label.1 b label.2 b' ↔ ¬Overshoots label.1 b) := by
  have h : Within b₀.bufMaxSize b := by
    refine hrun.invariant _ (fun label b b' h hstep ↦ ?_) (within_create hcreate hdefault)
    obtain ⟨hwrap, hno, hcalled⟩ := hstep
    exact (h.step hwrap hcalled).1 hno
  refine ⟨h.max_eq, h.le_max, fun label b' hwrap hcalled ↦ ?_⟩
  obtain ⟨hwithin, hover⟩ := h.step hwrap hcalled
  constructor
  · intro hlimited
    apply hover
    rw [← h.max_eq]
    exact hlimited.1
  · intro hno
    refine ⟨?_, fun b₁ hexceeds ↦ ?_⟩
    · rw [h.max_eq]
      exact (hwithin hno).le_max
    · obtain hnull | hb := h.intact
      · exact absurd hexceeds (not_exceeds_null hnull)
      · exact absurd (overshoots_of_exceeds h hb hwrap hexceeds) hno

/-- Two bytes in four, and three more for which the buffer may grow. -/
def pairState : State := ⟨0, some [1, 2, 0, 0], 4, 16, 2, 0, 2, 4096⟩

theorem pair_within : WithinStep (.plain (.write [1, 2] 2 none), ⟨0, none⟩)
    ⟨0, some [0, 0, 0, 0], 4, 16, 0, 0, 0, 4096⟩ pairState := by
  have hnone (extra : UInt32) (fresh : Option (ℕ → UInt8)) (b₁ : State) :
      ¬Enlarges (.plain (.write [1, 2] 2 none)) ⟨0, some [0, 0, 0, 0], 4, 16, 0, 0, 0, 4096⟩ extra
        fresh b₁ := by
    intro henlarges
    cases henlarges with
    | write block compacted full below =>
      cases compacted
      exact absurd full (by decide)
    | round comes full front below => cases comes
  refine ⟨⟨?_, fun extra fresh b₁ henlarges ↦ absurd henlarges (hnone _ _ _)⟩, ?_, rfl⟩
  · rintro data size fresh heq -
    cases heq
    decide
  · rintro ⟨extra, fresh, b₁, henlarges, -⟩
    exact hnone _ _ _ henlarges

/-- Three more bytes make it grow to nine. -/
def grownPair : State := ⟨0, some [1, 2, 3, 4, 5, 0, 0, 0, 0], 9, 16, 5, 0, 5, 4096⟩

theorem limited_iff_pair :
    Called (.plain (.write [3, 4, 5] 3 (some fun _ ↦ 0)), ⟨0, none⟩) pairState grownPair ∧
      Limited (.plain (.write [3, 4, 5] 3 (some fun _ ↦ 0))) pairState ⟨0, none⟩ grownPair := by
  have hcalled : Called (.plain (.write [3, 4, 5] 3 (some fun _ ↦ 0)), ⟨0, none⟩) pairState
      grownPair := rfl
  have hcompact : (compactFor 3).run pairState = some ((), pairState) := rfl
  have hno : ¬Overshoots (.plain (.write [3, 4, 5] 3 (some fun _ ↦ 0))) pairState := by
    rw [overshoots_write_iff (Option.some_ne_none _) hcompact]
    decide
  obtain ⟨-, -, hlimited⟩ := limited_iff (show create true true none 4 16 0 = some _ from rfl)
    (.inl (by decide)) (.cons pair_within <| .nil _)
  refine ⟨hcalled, (hlimited _ _ ⟨?_, ?_⟩ hcalled).2 hno⟩
  · rintro data size fresh heq -
    cases heq
    decide
  · intro extra fresh b₁ henlarges
    cases henlarges with
    | write block compacted full below =>
      cases compacted
      decide
    | round comes full front below => cases comes

/-- A buffer of 4 bytes with a maximum of 5 takes 6 bytes, and grows to 12. -/
theorem not_limited_six :
    ∃ b₀ b, create true true none 4 5 0 = some b₀ ∧ b₀.bufMaxSize = 5 ∧
      Called (.plain (.write [1, 2, 3, 4, 5, 6] 6 (some fun _ ↦ 0)), ⟨0, none⟩) b₀ b ∧
      b.bufSize = 12 ∧
      ¬Limited (.plain (.write [1, 2, 3, 4, 5, 6] 6 (some fun _ ↦ 0))) b₀ ⟨0, none⟩ b := by
  refine ⟨_, _, rfl, rfl, rfl, rfl, fun hlimited ↦ ?_⟩
  have hle := hlimited.1
  revert hle
  decide

end Zbaselib.Socket
