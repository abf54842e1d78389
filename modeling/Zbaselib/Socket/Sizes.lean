import Zbaselib.Socket.Calls

/-!
# The size computations of the socket buffer

Sizes are computed modulo `2 ^ 32` and pass through `int`.  A call is exact when
its results are those over the integers, and this is decided by bounds on the
sizes that it starts from.
-/

namespace Zbaselib.Socket

open Program Block Transition

/-- The maximum is no smaller than the size, and the default for it is four times the size. -/
structure ExactCreate (bufMaxSize : UInt32) (b : State) : Prop where
  le_max : b.bufSize ≤ b.bufMaxSize
  default_eq : ¬bufMaxSize > b.bufSize → b.bufMaxSize.toNat = 4 * b.bufSize.toNat

/-- The new size is the one over the integers, as an `int`, too, and it is larger. -/
structure ExactGrowth (b : State) (extra : UInt32) : Prop where
  value : toInt (grownSize b extra) = grownTo b extra
  larger : b.bufSize < grownSize b extra

/-- The call comes to the `memcpy` of `write` in the state `b₁`. -/
inductive Copies : Call → State → UInt32 → State → Prop
  | write {data : List UInt8} {size : UInt32} {fresh : Option (ℕ → UInt8)} {b b₁ : State}
      (block : b.buf ≠ none) (prepared : (prepare size fresh).run b = some (true, b₁)) :
      Copies (.plain (.write data size fresh)) b size b₁

/-- The call offers the kernel a window in the state `b₁`. -/
def Offers (call : Call) (b b₁ : State) : Prop :=
  ∃ round b₂, Comes (call.rounds b) b round b₂ ∧ (reserve round.2).run b₂ = some (true, b₁)

/-- The end of the bytes that a `write` adds, as far as it is computed. -/
def SumBelow (call : Call) (b : State) : Prop :=
  match call with
  | .plain (.write _ size _) => b.buf ≠ none → b.wpos.toNat + size.toNat < 2 ^ 32
  | _ => True

structure ExactSizes (call : Call) (b : State) : Prop where
  sum : ∀ data size fresh, call = .plain (.write data size fresh) → b.buf ≠ none →
    (b.wpos + size).toNat = b.wpos.toNat + size.toNat
  growth : ∀ extra fresh b₁, Enlarges call b extra fresh b₁ → ExactGrowth b₁ extra
  copy : ∀ size b₁, Copies call b size b₁ → b₁.wpos.toNat + size.toNat ≤ b₁.bufSize.toNat
  window : ∀ b₁, Offers call b b₁ → 1 ≤ toInt (b₁.bufSize - b₁.wpos) ∧
    toInt (b₁.bufSize - b₁.wpos) ≤ (b₁.bufSize.toNat : ℤ) - b₁.wpos.toNat

/-- The sizes that a call starts from are small enough. -/
structure Small (call : Call) (b : State) : Prop where
  sum : SumBelow call b
  growth : ∀ extra fresh b₁, Enlarges call b extra fresh b₁ → grownTo b₁ extra < 2 ^ 31
  window : ∀ round b₁, Comes (call.rounds b) b round b₁ → windowSize b₁ < 2 ^ 31

/-- There is memory for everything that the call asks for. -/
def Granted : Call → Prop
  | .plain (.write _ _ fresh) | .plain (.recv _ fresh) => fresh.isSome
  | .udpRecv _ rounds => ∀ round ∈ rounds, round.2.isSome
  | _ => True

def SmallStep (label : Call × Result) (b b' : State) : Prop :=
  Small label.1 b ∧ Granted label.1 ∧ Called label b b'

section

variable {b b' b₁ : State} {extra size : UInt32} {fresh : Option (ℕ → UInt8)}

/-! ## Single computations -/

theorem toInt_eq_iff {n : UInt32} {m : ℕ} (h : n.toNat = m % 2 ^ 32) :
    toInt n = m ↔ m < 2 ^ 31 := by
  unfold toInt asInt
  constructor
  · intro heq
    split at heq <;> omega
  · intro hlt
    have hn : n.toNat = m := by rw [h, Nat.mod_eq_of_lt (by omega)]
    rw [if_pos (by omega), hn]

theorem exactGrowth_iff (hextra : 0 < extra.toNat) :
    ExactGrowth b extra ↔ grownTo b extra < 2 ^ 31 := by
  have hvalue : toInt (grownSize b extra) = grownTo b extra ↔ grownTo b extra < 2 ^ 31 :=
    toInt_eq_iff toNat_grownSize
  refine ⟨fun h ↦ hvalue.1 h.value, fun hlt ↦ ⟨hvalue.2 hlt, ?_⟩⟩
  rw [UInt32.lt_iff_toNat_lt, toNat_grownSize, Nat.mod_eq_of_lt (by omega)]
  unfold grownTo
  omega

theorem toInt_window {n : UInt32} (hpos : 0 < n.toNat) : 1 ≤ toInt n ↔ n.toNat < 2 ^ 31 := by
  have hlt := n.toNat_lt
  unfold toInt asInt
  split <;> omega

theorem exactCreate_iff {handle block : Bool} {sndBuf : Option ℤ} {bufSize bufMaxSize : UInt32}
    {sock : ℤ} (h : create handle block sndBuf bufSize bufMaxSize sock = some b) :
    ExactCreate bufMaxSize b ↔ b.bufSize < bufMaxSize ∨ 4 * b.bufSize.toNat < 2 ^ 32 := by
  have hmax : b.bufMaxSize = if bufMaxSize > b.bufSize then bufMaxSize else b.bufSize <<< 2 := by
    unfold create at h
    split at h
    · cases h
      rfl
    · cases h
  have hshift : (b.bufSize <<< 2).toNat = 4 * b.bufSize.toNat % 2 ^ 32 := by
    rw [UInt32.toNat_shiftLeft, Nat.shiftLeft_eq, Nat.mul_comm]
    rfl
  by_cases hgt : bufMaxSize > b.bufSize
  · rw [if_pos hgt] at hmax
    refine iff_of_true ⟨?_, fun hno ↦ absurd hgt hno⟩ (.inl hgt)
    rw [hmax]
    exact UInt32.le_of_lt hgt
  · rw [if_neg hgt] at hmax
    constructor
    · intro hexact
      have hfour := hexact.default_eq hgt
      rw [hmax, hshift] at hfour
      omega
    · intro hsmall
      have hlt := hsmall.resolve_left hgt
      refine ⟨?_, fun _ ↦ ?_⟩
      · rw [hmax, UInt32.le_iff_toNat_le, hshift]
        omega
      · rw [hmax, hshift]
        omega

theorem toNat_add_eq_iff {m n : UInt32} :
    (m + n).toNat = m.toNat + n.toNat ↔ m.toNat + n.toNat < 2 ^ 32 := by
  have hlt := (m + n).toNat_lt
  rw [UInt32.toNat_add] at hlt ⊢
  omega

/-! ## Growth of a well-formed buffer -/

theorem wellFormed_grown (h : WellFormed b) {buf : List UInt8} (hbuf : b.buf = some buf)
    (hlt : grownTo b extra < 2 ^ 31) (hfresh : fresh.isSome) :
    WellFormed (grown b buf extra fresh) := by
  have hwp : wp (grow extra fresh) (fun _ b' ↦ WellFormed b') b :=
    wp_grow h ⟨hlt, hfresh⟩ fun _ _ _ h' _ ↦ h'
  exact (wp_grow_iff hbuf).1 hwp

theorem wellFormed_round (h : WellFormed b) {kernel : Kernel} (hfresh : fresh.isSome)
    (hgrow : b.wpos ≥ b.bufSize → ¬b.rpos > 0 → ¬b.bufSize > b.bufMaxSize →
      grownTo b ZBASELIB_SKBUFFER_MIN_NUM < 2 ^ 31) {next : Option ℤ}
    (hrun : (udpRound (kernel, fresh)).run b = some (next, b')) : WellFormed b' := by
  have hwp : wp (udpRound (kernel, fresh)) (fun _ a ↦ a = b') b := ⟨_, _, hrun, rfl⟩
  obtain ⟨-, next, after, rfl, hsteady⟩ | ⟨-, -, -, rfl⟩ | ⟨hend, hfront, hbelow, buf, hbuf, hwp⟩ :=
    of_wp_udpRound h hwp
  · exact hsteady.wellFormed h
  · exact h
  · have hgrown := wellFormed_grown h hbuf (hgrow hend hfront hbelow) hfresh
    obtain ⟨after, rfl, hsteady, -⟩ := of_wp_receive hgrown hwp
    exact hsteady.wellFormed hgrown

/-! ## The states that a call comes to -/

theorem Granted.rounds {call : Call} (h : Granted call) {round : Round}
    (hround : round ∈ call.rounds b) : round.2.isSome := by
  unfold Call.rounds at hround
  cases call with
  | plain op =>
    cases op with
    | recv kernel fresh =>
      dsimp only at hround
      split at hround
      · cases hround
      · rw [List.mem_singleton.1 hround]
        exact h
    | write data size fresh => cases hround
    | read data size => cases hround
    | get data size => cases hround
    | skip size => cases hround
    | clear => cases hround
  | udpRecv addr rounds =>
    dsimp only at hround
    split at hround
    · cases hround
    · exact isSome_of_mem_asked h round hround
  | send answers => cases hround

/-- The window of the kernel is right exactly when it fits into an `int`. -/
theorem window_iff (h : WellFormed b)
    (hgrow : b.wpos ≥ b.bufSize → ¬b.rpos > 0 → ¬b.bufSize > b.bufMaxSize →
      grownTo b ZBASELIB_SKBUFFER_MIN_NUM < 2 ^ 31) :
    (∀ b₁, (reserve fresh).run b = some (true, b₁) → 1 ≤ toInt (b₁.bufSize - b₁.wpos) ∧
      toInt (b₁.bufSize - b₁.wpos) ≤ (b₁.bufSize.toNat : ℤ) - b₁.wpos.toNat) ↔
        windowSize b < 2 ^ 31 := by
  have hwpos := h.wpos_eq
  have hle := h.wpos_le
  have hright {b₁ : State} (hlt : b₁.wpos.toNat < b₁.bufSize.toNat)
      (hsmall : (b₁.bufSize - b₁.wpos).toNat < 2 ^ 31) : 1 ≤ toInt (b₁.bufSize - b₁.wpos) ∧
        toInt (b₁.bufSize - b₁.wpos) ≤ (b₁.bufSize.toNat : ℤ) - b₁.wpos.toNat := by
    have hsub := UInt32.toNat_sub_of_le _ _ (UInt32.le_iff_toNat_le.2 (Nat.le_of_lt hlt))
    have hvalue : toInt (b₁.bufSize - b₁.wpos) = (b₁.bufSize - b₁.wpos).toNat :=
      asInt_of_lt hsmall
    omega
  by_cases hroom : b.wpos ≥ b.bufSize ∧ ¬b.rpos > 0
  · obtain ⟨hend, hfront⟩ := hroom
    have hend' := UInt32.le_iff_toNat_le.1 hend
    have hzero : windowSize b < 2 ^ 31 := by
      have hrpos : b.rpos.toNat = 0 := by
        rw [gt_iff_lt, UInt32.lt_iff_toNat_lt, UInt32.toNat_zero] at hfront
        omega
      unfold windowSize
      rw [if_neg (UInt32.not_lt.2 hend)]
      omega
    refine iff_of_true (fun b₁ hrun ↦ ?_) hzero
    have hwp : wp (reserve fresh) (fun room a ↦ room = true ∧ a = b₁) b := ⟨_, _, hrun, rfl, rfl⟩
    by_cases hmax : b.bufSize > b.bufMaxSize
    · rw [wp_reserve_refused hend hfront hmax] at hwp
      cases hwp.1
    · obtain ⟨buf, hbuf, -, rfl⟩ := of_wp_reserve_grown hend hfront hmax hwp
      have hlt := hgrow hend hfront hmax
      have hsize : (grownSize b ZBASELIB_SKBUFFER_MIN_NUM).toNat =
          grownTo b ZBASELIB_SKBUFFER_MIN_NUM := by
        rw [toNat_grownSize, Nat.mod_eq_of_lt (by omega)]
      have hmore : b.wpos.toNat < grownTo b ZBASELIB_SKBUFFER_MIN_NUM := by
        have hextra : ZBASELIB_SKBUFFER_MIN_NUM.toNat = 64 := rfl
        unfold grownTo
        omega
      refine hright ?_ ?_
      · change b.wpos.toNat < (grownSize b ZBASELIB_SKBUFFER_MIN_NUM).toNat
        omega
      · change (grownSize b ZBASELIB_SKBUFFER_MIN_NUM - b.wpos).toNat < 2 ^ 31
        rw [UInt32.toNat_sub_of_le _ _ (UInt32.le_iff_toNat_le.2 (by omega))]
        omega
  · have hreserve : wp (reserve fresh) (fun room b₁ ↦ room = true ∧
        b₁.wpos.toNat < b₁.bufSize.toNat ∧ (b₁.bufSize - b₁.wpos).toNat = windowSize b) b :=
      wp_reserve_roomy h hroom fun b₁ _ _ hlt hwindow ↦ ⟨rfl, hlt, hwindow⟩
    obtain ⟨room, b₁, hrun, rfl, hlt, hwindow⟩ := hreserve
    constructor
    · intro hall
      rw [← hwindow, ← toInt_window]
      · exact (hall b₁ hrun).1
      · rw [UInt32.toNat_sub_of_le _ _ (UInt32.le_iff_toNat_le.2 (Nat.le_of_lt hlt))]
        omega
    · intro hsmall b₂ hrun'
      rw [hrun] at hrun'
      cases hrun'
      exact hright hlt (by omega)

/-- The `memcpy` of `write` stays inside the block. -/
theorem room_of_prepare (h : WellFormed b) (hsum : b.wpos.toNat + size.toNat < 2 ^ 32)
    (hgrow : ∀ b₁, (compactFor size).run b = some ((), b₁) → b₁.wpos + size > b₁.bufSize →
      ¬b₁.bufSize > b₁.bufMaxSize → grownTo b₁ size < 2 ^ 31)
    (hrun : (prepare size fresh).run b = some (true, b')) :
    b'.wpos.toNat + size.toNat ≤ b'.bufSize.toNat := by
  obtain ⟨b₁, hcompact, h₁, -, -, -, hsum₁, -⟩ := exists_compactFor h hsum
  have hwp : wp (prepare size fresh) (fun room a ↦ room = true ∧ a = b') b :=
    ⟨_, _, hrun, rfl, rfl⟩
  obtain ⟨hroom, -, rfl⟩ | ⟨-, -, hfalse, -⟩ | ⟨hfull, hmax, buf, hbuf, -, rfl⟩ :=
    of_wp_prepare hcompact hwp
  · rw [lt_add_iff hsum₁] at hroom
    omega
  · cases hfalse
  · have hlt := hgrow b₁ hcompact hfull hmax
    have hle := h₁.wpos_le
    change b₁.wpos.toNat + size.toNat ≤ (grownSize b₁ size).toNat
    rw [toNat_grownSize, Nat.mod_eq_of_lt (by omega)]
    unfold grownTo
    omega

/-! ## Calls -/

theorem extra_pos (h : WellFormed b) {call : Call} (hsum : SumBelow call b)
    (henlarges : Enlarges call b extra fresh b₁) : 0 < extra.toNat := by
  cases henlarges with
  | @write data size fresh b b₁ block compacted full below =>
    obtain ⟨b₂, hcompact, h₂, -, -, -, hsum₂, -⟩ := exists_compactFor h (hsum block)
    rw [compacted] at hcompact
    cases hcompact
    have hover := (lt_add_iff hsum₂).1 full
    have hle := h₂.wpos_le
    omega
  | round comes full front below => decide

/-- **The size computations of a call are right if and only if the sizes are small.** -/
theorem exactSizes_iff (h : WellFormed b) {call : Call} (hgranted : Granted call) :
    ExactSizes call b ↔ Small call b := by
  -- the rounds start from well-formed states as long as growth is small
  have hstates (hgrow : ∀ extra fresh b₁, Enlarges call b extra fresh b₁ →
      grownTo b₁ extra < 2 ^ 31) {round : Round} {b₁ : State}
      (hcomes : Comes (call.rounds b) b round b₁) : WellFormed b₁ :=
    hcomes.wellFormed h fun kernel fresh b' hcomes' hend hfront hmax ↦
      Nat.lt_trans (hgrow _ _ _ (.round hcomes' hend hfront hmax)) (by decide)
  constructor
  · intro hexact
    have hsum : SumBelow call b := by
      unfold SumBelow
      split
      · next data size fresh =>
        exact fun hbuf ↦ toNat_add_eq_iff.1 (hexact.sum data size fresh rfl hbuf)
      · trivial
    have hgrow (extra : UInt32) (fresh : Option (ℕ → UInt8)) (b₁ : State)
        (henlarges : Enlarges call b extra fresh b₁) : grownTo b₁ extra < 2 ^ 31 :=
      (exactGrowth_iff (extra_pos h hsum henlarges)).1 (hexact.growth _ _ _ henlarges)
    refine ⟨hsum, hgrow, fun round b₁ hcomes ↦ ?_⟩
    have hwindow (b₂ : State) (hrun : (reserve round.2).run b₁ = some (true, b₂)) :=
      hexact.window b₂ ⟨round, b₁, hcomes, hrun⟩
    apply (window_iff (hstates hgrow hcomes) _).1 hwindow
    exact fun hend hfront hmax ↦ hgrow _ _ _ (.round hcomes hend hfront hmax)
  · intro hsmall
    refine ⟨?_, ?_, ?_, ?_⟩
    · rintro data size fresh rfl hbuf
      exact toNat_add_eq_iff.2 (hsmall.sum hbuf)
    · intro extra fresh b₁ henlarges
      exact (exactGrowth_iff (extra_pos h hsmall.sum henlarges)).2
        (hsmall.growth _ _ _ henlarges)
    · intro size b₁ hcopies
      cases hcopies with
      | write block prepared =>
        exact room_of_prepare h (hsmall.sum block)
          (fun b₂ hcompact hfull hmax ↦ hsmall.growth _ _ _ (.write block hcompact hfull hmax))
          prepared
    · rintro b₁ ⟨⟨kernel, fresh⟩, b₂, hcomes, hrun⟩
      refine (window_iff (hstates hsmall.growth hcomes) fun hend hfront hmax ↦ ?_).2
        (hsmall.window _ b₂ hcomes) b₁ hrun
      exact hsmall.growth _ _ _ (.round hcomes hend hfront hmax)

/-- One call. -/
theorem WellFormed.smallStep (h : WellFormed b) {label : Call × Result}
    (hstep : SmallStep label b b') : WellFormed b' := by
  obtain ⟨call, result⟩ := label
  obtain ⟨hsmall, hgranted, hrun⟩ := hstep
  have hwp : wp call.run (fun _ a ↦ a = b') b := ⟨_, _, hrun, rfl⟩
  have hround (round : Round) (b₁ : State) (next : Option ℤ) (b₂ : State)
      (hcomes : Comes (call.rounds b) b round b₁) (h₁ : WellFormed b₁)
      (hrun : (udpRound round).run b₁ = some (next, b₂)) : WellFormed b₂ :=
    wellFormed_round h₁ (hgranted.rounds hcomes.mem)
      (fun hend hfront hmax ↦ hsmall.growth _ _ _ (.round hcomes hend hfront hmax)) hrun
  obtain hquiet | ⟨data, size, fresh, rfl⟩ | hreceives := call.quiet_or
  · obtain ⟨result, after, rfl, hsteady⟩ := of_wp_quiet h hquiet hwp
    exact hsteady.wellFormed h
  · simp only [Call.run, Op.run, wp_bind, wp_pure] at hwp
    obtain ⟨ret, after, hwrite, rfl⟩ := hwp
    exact (write_outcome h hwrite).1
  · obtain ⟨result, after, rfl, h'⟩ := of_wp_receiving WellFormed hreceives hround hwp h
    exact h'

end

/-- **No size computation goes wrong in a run of small calls**, and a call that is not small has
one that does. -/
theorem sizes_exact_iff {sndBuf : Option ℤ} {bufSize bufMaxSize : UInt32} {sock : ℤ} {b₀ : State}
    (hcreate : create true true sndBuf bufSize bufMaxSize sock = some b₀) :
    (ExactCreate bufMaxSize b₀ ↔ b₀.bufSize < bufMaxSize ∨ 4 * b₀.bufSize.toNat < 2 ^ 32) ∧
    ∀ labels b, Run SmallStep labels b₀ b →
      WellFormed b ∧ ∀ call, Granted call → (ExactSizes call b ↔ Small call b) := by
  refine ⟨exactCreate_iff hcreate, fun labels b hrun ↦ ?_⟩
  have h : WellFormed b :=
    hrun.invariant WellFormed (fun _ _ _ h hstep ↦ h.smallStep hstep) (wellFormed_create hcreate).1
  exact ⟨h, fun call hgranted ↦ exactSizes_iff h hgranted⟩

/-- Four bytes are written, and the next call has to grow the buffer. -/
theorem filled_smallStep :
    SmallStep (.plain (.write [1, 2, 3, 4] 4 (some fun _ ↦ 0)), ⟨0, none⟩)
      ⟨0, some [0, 0, 0, 0], 4, 16, 0, 0, 0, 4096⟩
      ⟨0, some [1, 2, 3, 4], 4, 16, 4, 0, 4, 4096⟩ := by
  refine ⟨⟨fun _ ↦ by decide, fun extra fresh b₁ henlarges ↦ ?_, fun round b₁ hcomes ↦ ?_⟩, rfl,
    rfl⟩
  · cases henlarges with
    | write block compacted full below =>
      cases compacted
      exact absurd full (by decide)
    | round comes full front below => cases comes
  · cases hcomes

theorem sizes_exact_iff_filled :
    WellFormed ⟨0, some [1, 2, 3, 4], 4, 16, 4, 0, 4, 4096⟩ ∧
      (ExactSizes (.plain (.recv twoBytes (some fun _ ↦ 0)))
          ⟨0, some [1, 2, 3, 4], 4, 16, 4, 0, 4, 4096⟩ ↔
        Small (.plain (.recv twoBytes (some fun _ ↦ 0)))
          ⟨0, some [1, 2, 3, 4], 4, 16, 4, 0, 4, 4096⟩) := by
  obtain ⟨h, hexact⟩ :=
    (sizes_exact_iff (show create true true none 4 16 0 = some _ from rfl)).2 _ _
      (.cons filled_smallStep <| .nil _)
  exact ⟨h, hexact _ rfl⟩

/-- The default maximum of a buffer of `2 ^ 30` bytes is 0. -/
theorem not_exact_default :
    ∃ b₀, create true true none 1073741824 0 0 = some b₀ ∧ b₀.bufSize = 1073741824 ∧
      b₀.bufMaxSize = 0 ∧ ¬ExactCreate 0 b₀ := by
  refine ⟨_, rfl, rfl, by decide, fun hexact ↦ ?_⟩
  have hle := hexact.le_max
  revert hle
  decide

end Zbaselib.Socket
