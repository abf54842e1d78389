import Zbaselib.Socket.Sizes

/-!
# How long `udp_recv` goes on

The loop has no counter.  Every round that goes on has put at least one byte
into the buffer, whose size stops growing once it is above the maximum.
-/

namespace Zbaselib.Socket

open Program Block Transition

/-- The sizes that a buffer of so many bytes may grow to. -/
inductive GrowsTo (max : ℕ) : ℕ → ℕ → Prop
  | refl (size : ℕ) : GrowsTo max size size
  | grow {size final : ℕ} (below : size ≤ max)
      (rest : GrowsTo max (size + size / 2 + ZBASELIB_SKBUFFER_MIN_NUM.toNat) final) :
      GrowsTo max size final

/-- No size that the buffer may grow to wraps. -/
def Spacious (b : State) : Prop :=
  ∀ size, GrowsTo b.bufMaxSize.toNat b.bufSize.toNat size → size < 2 ^ 31

/-- The size at the end of a round that makes a system call. -/
def sizeAfter (b : State) : ℕ :=
  if b.dataSize = b.bufSize then grownTo b ZBASELIB_SKBUFFER_MIN_NUM else b.bufSize.toNat

/-- The window of a round, growth included. -/
def window (b : State) : ℕ :=
  if b.dataSize = b.bufSize then grownTo b ZBASELIB_SKBUFFER_MIN_NUM - b.dataSize.toNat
  else windowSize b

/-- A round after which these bytes are in the buffer. -/
structure Took (b : State) (bytes : List UInt8) (b' : State) : Prop where
  wellFormed : WellFormed b'
  content_eq : content b' = content b ++ bytes
  sock_eq : b'.sock = b.sock
  bufMaxSize_eq : b'.bufMaxSize = b.bufMaxSize
  bufSize_eq : b'.bufSize.toNat = sizeAfter b
  left : b'.bufSize.toNat - b'.wpos.toNat = window b - bytes.length

section

variable {b b' b₁ : State} {fresh : Option (ℕ → UInt8)}

theorem Spacious.lt (h : Spacious b) : b.bufSize.toNat < 2 ^ 31 := h _ (.refl _)

theorem Spacious.fits (h : Spacious b) (hfresh : fresh.isSome) (hmax : b.bufSize ≤ b.bufMaxSize) :
    Fits ZBASELIB_SKBUFFER_MIN_NUM fresh b :=
  ⟨h _ (.grow (UInt32.le_iff_toNat_le.1 hmax) (.refl _)), hfresh⟩

theorem windowSize_le (b : State) : windowSize b ≤ b.bufSize.toNat := by
  unfold windowSize
  split <;> exact Nat.sub_le _ _

theorem full_iff (h : WellFormed b) :
    b.dataSize = b.bufSize ↔ b.wpos ≥ b.bufSize ∧ ¬b.rpos > 0 := by
  have hwpos := h.wpos_eq
  have hle := h.wpos_le
  rw [← UInt32.toNat_inj, ge_iff_le, UInt32.le_iff_toNat_le, gt_iff_lt, UInt32.lt_iff_toNat_lt,
    UInt32.toNat_zero]
  omega

/-- A buffer does not become empty. -/
theorem Took.size_pos {bytes : List UInt8} (h : Took b bytes b') (hpos : 0 < b.bufSize.toNat) :
    0 < b'.bufSize.toNat := by
  have hsize := h.bufSize_eq
  unfold sizeAfter grownTo at hsize
  split at hsize <;> omega

/-- The sizes that are left to grow to. -/
theorem growsTo_sizeAfter (hmax : b.dataSize = b.bufSize → b.bufSize ≤ b.bufMaxSize) {final : ℕ}
    (h : GrowsTo b.bufMaxSize.toNat (sizeAfter b) final) :
    GrowsTo b.bufMaxSize.toNat b.bufSize.toNat final := by
  unfold sizeAfter at h
  split at h
  · next hdata => exact .grow (UInt32.le_iff_toNat_le.1 (hmax hdata)) h
  · exact h

/-- The system call moves the write position only. -/
theorem wp_receive_steady (h : WellFormed b) {kernel : Kernel}
    (hfits : (kernel.answer (sizeT (toInt (b.bufSize - b.wpos)))).bytes.length ≤
      b.bufSize.toNat - b.wpos.toNat) {post : Received → State → Prop}
    (hpost : ∀ b', Steady b b' → WellFormed b' → b'.rpos = b.rpos →
      content b' = content b ++ (kernel.answer (sizeT (toInt (b.bufSize - b.wpos)))).bytes →
      post (kernel.answer (sizeT (toInt (b.bufSize - b.wpos)))) b') :
    wp (receive kernel) post b := by
  have hreceive : wp (receive kernel) (fun answer after ↦
      answer = kernel.answer (sizeT (toInt (b.bufSize - b.wpos))) ∧ WellFormed after ∧
        content after = content b ++ answer.bytes) b :=
    wp_receive_fits h hfits fun b' h' hcontent ↦ ⟨rfl, h', hcontent⟩
  obtain ⟨answer, after, hrun, rfl, h', hcontent⟩ := hreceive
  have hwp : wp (receive kernel) (fun _ after' ↦ after' = after) b := ⟨_, _, hrun, rfl⟩
  obtain ⟨b₁, rfl, hsteady, hrpos⟩ := of_wp_receive h hwp
  exact ⟨_, b₁, hrun, hpost b₁ hsteady h' hrpos hcontent⟩

/-! ## Making room for a round -/

/-- The buffer when a round has made room in it. -/
structure Made (b b₁ : State) : Prop where
  wellFormed : WellFormed b₁
  content_eq : content b₁ = content b
  sock_eq : b₁.sock = b.sock
  bufMaxSize_eq : b₁.bufMaxSize = b.bufMaxSize
  bufSize_eq : b₁.bufSize.toNat = sizeAfter b
  window_eq : b₁.bufSize.toNat - b₁.wpos.toNat = window b

/-- A buffer that is not full has room, and one that can grow gets some. -/
theorem wp_reserve_made (h : WellFormed b)
    (hgrow : b.dataSize = b.bufSize →
      b.bufSize ≤ b.bufMaxSize ∧ Fits ZBASELIB_SKBUFFER_MIN_NUM fresh b)
    {post : Bool → State → Prop} (hpost : 0 < window b → ∀ b₁, Made b b₁ → post true b₁) :
    wp (reserve fresh) post b := by
  have hle := h.wpos_le
  have hwpos := h.wpos_eq
  by_cases hdata : b.dataSize = b.bufSize
  · obtain ⟨hmax, hfits⟩ := hgrow hdata
    obtain ⟨hend, hfront⟩ := (full_iff h).1 hdata
    have hdata' := congrArg UInt32.toNat hdata
    have hextra : ZBASELIB_SKBUFFER_MIN_NUM.toNat = 64 := rfl
    have hwindow : window b = grownTo b ZBASELIB_SKBUFFER_MIN_NUM - b.dataSize.toNat :=
      if_pos hdata
    have hmore : b.dataSize.toNat < grownTo b ZBASELIB_SKBUFFER_MIN_NUM := by
      unfold grownTo
      omega
    unfold reserve
    rw [wp_bind, wp_get, wp_ite, if_pos hend, wp_ite, if_neg hfront, wp_ite,
      if_neg (UInt32.not_lt.2 hmax), wp_bind]
    apply wp_grow h hfits
    intro buf bufSize hbufSize h₁ hcontent
    have hsize : bufSize.toNat = grownTo b ZBASELIB_SKBUFFER_MIN_NUM := hbufSize
    rw [wp_pure]
    refine hpost (by omega) _ ⟨h₁, hcontent, rfl, rfl, ?_, ?_⟩
    · simp only [hsize, sizeAfter, if_pos hdata]
    · simp only [hsize]
      omega
  · have hroom : ¬(b.wpos ≥ b.bufSize ∧ ¬b.rpos > 0) := fun hno ↦ hdata ((full_iff h).2 hno)
    apply wp_reserve_roomy h hroom
    intro b₁ hsteady hcontent hlt hwindow
    have hwindow' : b₁.bufSize.toNat - b₁.wpos.toNat = window b := by
      rw [window, if_neg hdata, ← hwindow,
        UInt32.toNat_sub_of_le _ _ (UInt32.le_iff_toNat_le.2 hlt.le)]
    refine hpost (by omega) b₁ ⟨hsteady.wellFormed h, hcontent, hsteady.sock_eq,
      hsteady.bufMaxSize_eq, ?_, hwindow'⟩
    rw [hsteady.bufSize_eq, sizeAfter, if_neg hdata]

/-- The bytes that arrive there. -/
theorem Made.took (hmade : Made b b₁) {bytes : List UInt8} (hsteady : Steady b₁ b')
    (h' : WellFormed b') (hrpos : b'.rpos = b₁.rpos) (hcontent : content b' = content b₁ ++ bytes) :
    Took b bytes b' := by
  have hlength := h'.length_content
  rw [hcontent, List.length_append, hmade.wellFormed.length_content] at hlength
  have hwpos := hmade.wellFormed.wpos_eq
  have hwpos' := h'.wpos_eq
  have hwindow := hmade.window_eq
  refine ⟨h', ?_, hsteady.sock_eq.trans hmade.sock_eq,
    hsteady.bufMaxSize_eq.trans hmade.bufMaxSize_eq, ?_, ?_⟩
  · rw [hcontent, hmade.content_eq]
  · rw [hsteady.bufSize_eq]
    exact hmade.bufSize_eq
  · rw [hsteady.bufSize_eq, hwpos', hrpos]
    omega

/-- **A round** refuses a full buffer, or takes the answer to a window of at least one byte. -/
theorem wp_udpRound (h : WellFormed b) (hspace : Spacious b) {kernel : Kernel}
    (hfresh : fresh.isSome) {post : Option ℤ → State → Prop}
    (hfull : b.dataSize = b.bufSize → b.bufMaxSize < b.bufSize → post (some (-3)) b)
    (hpost : (b.dataSize = b.bufSize → b.bufSize ≤ b.bufMaxSize) → 0 < window b →
      ∀ b', Took b (kernel.answer (window b)).bytes b' →
        post (kernel.answer (window b)).ends b') : wp (udpRound (kernel, fresh)) post b := by
  unfold udpRound
  rw [wp_bind]
  by_cases hrefused : b.dataSize = b.bufSize ∧ b.bufMaxSize < b.bufSize
  · obtain ⟨hdata, hmax⟩ := hrefused
    obtain ⟨hend, hfront⟩ := (full_iff h).1 hdata
    rw [wp_reserve_refused hend hfront hmax]
    simp only [Bool.false_eq_true, if_false, wp_pure]
    exact hfull hdata hmax
  · have hmax (hdata : b.dataSize = b.bufSize) : b.bufSize ≤ b.bufMaxSize :=
      UInt32.not_lt.1 fun hlt ↦ hrefused ⟨hdata, hlt⟩
    apply wp_reserve_made h fun hdata ↦ ⟨hmax hdata, hspace.fits hfresh (hmax hdata)⟩
    intro hpos b₁ hmade
    have hsmall : b₁.bufSize.toNat < 2 ^ 31 := by
      rw [hmade.bufSize_eq]
      exact hspace _ (growsTo_sizeAfter hmax (.refl _))
    have hwindow := hmade.window_eq
    have hoffered := @sizeT_window b₁.bufSize b₁.wpos (by omega) (by omega)
    rw [hwindow] at hoffered
    simp only [if_true, wp_bind, wp_pure]
    apply wp_receive_steady hmade.wellFormed
    · rw [hoffered, hwindow]
      exact kernel.fits _
    · rw [hoffered]
      intro b' hsteady h' hrpos hcontent
      exact hpost hmax hpos b' (hmade.took hsteady h' hrpos hcontent)

theorem Took.spacious {bytes : List UInt8} (h : Took b bytes b') (hspace : Spacious b)
    (hmax : b.dataSize = b.bufSize → b.bufSize ≤ b.bufMaxSize) : Spacious b' := by
  intro final hfinal
  rw [h.bufMaxSize_eq, h.bufSize_eq] at hfinal
  exact hspace final (growsTo_sizeAfter hmax hfinal)

theorem Took.dataSize_eq {bytes : List UInt8} (h : Took b bytes b') (hb : WellFormed b) :
    b'.dataSize.toNat = b.dataSize.toNat + bytes.length := by
  rw [← h.wellFormed.length_content, h.content_eq, List.length_append, hb.length_content]

/-! ## All rounds of a call -/

/-- The calls of `recvfrom` that the loop makes, one in each round that finds room: the window and
what the kernel answers. -/
def recvfroms : List Round → State → List (ℕ × Received)
  | [], _ => []
  | round :: rest, b =>
    match (reserve round.2).run b with
    | some (true, b₁) =>
      let window := sizeT (toInt (b₁.bufSize - b₁.wpos))
      (window, round.1.answer window) ::
        match (udpRound round).run b with
        | some (none, b') => recvfroms rest b'
        | _ => []
    | _ => []

/-- Why the loop ends after these calls: the buffer is full and may not grow, or the last answer had
no bytes. -/
inductive Ends (calls : List (ℕ × Received)) (ret : ℤ) (b' : State) : Prop
  | full (ret_eq : ret = -3) (full : b'.dataSize = b'.bufSize) (above : b'.bufMaxSize < b'.bufSize)
      (wet : ∀ call ∈ calls, call.2.bytes ≠ [])
  | dry (before : List (ℕ × Received)) (last : ℕ × Received) (split : calls = before ++ [last])
      (wet : ∀ call ∈ before, call.2.bytes ≠ []) (ends : last.2.ends = some ret)

/-- A loop that comes back has kept what every one of its calls brought, in order. -/
structure Buffered (b : State) (rounds : List Round) (ret : ℤ) (b' : State) : Prop where
  windows : ∀ call ∈ recvfroms rounds b, 0 < call.1
  content_eq : content b' = content b ++ (recvfroms rounds b).flatMap fun call ↦ call.2.bytes
  ends : Ends (recvfroms rounds b) ret b'

/-- What `udp_recv` comes back with. -/
def Returned (b : State) (rounds : List Round) (ret : ℤ) (b' : State) : Prop :=
  if b.sock < 0 then ret = -2 ∧ b' = b else Buffered b rounds ret b'

theorem ends_cases (answer : Received) :
    (answer.bytes = [] ∧ ∃ ret, answer.ends = some ret ∧ ret ≠ -3) ∨
      (answer.bytes ≠ [] ∧ answer.ends = none) := by
  cases answer with
  | data bytes =>
    by_cases hbytes : bytes = []
    · exact Or.inl ⟨hbytes, -1, if_pos hbytes, by decide⟩
    · exact Or.inr ⟨hbytes, if_neg hbytes⟩
  | wouldBlock => exact Or.inl ⟨rfl, 0, rfl, by decide⟩
  | error => exact Or.inl ⟨rfl, -1, rfl, by decide⟩

theorem recvfroms_refused {round : Round} {rest : List Round} (h : WellFormed b)
    (hdata : b.dataSize = b.bufSize) (hmax : b.bufMaxSize < b.bufSize) :
    recvfroms (round :: rest) b = [] := by
  obtain ⟨hend, hfront⟩ := (full_iff h).1 hdata
  have hwp : wp (reserve round.2) (fun room _ ↦ room = false) b := by
    rw [wp_reserve_refused hend hfront hmax]
  obtain ⟨room, b₁, hrun, rfl⟩ := hwp
  rw [recvfroms, hrun]

/-- A round that finds room makes its call. -/
theorem recvfroms_cons (h : WellFormed b) (hspace : Spacious b) {kernel : Kernel}
    (hfresh : fresh.isSome) (hmax : b.dataSize = b.bufSize → b.bufSize ≤ b.bufMaxSize)
    {next : Option ℤ} (hrun : (udpRound (kernel, fresh)).run b = some (next, b'))
    (rest : List Round) : recvfroms ((kernel, fresh) :: rest) b =
      (window b, kernel.answer (window b)) :: next.elim (recvfroms rest b') fun _ ↦ [] := by
  have hmade : wp (reserve fresh) (fun room b₁ ↦ room = true ∧ 0 < window b ∧ Made b b₁) b :=
    wp_reserve_made h (fun hdata ↦ ⟨hmax hdata, hspace.fits hfresh (hmax hdata)⟩)
      fun hpos b₁ hmade ↦ ⟨rfl, hpos, hmade⟩
  obtain ⟨room, b₁, hreserve, rfl, hpos, hmade⟩ := hmade
  have hwindow := hmade.window_eq
  have hsmall : b₁.bufSize.toNat < 2 ^ 31 := by
    rw [hmade.bufSize_eq]
    exact hspace _ (growsTo_sizeAfter hmax (.refl _))
  have hoffered := @sizeT_window b₁.bufSize b₁.wpos (by omega) (by omega)
  rw [hwindow] at hoffered
  rw [recvfroms, hreserve, hrun]
  dsimp only
  rw [hoffered]
  cases next <;> rfl

theorem mem_recvfroms {rounds : List Round} {call : ℕ × Received}
    (hcall : call ∈ recvfroms rounds b) : ∃ round ∈ rounds, call.2 = round.1.answer call.1 := by
  induction rounds generalizing b with
  | nil => cases hcall
  | cons round rest ih =>
    rw [recvfroms] at hcall
    split at hcall
    · obtain rfl | hcall := List.mem_cons.1 hcall
      · exact ⟨round, List.mem_cons_self, rfl⟩
      · split at hcall
        · obtain ⟨round', hmem, heq⟩ := ih hcall
          exact ⟨round', List.mem_cons_of_mem _ hmem, heq⟩
        · cases hcall
    · cases hcall

/-- A socket that never runs dry has filled the buffer. -/
theorem Buffered.of_never_dry {rounds : List Round} {ret : ℤ} (h : Buffered b rounds ret b')
    (hnever : ∀ round ∈ rounds, ∀ window, 0 < window → (round.1.answer window).bytes ≠ []) :
    ret = -3 := by
  cases h.ends with
  | full ret_eq => exact ret_eq
  | dry before last split wet ends =>
    have hlast : last ∈ recvfroms rounds b := by
      rw [split]
      exact List.mem_append_right _ List.mem_cons_self
    obtain ⟨round, hround, heq⟩ := mem_recvfroms hlast
    have hwet := hnever round hround last.1 (h.windows last hlast)
    rw [← heq] at hwet
    obtain ⟨hdry, -⟩ | ⟨-, hnone⟩ := ends_cases last.2
    · exact absurd hdry hwet
    · rw [hnone] at ends
      cases ends

/-- The first call of a loop, and what the others do. -/
theorem Buffered.cons {rest : List Round} {kernel : Kernel} {ret : ℤ} {b₂ : State}
    (h : Buffered b' rest ret b₂) (htook : Took b (kernel.answer (window b)).bytes b')
    (hpos : 0 < window b) (hwet : (kernel.answer (window b)).bytes ≠ [])
    (hcalls : recvfroms ((kernel, fresh) :: rest) b =
      (window b, kernel.answer (window b)) :: recvfroms rest b') :
    Buffered b ((kernel, fresh) :: rest) ret b₂ := by
  constructor <;> rw [hcalls]
  · exact List.forall_mem_cons.2 ⟨hpos, h.windows⟩
  · rw [h.content_eq, htook.content_eq, List.flatMap_cons, List.append_assoc]
  · cases h.ends with
    | full ret_eq full above wet =>
      exact .full ret_eq full above (List.forall_mem_cons.2 ⟨hwet, wet⟩)
    | dry before last split wet ends =>
      exact .dry (_ :: before) last (by rw [split]; rfl) (List.forall_mem_cons.2 ⟨hwet, wet⟩) ends

/-- **The loop comes back** when there are more answers than bytes in any buffer, or a dry one. -/
theorem wp_udpRecvLoop {rounds : List Round} (h : WellFormed b) (hspace : Spacious b)
    (hgranted : ∀ round ∈ rounds, round.2.isSome)
    (henough : 2 ^ 31 ≤ b.dataSize.toNat + rounds.length ∨
      ∃ round ∈ rounds, ∀ window, (round.1.answer window).bytes = []) :
    wp (udpRecvLoop rounds) (fun ret b' ↦ Buffered b rounds ret b') b := by
  induction rounds generalizing b with
  | nil =>
    obtain hmany | ⟨round, hround, -⟩ := henough
    · have hle := h.wpos_le
      have hwpos := h.wpos_eq
      have hlt := hspace.lt
      rw [List.length_nil] at hmany
      omega
    · cases hround
  | cons round rest ih =>
    rw [wp_udpRecvLoop_cons]
    obtain ⟨kernel, fresh⟩ := round
    have hfresh : fresh.isSome := hgranted _ List.mem_cons_self
    have hround : wp (udpRound (kernel, fresh)) (fun next b' ↦
        (b.dataSize = b.bufSize ∧ b.bufMaxSize < b.bufSize ∧ next = some (-3) ∧ b' = b) ∨
        ((b.dataSize = b.bufSize → b.bufSize ≤ b.bufMaxSize) ∧ 0 < window b ∧
          next = (kernel.answer (window b)).ends ∧ Took b (kernel.answer (window b)).bytes b')) b :=
      wp_udpRound h hspace hfresh (fun hdata hmax ↦ Or.inl ⟨hdata, hmax, rfl, rfl⟩)
        fun hmax hpos b' htook ↦ Or.inr ⟨hmax, hpos, rfl, htook⟩
    obtain ⟨next, b', hrun, hcase⟩ := hround
    refine ⟨next, b', hrun, ?_⟩
    obtain ⟨hdata, hmax, rfl, rfl⟩ | ⟨hmax, hpos, rfl, htook⟩ := hcase
    · have hcalls : recvfroms ((kernel, fresh) :: rest) b' = [] := recvfroms_refused h hdata hmax
      refine ⟨?_, ?_, ?_⟩ <;> rw [hcalls]
      · simp
      · simp
      · exact .full rfl hdata hmax (by simp)
    · have hcalls := recvfroms_cons h hspace hfresh hmax hrun rest
      obtain ⟨hdry, ret, hends, -⟩ | ⟨hbytes, hends⟩ := ends_cases (kernel.answer (window b))
      · rw [hends] at hcalls ⊢
        refine ⟨?_, ?_, ?_⟩ <;> rw [hcalls]
        · simpa using hpos
        · simpa using htook.content_eq
        · exact .dry [] _ rfl (by simp) hends
      · rw [hends] at hcalls ⊢
        have hmore : 0 < (kernel.answer (window b)).bytes.length := List.length_pos_iff.2 hbytes
        have hdata := htook.dataSize_eq h
        have hrest : 2 ^ 31 ≤ b'.dataSize.toNat + rest.length ∨
            ∃ round ∈ rest, ∀ window, (round.1.answer window).bytes = [] := by
          obtain hmany | ⟨round, hround, hdry⟩ := henough
          · rw [List.length_cons] at hmany
            left
            omega
          · obtain rfl | hround := List.mem_cons.1 hround
            · exact absurd (hdry _) hbytes
            · exact Or.inr ⟨round, hround, hdry⟩
        apply wp_mono (ih htook.wellFormed (htook.spacious hspace hmax)
          (fun round hround ↦ hgranted round (List.mem_cons_of_mem _ hround)) hrest)
        intro ret b₂ hbuffered
        exact hbuffered.cons htook hpos hbytes hcalls

/-- Answers that are not asked for do not matter. -/
theorem udpRecvLoop_append {rounds more : List Round} {outcome : ℤ × State}
    (h : (udpRecvLoop rounds).run b = some outcome) :
    (udpRecvLoop (rounds ++ more)).run b = some outcome := by
  induction rounds generalizing b with
  | nil => cases h
  | cons round rest ih =>
    have hwp : wp (udpRecvLoop (round :: rest)) (fun ret b' ↦ (ret, b') = outcome) b :=
      ⟨_, _, h, rfl⟩
    rw [wp_udpRecvLoop_cons] at hwp
    obtain ⟨next, b₁, hround, hnext⟩ := hwp
    have hmore : wp (udpRecvLoop (round :: (rest ++ more)))
        (fun ret b' ↦ (ret, b') = outcome) b := by
      rw [wp_udpRecvLoop_cons]
      refine ⟨next, b₁, hround, ?_⟩
      cases next with
      | some ret => exact hnext
      | none =>
        obtain ⟨ret, b', hrun, rfl⟩ := hnext
        exact ⟨ret, b', ih hrun, rfl⟩
    obtain ⟨ret, b', hrun, rfl⟩ := hmore
    exact hrun

/-- Every state that a call comes to is well formed and may still grow. -/
theorem Comes.spacious {rounds : List Round} {round : Round} {b₁ : State}
    (hcomes : Comes rounds b round b₁) (h : WellFormed b) (hspace : Spacious b)
    (hgranted : ∀ round ∈ rounds, round.2.isSome) : WellFormed b₁ ∧ Spacious b₁ := by
  refine hcomes.kept (fun b ↦ WellFormed b ∧ Spacious b) ?_ ⟨h, hspace⟩
  rintro ⟨kernel, fresh⟩ b₁ next b₂ hcomes₁ ⟨h₁, hspace₁⟩ hrun
  have hwp : wp (udpRound (kernel, fresh)) (fun _ b₂ ↦ WellFormed b₂ ∧ Spacious b₂) b₁ := by
    apply wp_udpRound h₁ hspace₁ (hgranted _ hcomes₁.mem)
    · intro _ _
      exact ⟨h₁, hspace₁⟩
    · intro hmax _ b₂ htook
      exact ⟨htook.wellFormed, htook.spacious hspace₁ hmax⟩
  have hkept := wp_outcome hwp hrun
  exact hkept

/-- The kernel is never offered an empty window. -/
theorem Offers.window_pos {call : Call} {b₁ : State} (hoffers : Offers call b b₁)
    (h : WellFormed b) (hspace : Spacious b) (hgranted : Granted call) :
    1 ≤ toInt (b₁.bufSize - b₁.wpos) := by
  obtain ⟨round, b₂, hcomes, hrun⟩ := hoffers
  obtain ⟨h₂, hspace₂⟩ := hcomes.spacious h hspace fun round hround ↦ hgranted.rounds hround
  have hgrow (_ : b₂.wpos ≥ b₂.bufSize) (_ : ¬b₂.rpos > 0) (hmax : ¬b₂.bufSize > b₂.bufMaxSize) :
      grownTo b₂ ZBASELIB_SKBUFFER_MIN_NUM < 2 ^ 31 := by
    have hfits : Fits ZBASELIB_SKBUFFER_MIN_NUM (some fun _ ↦ 0) b₂ :=
      hspace₂.fits rfl (UInt32.not_lt.1 hmax)
    exact hfits.1
  have hsmall : windowSize b₂ < 2 ^ 31 := Nat.lt_of_le_of_lt (windowSize_le b₂) hspace₂.lt
  exact ((window_iff h₂ hgrow).2 hsmall b₁ hrun).1

end

/-- **`udp_recv` comes back, whatever the socket has**, with every byte that arrived, and a socket
that never runs dry ends it with -3.  No window is empty. -/
theorem udpRecv_returns {sndBuf : Option ℤ} {bufSize bufMaxSize : UInt32} {sock : ℤ}
    {b₀ b : State} {labels : List (Call × Result)}
    (hcreate : create true true sndBuf bufSize bufMaxSize sock = some b₀)
    (hrun : Run SmallStep labels b₀ b) (hspace : Spacious b) :
    (∀ (addr : Bool) (answers : ℕ → Round), (∀ i, (answers i).2.isSome) → ∃ n ret b',
      (∀ n', n ≤ n' → (udpRecv addr ((List.range n').map answers)).run b = some (ret, b')) ∧
        Returned b (asked addr ((List.range n).map answers)) ret b' ∧
          (0 ≤ b.sock → (∀ i window, 0 < window →
            ((recvfrom addr (answers i).1).answer window).bytes ≠ []) → ret = -3)) ∧
    (∀ (addr : Bool) (rounds : List Round), (∀ round ∈ rounds, round.2.isSome) →
      (∃ round ∈ asked addr rounds, ∀ window, (round.1.answer window).bytes = []) → ∃ ret b',
        (udpRecv addr rounds).run b = some (ret, b') ∧
          Returned b (asked addr rounds) ret b') ∧
    ∀ call b₁, Granted call → Offers call b b₁ → 1 ≤ toInt (b₁.bufSize - b₁.wpos) := by
  have h : WellFormed b :=
    hrun.invariant WellFormed (fun _ _ _ h hstep ↦ h.smallStep hstep) (wellFormed_create hcreate).1
  obtain ⟨buf, hbuf, -⟩ := h.block
  have hreturns (addr : Bool) (rounds : List Round) (hgranted : ∀ round ∈ rounds, round.2.isSome)
      (henough : 2 ^ 31 ≤ b.dataSize.toNat + rounds.length ∨
        ∃ round ∈ asked addr rounds, ∀ window, (round.1.answer window).bytes = []) :
      ∃ ret b', (∀ more, (udpRecv addr (rounds ++ more)).run b = some (ret, b')) ∧
        Returned b (asked addr rounds) ret b' := by
    unfold Returned
    by_cases hsock : b.sock < 0
    · have hinvalid (more : List Round) :
          wp (udpRecv addr (rounds ++ more)) (fun ret b' ↦ ret = -2 ∧ b' = b) b :=
        wp_udpRecv_iff.2 (by rw [if_pos (Or.inr hsock)]; exact ⟨rfl, rfl⟩)
      refine ⟨-2, b, fun more ↦ ?_, by rw [if_pos hsock]; exact ⟨rfl, rfl⟩⟩
      obtain ⟨ret, b', hrun', rfl, rfl⟩ := hinvalid more
      exact hrun'
    · have hvalid : ¬(b.buf = none ∨ b.sock < 0) := by
        rw [hbuf]
        simpa using hsock
      have hlength : (asked addr rounds).length = rounds.length := List.length_map _
      obtain ⟨ret, b', hloop, hbuffered⟩ := wp_udpRecvLoop h hspace
        (isSome_of_mem_asked hgranted) (by rwa [hlength])
      refine ⟨ret, b', fun more ↦ ?_, by rwa [if_neg hsock]⟩
      have hwp : wp (udpRecv addr (rounds ++ more)) (fun r a ↦ (r, a) = (ret, b')) b := by
        rw [wp_udpRecv_iff, if_neg hvalid, asked_append]
        exact ⟨ret, b', udpRecvLoop_append hloop, rfl⟩
      obtain ⟨r, a, hrun', heq⟩ := hwp
      rw [← heq]
      exact hrun'
  refine ⟨fun addr answers hgranted ↦ ?_, fun addr rounds hgranted hdry ↦ ?_,
    fun call b₁ hgranted hoffers ↦ hoffers.window_pos h hspace hgranted⟩
  · obtain ⟨ret, b', hmore, hreturned⟩ := hreturns addr ((List.range (2 ^ 31)).map answers)
      (fun round hround ↦ by
        obtain ⟨i, -, rfl⟩ := List.mem_map.1 hround
        exact hgranted i)
      (Or.inl (by rw [List.length_map, List.length_range]; omega))
    refine ⟨2 ^ 31, ret, b', fun n' hn' ↦ ?_, hreturned, fun hsock hnever ↦ ?_⟩
    · obtain ⟨k, rfl⟩ := Nat.exists_eq_add_of_le hn'
      rw [List.range_add, List.map_append]
      exact hmore _
    · rw [Returned, if_neg (not_lt.2 hsock)] at hreturned
      refine hreturned.of_never_dry fun round hround ↦ ?_
      obtain ⟨round', hround', rfl⟩ := List.mem_map.1 hround
      obtain ⟨i, -, rfl⟩ := List.mem_map.1 hround'
      exact hnever i
  · obtain ⟨ret, b', hmore, hreturned⟩ := hreturns addr rounds hgranted (Or.inr hdry)
    have hexact := hmore []
    rw [List.append_nil] at hexact
    exact ⟨ret, b', hexact, hreturned⟩

/-- Four bytes may grow to 70, and no further. -/
theorem spacious_growStart : Spacious growStart := by
  intro size hsize
  cases hsize with
  | refl => decide
  | grow below rest =>
    cases rest with
    | refl => decide
    | grow below rest => exact absurd below (by decide)

theorem udpRecv_returns_growStart : ∃ n b', ∀ n', n ≤ n' →
    (udpRecv false ((List.range n').map fun _ ↦ (twoBytes, some fun _ ↦ 0))).run growStart =
      some (-3, b') := by
  obtain ⟨hforever, -, -⟩ := udpRecv_returns grow_create (.nil growStart) spacious_growStart
  obtain ⟨n, ret, b', hreturns, -, hnever⟩ :=
    hforever false (fun _ ↦ (twoBytes, some fun _ ↦ 0)) fun _ ↦ rfl
  obtain rfl : ret = -3 := by
    refine hnever (by decide) fun i window hwindow ↦ ?_
    have hne : window ≠ 0 := by omega
    simp [recvfrom, twoBytes, Received.bytes, hne]
  exact ⟨n, b', hreturns⟩

end Zbaselib.Socket
