import Zbaselib.Socket.Limit
import Zbaselib.Socket.Refusal
import Zbaselib.Socket.Rounds

/-!
# Datagrams that do not fit into their window

`recvfrom` discards what exceeds its window, and the window ends where the
buffer does.  Room is made only when there is none at all, so a datagram is
whole exactly when the buffer does not run full in the middle of it, and is not
lost with the block when the buffer has to grow.
-/

namespace Zbaselib.Socket

open Program Block Transition

/-- What `recvfrom` answers when this datagram is the next one. -/
def datagram (payload : List UInt8) : Kernel where
  answer window := .data (payload.take window)
  fits window := by
    simp only [Received.bytes, List.length_take]
    exact Nat.min_le_left _ _

/-- The answers when these datagrams are pending; `supply` is what the allocator answers with so
many of them left. -/
def pending (supply : ℕ → Option (ℕ → UInt8)) : List (List UInt8) → List Round
  | [] => [(idleKernel, supply 0)]
  | payload :: rest => (datagram payload, supply (rest.length + 1)) :: pending supply rest

/-- How many answers the loop takes. -/
def consumed : List Round → State → ℕ
  | [], _ => 0
  | round :: rest, b =>
    match (udpRound round).run b with
    | some (none, b') => consumed rest b' + 1
    | some (some ret, _) => if ret = -3 then 0 else 1
    | none => 0

/-- The call appends the whole of every datagram that it takes off the socket. -/
def Untruncated (addr : Bool) (supply : ℕ → Option (ℕ → UInt8)) (payloads : List (List UInt8))
    (b : State) : Prop :=
  ∃ ret b', (udpRecv addr (pending supply payloads)).run b = some (ret, b') ∧
    content b' = content b ++
      (payloads.take (consumed ((Call.udpRecv addr (pending supply payloads)).rounds b) b)).flatten

/-- The call can do without the sender's address: it is not asked for, no bytes are pending next, or
the buffer is full beyond its maximum and `recvfrom` is not called. -/
def Nameless (addr : Bool) (payloads : List (List UInt8)) (b : State) : Prop :=
  addr = false ∨ payloads.headD [] = [] ∨ b.dataSize = b.bufSize ∧ b.bufMaxSize < b.bufSize

/-- So many more bytes fill the buffer: those up to its end, and those that fill it after it was
compacted or has grown. -/
def FillsAt (b : State) (count : ℕ) : Prop :=
  count = b.bufSize.toNat - b.wpos.toNat ∨
    ∃ size, GrowsTo b.bufMaxSize.toNat b.bufSize.toNat size ∧ count = size - b.dataSize.toNat

/-- The buffer runs full in the middle of the datagram that comes after these. -/
def Straddles (b : State) (before : List (List UInt8)) (payload : List UInt8) : Prop :=
  ∃ count, FillsAt b count ∧ before.flatten.length < count ∧
    count < before.flatten.length + payload.length

/-- Behind these datagrams the buffer is full at a size from which it may grow. -/
structure FullAt (b : State) (before : List (List UInt8)) (size : ℕ) : Prop where
  grows : GrowsTo b.bufMaxSize.toNat b.bufSize.toNat size
  below : size ≤ b.bufMaxSize.toNat
  full : b.dataSize.toNat + before.flatten.length = size

/-- Wherever the buffer has to grow, the new size is an `int` and there is memory for it. -/
def Provided (supply : ℕ → Option (ℕ → UInt8)) (payloads : List (List UInt8)) (b : State) : Prop :=
  ∀ before after size, payloads = before ++ after → [] ∉ before → FullAt b before size →
    size + size / 2 + ZBASELIB_SKBUFFER_MIN_NUM.toNat < 2 ^ 31 ∧ (supply after.length).isSome

section

variable {b b' : State} {payload bytes : List UInt8} {fresh : Option (ℕ → UInt8)}
  {supply : ℕ → Option (ℕ → UInt8)}

theorem GrowsTo.le {max size final : ℕ} (h : GrowsTo max size final) : size ≤ final := by
  induction h with
  | refl size => exact le_rfl
  | grow below rest ih => omega

/-- The window ends where the buffer is full next. -/
theorem fillsAt_window (h : WellFormed b)
    (hmax : b.dataSize = b.bufSize → b.bufSize ≤ b.bufMaxSize) :
    FillsAt b (window b) ∧ ∀ count, FillsAt b count → 0 < count → window b ≤ count := by
  have hwpos := h.wpos_eq
  have hle := h.wpos_le
  unfold window
  split
  · next hdata =>
    have hdata' := congrArg UInt32.toNat hdata
    have hgrow := UInt32.le_iff_toNat_le.1 (hmax hdata)
    refine ⟨Or.inr ⟨_, .grow hgrow (.refl _), rfl⟩, ?_⟩
    rintro count (rfl | ⟨size, hsize, rfl⟩) hpos
    · omega
    · cases hsize with
      | refl => omega
      | grow below rest =>
        have hfinal := rest.le
        unfold grownTo
        omega
  · next hdata =>
    have hfull : b.dataSize.toNat ≠ b.bufSize.toNat := fun heq ↦ hdata (UInt32.toNat_inj.1 heq)
    unfold windowSize
    split
    · refine ⟨Or.inl rfl, ?_⟩
      rintro count (rfl | ⟨size, hsize, rfl⟩) hpos
      · exact le_rfl
      · have hfinal := hsize.le
        omega
    · next hend =>
      have hend' := UInt32.le_iff_toNat_le.1 (UInt32.not_lt.1 hend)
      refine ⟨Or.inr ⟨_, .refl _, rfl⟩, ?_⟩
      rintro count (rfl | ⟨size, hsize, rfl⟩) hpos
      · omega
      · have hfinal := hsize.le
        omega

/-- A full buffer that may not grow is full for good. -/
theorem not_fillsAt_refused (h : WellFormed b) (hdata : b.dataSize = b.bufSize)
    (hmax : b.bufMaxSize < b.bufSize) {count : ℕ} (hpos : 0 < count) : ¬FillsAt b count := by
  have hwpos := h.wpos_eq
  have hdata' := congrArg UInt32.toNat hdata
  have hmax' := UInt32.lt_iff_toNat_lt.1 hmax
  rintro (rfl | ⟨size, hsize, rfl⟩)
  · omega
  · cases hsize with
    | refl => omega
    | grow below rest => omega

/-- Bytes that were taken bring the buffer nearer to where it is full. -/
theorem Took.fillsAt_iff (htook : Took b bytes b') (h : WellFormed b)
    (hmax : b.dataSize = b.bufSize → b.bufSize ≤ b.bufMaxSize) {count : ℕ} (hpos : 0 < count) :
    FillsAt b' count ↔ FillsAt b (count + bytes.length) := by
  have hwpos := h.wpos_eq
  have hle := h.wpos_le
  have hdataSize := htook.dataSize_eq h
  have hleft := htook.left
  have hwindow := fillsAt_window h hmax
  unfold FillsAt
  rw [hleft, htook.bufMaxSize_eq, htook.bufSize_eq]
  constructor
  · rintro (rfl | ⟨size, hsize, rfl⟩)
    · have heq : window b - bytes.length + bytes.length = window b := by omega
      rw [heq]
      exact hwindow.1
    · exact Or.inr ⟨size, growsTo_sizeAfter hmax hsize, by omega⟩
  · rintro (hend | ⟨size, hsize, hcount⟩)
    · left
      have hroom : b.dataSize ≠ b.bufSize := fun heq ↦ by
        have heq' := congrArg UInt32.toNat heq
        omega
      have hlt : b.wpos < b.bufSize := UInt32.lt_iff_toNat_lt.2 (by omega)
      rw [window, if_neg hroom, windowSize, if_pos hlt]
      omega
    · right
      refine ⟨size, ?_, by omega⟩
      unfold sizeAfter
      split
      · next hdata =>
        have hdata' := congrArg UInt32.toNat hdata
        cases hsize with
        | refl => omega
        | grow below rest => exact rest
      · exact hsize

/-! ## One datagram after the other -/

/-- A full buffer that may grow can do so. -/
def Supplied (fresh : Option (ℕ → UInt8)) (b : State) : Prop :=
  b.dataSize = b.bufSize → b.bufSize ≤ b.bufMaxSize → Fits ZBASELIB_SKBUFFER_MIN_NUM fresh b

/-- How a round goes when the kernel has these bytes. -/
inductive Goes (kernel : Kernel) (payload : List UInt8) (fresh : Option (ℕ → UInt8)) (b : State) :
    Prop
  | refused (full : b.dataSize = b.bufSize) (above : b.bufMaxSize < b.bufSize)
      (run : (udpRound (kernel, fresh)).run b = some (some (-3), b))
  | lost (unsupplied : ¬Supplied fresh b)
      (ends : ∀ next b', (udpRound (kernel, fresh)).run b = some (next, b') →
        next ≠ none ∧ (content b').length < (content b).length)
  | whole (below : b.dataSize = b.bufSize → b.bufSize ≤ b.bufMaxSize) (supplied : Supplied fresh b)
      (positive : 0 < window b) (fits : payload.length ≤ window b) (next : Option ℤ) (b' : State)
      (run : (udpRound (kernel, fresh)).run b = some (next, b'))
      (goesOn : next = none ↔ payload ≠ []) (ran : next ≠ some (-3)) (took : Took b payload b')
  | cut (below : b.dataSize = b.bufSize → b.bufSize ≤ b.bufMaxSize) (positive : 0 < window b)
      (long : window b < payload.length)
      (short : ∀ next b', (udpRound (kernel, fresh)).run b = some (next, b') →
        next = none ∧ WellFormed b' ∧ 0 < b'.bufSize.toNat ∧
          (content b').length ≤ (content b).length + window b)

theorem ends_eq_none_iff (answer : Received) : answer.ends = none ↔ answer.bytes ≠ [] := by
  obtain ⟨hbytes, ret, hends, -⟩ | ⟨hbytes, hends⟩ := ends_cases answer
  · rw [hends]
    exact iff_of_false (Option.some_ne_none _) (not_not.2 hbytes)
  · exact iff_of_true hends hbytes

theorem ends_ne_refused (answer : Received) : answer.ends ≠ some (-3) := by
  obtain ⟨-, ret, hends, hret⟩ | ⟨-, hends⟩ := ends_cases answer
  · rw [hends]
    exact fun heq ↦ hret (Option.some.inj heq)
  · rw [hends]
    exact (Option.some_ne_none _).symm

/-- Growth that fails leaves less than there was, and the round is the last one. -/
theorem ends_of_lost (h : WellFormed b) (hpos : 0 < b.bufSize.toNat) {kernel : Kernel}
    (hlost : ¬Supplied fresh b) {next : Option ℤ}
    (hrun : (udpRound (kernel, fresh)).run b = some (next, b')) :
    next ≠ none ∧ (content b').length < (content b).length := by
  unfold Supplied at hlost
  push Not at hlost
  obtain ⟨hdata, hbelow, hunfit⟩ := hlost
  obtain ⟨hend, hfront⟩ := (full_iff h).1 hdata
  have hlength := h.length_content
  rw [hdata] at hlength
  have hwp : wp (udpRound (kernel, fresh)) (fun r a ↦ r = next ∧ a = b') b :=
    ⟨_, _, hrun, rfl, rfl⟩
  unfold udpRound at hwp
  rw [wp_bind] at hwp
  obtain ⟨buf, hbuf, hwp⟩ := of_wp_reserve_grown hend hfront (UInt32.not_lt.2 hbelow) hwp
  simp only [if_true, wp_bind, wp_pure] at hwp
  -- a block that is there has wrapped to a smaller size
  have hshort (buf' : List UInt8)
      (hblock : (grown b buf ZBASELIB_SKBUFFER_MIN_NUM fresh).buf = some buf') :
      buf'.length < b.bufSize.toNat := by
    obtain ⟨hsmall, hfresh, hlen⟩ := of_realloc_eq_some hblock
    have hlt := toNat_lt_of_sizeT hsmall
    rw [hlen, sizeT_toInt hlt, toNat_grownSize]
    rw [toNat_grownSize] at hlt
    have hbig : ¬grownTo b ZBASELIB_SKBUFFER_MIN_NUM < 2 ^ 31 := fun hfits ↦
      hunfit ⟨hfits, hfresh⟩
    have hextra : ZBASELIB_SKBUFFER_MIN_NUM.toNat = 64 := rfl
    have hsize := b.bufSize.toNat_lt
    unfold grownTo at hlt hbig ⊢
    omega
  have hend' := UInt32.le_iff_toNat_le.1 hend
  obtain ⟨answer, hbytes, hnext, rfl⟩ := of_wp_receive_outside
    (fun buf' hblock ↦ Nat.lt_of_lt_of_le (hshort buf' hblock) hend') hwp
  constructor
  · rw [← hnext, ne_eq, ends_eq_none_iff, not_not]
    exact hbytes
  · rw [hlength]
    cases hblock : (grown b buf ZBASELIB_SKBUFFER_MIN_NUM fresh).buf with
    | none => simpa [content, hblock] using hpos
    | some buf' =>
      have hlt := hshort buf' hblock
      simp only [content, hblock, Option.getD_some, List.length_drop, List.length_take]
      omega

theorem goes (h : WellFormed b) (hpos : 0 < b.bufSize.toNat) {kernel : Kernel}
    (hanswer : ∀ window, (kernel.answer window).bytes = payload.take window) :
    Goes kernel payload fresh b := by
  by_cases hrefused : b.dataSize = b.bufSize ∧ b.bufMaxSize < b.bufSize
  · obtain ⟨hdata, habove⟩ := hrefused
    obtain ⟨hend, hfront⟩ := (full_iff h).1 hdata
    have hwp : wp (udpRound (kernel, fresh)) (fun next b' ↦ next = some (-3) ∧ b' = b) b := by
      unfold udpRound
      rw [wp_bind, wp_reserve_refused hend hfront habove]
      simp only [Bool.false_eq_true, if_false, wp_pure, and_self]
    obtain ⟨next, b', hrun, rfl, rfl⟩ := hwp
    exact .refused hdata habove hrun
  have hbelow (hdata : b.dataSize = b.bufSize) : b.bufSize ≤ b.bufMaxSize :=
    UInt32.not_lt.1 fun hlt ↦ hrefused ⟨hdata, hlt⟩
  by_cases hsupplied : Supplied fresh b
  swap
  · exact .lost hsupplied fun next b' hrun ↦ ends_of_lost h hpos hsupplied hrun
  have hmade : wp (reserve fresh) (fun room b₁ ↦ room = true ∧ 0 < window b ∧ Made b b₁) b :=
    wp_reserve_made h (fun hdata ↦ ⟨hbelow hdata, hsupplied hdata (hbelow hdata)⟩)
      fun hwindow b₁ hmade ↦ ⟨rfl, hwindow, hmade⟩
  obtain ⟨room, b₁, hreserve, rfl, hwindow, hmade⟩ := hmade
  have hround {post : Option ℤ → State → Prop} : wp (udpRound (kernel, fresh)) post b ↔
      wp (receive kernel) (fun answer b' ↦ post answer.ends b') b₁ := by
    unfold udpRound
    rw [wp_bind]
    have hreceive {post : Bool → State → Prop} : wp (reserve fresh) post b ↔ post true b₁ :=
      ⟨fun hwp ↦ wp_outcome hwp hreserve, fun hpost ↦ ⟨_, _, hreserve, hpost⟩⟩
    rw [hreceive]
    simp only [if_true, wp_bind, wp_pure]
  have hoffered := le_sizeT_toInt (b₁.bufSize - b₁.wpos)
  have hsub : (b₁.bufSize - b₁.wpos).toNat = window b := by
    have heq := hmade.window_eq
    rw [UInt32.toNat_sub_of_le _ _ (UInt32.le_iff_toNat_le.2 (by omega)), heq]
  rw [hsub] at hoffered
  by_cases hfits : payload.length ≤ window b
  · have hbytes : (kernel.answer (sizeT (toInt (b₁.bufSize - b₁.wpos)))).bytes = payload := by
      rw [hanswer, List.take_of_length_le (by omega)]
    have hwp : wp (udpRound (kernel, fresh)) (fun next b' ↦
        (next = none ↔ payload ≠ []) ∧ next ≠ some (-3) ∧ Took b payload b') b := by
      rw [hround]
      apply wp_receive_steady hmade.wellFormed
      · rw [hbytes, hmade.window_eq]
        exact hfits
      · intro b' hsteady h' hrpos hcontent
        rw [hbytes] at hcontent
        refine ⟨?_, ends_ne_refused _, hmade.took hsteady h' hrpos hcontent⟩
        rw [ends_eq_none_iff, hbytes]
    obtain ⟨next, b', hrun, hnext, hran, htook⟩ := hwp
    exact .whole hbelow hsupplied hwindow hfits next b' hrun hnext hran htook
  · refine .cut hbelow hwindow (Nat.not_le.1 hfits) fun next b' hrun ↦ ?_
    have hwp : wp (udpRound (kernel, fresh)) (fun r a ↦ r = next ∧ a = b') b :=
      ⟨_, _, hrun, rfl, rfl⟩
    rw [hround] at hwp
    obtain ⟨after, ⟨rfl, rfl⟩, hsteady, hrpos⟩ := of_wp_receive hmade.wellFormed hwp
    have h' := hsteady.wellFormed hmade.wellFormed
    have hsize := congrArg UInt32.toNat hsteady.bufSize_eq
    have hlength := h'.length_content
    have hlength₁ := hmade.wellFormed.length_content
    have hwpos := hmade.wellFormed.wpos_eq
    have hwpos' := h'.wpos_eq
    have hle := h'.wpos_le
    have heq := hmade.window_eq
    rw [hmade.content_eq] at hlength₁
    rw [hrpos] at hwpos'
    refine ⟨?_, h', by omega, by omega⟩
    rw [ends_eq_none_iff, hanswer, ne_eq, List.take_eq_nil_iff]
    rintro (hzero | rfl)
    · omega
    · exact hfits (Nat.zero_le _)

/-- A round that is known. -/
theorem wp_udpRecvLoop_run {round : Round} {rest : List Round} {next : Option ℤ}
    (hrun : (udpRound round).run b = some (next, b')) {post : ℤ → State → Prop} :
    wp (udpRecvLoop (round :: rest)) post b ↔
      next.elim (wp (udpRecvLoop rest) post b') (post · b') := by
  rw [wp_udpRecvLoop_cons]
  refine ⟨fun h ↦ ?_, fun h ↦ ⟨next, b', hrun, h⟩⟩
  have hnext := wp_outcome h hrun
  exact hnext

/-- A round that leaves the loop is the only one. -/
theorem consumed_le_one {round : Round} {rest : List Round}
    (hlast : ∀ next b', (udpRound round).run b = some (next, b') → next ≠ none) :
    consumed (round :: rest) b ≤ 1 := by
  rw [consumed]
  split
  · next b' hrun => exact absurd rfl (hlast none b' hrun)
  · split <;> decide
  · exact Nat.zero_le 1

/-- A round without bytes is the last one, and loses nothing if it finds its memory. -/
theorem wp_last_iff (h : WellFormed b) (hpos : 0 < b.bufSize.toNat) {kernel : Kernel}
    (hdry : ∀ window, (kernel.answer window).bytes = []) {rest : List Round} :
    consumed ((kernel, fresh) :: rest) b ≤ 1 ∧
      (wp (udpRecvLoop ((kernel, fresh) :: rest)) (fun _ b' ↦ content b' = content b) b ↔
        Supplied fresh b) := by
  cases @goes b [] fresh h hpos kernel (by simpa using hdry) with
  | refused full above run =>
    refine ⟨consumed_le_one fun next b' hrun ↦ ?_, ?_⟩
    · rw [run] at hrun
      cases hrun
      exact Option.some_ne_none _
    · rw [wp_udpRecvLoop_run run]
      exact iff_of_true rfl fun _ below ↦ absurd above (UInt32.not_lt.2 below)
  | lost unsupplied ends =>
    refine ⟨consumed_le_one fun next b' hrun ↦ (ends next b' hrun).1, ?_⟩
    refine iff_of_false (fun hwp ↦ ?_) unsupplied
    obtain ⟨next, b', hrun, hnext⟩ := wp_udpRecvLoop_cons.1 hwp
    obtain ⟨hends, hless⟩ := ends next b' hrun
    obtain ⟨ret, rfl⟩ := Option.ne_none_iff_exists'.1 hends
    have hcontent : content b' = content b := hnext
    rw [hcontent] at hless
    exact absurd hless (lt_irrefl _)
  | whole below supplied positive fits next b' run goesOn _ took =>
    have hends : next ≠ none := fun hnone ↦ goesOn.1 hnone rfl
    refine ⟨consumed_le_one fun next' b'' hrun ↦ ?_, ?_⟩
    · rw [run] at hrun
      cases hrun
      exact hends
    · obtain ⟨ret, rfl⟩ := Option.ne_none_iff_exists'.1 hends
      rw [wp_udpRecvLoop_run run]
      refine iff_of_true ?_ supplied
      change content b' = content b
      rw [took.content_eq, List.append_nil]
  | cut below positive long short => exact absurd long (Nat.not_lt_zero _)

/-- A round adds no more bytes than the kernel has, and none if it is the last. -/
theorem length_of_round (h : WellFormed b) (hpos : 0 < b.bufSize.toNat) {kernel : Kernel}
    (hanswer : ∀ window, (kernel.answer window).bytes = payload.take window) {next : Option ℤ}
    (hrun : (udpRound (kernel, fresh)).run b = some (next, b')) :
    (content b').length ≤ (content b).length + payload.length ∧
      (next ≠ none → (content b').length ≤ (content b).length) ∧
      (next = none → WellFormed b' ∧ 0 < b'.bufSize.toNat) := by
  cases @goes b payload fresh h hpos kernel hanswer with
  | refused full above run =>
    rw [run] at hrun
    cases hrun
    exact ⟨Nat.le_add_right _ _, fun _ ↦ le_rfl, fun hnone ↦ by cases hnone⟩
  | lost unsupplied ends =>
    obtain ⟨hends, hless⟩ := ends next b' hrun
    exact ⟨by omega, fun _ ↦ hless.le, fun hnone ↦ absurd hnone hends⟩
  | whole below supplied positive fits next b' run goesOn _ took =>
    rw [run] at hrun
    cases hrun
    have hlength := congrArg List.length took.content_eq
    rw [List.length_append] at hlength
    refine ⟨hlength.le, fun hends ↦ ?_, fun _ ↦ ⟨took.wellFormed, took.size_pos hpos⟩⟩
    rw [ne_eq, goesOn, not_not] at hends
    rw [hends, List.length_nil] at hlength
    exact hlength.le
  | cut below positive long short =>
    obtain ⟨hnone, h', hpos', hle⟩ := short next b' hrun
    exact ⟨by omega, fun hends ↦ absurd hnone hends, fun _ ↦ ⟨h', hpos'⟩⟩

/-- The loop over the pending datagrams keeps them whole. -/
def Whole (supply : ℕ → Option (ℕ → UInt8)) (payloads : List (List UInt8)) (b : State) : Prop :=
  wp (udpRecvLoop (pending supply payloads)) (fun _ b' ↦ content b' = content b ++
    (payloads.take (consumed (pending supply payloads) b)).flatten) b

/-- No more arrives than was taken off the socket. -/
theorem length_of_wp {payloads : List (List UInt8)} (h : WellFormed b)
    (hpos : 0 < b.bufSize.toNat) {post : ℤ → State → Prop}
    (hwp : wp (udpRecvLoop (pending supply payloads)) post b) :
    ∃ ret b', post ret b' ∧ (content b').length ≤ (content b).length +
      (payloads.take (consumed (pending supply payloads) b)).flatten.length := by
  induction payloads generalizing b with
  | nil =>
    obtain ⟨next, b', hrun, hnext⟩ := wp_udpRecvLoop_cons.1 hwp
    have hidle (window : ℕ) : (idleKernel.answer window).bytes = ([] : List UInt8).take window :=
      List.take_nil.symm
    obtain ⟨hle, -, -⟩ := length_of_round h hpos hidle hrun
    cases next with
    | none => exact ((wp_failure _ _).1 hnext).elim
    | some ret => exact ⟨ret, b', hnext, Nat.le_add_right_of_le hle⟩
  | cons payload rest ih =>
    obtain ⟨next, b', hrun, hnext⟩ := wp_udpRecvLoop_cons.1 hwp
    obtain ⟨hle, hlast, hmore⟩ := length_of_round h hpos (fun _ ↦ rfl) hrun
    cases next with
    | none =>
      obtain ⟨h', hpos'⟩ := hmore rfl
      obtain ⟨ret, b₂, hpost, hle₂⟩ := ih h' hpos' hnext
      refine ⟨ret, b₂, hpost, ?_⟩
      simp only [pending, consumed, hrun, List.take_succ_cons, List.flatten_cons,
        List.length_append]
      omega
    | some ret =>
      exact ⟨ret, b', hnext, Nat.le_add_right_of_le (hlast (Option.some_ne_none _))⟩

/-! ## The condition, from one datagram to the next -/

theorem Provided.supplied {payloads : List (List UInt8)} (hprovided : Provided supply payloads b) :
    Supplied (supply payloads.length) b := by
  intro hdata hbelow
  apply hprovided [] payloads _ rfl List.not_mem_nil
  refine ⟨.refl _, UInt32.le_iff_toNat_le.1 hbelow, ?_⟩
  rw [hdata]
  rfl

/-- A buffer that is full beyond its maximum asks for nothing. -/
theorem provided_refused {payloads : List (List UInt8)} (habove : b.bufMaxSize < b.bufSize) :
    Provided supply payloads b := by
  intro before after size _ _ hfull
  have hmax := UInt32.lt_iff_toNat_lt.1 habove
  have hle := hfull.grows.le
  have hbelow := hfull.below
  omega

theorem FullAt.supplied (h : WellFormed b) {size : ℕ} (hfull : FullAt b [] size)
    (hsupplied : Supplied fresh b) :
    size + size / 2 + ZBASELIB_SKBUFFER_MIN_NUM.toNat < 2 ^ 31 ∧ fresh.isSome := by
  have hwpos := h.wpos_eq
  have hle := h.wpos_le
  have hgrows := hfull.grows.le
  have hsize : b.dataSize.toNat + 0 = size := hfull.full
  have hbelow := hfull.below
  have heq : size = b.bufSize.toNat := by omega
  rw [heq]
  apply hsupplied
  · rw [← UInt32.toNat_inj]
    omega
  · rw [UInt32.le_iff_toNat_le]
    omega

/-- When the next round is the last, only its growth matters. -/
theorem provided_last_iff (h : WellFormed b) {payloads : List (List UInt8)}
    (hlast : ∀ payload rest, payloads = payload :: rest → payload = []) :
    Provided supply payloads b ↔ Supplied (supply payloads.length) b := by
  refine ⟨Provided.supplied, fun hsupplied before after size hsplit hbefore hfull ↦ ?_⟩
  cases before with
  | nil =>
    rw [List.nil_append] at hsplit
    subst hsplit
    exact hfull.supplied h hsupplied
  | cons payload before =>
    have hnil := hlast payload _ hsplit
    rw [hnil] at hbefore
    exact absurd List.mem_cons_self hbefore

theorem Took.fullAt_iff (htook : Took b payload b') (h : WellFormed b)
    (hbelow : b.dataSize = b.bufSize → b.bufSize ≤ b.bufMaxSize) (hpayload : payload ≠ [])
    {before : List (List UInt8)} {size : ℕ} :
    FullAt b (payload :: before) size ↔ FullAt b' before size := by
  have hmore := List.length_pos_iff.2 hpayload
  have hdataSize := htook.dataSize_eq h
  constructor
  · rintro ⟨hgrows, hmax, hfull⟩
    rw [List.flatten_cons, List.length_append] at hfull
    refine ⟨?_, by rw [htook.bufMaxSize_eq]; exact hmax, by omega⟩
    rw [htook.bufMaxSize_eq, htook.bufSize_eq, sizeAfter]
    split
    · next hdata =>
      have hdata' := congrArg UInt32.toNat hdata
      cases hgrows with
      | refl => omega
      | grow below rest => exact rest
    · exact hgrows
  · rintro ⟨hgrows, hmax, hfull⟩
    rw [htook.bufMaxSize_eq] at hmax
    rw [htook.bufMaxSize_eq, htook.bufSize_eq] at hgrows
    refine ⟨growsTo_sizeAfter hbelow hgrows, hmax, ?_⟩
    rw [List.flatten_cons, List.length_append]
    omega

theorem Took.provided_iff (htook : Took b payload b') (h : WellFormed b)
    (hbelow : b.dataSize = b.bufSize → b.bufSize ≤ b.bufMaxSize) (hpayload : payload ≠ [])
    {rest : List (List UInt8)} (hsupplied : Supplied (supply (rest.length + 1)) b) :
    Provided supply (payload :: rest) b ↔ Provided supply rest b' := by
  constructor
  · intro hall before after size hsplit hbefore hfull
    refine hall (payload :: before) after size (by rw [hsplit]; rfl) ?_
      ((htook.fullAt_iff h hbelow hpayload).2 hfull)
    rw [List.mem_cons, not_or]
    exact ⟨fun heq ↦ hpayload heq.symm, hbefore⟩
  · intro hall before after size hsplit hbefore hfull
    cases before with
    | nil =>
      rw [List.nil_append] at hsplit
      subst hsplit
      exact hfull.supplied h hsupplied
    | cons first before =>
      obtain ⟨rfl, hrest⟩ := List.cons.inj hsplit
      exact hall before after size hrest (fun hmem ↦ hbefore (List.mem_cons_of_mem _ hmem))
        ((htook.fullAt_iff h hbelow hpayload).1 hfull)

/-- What a whole datagram at the front leaves to the others. -/
theorem Took.straddles_iff (htook : Took b payload b') (h : WellFormed b)
    (hmax : b.dataSize = b.bufSize → b.bufSize ≤ b.bufMaxSize) {before : List (List UInt8)}
    {next : List UInt8} : Straddles b (payload :: before) next ↔ Straddles b' before next := by
  unfold Straddles
  rw [List.flatten_cons, List.length_append]
  constructor
  · rintro ⟨count, hfills, hlow, hhigh⟩
    refine ⟨count - payload.length, (htook.fillsAt_iff h hmax (by omega)).2 ?_, by omega, by omega⟩
    rwa [Nat.sub_add_cancel (by omega)]
  · rintro ⟨count, hfills, hlow, hhigh⟩
    exact ⟨count + payload.length, (htook.fillsAt_iff h hmax (by omega)).1 hfills, by omega,
      by omega⟩

/-- No datagram straddles a full buffer, up to the first that is empty. -/
def Unbroken (payloads : List (List UInt8)) (b : State) : Prop :=
  ∀ before payload after, payloads = before ++ payload :: after → [] ∉ before →
    ¬Straddles b before payload

theorem unbroken_last {payloads : List (List UInt8)}
    (hlast : ∀ payload rest, payloads = payload :: rest → payload = []) : Unbroken payloads b := by
  intro before next after hsplit hbefore
  cases before with
  | nil =>
    rintro ⟨count, -, hlow, hhigh⟩
    rw [hlast next after hsplit] at hhigh
    exact absurd hlow hhigh.asymm
  | cons first before =>
    rw [hlast first _ hsplit] at hbefore
    exact absurd List.mem_cons_self hbefore

theorem unbroken_refused (h : WellFormed b) (hdata : b.dataSize = b.bufSize)
    (habove : b.bufMaxSize < b.bufSize) (payloads : List (List UInt8)) : Unbroken payloads b := by
  rintro before next after - - ⟨count, hfills, hlow, -⟩
  exact not_fillsAt_refused h hdata habove (by omega) hfills

/-- A whole datagram at the front straddles nothing, and leaves the others where they were. -/
theorem Took.unbroken_iff (htook : Took b payload b') (h : WellFormed b)
    (hbelow : b.dataSize = b.bufSize → b.bufSize ≤ b.bufMaxSize) (hpayload : payload ≠ [])
    (hfits : payload.length ≤ window b) {rest : List (List UInt8)} :
    Unbroken (payload :: rest) b ↔ Unbroken rest b' := by
  constructor
  · intro hall before next after hsplit hbefore hstraddles
    refine hall (payload :: before) next after (by rw [hsplit]; rfl) ?_
      ((htook.straddles_iff h hbelow).2 hstraddles)
    rw [List.mem_cons, not_or]
    exact ⟨fun heq ↦ hpayload heq.symm, hbefore⟩
  · intro hall before next after hsplit hbefore hstraddles
    cases before with
    | nil =>
      obtain ⟨rfl, -⟩ := List.cons.inj hsplit
      obtain ⟨count, hcount, hlow, hhigh⟩ := hstraddles
      have hle := (fillsAt_window h hbelow).2 count hcount (Nat.zero_lt_of_lt hlow)
      simp only [List.flatten_nil, List.length_nil] at hhigh
      omega
    | cons first before =>
      obtain ⟨rfl, hrest⟩ := List.cons.inj hsplit
      exact hall before next after hrest (fun hmem ↦ hbefore (List.mem_cons_of_mem _ hmem))
        ((htook.straddles_iff h hbelow).1 hstraddles)

/-! ## One datagram after the other -/

/-- Nothing is pending, or an empty datagram is next. -/
theorem whole_last_iff {payloads : List (List UInt8)} (h : WellFormed b)
    (hpos : 0 < b.bufSize.toNat)
    (hlast : ∀ payload rest, payloads = payload :: rest → payload = []) :
    Whole supply payloads b ↔ Supplied (supply payloads.length) b := by
  cases payloads with
  | nil =>
    obtain ⟨-, hiff⟩ := @wp_last_iff b (supply 0) h hpos idleKernel (fun _ ↦ rfl) []
    rw [List.length_nil, ← hiff, Whole]
    simp [pending]
  | cons payload rest =>
    obtain rfl := hlast payload rest rfl
    obtain ⟨hone, hiff⟩ := @wp_last_iff b (supply (rest.length + 1)) h hpos (datagram [])
      (fun window ↦ List.take_nil) (pending supply rest)
    have hflat {n : ℕ} (hn : n ≤ 1) : (([] :: rest).take n).flatten = [] := by
      obtain rfl | rfl := Nat.le_one_iff_eq_zero_or_eq_one.1 hn <;> simp
    rw [List.length_cons, ← hiff, Whole, pending, hflat hone]
    simp

/-- A block that was lost takes its bytes with it. -/
theorem not_whole_lost {rest : List (List UInt8)}
    (hends : ∀ next b', (udpRound (datagram payload, supply (rest.length + 1))).run b =
      some (next, b') → next ≠ none ∧ (content b').length < (content b).length) :
    ¬Whole supply (payload :: rest) b := by
  intro hwhole
  obtain ⟨next, b', hrun, hnext⟩ := wp_udpRecvLoop_cons.1 hwhole
  obtain ⟨hstops, hless⟩ := hends next b' hrun
  obtain ⟨ret, rfl⟩ := Option.ne_none_iff_exists'.1 hstops
  have hcontent := congrArg List.length (show content b' = content b ++ _ from hnext)
  rw [List.length_append] at hcontent
  omega

/-- The end of a datagram is lost, which nothing makes up for. -/
theorem not_whole_cut {rest : List (List UInt8)} (hlong : window b < payload.length)
    (hshort : ∀ next b', (udpRound (datagram payload, supply (rest.length + 1))).run b =
      some (next, b') → next = none ∧ WellFormed b' ∧ 0 < b'.bufSize.toNat ∧
        (content b').length ≤ (content b).length + window b) :
    ¬Whole supply (payload :: rest) b := by
  intro hwhole
  obtain ⟨next, b', hrun, hnext⟩ := wp_udpRecvLoop_cons.1 hwhole
  obtain ⟨rfl, h', hpos', hle⟩ := hshort next b' hrun
  obtain ⟨ret, b₂, hcontent, hle₂⟩ := length_of_wp h' hpos' hnext
  simp only [pending, consumed, hrun, List.take_succ_cons, List.flatten_cons] at hcontent
  rw [hcontent] at hle₂
  simp only [List.length_append] at hle₂
  omega

/-- A datagram that was taken whole. -/
theorem Took.whole_iff {rest : List (List UInt8)} (htook : Took b payload b')
    (hrun : (udpRound (datagram payload, supply (rest.length + 1))).run b = some (none, b')) :
    Whole supply (payload :: rest) b ↔ Whole supply rest b' := by
  rw [Whole, pending, wp_udpRecvLoop_run hrun, Whole, htook.content_eq, List.append_assoc]
  simp only [consumed, hrun, Option.elim_none, List.take_succ_cons, List.flatten_cons]

/-- **The datagrams stay whole exactly when none of them straddles a full buffer**, and growth
finds its memory. -/
theorem whole_iff {payloads : List (List UInt8)} (h : WellFormed b) (hpos : 0 < b.bufSize.toNat) :
    Whole supply payloads b ↔ Unbroken payloads b ∧ Provided supply payloads b := by
  induction payloads generalizing b with
  | nil =>
    have hlast (payload : List UInt8) (rest : List (List UInt8)) (hsplit : [] = payload :: rest) :
        payload = [] := nomatch hsplit
    rw [whole_last_iff h hpos hlast, provided_last_iff h hlast, and_iff_right (unbroken_last hlast)]
  | cons payload rest ih =>
    by_cases hnil : payload = []
    · have hlast (first : List UInt8) (others : List (List UInt8))
          (hsplit : payload :: rest = first :: others) : first = [] := by
        rw [← (List.cons.inj hsplit).1]
        exact hnil
      rw [whole_last_iff h hpos hlast, provided_last_iff h hlast,
        and_iff_right (unbroken_last hlast)]
    cases @goes b payload (supply (rest.length + 1)) h hpos (datagram payload) (fun _ ↦ rfl) with
    | refused hdata above run =>
      refine iff_of_true ?_ ⟨unbroken_refused h hdata above _, provided_refused above⟩
      unfold Whole pending
      rw [wp_udpRecvLoop_run run]
      simp [consumed, run]
    | lost unsupplied ends =>
      exact iff_of_false (not_whole_lost ends) fun hall ↦ unsupplied hall.2.supplied
    | whole below supplied positive fits next b' run goesOn _ took =>
      obtain rfl := goesOn.2 hnil
      rw [took.whole_iff run, ih took.wellFormed (took.size_pos hpos),
        took.unbroken_iff h below hnil fits,
        took.provided_iff h below hnil supplied]
    | cut below positive long short =>
      refine iff_of_false (not_whole_cut long short) fun hall ↦ ?_
      exact hall.1 [] payload rest rfl List.not_mem_nil
        ⟨window b, (fillsAt_window h below).1, positive, by simpa using long⟩

/-! ## The sender's address -/

theorem asked_false (rounds : List Round) : asked false rounds = rounds := List.map_id' rounds

/-- With an address to fill in no answer has bytes. -/
theorem asked_pending (payloads : List (List UInt8)) : ∃ kernel rest,
    asked true (pending supply payloads) = (kernel, supply payloads.length) :: rest ∧
      ∀ window, (kernel.answer window).bytes = [] := by
  have hdry (kernel : Kernel) (window : ℕ) : ((recvfrom true kernel).answer window).bytes = [] := by
    unfold recvfrom
    dsimp only
    cases kernel.answer window <;> rfl
  cases payloads with
  | nil => exact ⟨_, [], rfl, hdry idleKernel⟩
  | cons payload rest => exact ⟨_, _, rfl, hdry (datagram payload)⟩

/-- There is one round then, in which a datagram is lost. -/
theorem named_iff {payloads : List (List UInt8)} (h : WellFormed b) (hpos : 0 < b.bufSize.toNat) :
    wp (udpRecvLoop (asked true (pending supply payloads))) (fun _ b' ↦ content b' = content b ++
        (payloads.take (consumed (asked true (pending supply payloads)) b)).flatten) b ↔
      Nameless true payloads b ∧ Unbroken payloads b ∧ Provided supply payloads b := by
  obtain ⟨kernel, rest, hasked, hdry⟩ := @asked_pending supply payloads
  rw [hasked]
  cases @goes b [] (supply payloads.length) h hpos kernel (by simpa using hdry) with
  | refused full above run =>
    refine iff_of_true ?_ ⟨Or.inr (Or.inr ⟨full, above⟩), unbroken_refused h full above _,
      provided_refused above⟩
    rw [wp_udpRecvLoop_run run]
    simp [consumed, run]
  | lost unsupplied ends =>
    refine iff_of_false (fun hwp ↦ ?_) fun hall ↦ unsupplied hall.2.2.supplied
    obtain ⟨next, b', hrun, hnext⟩ := wp_udpRecvLoop_cons.1 hwp
    obtain ⟨hends, hless⟩ := ends next b' hrun
    obtain ⟨ret, rfl⟩ := Option.ne_none_iff_exists'.1 hends
    have hlength := congrArg List.length (show content b' = content b ++ _ from hnext)
    rw [List.length_append] at hlength
    omega
  | whole below supplied positive fits next b' run goesOn ran took =>
    have hends : next ≠ none := fun hnone ↦ goesOn.1 hnone rfl
    obtain ⟨ret, rfl⟩ := Option.ne_none_iff_exists'.1 hends
    have hone : consumed ((kernel, supply payloads.length) :: rest) b = 1 := by
      rw [consumed, run]
      exact if_neg fun heq ↦ ran (congrArg some heq)
    have hfirst : (payloads.take 1).flatten = payloads.headD [] := by cases payloads <;> simp
    rw [wp_udpRecvLoop_run run, hone, hfirst]
    change content b' = content b ++ payloads.headD [] ↔ _
    rw [took.content_eq, List.append_cancel_left_eq]
    constructor
    · intro hnil
      have hlast (payload : List UInt8) (rest : List (List UInt8))
          (hsplit : payloads = payload :: rest) : payload = [] := by
        rw [hsplit] at hnil
        exact hnil.symm
      exact ⟨Or.inr (Or.inl hnil.symm), unbroken_last hlast,
        (provided_last_iff h hlast).2 supplied⟩
    · rintro ⟨hnameless, -⟩
      obtain haddr | hnil | ⟨hdata, habove⟩ := hnameless
      · cases haddr
      · exact hnil.symm
      · exact absurd habove (UInt32.not_lt.2 (below hdata))
  | cut below positive long short => exact absurd long (Nat.not_lt_zero _)

end

/-- **`udp_recv` keeps datagrams whole exactly when the buffer does not run full inside one**,
growth finds its memory and the sender's address is not asked for. -/
theorem untruncated_iff {handle block : Bool} {sndBuf : Option ℤ} {bufSize bufMaxSize : UInt32}
    {sock : ℤ} {b₀ b : State} {labels : List (Call × Result)}
    {addr : Bool} {supply : ℕ → Option (ℕ → UInt8)} {payloads : List (List UInt8)}
    (hcreate : create handle block sndBuf bufSize bufMaxSize sock = some b₀)
    (hrun : Run UnwrappedStep labels b₀ b) :
    Untruncated addr supply payloads b ↔ b.buf = none ∨ b.sock < 0 ∨
      (Nameless addr payloads b ∧ (∀ before payload after,
        payloads = before ++ payload :: after → [] ∉ before → ¬Straddles b before payload) ∧
        Provided supply payloads b) := by
  have h : Intact b :=
    hrun.invariant Intact (fun _ _ _ h hstep ↦ hstep.1.intact h hstep.2) (intact_create hcreate)
  have hcall : Untruncated addr supply payloads b ↔ wp (udpRecv addr (pending supply payloads))
      (fun _ b' ↦ content b' = content b ++ (payloads.take
        (consumed ((Call.udpRecv addr (pending supply payloads)).rounds b) b)).flatten) b := Iff.rfl
  rw [hcall, wp_udpRecv_iff, Call.rounds, ← or_assoc]
  by_cases hinvalid : b.buf = none ∨ b.sock < 0
  · refine iff_of_true ?_ (Or.inl hinvalid)
    rw [if_pos hinvalid, if_pos hinvalid]
    simp [consumed]
  · rw [if_neg hinvalid, if_neg hinvalid, or_iff_right hinvalid]
    have hwell := h.wellFormed.resolve_left fun hnull ↦ hinvalid (Or.inl hnull)
    cases addr with
    | true => exact named_iff hwell h.size_pos
    | false =>
      rw [asked_false]
      exact (whole_iff hwell h.size_pos).trans (iff_and_self.2 fun _ ↦ Or.inl rfl)

/-- Two datagrams that fill a buffer of four bytes. -/
theorem untruncated_iff_two :
    Untruncated false (fun _ ↦ some fun _ ↦ 0) [[1, 2], [3, 4]] growStart := by
  have hsizes {size : ℕ} (hsize : GrowsTo 16 4 size) : size = 4 ∨ size = 70 := by
    cases hsize with
    | refl => exact Or.inl rfl
    | grow below rest =>
      cases rest with
      | refl => exact Or.inr rfl
      | grow below rest => exact absurd below (by decide)
  refine (untruncated_iff grow_create (.nil growStart)).2 (Or.inr (Or.inr ⟨Or.inl rfl, ?_, ?_⟩))
  · rintro before payload after hsplit - ⟨count, hfills, hlow, hhigh⟩
    have hcount : 4 ≤ count := by
      obtain rfl | ⟨size, hsize, rfl⟩ := hfills
      · decide
      · exact hsize.le
    have hlength := congrArg (fun payloads ↦ payloads.flatten.length) hsplit
    simp only [List.flatten_append, List.flatten_cons, List.flatten_nil, List.length_append,
      List.length_cons, List.length_nil] at hlength
    omega
  · intro before after size _ _ hfull
    obtain rfl | rfl := hsizes hfull.grows
    · exact ⟨by decide, rfl⟩
    · exact absurd hfull.below (by decide)

/-- The last byte of five is lost, with room for twelve more, and so is a datagram of two bytes
whose sender's address is asked for. -/
theorem not_untruncated_five : create true true none 4 16 0 = some growStart ∧
    growStart.bufMaxSize = 16 ∧ growStart.dataSize = 0 ∧
      ¬Untruncated false (fun _ ↦ some fun _ ↦ 0) [[1, 2, 3], [4, 5]] growStart ∧
        ¬Untruncated true (fun _ ↦ some fun _ ↦ 0) [[1, 2]] growStart := by
  refine ⟨grow_create, rfl, rfl, ?_, ?_⟩
  · rintro ⟨ret, b', hrun, hcontent⟩
    have hlost : ((udpRecv false (pending (fun _ ↦ some fun _ ↦ 0) [[1, 2, 3], [4, 5]])).run
        growStart).map (fun outcome ↦ content outcome.2) = some [1, 2, 3, 4] := by decide
    have hconsumed : consumed ((Call.udpRecv false (pending (fun _ ↦ some fun _ ↦ 0)
        [[1, 2, 3], [4, 5]])).rounds growStart) growStart = 3 := by decide
    rw [hrun, Option.map_some, hcontent, hconsumed] at hlost
    exact absurd hlost (by decide)
  · rintro ⟨ret, b', hrun, hcontent⟩
    have hlost : ((udpRecv true (pending (fun _ ↦ some fun _ ↦ 0) [[1, 2]])).run
        growStart).map (fun outcome ↦ content outcome.2) = some [] := by decide
    have hconsumed : consumed ((Call.udpRecv true (pending (fun _ ↦ some fun _ ↦ 0)
        [[1, 2]])).rounds growStart) growStart = 1 := by decide
    rw [hrun, Option.map_some, hcontent, hconsumed] at hlost
    exact absurd hlost (by decide)

end Zbaselib.Socket
