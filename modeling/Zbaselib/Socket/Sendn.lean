import Zbaselib.Lib.Trace
import Zbaselib.Socket.Refinement

/-!
# `sendn` and `sendn_retry`

Both loops offer the kernel what is left of the buffer.  The state records the
`send` calls with their answers, and the kernel answers each of them as it
likes.  Only the limit of would-blocks tells the two records apart.
-/

namespace Zbaselib.Socket.Sendn

open Program Trace

/-! ## The functions of the source -/

inductive Errno
  | EWOULDBLOCK
  | EAGAIN
  | EINTR
  | other (code : ℕ)
  deriving DecidableEq

def rwWouldblock (errno : Errno) : Bool := errno = .EWOULDBLOCK ∨ errno = .EAGAIN ∨ errno = .EINTR

/-- A positive `nwritten`, or another one and an `errno`. -/
inductive Answer
  | written (nwritten : ℕ)
  | failed (errno : Errno)
  deriving DecidableEq

/-- How the kernel answers: by the number of the call and of the bytes that it is offered. -/
structure Kernel where
  answer : ℕ → ℕ → Answer
  fits : ∀ call offered nwritten, 0 < offered → answer call offered = .written nwritten →
    0 < nwritten ∧ nwritten ≤ offered

structure Call where
  offered : List UInt8
  answer : Answer
  deriving DecidableEq

abbrev SendCmd := Cmd (List Call)

/-- The system call, which reads `nleft` bytes at `ptr` at most. -/
def send (kernel : Kernel) (ptr : List UInt8) (nleft : ℤ) : SendCmd Answer := do
  require (sizeT nleft ≤ ptr.length)
  let calls ← MonadState.get
  let answer := kernel.answer calls.length (sizeT nleft)
  set (calls ++ [⟨ptr.take (sizeT nleft), answer⟩])
  return answer

def sendnRound (kernel : Kernel) (size : UInt32) (locals : List UInt8 × ℤ) :
    SendCmd ((List UInt8 × ℤ) ⊕ ℤ) := do
  let (ptr, nleft) := locals
  if nleft > 0 then
    match ← send kernel ptr nleft with
    | .failed errno =>
      if ¬rwWouldblock errno then
        return .inr (-1)
      else
        return .inl (ptr, nleft)
    | .written nwritten => return .inl (ptr.drop nwritten, nleft - nwritten)
  else
    return .inr (toInt size)

/-- There is no outcome when the loop is not left within so many rounds. -/
def sendn (kernel : Kernel) (buf : List UInt8) (size : UInt32) (rounds : ℕ) : SendCmd ℤ :=
  loop (sendnRound kernel size) rounds (buf, toInt size)

def sendnRetryRound (kernel : Kernel) (size : UInt32) (locals : List UInt8 × ℤ × ℤ) :
    SendCmd ((List UInt8 × ℤ × ℤ) ⊕ ℤ) := do
  let (ptr, nleft, retry) := locals
  if nleft > 0 then
    match ← send kernel ptr nleft with
    | .failed errno =>
      if ¬rwWouldblock errno then
        return .inr (-1)
      else
        require (-2 ^ 31 ≤ retry - 1)
        if retry - 1 ≤ 0 then
          return .inr (toInt (size - UInt32.ofInt nleft))
        else
          return .inl (ptr, nleft, retry - 1)
    | .written nwritten => return .inl (ptr.drop nwritten, nleft - nwritten, retry)
  else
    return .inr (toInt (size - UInt32.ofInt nleft))

def sendnRetry (kernel : Kernel) (buf : List UInt8) (size : UInt32) (retry : ℤ) (rounds : ℕ) :
    SendCmd ℤ :=
  loop (sendnRetryRound kernel size) rounds (buf, toInt size, retry)

/-! ## What a record says -/

/-- The bytes that the kernel took in one call. -/
def Call.taken (call : Call) : List UInt8 :=
  match call.answer with
  | .written nwritten => call.offered.take nwritten
  | .failed _ => []

def accepted (calls : List Call) : List UInt8 := calls.flatMap Call.taken

def Answer.blocks : Answer → Bool
  | .written _ => false
  | .failed errno => rwWouldblock errno

/-- A hard error. -/
def Answer.fails : Answer → Bool
  | .written _ => false
  | .failed errno => !rwWouldblock errno

def wouldBlocks (calls : List Call) : ℕ := calls.countP fun call ↦ call.answer.blocks

def Failed (calls : List Call) : Prop := ∃ call ∈ calls, call.answer.fails = true

/-- The buffer is out, or there was an error. -/
def Done (buf : List UInt8) (calls : List Call) : Prop := accepted calls = buf ∨ Failed calls

/-- The retries are used up as well. -/
def DoneOr (buf : List UInt8) (limit : ℕ) (calls : List Call) : Prop :=
  Done buf calls ∨ limit ≤ wouldBlocks calls

/-- What is left of the buffer is offered. -/
def nextCall (kernel : Kernel) (buf : List UInt8) (calls : List Call) : Call where
  offered := buf.drop (accepted calls).length
  answer := kernel.answer calls.length (buf.length - (accepted calls).length)

/-- The value that a record is answered with. -/
def Answers (calls : List Call) (ret : ℤ) : Prop :=
  (Failed calls ∧ ret = -1) ∨ (¬Failed calls ∧ ret = (accepted calls).length)

section

variable {kernel : Kernel} {buf ptr : List UInt8} {size : UInt32} {nleft retry : ℤ}
  {calls : List Call} {call : Call}

@[simp]
theorem accepted_concat : accepted (calls ++ [call]) = accepted calls ++ call.taken := by
  simp [accepted]

@[simp]
theorem wouldBlocks_concat :
    wouldBlocks (calls ++ [call]) = wouldBlocks calls + if call.answer.blocks then 1 else 0 := by
  simp [wouldBlocks, List.countP_append, List.countP_cons]

@[simp]
theorem failed_concat : Failed (calls ++ [call]) ↔ Failed calls ∨ call.answer.fails = true := by
  simp [Failed, or_and_right, exists_or]

theorem wouldBlocks_le {calls' : List Call} (h : calls <+: calls') :
    wouldBlocks calls ≤ wouldBlocks calls' :=
  h.sublist.countP_le

/-- The pointer and the count follow what the kernel took. -/
structure Progress (buf ptr : List UInt8) (nleft : ℤ) (calls : List Call) : Prop where
  split : accepted calls ++ ptr = buf
  left : nleft = ptr.length
  running : ¬Failed calls

theorem Progress.start (hbuf : buf.length = size.toNat) (hsize : size.toNat < 2 ^ 31) :
    Progress buf buf (toInt size) [] := by
  refine ⟨rfl, ?_, by simp [Failed]⟩
  rw [toInt, asInt_of_lt hsize, hbuf]

theorem Progress.not_done (h : Progress buf ptr nleft calls) (hleft : nleft > 0) :
    ¬Done buf calls := by
  rintro (hout | hfailed)
  · have hsplit := h.split
    rw [hout, List.append_right_eq_self] at hsplit
    rw [h.left, hsplit] at hleft
    exact absurd hleft (by simp)
  · exact h.running hfailed

theorem Progress.out (h : Progress buf ptr nleft calls) (hleft : ¬nleft > 0) :
    accepted calls = buf ∧ ptr = [] := by
  have hptr : ptr = [] := by
    rw [← List.length_eq_zero_iff]
    have hcount := h.left
    omega
  have hsplit := h.split
  rw [hptr, List.append_nil] at hsplit
  exact ⟨hsplit, hptr⟩

theorem Progress.nextCall (h : Progress buf ptr nleft calls) :
    nextCall kernel buf calls = ⟨ptr, kernel.answer calls.length ptr.length⟩ := by
  have hlength := congrArg List.length h.split
  rw [List.length_append] at hlength
  unfold Sendn.nextCall
  rw [show buf.length - (accepted calls).length = ptr.length by omega, ← h.split, List.drop_left]

/-- **One `send`** adds the next call to the record. -/
theorem wp_send (h : Progress buf ptr nleft calls) (hsmall : ptr.length < 2 ^ 31)
    {post : Answer → List Call → Prop}
    (hpost : post (kernel.answer calls.length ptr.length)
      (calls ++ [⟨ptr, kernel.answer calls.length ptr.length⟩])) :
    wp (send kernel ptr nleft) post calls := by
  have hsizeT : sizeT nleft = ptr.length := by
    rw [h.left, sizeT]
    omega
  unfold send
  simp only [hsizeT, wp_bind, wp_require, Program.wp_get, Program.wp_set, wp_pure, List.take_length]
  exact ⟨le_rfl, hpost⟩

theorem Progress.blocked {answer : Answer} (h : Progress buf ptr nleft calls)
    (hblocks : answer.blocks = true) : Progress buf ptr nleft (calls ++ [⟨ptr, answer⟩]) := by
  cases answer with
  | written nwritten => cases hblocks
  | failed errno =>
    refine ⟨?_, h.left, ?_⟩
    · rw [accepted_concat, Call.taken, List.append_nil]
      exact h.split
    · rw [failed_concat, not_or]
      refine ⟨h.running, ?_⟩
      rw [Answer.blocks] at hblocks
      simp [Answer.fails, hblocks]

theorem Progress.written {nwritten : ℕ} (h : Progress buf ptr nleft calls)
    (hle : nwritten ≤ ptr.length) :
    Progress buf (ptr.drop nwritten) (nleft - nwritten) (calls ++ [⟨ptr, .written nwritten⟩]) := by
  refine ⟨?_, ?_, ?_⟩
  · rw [accepted_concat, Call.taken, List.append_assoc, List.take_append_drop]
    exact h.split
  · rw [List.length_drop, h.left]
    omega
  · rw [failed_concat, not_or]
    exact ⟨h.running, Bool.false_ne_true⟩

/-- What `size - nleft` is as an `int`. -/
theorem Progress.count (h : Progress buf ptr nleft calls) (hbuf : buf.length = size.toNat)
    (hsize : size.toNat < 2 ^ 31) :
    toInt (size - UInt32.ofInt nleft) = (accepted calls).length := by
  have hlength := congrArg List.length h.split
  rw [List.length_append, hbuf] at hlength
  have hleft : (UInt32.ofInt nleft).toNat = ptr.length := by
    have hnat : (UInt32.ofNat ptr.length).toNat = ptr.length := by
      rw [UInt32.toNat_ofNat', Nat.mod_eq_of_lt (by omega)]
    have hint : nleft = toInt (UInt32.ofNat ptr.length) := by
      rw [h.left, toInt, hnat, asInt_of_lt (by omega)]
    rw [hint, ofInt_toInt, hnat]
  have hle : UInt32.ofInt nleft ≤ size := by
    rw [UInt32.le_iff_toNat_le, hleft]
    omega
  have hsub : (size - UInt32.ofInt nleft).toNat = (accepted calls).length := by
    rw [UInt32.toNat_sub_of_le _ _ hle, hleft]
    omega
  rw [toInt, hsub, asInt_of_lt (by omega)]

/-- **A round of `sendn`**: the next call is made, or the buffer is out. -/
theorem wp_sendnRound (h : Progress buf ptr nleft calls) (hsmall : ptr.length < 2 ^ 31)
    {post : (List UInt8 × ℤ) ⊕ ℤ → List Call → Prop}
    (hgo : ∀ ptr' nleft' calls', nleft > 0 → calls' = calls ++ [Sendn.nextCall kernel buf calls] →
      Progress buf ptr' nleft' calls' → ptr'.length ≤ ptr.length →
        post (.inl (ptr', nleft')) calls')
    (hfail : ∀ calls', nleft > 0 → calls' = calls ++ [Sendn.nextCall kernel buf calls] →
      Failed calls' → accepted calls' = accepted calls → post (.inr (-1)) calls')
    (hout : accepted calls = buf → post (.inr (toInt size)) calls) :
    wp (sendnRound kernel size (ptr, nleft)) post calls := by
  unfold sendnRound
  dsimp only
  rw [wp_ite]
  by_cases hleft : nleft > 0
  · have hnext : Sendn.nextCall kernel buf calls =
        ⟨ptr, kernel.answer calls.length ptr.length⟩ := h.nextCall
    rw [if_pos hleft, wp_bind]
    apply wp_send h hsmall
    rw [hnext] at hgo hfail
    cases hanswer : kernel.answer calls.length ptr.length with
    | failed errno =>
      rw [hanswer] at hgo hfail
      dsimp only
      rw [wp_ite]
      by_cases hblocks : rwWouldblock errno = true
      · rw [if_neg (not_not.2 hblocks), wp_pure]
        exact hgo ptr nleft _ hleft rfl (h.blocked hblocks) le_rfl
      · rw [if_pos hblocks, wp_pure]
        refine hfail _ hleft rfl (failed_concat.2 (Or.inr ?_)) ?_
        · simpa [Answer.fails] using hblocks
        · rw [accepted_concat, Call.taken, List.append_nil]
    | written nwritten =>
      rw [hanswer] at hgo
      have hpos : 0 < ptr.length := by
        have hcount := h.left
        omega
      obtain ⟨-, hle⟩ := kernel.fits _ _ _ hpos hanswer
      dsimp only
      rw [wp_pure]
      refine hgo _ _ _ hleft rfl (h.written hle) ?_
      rw [List.length_drop]
      exact Nat.sub_le _ _
  · rw [if_neg hleft, wp_pure]
    exact hout (h.out hleft).1

/-- **A round of `sendn_retry`** may also give up. -/
theorem wp_sendnRetryRound (h : Progress buf ptr nleft calls) (hbuf : buf.length = size.toNat)
    (hsize : size.toNat < 2 ^ 31) (hretry : -2 ^ 31 < retry)
    {post : (List UInt8 × ℤ × ℤ) ⊕ ℤ → List Call → Prop}
    (hgo : ∀ ptr' nleft' calls', nleft > 0 → calls' = calls ++ [Sendn.nextCall kernel buf calls] →
      Progress buf ptr' nleft' calls' → ptr'.length < ptr.length →
        wouldBlocks calls' = wouldBlocks calls → post (.inl (ptr', nleft', retry)) calls')
    (hagain : ∀ calls', nleft > 0 → calls' = calls ++ [Sendn.nextCall kernel buf calls] →
      Progress buf ptr nleft calls' → wouldBlocks calls' = wouldBlocks calls + 1 → 1 < retry →
        post (.inl (ptr, nleft, retry - 1)) calls')
    (hgiveUp : ∀ calls', nleft > 0 → calls' = calls ++ [Sendn.nextCall kernel buf calls] →
      Progress buf ptr nleft calls' → wouldBlocks calls' = wouldBlocks calls + 1 → retry ≤ 1 →
        post (.inr (accepted calls').length) calls')
    (hfail : ∀ calls', nleft > 0 → calls' = calls ++ [Sendn.nextCall kernel buf calls] →
      Failed calls' → accepted calls' = accepted calls → wouldBlocks calls' = wouldBlocks calls →
        post (.inr (-1)) calls')
    (hout : accepted calls = buf → post (.inr (accepted calls).length) calls) :
    wp (sendnRetryRound kernel size (ptr, nleft, retry)) post calls := by
  have hsmall : ptr.length < 2 ^ 31 := by
    have hlength := congrArg List.length h.split
    rw [List.length_append, hbuf] at hlength
    omega
  unfold sendnRetryRound
  dsimp only
  rw [wp_ite]
  by_cases hleft : nleft > 0
  · have hnext : Sendn.nextCall kernel buf calls =
        ⟨ptr, kernel.answer calls.length ptr.length⟩ := h.nextCall
    rw [if_pos hleft, wp_bind]
    apply wp_send h hsmall
    rw [hnext] at hgo hagain hgiveUp hfail
    cases hanswer : kernel.answer calls.length ptr.length with
    | failed errno =>
      rw [hanswer] at hagain hgiveUp hfail
      dsimp only
      rw [wp_ite]
      by_cases hblocks : rwWouldblock errno = true
      · have hprogress : Progress buf ptr nleft (calls ++ [⟨ptr, .failed errno⟩]) :=
          h.blocked hblocks
        have hmore : wouldBlocks (calls ++ [⟨ptr, .failed errno⟩]) = wouldBlocks calls + 1 := by
          rw [wouldBlocks_concat]
          exact congrArg _ (if_pos hblocks)
        rw [if_neg (not_not.2 hblocks), wp_bind, wp_require]
        refine ⟨by omega, ?_⟩
        rw [wp_ite]
        split
        · next hlast =>
          rw [wp_pure, hprogress.count hbuf hsize]
          exact hgiveUp _ hleft rfl hprogress hmore (by omega)
        · next hlast =>
          rw [wp_pure]
          exact hagain _ hleft rfl hprogress hmore (by omega)
      · rw [if_pos hblocks, wp_pure]
        refine hfail _ hleft rfl (failed_concat.2 (Or.inr ?_)) ?_ ?_
        · simpa [Answer.fails] using hblocks
        · rw [accepted_concat, Call.taken, List.append_nil]
        · rw [wouldBlocks_concat]
          exact congrArg _ (if_neg hblocks)
    | written nwritten =>
      rw [hanswer] at hgo
      have hpos : 0 < ptr.length := by
        have hcount := h.left
        omega
      obtain ⟨hsome, hle⟩ := kernel.fits _ _ _ hpos hanswer
      dsimp only
      rw [wp_pure]
      refine hgo _ _ _ hleft rfl (h.written hle) ?_ ?_
      · rw [List.length_drop]
        omega
      · rw [wouldBlocks_concat]
        exact congrArg _ (if_neg Bool.false_ne_true)
  · rw [if_neg hleft, wp_pure, h.count hbuf hsize]
    exact hout (h.out hleft).1

/-- **`sendn_retry` comes back** with what it recorded. -/
theorem wp_sendnRetry (hbuf : buf.length = size.toNat) (hsize : size.toNat < 2 ^ 31)
    (hretry : -2 ^ 31 < retry) {limit rounds : ℕ} (hlimit : (limit : ℤ) = max retry 1)
    (hrounds : size.toNat + limit < rounds) :
    wp (sendnRetry kernel buf size retry rounds) (fun ret calls ↦
      Recorded (nextCall kernel buf) (DoneOr buf limit) calls ∧ DoneOr buf limit calls ∧
        Answers calls ret ∧ accepted calls <+: buf ∧ wouldBlocks calls ≤ limit ∧
        calls.length ≤ size.toNat + limit) [] := by
  refine wp_loop (fun measure (locals : List UInt8 × ℤ × ℤ) calls ↦
    Progress buf locals.1 locals.2.1 calls ∧
    Recorded (nextCall kernel buf) (DoneOr buf limit) calls ∧ -2 ^ 31 < locals.2.2 ∧
    (wouldBlocks calls : ℤ) + max locals.2.2 1 = limit ∧
    calls.length ≤ (accepted calls).length + wouldBlocks calls ∧
    (measure : ℤ) = locals.1.length + max locals.2.2 1) ?_
    (n := size.toNat + limit)
    ⟨.start hbuf hsize, .nil, hretry, ?_, le_rfl, ?_⟩ hrounds
  · rintro measure ⟨ptr, nleft, retry⟩ calls ⟨h, hrec, hretry, hblocks, hcalls, hmeasure⟩
    dsimp only at h hretry hblocks hmeasure
    have hprefix : accepted calls <+: buf := ⟨ptr, h.split⟩
    have hlength := congrArg List.length h.split
    rw [List.length_append, hbuf] at hlength
    have hrecorded (hleft : nleft > 0) : Recorded (nextCall kernel buf) (DoneOr buf limit)
        (calls ++ [Sendn.nextCall kernel buf calls]) := by
      refine .concat hrec (not_or.2 ⟨h.not_done hleft, ?_⟩)
      omega
    apply wp_sendnRetryRound h hbuf hsize hretry
    · rintro ptr' nleft' calls' hleft hcalls' h' hless hsame
      have hmore := congrArg List.length h'.split
      rw [List.length_append, hbuf] at hmore
      refine ⟨ptr'.length + (max retry 1).toNat, by omega, h', hcalls' ▸ hrecorded hleft, hretry,
        by dsimp only; omega, ?_, by dsimp only; omega⟩
      rw [hcalls', List.length_append, List.length_singleton, ← hcalls']
      omega
    · rintro calls' hleft hcalls' h' hmore hagain
      have hkept := congrArg List.length h'.split
      rw [List.length_append, hbuf] at hkept
      refine ⟨ptr.length + (max (retry - 1) 1).toNat, by omega, h', hcalls' ▸ hrecorded hleft,
        by dsimp only; omega, by dsimp only; omega, ?_, by dsimp only; omega⟩
      rw [hcalls', List.length_append, List.length_singleton, ← hcalls']
      omega
    · rintro calls' hleft hcalls' h' hmore hlast
      have hkept := congrArg List.length h'.split
      rw [List.length_append, hbuf] at hkept
      refine ⟨hcalls' ▸ hrecorded hleft, Or.inr (by omega), Or.inr ⟨h'.running, rfl⟩,
        ⟨ptr, h'.split⟩, by omega, ?_⟩
      rw [hcalls', List.length_append, List.length_singleton]
      omega
    · rintro calls' hleft hcalls' hfailed hsame hblocks'
      refine ⟨hcalls' ▸ hrecorded hleft, Or.inl (Or.inr hfailed), Or.inl ⟨hfailed, rfl⟩,
        hsame ▸ hprefix, by omega, ?_⟩
      rw [hcalls', List.length_append, List.length_singleton]
      omega
    · intro hout
      refine ⟨hrec, Or.inl (Or.inl hout), Or.inr ⟨h.running, rfl⟩, hprefix, by omega, by omega⟩
  · simp [wouldBlocks, hlimit]
  · simp [hlimit, hbuf]

/-- A round of `sendn` extends the record or answers it. -/
theorem wp_sendnRound_recorded (hbuf : buf.length = size.toNat) (hsize : size.toNat < 2 ^ 31)
    (h : Progress buf ptr nleft calls) (hrec : Recorded (nextCall kernel buf) (Done buf) calls) :
    wp (sendnRound kernel size (ptr, nleft)) (fun next calls' ↦
      Recorded (nextCall kernel buf) (Done buf) calls' ∧ accepted calls' <+: buf ∧
      Sum.elim (fun locals ↦ ¬Done buf calls ∧ calls'.length = calls.length + 1 ∧
          Progress buf locals.1 locals.2 calls')
        (fun ret ↦ Done buf calls' ∧ Answers calls' ret) next) calls := by
  have hlength := congrArg List.length h.split
  rw [List.length_append, hbuf] at hlength
  apply wp_sendnRound h (by omega)
  · rintro ptr' nleft' calls' hleft rfl h' -
    exact ⟨.concat hrec (h.not_done hleft), ⟨ptr', h'.split⟩, h.not_done hleft, by simp, h'⟩
  · rintro calls' hleft rfl hfailed hsame
    exact ⟨.concat hrec (h.not_done hleft), hsame ▸ ⟨ptr, h.split⟩, Or.inr hfailed,
      Or.inl ⟨hfailed, rfl⟩⟩
  · intro hout
    refine ⟨hrec, ⟨ptr, h.split⟩, Or.inl hout, Or.inr ⟨h.running, ?_⟩⟩
    rw [hout, hbuf, toInt, asInt_of_lt hsize]

/-- What `sendn` recorded when it comes back. -/
theorem sendn_outcome (hbuf : buf.length = size.toNat) (hsize : size.toNat < 2 ^ 31) {rounds : ℕ}
    {ret : ℤ} (hrun : (sendn kernel buf size rounds).run [] = some (ret, calls)) :
    Recorded (nextCall kernel buf) (Done buf) calls ∧ accepted calls <+: buf ∧ Done buf calls ∧
      Answers calls ret := by
  refine loop_outcome (fun (locals : List UInt8 × ℤ) calls ↦
      Progress buf locals.1 locals.2 calls ∧ Recorded (nextCall kernel buf) (Done buf) calls)
    (fun (ret : ℤ) calls ↦ Recorded (nextCall kernel buf) (Done buf) calls ∧
      accepted calls <+: buf ∧ Done buf calls ∧ Answers calls ret) ?_ hrun
    ⟨.start hbuf hsize, .nil⟩
  rintro ⟨ptr, nleft⟩ calls next calls' ⟨h, hrec⟩ hbody
  obtain ⟨hrec', hprefix, hnext⟩ := wp_outcome (wp_sendnRound_recorded hbuf hsize h hrec) hbody
  cases next with
  | inl locals => exact ⟨hnext.2.2, hrec'⟩
  | inr ret => exact ⟨hrec', hprefix, hnext⟩

/-- `sendn` comes back when the record comes to an end. -/
theorem sendn_of_recorded (hbuf : buf.length = size.toNat) (hsize : size.toNat < 2 ^ 31)
    (hrec : Recorded (nextCall kernel buf) (Done buf) calls) (hdone : Done buf calls) :
    ∃ ret, (sendn kernel buf size (calls.length + 1)).run [] = some (ret, calls) ∧
      Answers calls ret := by
  have hwp : wp (sendn kernel buf size (calls.length + 1)) (fun ret calls' ↦
      calls' = calls ∧ Answers calls' ret) [] := by
    refine wp_loop (fun measure (locals : List UInt8 × ℤ) calls' ↦
      Progress buf locals.1 locals.2 calls' ∧ Recorded (nextCall kernel buf) (Done buf) calls' ∧
        measure + calls'.length = calls.length) ?_
      (n := calls.length) ⟨.start hbuf hsize, .nil, rfl⟩ (Nat.lt_succ_self _)
    rintro measure ⟨ptr, nleft⟩ calls₁ ⟨h, hrec₁, hmeasure⟩
    refine wp_mono (wp_sendnRound_recorded hbuf hsize h hrec₁) ?_
    rintro next calls₂ ⟨hrec₂, -, hnext⟩
    cases next with
    | inl locals =>
      obtain ⟨hgoing, hlength, h₂⟩ := hnext
      have hlt := hrec₁.lt_length hrec hgoing hdone
      exact ⟨measure - 1, by omega, h₂, hrec₂, by omega⟩
    | inr ret => exact ⟨hrec₂.unique hrec hnext.1 hdone, hnext.2⟩
  obtain ⟨ret, calls', hrun, rfl, hret⟩ := hwp
  exact ⟨ret, hrun, hret⟩

theorem Answers.unique {ret ret' : ℤ} (h : Answers calls ret) (h' : Answers calls ret') :
    ret = ret' := by
  obtain ⟨hfailed, rfl⟩ | ⟨hrunning, rfl⟩ := h
  · obtain ⟨-, rfl⟩ | ⟨hrunning, -⟩ := h'
    · rfl
    · exact absurd hfailed hrunning
  · obtain ⟨hfailed, -⟩ | ⟨-, rfl⟩ := h'
    · exact absurd hfailed hrunning
    · rfl

end

/-- **`sendn_retry` and `sendn` hand over a prefix of the buffer.** -/
theorem sendnRetry_accepts {kernel : Kernel} {buf : List UInt8} {size : UInt32} {retry : ℤ}
    (hbuf : buf.length = size.toNat) (hsize : size.toNat < 2 ^ 31) (hretry : -2 ^ 31 < retry) :
    ∃ ret calls, (∀ rounds : ℕ, size.toNat + max retry 1 < rounds →
        (sendnRetry kernel buf size retry rounds).run [] = some (ret, calls)) ∧
      calls.length ≤ size.toNat + max retry 1 ∧ accepted calls <+: buf ∧
      (ret = -1 → Failed calls) ∧
      (ret ≠ -1 → ret = (accepted calls).length ∧
        ((accepted calls).length < size.toNat → wouldBlocks calls = max retry 1)) ∧
      (wouldBlocks calls < max retry 1 →
        ∃ rounds, (sendn kernel buf size rounds).run [] = some (ret, calls)) ∧
      ∀ rounds ret' calls', (sendn kernel buf size rounds).run [] = some (ret', calls') →
        ((ret' = size.toNat ∧ accepted calls' = buf) ∨
          (ret' = -1 ∧ Failed calls' ∧ accepted calls' <+: buf)) ∧
        (wouldBlocks calls' < max retry 1 → ret' = ret ∧ calls' = calls) := by
  obtain ⟨limit, hlimit⟩ : ∃ limit : ℕ, (limit : ℤ) = max retry 1 :=
    ⟨(max retry 1).toNat, Int.toNat_of_nonneg (le_trans zero_le_one (le_max_right _ _))⟩
  have hall (rounds : ℕ) (hrounds : size.toNat + limit < rounds) :=
    @wp_sendnRetry kernel buf size retry hbuf hsize hretry limit rounds hlimit hrounds
  obtain ⟨ret, calls, hrun, hrec, hstop, hret, hprefix, hblocks, hcalls⟩ :=
    hall (size.toNat + limit + 1) (Nat.lt_succ_self _)
  rw [← hlimit]
  refine ⟨ret, calls, fun rounds hrounds ↦ ?_, by omega, hprefix, ?_, ?_, ?_, ?_⟩
  · obtain ⟨ret', calls', hrun', hrec', hstop', hret', -⟩ := hall rounds (by omega)
    obtain rfl := hrec'.unique hrec hstop' hstop
    rw [hrun', hret'.unique hret]
  · rintro rfl
    obtain ⟨hfailed, -⟩ | ⟨-, hlength⟩ := hret
    · exact hfailed
    · omega
  · intro hne
    obtain ⟨-, hminus⟩ | ⟨hrunning, hlength⟩ := hret
    · exact absurd hminus hne
    · refine ⟨hlength, fun hless ↦ ?_⟩
      obtain (hout | hfailed) | hlast := hstop
      · rw [hout, hbuf] at hless
        exact absurd hless (lt_irrefl _)
      · exact absurd hfailed hrunning
      · exact congrArg _ (Nat.le_antisymm hblocks hlast)
  · intro hfew
    have hdone : Done buf calls := hstop.resolve_right fun hlast ↦ by omega
    obtain ⟨ret', hsame, hret'⟩ := sendn_of_recorded hbuf hsize
      (hrec.mono fun past _ hpast ↦ Or.inl hpast) hdone
    exact ⟨_, hret'.unique hret ▸ hsame⟩
  · intro rounds ret' calls' hrun'
    obtain ⟨hrec', hprefix', hdone', hret'⟩ := sendn_outcome hbuf hsize hrun'
    refine ⟨?_, fun hfew ↦ ?_⟩
    · obtain ⟨hfailed, rfl⟩ | ⟨hrunning, rfl⟩ := hret'
      · exact Or.inr ⟨rfl, hfailed, hprefix'⟩
      · have hout := hdone'.resolve_right hrunning
        exact Or.inl ⟨by rw [hout, hbuf], hout⟩
    · have hmono : Recorded (nextCall kernel buf) (DoneOr buf limit) calls' := by
        refine hrec'.mono fun past hpast hmet ↦ hmet.resolve_right fun hlast ↦ ?_
        have hle := wouldBlocks_le hpast
        omega
      obtain rfl := hmono.unique hrec (Or.inl hdone') hstop
      exact ⟨hret'.unique hret, rfl⟩

/-- One byte in a call, and none in the second. -/
def slowKernel : Kernel where
  answer call _ := if call = 1 then .failed .EAGAIN else .written 1
  fits call offered nwritten hoffered hanswer := by
    split at hanswer
    · cases hanswer
    · cases hanswer
      exact ⟨one_pos, hoffered⟩

def slowCalls : List Call :=
  [⟨[1, 2, 3], .written 1⟩, ⟨[2, 3], .failed .EAGAIN⟩, ⟨[2, 3], .written 1⟩, ⟨[3], .written 1⟩]

theorem sendnRetry_accepts_slow :
    (sendnRetry slowKernel [1, 2, 3] 3 2 6).run [] = some (3, slowCalls) ∧
      ∃ rounds, (sendn slowKernel [1, 2, 3] 3 rounds).run [] = some (3, slowCalls) := by
  obtain ⟨ret, calls, hrun, -, -, -, -, hsame, -⟩ :=
    @sendnRetry_accepts slowKernel [1, 2, 3] 3 2 rfl (by decide) (by decide)
  have hslow : (sendnRetry slowKernel [1, 2, 3] 3 2 6).run [] = some (3, slowCalls) := rfl
  have hoften := hrun 6 (by decide)
  rw [hslow, Option.some_inj] at hoften
  obtain ⟨rfl, rfl⟩ := Prod.mk.inj hoften
  exact ⟨hslow, hsame (by decide)⟩

/-! ## The loop that `send` of a socket buffer runs -/

/-- The answer as the socket buffer sees it. -/
def Answer.sent : Answer → Sent
  | .written nwritten => .accepted nwritten
  | .failed errno => if rwWouldblock errno then .wouldBlock else .error

section

variable {kernel : Kernel} {buf ptr ptr' : List UInt8} {size : UInt32} {nleft nleft' : ℤ}
  {calls : List Call}

theorem sendnLoop_next (h : Progress buf ptr nleft calls) (hleft : nleft > 0)
    (h' : Progress buf ptr' nleft' (calls ++ [nextCall kernel buf calls])) (rest : List Sent) :
    sendnLoop size ptr nleft ((nextCall kernel buf calls).answer.sent :: rest) =
      (sendnLoop size ptr' nleft' rest).map fun sending ↦
        { sending with accepted := (nextCall kernel buf calls).taken ++ sending.accepted } := by
  rw [h.nextCall] at h' ⊢
  have hsplit := h'.split.trans h.split.symm
  have hrunning := h'.running
  rw [accepted_concat, List.append_assoc, List.append_cancel_left_eq] at hsplit
  rw [failed_concat, not_or] at hrunning
  have hcount := h.left
  have hcount' := h'.left
  cases hanswer : kernel.answer calls.length ptr.length with
  | written nwritten =>
    rw [hanswer, Call.taken] at hsplit
    dsimp only at hsplit
    have hdrop : ptr' = ptr.drop nwritten := by
      rw [← List.append_cancel_left_eq (ptr.take nwritten), hsplit, List.take_append_drop]
    have hpos : 0 < ptr.length := by omega
    obtain ⟨hsome, hle⟩ := kernel.fits _ _ _ hpos hanswer
    have hleft' : nleft' = nleft - nwritten := by
      rw [hcount', hdrop, List.length_drop, hcount]
      omega
    dsimp only [Answer.sent]
    rw [sendnLoop, if_pos hleft, if_pos ⟨hsome, by omega, hle⟩, ← hdrop, ← hleft']
    rfl
  | failed errno =>
    rw [hanswer] at hsplit hrunning
    rw [Call.taken, List.nil_append] at hsplit
    have hblocks : rwWouldblock errno = true := by simpa [Answer.fails] using hrunning.2
    subst hsplit
    obtain rfl : nleft' = nleft := by rw [hcount', hcount]
    dsimp only [Answer.sent]
    rw [if_pos hblocks, sendnLoop, if_pos hleft]
    exact (Option.map_id').symm

/-- A hard error is the last answer that is looked at. -/
theorem sendnLoop_failed {call : Call} (hleft : nleft > 0) (hfails : call.answer.fails = true) :
    sendnLoop size ptr nleft [call.answer.sent] = some ⟨-1, accepted [call], []⟩ := by
  obtain ⟨offered, answer⟩ := call
  cases answer with
  | written nwritten => cases hfails
  | failed errno =>
    have hblocks : ¬rwWouldblock errno = true := by simpa [Answer.fails] using hfails
    dsimp only [Answer.sent]
    rw [if_neg hblocks, sendnLoop, if_pos hleft]
    rfl

theorem sendnLoop_of_loop (hbuf : buf.length = size.toNat) (hsize : size.toNat < 2 ^ 31)
    (h : Progress buf ptr nleft calls) {rounds : ℕ} {ret : ℤ} {calls' : List Call}
    (hrun : (loop (sendnRound kernel size) rounds (ptr, nleft)).run calls = some (ret, calls')) :
    ∃ more, calls' = calls ++ more ∧
      sendnLoop size ptr nleft (more.map fun call ↦ call.answer.sent) =
        some ⟨ret, accepted more, []⟩ := by
  induction rounds generalizing ptr nleft calls with
  | zero => cases hrun
  | succ rounds ih =>
    have hlength := congrArg List.length h.split
    rw [List.length_append, hbuf] at hlength
    have hwp : wp (loop (sendnRound kernel size) (rounds + 1) (ptr, nleft))
        (fun r a ↦ r = ret ∧ a = calls') calls := ⟨_, _, hrun, rfl, rfl⟩
    rw [loop, wp_bind] at hwp
    have hround : wp (sendnRound kernel size (ptr, nleft)) (fun next calls₁ ↦
        Sum.elim (fun locals ↦ nleft > 0 ∧ calls₁ = calls ++ [nextCall kernel buf calls] ∧
            Progress buf locals.1 locals.2 calls₁)
          (fun ret ↦ (nleft > 0 ∧ calls₁ = calls ++ [nextCall kernel buf calls] ∧
              Failed calls₁ ∧ ret = -1) ∨ (¬nleft > 0 ∧ calls₁ = calls ∧ ret = toInt size)) next)
        calls := by
      apply wp_sendnRound h (by omega)
      · rintro ptr' nleft' calls₁ hleft hcalls h' -
        exact ⟨hleft, hcalls, h'⟩
      · rintro calls₁ hleft hcalls hfailed -
        exact Or.inl ⟨hleft, hcalls, hfailed, rfl⟩
      · intro hout
        refine Or.inr ⟨fun hleft ↦ h.not_done hleft (Or.inl hout), rfl, rfl⟩
    obtain ⟨next, calls₁, -, hrest, hnext⟩ := wp_and hwp hround
    cases next with
    | inl locals =>
      obtain ⟨hleft, rfl, h'⟩ := hnext
      obtain ⟨ret', calls₂, hrun', rfl, rfl⟩ := hrest
      obtain ⟨more, rfl, hmore⟩ := ih h' hrun'
      refine ⟨nextCall kernel buf calls :: more, List.append_assoc _ _ _, ?_⟩
      rw [List.map_cons, sendnLoop_next h hleft h', hmore]
      rfl
    | inr ret' =>
      simp only [wp_pure] at hrest
      obtain ⟨rfl, rfl⟩ := hrest
      obtain ⟨hleft, rfl, hfailed, rfl⟩ | ⟨hleft, rfl, rfl⟩ := hnext
      · have hfails := (failed_concat.1 hfailed).resolve_left h.running
        exact ⟨[nextCall kernel buf calls], rfl, sendnLoop_failed hleft hfails⟩
      · refine ⟨[], (List.append_nil _).symm, ?_⟩
        rw [List.map_nil, sendnLoop, if_neg hleft]
        rfl

/-- **Every outcome of `sendn` is the one that the socket buffer works with.** -/
theorem sendn_refines (hbuf : buf.length = size.toNat) (hsize : size.toNat < 2 ^ 31) {rounds : ℕ}
    {ret : ℤ} (hrun : (sendn kernel buf size rounds).run [] = some (ret, calls)) :
    Socket.sendn buf size (calls.map fun call ↦ call.answer.sent) =
      some ⟨ret, accepted calls, []⟩ := by
  obtain ⟨more, rfl, hmore⟩ := sendnLoop_of_loop hbuf hsize (.start hbuf hsize) hrun
  exact hmore

end

end Zbaselib.Socket.Sendn
