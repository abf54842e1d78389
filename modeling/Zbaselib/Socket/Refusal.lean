import Zbaselib.Socket.Calls

/-!
# Growth for which there is no memory

The result of `realloc` goes straight into `buf`.  When it is `NULL` the old
block is leaked, and the bytes in it are out of reach for good.
-/

namespace Zbaselib.Socket

open Program Block Transition

/-- There is no memory for growth in this state. -/
def Refused (b : State) (extra : UInt32) (fresh : Option (ℕ → UInt8)) : Prop :=
  ∀ buf : List UInt8, realloc buf (sizeT (toInt (grownSize b extra))) fresh = none

/-- The call fails, and leaves the bytes, positions and capacity that the buffer had when it was to
grow. -/
def Survives (call : Call) (b b₁ : State) : Prop :=
  ∃ result b', Called (call, result) b b' ∧ result.ret < 0 ∧ content b' = content b₁ ∧
    b'.dataSize = b₁.dataSize ∧ b'.rpos = b₁.rpos ∧ b'.wpos = b₁.wpos ∧ b'.bufSize = b₁.bufSize

section

variable {b b₁ : State} {extra : UInt32} {fresh : Option (ℕ → UInt8)}

theorem Refused.grown (h : Refused b extra fresh) {buf : List UInt8} :
    Socket.grown b buf extra fresh = { b with buf := none, bufSize := grownSize b extra } := by
  unfold Socket.grown
  rw [h buf]

/-- `write` copies to the null pointer. -/
theorem Refused.not_wp_write {data : List UInt8} (h : Refused b₁ extra fresh) (hbuf : b.buf ≠ none)
    (hcompact : (compactFor extra).run b = some ((), b₁)) (hfull : b₁.wpos + extra > b₁.bufSize)
    (hbelow : ¬b₁.bufSize > b₁.bufMaxSize) {post : ℤ → State → Prop} :
    ¬wp (write (some data) extra fresh) post b := by
  intro hwp
  obtain ⟨buf, hbuf⟩ := Option.ne_none_iff_exists'.1 hbuf
  unfold write at hwp
  simp only [wp_bind, wp_get, hbuf] at hwp
  have hwp := wp_outcome hwp hcompact
  rw [wp_ite, if_pos hfull, wp_ite, if_neg hbelow, wp_bind] at hwp
  cases hbuf₁ : b₁.buf with
  | none =>
    unfold grow at hwp
    simp [hbuf₁] at hwp
  | some buf₁ =>
    rw [wp_grow_iff hbuf₁, h.grown] at hwp
    unfold append at hwp
    simp at hwp

/-- A round has nowhere to put its bytes, and is the last one. -/
theorem Refused.of_wp_udpRound {kernel : Kernel}
    (h : Refused b ZBASELIB_SKBUFFER_MIN_NUM fresh) (hend : b.wpos ≥ b.bufSize)
    (hfront : ¬b.rpos > 0) (hbelow : ¬b.bufSize > b.bufMaxSize) {post : Option ℤ → State → Prop}
    (hwp : wp (udpRound (kernel, fresh)) post b) :
    ∃ ret, post (some ret)
      { b with buf := none, bufSize := grownSize b ZBASELIB_SKBUFFER_MIN_NUM } := by
  unfold udpRound at hwp
  rw [wp_bind] at hwp
  obtain ⟨buf, hbuf, hwp⟩ := of_wp_reserve_grown hend hfront hbelow hwp
  simp only [if_true, wp_bind, wp_pure, h.grown] at hwp
  obtain ⟨answer, hbytes, hpost⟩ := of_wp_receive_null rfl hwp
  cases answer with
  | data bytes =>
    rw [Received.ends, if_pos (show bytes = [] from hbytes)] at hpost
    exact ⟨_, hpost⟩
  | wouldBlock => exact ⟨_, hpost⟩
  | error => exact ⟨_, hpost⟩

/-- Growth by half and 64 bytes never comes back to the same size, not even modulo `2 ^ 32`. -/
theorem grownSize_ne : grownSize b ZBASELIB_SKBUFFER_MIN_NUM ≠ b.bufSize := by
  intro heq
  have hsize := congrArg UInt32.toNat heq
  have hlt := b.bufSize.toNat_lt
  have hextra : ZBASELIB_SKBUFFER_MIN_NUM.toNat = 64 := rfl
  rw [toNat_grownSize, grownTo, hextra] at hsize
  omega

/-- Whatever a call without memory comes back with, the block is gone. -/
theorem Enlarges.null_of_refused {call : Call} (h : Enlarges call b extra fresh b₁)
    (hrefused : Refused b₁ extra fresh) {result : Result} {b' : State}
    (hrun : Called (call, result) b b') : b'.buf = none ∧ b'.bufSize ≠ b₁.bufSize := by
  have hwp : wp call.run (fun _ a ↦ a = b') b := ⟨_, _, hrun, rfl⟩
  cases h with
  | @write data size fresh b b₁ block compacted full below =>
    simp only [Call.run, Op.run, wp_bind, wp_pure] at hwp
    exact absurd hwp (hrefused.not_wp_write block compacted full below)
  | round comes full front below =>
    obtain ⟨ret, hpost⟩ :=
      hrefused.of_wp_udpRound full front below (comes.of_wp_run hwp)
    have hstate := hpost ret rfl
    rw [← hstate]
    exact ⟨rfl, grownSize_ne⟩

end

/-- **A refused growth always loses the buffer**, in every state and for every call that has to
enlarge it. -/
theorem refusal_loses {call : Call} {b b₁ : State} {extra : UInt32} {fresh : Option (ℕ → UInt8)}
    (h : Enlarges call b extra fresh b₁) (hrefused : Refused b₁ extra fresh) :
    ¬Survives call b b₁ ∧
      ∀ result b', Called (call, result) b b' → b'.buf = none ∧ content b' = [] ∧
        ∀ data size, (read (some data) size).run b' = some ((-1, some data), b') := by
  constructor
  · rintro ⟨result, b', hrun, -, -, -, -, -, hsize⟩
    exact (h.null_of_refused hrefused hrun).2 hsize
  · intro result b' hrun
    obtain ⟨hnull, -⟩ := h.null_of_refused hrefused hrun
    refine ⟨hnull, by simp [content, hnull], fun data size ↦ ?_⟩
    have hread : wp (read (some data) size) (fun value after ↦ value = (-1, some data) ∧
        after = b') b' := by
      unfold read fetch
      simp only [wp_bind, wp_get, hnull, wp_pure, and_self]
    obtain ⟨value, after, hread, rfl, rfl⟩ := hread
    exact hread

/-- A kernel that has nothing to give. -/
def idleKernel : Kernel where
  answer _ := .wouldBlock
  fits _ := Nat.zero_le _

def fullState : State := ⟨0, some [1, 2, 3, 4], 4, 16, 4, 0, 4, 4096⟩

def lostState : State := ⟨0, none, 70, 16, 4, 0, 4, 4096⟩

theorem enlarges_full : Enlarges (.plain (.recv idleKernel none)) fullState 64 none fullState :=
  .round .here (by decide) (by decide) (by decide)

/-- Four bytes are buffered when `recv` finds no memory.  It reports success, and they are gone. -/
theorem lost_full :
    ∃ b₀, create true true none 4 16 0 = some b₀ ∧
      Run Called [(.plain (.write [1, 2, 3, 4] 4 none), ⟨0, none⟩)] b₀ fullState ∧
      Enlarges (.plain (.recv idleKernel none)) fullState 64 none fullState ∧
      Called (.plain (.recv idleKernel none), ⟨0, none⟩) fullState lostState ∧
      content fullState = [1, 2, 3, 4] ∧ content lostState = [] ∧
      ¬Survives (.plain (.recv idleKernel none)) fullState fullState := by
  refine ⟨_, rfl, .cons rfl <| .nil _, enlarges_full, rfl, rfl, rfl, ?_⟩
  rintro ⟨result, b', hrun, -, -, -, -, -, hsize⟩
  exact (enlarges_full.null_of_refused (fun _ ↦ rfl) hrun).2 hsize

theorem refusal_loses_full : ¬Survives (.plain (.recv idleKernel none)) fullState fullState :=
  (refusal_loses enlarges_full fun _ ↦ rfl).1

end Zbaselib.Socket
