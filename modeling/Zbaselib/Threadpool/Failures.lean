import Zbaselib.Threadpool.Returned

/-!
# What is left when `zbaselib_threadpool_create` fails

`ERROR_EXIT` frees the pool at once.  It does not stop the workers that have been
started, and they go on.
-/

namespace Zbaselib.Threadpool

open Function Transition

variable {size : ℕ}

/-- The property of `create`: what it frees is not touched any more, and the channel array goes
when each worker has its slot. -/
structure Orderly (answers : Answers) (s : Creation size) : Prop where
  ended : s.creator = .returned false → ∀ i, s.threads i ≠ .absent → s.pool.workers i = .ended
  untouched : s.creator = .returned false → ∀ label s', Creating answers label s s' →
    ∀ r ∈ label.touches s.pool, s.storage r ≠ .freed
  copied : s.storage .tpChannel = .freed → ∀ i, s.threads i = .copied

section

variable {s s' : Creation size} {answers : Answers} {label : Label size}

/-- No thread is left behind by a failure. -/
structure Spared (answers : Answers) (s : Creation size) : Prop where
  allocated : ∀ rest, s.creator = .allocating rest → ∀ r ∉ rest, answers.creates r = true
  created : ∀ k, s.creator = .spawning k →
    (∀ r, answers.creates r = true) ∧ ∀ j < k, answers.threadCreate j = true
  failed : (∃ rest, s.creator = .exiting rest) ∨ s.creator = .returned false →
    ∀ i, s.threads i = .absent

theorem Spared.of_failed (h : ∀ i, s.threads i = .absent) {creator : Creator}
    {storage : Resource → Storage} {pool : State size}
    (hcreator : (∃ rest, creator = .exiting rest) ∨ creator = .returned false) :
    Spared answers { s with creator, storage, pool } := by
  refine ⟨fun rest hallocating ↦ ?_, fun k hspawning ↦ ?_, fun _ ↦ h⟩
  · obtain ⟨rest', hexiting⟩ | hreturned := hcreator
    · cases hexiting.symm.trans hallocating
    · cases hreturned.symm.trans hallocating
  · obtain ⟨rest', hexiting⟩ | hreturned := hcreator
    · cases hexiting.symm.trans hspawning
    · cases hreturned.symm.trans hspawning

theorem Spared.allocate (h : Spared answers s) (hconsistent : Consistent s) {r : Resource}
    {rest : List Resource} (hcreator : s.creator = .allocating (r :: rest)) :
    Spared answers (allocate answers r rest s) := by
  unfold Threadpool.allocate
  split
  · next hcreates =>
    refine ⟨fun rest' hallocating r' hr' ↦ ?_, by simp, by simp⟩
    cases hallocating
    by_cases hr : r' = r
    · rwa [hr]
    · exact h.allocated _ hcreator r' (by simp [hr, hr'])
  · have habsent (i : Fin size) : s.threads i = .absent := by
      apply hconsistent.absent
      rw [hcreator]
      exact Nat.zero_le _
    apply Spared.of_failed habsent
    split
    · exact Or.inr rfl
    · exact Or.inl ⟨_, rfl⟩

theorem Spared.spawn (h : Spared answers s) (hconsistent : Consistent s)
    (hall : (∀ r, answers.creates r = true) → answers.threadCreate 0 = true →
      ∀ i < size, answers.threadCreate i = true) {i : Fin size}
    (hcreator : s.creator = .spawning i) : Spared answers (spawn answers i s) := by
  obtain ⟨hcreates, hbefore⟩ := h.created _ hcreator
  unfold Threadpool.spawn
  split
  · next hcreated =>
    refine ⟨by simp, fun k hspawning ↦ ⟨hcreates, fun j hj ↦ ?_⟩, by simp⟩
    cases hspawning
    rcases Nat.lt_succ_iff_lt_or_eq.1 hj with hlt | heq
    · exact hbefore j hlt
    · rwa [heq]
  · next hrefused =>
    -- no thread was created before the one that is refused
    have hzero : (i : ℕ) = 0 := by
      by_contra hne
      have hfirst := hbefore 0 (Nat.pos_of_ne_zero hne)
      exact hrefused (hall hcreates hfirst i i.isLt)
    have habsent (j : Fin size) : s.threads j = .absent := by
      apply hconsistent.absent
      rw [hcreator]
      change (i : ℕ) ≤ j
      omega
    exact Spared.of_failed habsent (Or.inl ⟨_, rfl⟩)

theorem Spared.step (h : Spared answers s) (hconsistent : Consistent s)
    (hall : (∀ r, answers.creates r = true) → answers.threadCreate 0 = true →
      ∀ i < size, answers.threadCreate i = true)
    (hstep : Creating answers label s s') : Spared answers s' := by
  cases hstep with
  | allocate hcreator => exact h.allocate hconsistent hcreator
  | allocated hcreator =>
    refine ⟨by simp, fun k hspawning ↦ ?_, by simp⟩
    cases hspawning
    exact ⟨fun r ↦ h.allocated [] hcreator r (by simp), fun j hj ↦ absurd hj (Nat.not_lt_zero j)⟩
  | spawn hcreator => exact h.spawn hconsistent hall hcreator
  | spawned => exact ⟨by simp, by simp, by simp⟩
  | scan =>
    unfold Threadpool.scan
    split
    · exact ⟨by simp, by simp, by simp⟩
    · exact ⟨by simp, by simp, by simp⟩
  | publish => exact ⟨by simp [Threadpool.publish], by simp [Threadpool.publish],
      by simp [Threadpool.publish]⟩
  | free hcreator =>
    exact Spared.of_failed (h.failed (Or.inl ⟨_, hcreator⟩)) (Or.inl ⟨_, rfl⟩)
  | fail hcreator => exact Spared.of_failed (h.failed (Or.inl ⟨_, hcreator⟩)) (Or.inr rfl)
  | @copy _ i hspawned =>
    refine ⟨h.allocated, h.created, fun hfailed ↦ ?_⟩
    cases hspawned.symm.trans (h.failed hfailed i)
  | pool => exact ⟨h.allocated, h.created, h.failed⟩

/-! ## A creation that fails late -/

theorem run_allocating {rest : List Resource} (hcreator : s.creator = .allocating rest)
    (hcreates : ∀ r, answers.creates r = true) : ∃ labels s', Run (Creating answers) labels s s' ∧
      s'.creator = .spawning 0 ∧ s'.pool = s.pool ∧ s'.threads = s.threads ∧
        ∀ r, r ∈ rest ∨ s.storage r = .live → s'.storage r = .live := by
  induction rest generalizing s with
  | nil =>
    refine ⟨_, _, .cons (.allocated hcreator) (.nil _), rfl, rfl, rfl, fun r hr ↦ ?_⟩
    exact hr.resolve_left (by simp)
  | cons r rest ih =>
    have hallocate : allocate answers r rest s =
        { s with storage := update s.storage r .live, creator := .allocating rest } :=
      if_pos (hcreates r)
    have hstep : Creating answers .creator s _ := .allocate hcreator
    rw [hallocate] at hstep
    obtain ⟨labels, s', hrun, hcreator', hpool, hthreads, hstorage⟩ := ih
      (s := { s with storage := update s.storage r .live, creator := .allocating rest }) rfl
    refine ⟨_, s', .cons hstep hrun, hcreator', hpool, hthreads, fun r' hr' ↦ ?_⟩
    apply hstorage
    by_cases hr : r' = r
    · right
      simp [hr]
    · simpa [hr] using hr'

theorem run_spawning (hcreator : s.creator = .spawning 0) {k : ℕ} (hk : k ≤ size)
    (hcreated : ∀ j < k, answers.threadCreate j = true) :
    ∃ labels s', Run (Creating answers) labels s s' ∧ s'.creator = .spawning k ∧
      s'.pool.workers = s.pool.workers ∧ s'.storage = s.storage ∧
        ∀ i : Fin size, i < k → s'.threads i = .spawned := by
  induction k with
  | zero => exact ⟨[], s, .nil s, hcreator, rfl, rfl, fun i hi ↦ absurd hi (Nat.not_lt_zero i)⟩
  | succ k ih =>
    obtain ⟨labels, s', hrun, hcreator', hworkers, hstorage, hspawned⟩ :=
      ih (Nat.le_of_succ_le hk) fun j hj ↦ hcreated j (hj.trans k.lt_succ_self)
    have hstep : Creating answers .creator s' _ := .spawn (i := ⟨k, hk⟩) hcreator'
    unfold spawn at hstep
    rw [if_pos (hcreated k k.lt_succ_self)] at hstep
    refine ⟨_, _, hrun.append (.cons hstep (.nil _)), rfl, hworkers, hstorage, fun i hi ↦ ?_⟩
    dsimp only
    by_cases hik : i = ⟨k, hk⟩
    · rw [hik, update_self]
    · rw [update_of_ne hik]
      exact hspawned i (Nat.lt_of_le_of_ne (Nat.le_of_lt_succ hi) fun heq ↦ hik (Fin.ext heq))

theorem run_exiting {rest : List Resource} (hcreator : s.creator = .exiting rest) :
    ∃ labels s', Run (Creating answers) labels s s' ∧ s'.creator = .returned false ∧
      s'.pool = s.pool ∧ s'.threads = s.threads ∧
        ∀ r, (r ∈ rest ∧ s.storage r = .live) ∨ s.storage r = .freed → s'.storage r = .freed := by
  induction rest generalizing s with
  | nil =>
    refine ⟨_, _, .cons (.fail hcreator) (.nil _), rfl, rfl, rfl, fun r hr ↦ ?_⟩
    exact hr.resolve_left (by simp)
  | cons r rest ih =>
    obtain ⟨labels, s', hrun, hcreator', hpool, hthreads, hstorage⟩ := ih (s := free r rest s) rfl
    refine ⟨_, s', .cons (.free hcreator) hrun, hcreator', hpool, hthreads, fun r' hr' ↦ ?_⟩
    apply hstorage
    unfold free
    dsimp only
    by_cases hr : r' = r
    · right
      rw [hr] at hr' ⊢
      split
      · exact update_self ..
      · next hnot => exact hr'.elim (fun h ↦ absurd h.2 hnot) id
    · have hsame : (if s.storage r = .live then update s.storage r .freed else s.storage) r' =
          s.storage r' := by
        split
        · exact update_of_ne hr _ _
        · rfl
      rw [hsame]
      simpa [hr] using hr'

end

theorem touches_eq_nil {event : Event size} (h : event.worker = none) (s : State size) :
    event.touches s = [] := by
  cases event with
  | start | take | finish => cases h
  | _ => rfl

/-- The workers that were started before thread `k` was refused have no pool any more. -/
theorem run_abandoning {size k : ℕ} {answers : Answers} (hk : k < poolSize size)
    (hcreates : ∀ r, answers.creates r = true)
    (hcreated : ∀ j < k, answers.threadCreate j = true)
    (hrefused : answers.threadCreate k = false) :
    ∃ labels s, Run (Creating answers) labels (call size) s ∧ s.creator = .returned false ∧
      (∀ r ∈ errorExit, s.storage r = .freed) ∧
        ∀ i : Fin (poolSize size), i < k →
          s.threads i = .spawned ∧ s.pool.workers i = .starting := by
  obtain ⟨labels₁, s₁, hrun₁, hcreator₁, hpool₁, -, hlive₁⟩ :=
    run_allocating (s := call size) rfl hcreates
  obtain ⟨labels₂, s₂, hrun₂, hcreator₂, hworkers₂, hstorage₂, hspawned₂⟩ :=
    run_spawning hcreator₁ hk.le hcreated
  have hfail : Creating answers .creator s₂ _ := .spawn (i := ⟨k, hk⟩) hcreator₂
  unfold spawn at hfail
  rw [if_neg (by simp [hrefused])] at hfail
  obtain ⟨labels₃, s₃, hrun₃, hcreator₃, hpool₃, hthreads₃, hfreed₃⟩ :=
    @run_exiting _ { s₂ with
      pool := { s₂.pool with thStatus := update s₂.pool.thStatus ⟨k, hk⟩ (-1) }
      creator := .exiting errorExit } answers errorExit rfl
  refine ⟨_, s₃, hrun₁.append (hrun₂.append (.cons hfail hrun₃)), hcreator₃, fun r hr ↦ ?_,
    fun i hi ↦ ⟨?_, ?_⟩⟩
  · apply hfreed₃
    refine Or.inl ⟨hr, ?_⟩
    dsimp only
    rw [hstorage₂]
    apply hlive₁
    left
    revert r
    decide
  · rw [hthreads₃]
    exact hspawned₂ i hi
  · rw [hpool₃]
    dsimp only
    rw [hworkers₂, hpool₁]
    rfl

/-- **`create` leaves nobody behind exactly when no thread is refused after the first one.** -/
theorem orderly_iff (size : ℕ) (answers : Answers) :
    (∀ labels s, Run (Creating answers) labels (call size) s → Orderly answers s) ↔
      ((∀ r, answers.creates r = true) → answers.threadCreate 0 = true →
        ∀ i < poolSize size, answers.threadCreate i = true) := by
  constructor
  · intro horderly hcreates hfirst
    by_contra hno
    push Not at hno
    classical
    -- the first thread that is refused
    obtain ⟨hk, hrefused⟩ := Nat.find_spec hno
    have hbefore (j : ℕ) (hj : j < Nat.find hno) : answers.threadCreate j = true := by
      by_contra hnot
      exact Nat.find_min hno hj ⟨hj.trans hk, hnot⟩
    have hpos : 0 < Nat.find hno := by
      apply Nat.pos_of_ne_zero
      intro hzero
      rw [hzero] at hrefused
      exact hrefused hfirst
    obtain ⟨labels, s, hrun, hcreator, -, hthreads⟩ :=
      run_abandoning hk hcreates hbefore (Bool.eq_false_of_not_eq_true hrefused)
    obtain ⟨hspawned, hstarting⟩ := hthreads ⟨0, hpos.trans hk⟩ hpos
    have hended := (horderly labels s hrun).ended hcreator ⟨0, hpos.trans hk⟩ (by simp [hspawned])
    cases hstarting.symm.trans hended
  · intro hall labels s hrun
    obtain ⟨hconsistent, -⟩ := creation_refines hrun
    have hspared : Consistent s ∧ Spared answers s := by
      apply hrun.invariant fun s ↦ Consistent s ∧ Spared answers s
      · rintro label s s' ⟨hconsistent, hspared⟩ hstep
        exact ⟨(hconsistent.step hstep).1, hspared.step hconsistent hall hstep⟩
      · refine ⟨consistent_call size, fun rest hallocating r hr ↦ ?_, by simp [call],
          by simp [call]⟩
        cases hallocating
        cases r <;> simp [allocations] at hr
    have habsent := hspared.2.failed
    refine ⟨fun hreturned i hi ↦ absurd (habsent (Or.inr hreturned) i) hi, ?_,
      hconsistent.copied⟩
    intro hreturned label s' hstep
    have hnone := habsent (Or.inr hreturned)
    cases hstep with
    | @copy _ i hspawned => cases hspawned.symm.trans (hnone i)
    | @pool _ event pool hevent hworker hstep =>
      cases hactor : event.worker with
      | none =>
        intro r hr
        simp only [Label.touches, touches_eq_nil hactor, List.not_mem_nil] at hr
      | some i => cases (hworker i hactor).symm.trans (hnone i)
    | _ => simp [Label.touches]

/-- The second thread is refused. -/
def secondRefused : Answers :=
  ⟨true, true, true, true, true, fun i ↦ i = 0⟩

theorem not_orderly_secondRefused : ∃ labels s s',
    Run (Creating secondRefused) labels (call 2) s ∧ s.creator = .returned false ∧
      s.storage .thStatus = .freed ∧
      Creating secondRefused (.pool (.start ⟨0, by decide⟩)) s s' ∧ ¬Orderly secondRefused s := by
  have hone : 1 < poolSize 2 := by decide
  have hcreates (r : Resource) : secondRefused.creates r = true := by cases r <;> rfl
  have hcreated (j : ℕ) (hj : j < 1) : secondRefused.threadCreate j = true := by
    rw [Nat.lt_one_iff.1 hj]
    rfl
  obtain ⟨labels, s, hrun, hcreator, hfreed, hthreads⟩ :=
    run_abandoning hone hcreates hcreated rfl
  let i : Fin (poolSize 2) := ⟨0, by decide⟩
  obtain ⟨hspawned, hstarting⟩ := hthreads i Nat.one_pos
  have hworker (j : Fin (poolSize 2)) (hj : (Event.start i).worker = some j) :
      update s.threads i .copied j = .copied := by
    cases hj
    exact update_self ..
  have hstart : Creating secondRefused (.pool (.start i))
      { s with threads := update s.threads i .copied } _ :=
    .pool (by simp) hworker (.start hstarting)
  refine ⟨_, _, _, hrun.append (.cons (.copy hspawned) (.nil _)), hcreator,
    hfreed .thStatus (by decide), hstart, fun horderly ↦ ?_⟩
  exact horderly.untouched hcreator _ _ hstart .thStatus (by simp [Label.touches, Event.touches])
    (hfreed .thStatus (by decide))

end Zbaselib.Threadpool
