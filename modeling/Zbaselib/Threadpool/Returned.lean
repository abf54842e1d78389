import Zbaselib.Threadpool.Creation

/-!
# A pool in creation is a pool

The threads that are absent have yet to start.  `create` waits for its workers
before it returns the pool.
-/

namespace Zbaselib.Threadpool

open Condition Function Transition

variable {size : ℕ}

/-- The pool with `th_status` set for the threads that are still absent. -/
def asCreated (threads : Fin size → Thread) (s : State size) : State size :=
  { s with thStatus := fun i ↦ if threads i = .absent then -1 else s.thStatus i }

/-- These threads have been created. -/
def Creator.spawned (size : ℕ) : Creator → ℕ
  | .spawning i => i
  | .scanning _ | .returned true => size
  | _ => 0

/-- From here on no thread has been created. -/
def Creator.unspawned (size : ℕ) : Creator → ℕ
  | .allocating _ => 0
  | .spawning i => i
  | _ => size

/-- These workers have been seen at work. -/
def Creator.scanned (size : ℕ) : Creator → ℕ
  | .scanning i => i
  | .returned true => size
  | _ => 0

/-- What holds in every state of a creation. -/
structure Consistent (s : Creation size) : Prop where
  pool : Inv (asCreated s.threads s.pool)
  starting : ∀ i, s.threads i ≠ .copied → s.pool.workers i = .starting
  spawned : ∀ i : Fin size, i < s.creator.spawned size → s.threads i ≠ .absent
  absent : ∀ i : Fin size, s.creator.unspawned size ≤ i → s.threads i = .absent
  scanned : ∀ i : Fin size, i < s.creator.scanned size → s.pool.workers i ≠ .starting
  idle : s.creator ≠ .returned true → s.pool.created = false ∧ s.pool.destroyer = .outside
  channel : s.storage .tpChannel = .freed → s.creator = .returned true
  leaked : ∀ rest, s.creator = .exiting rest → .tpChannel ∉ rest

/-! ## Sections of the pool -/

section

variable {s s' : State size} {event : Event size} {threads : Fin size → Thread} {i : Fin size}

theorem take_workers (i : Fin size) (s : State size) :
    ∃ w ≠ Worker.starting, (take i s).2.workers = update s.workers i w := by
  unfold take
  split
  · exact ⟨.waiting false, by simp, rfl⟩
  split
  · exact ⟨_, Worker.noConfusion, rfl⟩
  · exact ⟨.top, by simp, rfl⟩

theorem enter_workers (i : Fin size) (s : State size) :
    ∃ w ≠ Worker.starting, (enter i s).2.workers = update s.workers i w := by
  unfold enter
  split
  · exact ⟨.ended, by simp, rfl⟩
  · exact take_workers i s

theorem update_eq_starting_iff {w : Worker} (hw : w ≠ .starting) (j : Fin size) :
    update s.workers i w j = .starting ↔ s.workers j = .starting ∧ some i ≠ some j := by
  by_cases hj : j = i
  · rw [hj, update_self]
    simp [hw]
  · rw [update_of_ne hj]
    simp [Ne.symm hj]

/-- A worker starts once. -/
theorem Step.starting_iff (hstep : Step event s s') (j : Fin size) :
    s'.workers j = .starting ↔ s.workers j = .starting ∧ event.worker ≠ some j := by
  have hother {P Q : Prop} (h : P ↔ Q) : P ↔ Q ∧ (none : Option (Fin size)) ≠ some j :=
    h.trans (and_iff_left (by simp)).symm
  have hstop (finish : ℤ) : (setStop finish s).workers j = .starting ↔ s.workers j = .starting :=
    @wake_eq_starting size s (fun _ ↦ true) j
  have hdrain : (Threadpool.drain s).workers j = .starting ↔ s.workers j = .starting := by
    unfold Threadpool.drain
    split
    · exact hstop 1
    · rfl
  cases hstep with
  | start => exact update_eq_starting_iff (by simp) j
  | @enter _ i =>
    obtain ⟨w, hw, hworkers⟩ := enter_workers i s
    rw [hworkers]
    exact update_eq_starting_iff hw j
  | @resume _ i =>
    obtain ⟨w, hw, hworkers⟩ := take_workers i s
    rw [hworkers]
    exact update_eq_starting_iff hw j
  | finish => exact update_eq_starting_iff (by simp) j
  | spurious => exact hother wake_eq_starting
  | addtask =>
    apply hother
    unfold Threadpool.addtask
    split
    · rfl
    split
    · rfl
    · exact wake_eq_starting
  | destroy finish =>
    apply hother
    unfold Threadpool.destroy
    split
    · rfl
    split
    · exact hdrain
    · exact hstop finish
  | drain => exact hother hdrain
  | create | status | join | release => exact hother Iff.rfl

/-- Without clients nobody destroys the pool. -/
theorem Step.idle (hstep : Step event s s') (hevent : event ≠ .create)
    (hidle : s.created = false ∧ s.destroyer = .outside) :
    s'.created = false ∧ s'.destroyer = .outside := by
  obtain ⟨hcreated, houtside⟩ := hidle
  have htake (i : Fin size) :
      (Threadpool.take i s).2.created = false ∧ (Threadpool.take i s).2.destroyer = .outside := by
    unfold Threadpool.take
    split
    · exact ⟨hcreated, houtside⟩
    split
    · refine ⟨hcreated, ?_⟩
      dsimp only
      rw [houtside]
      exact ite_self _
    · exact ⟨hcreated, houtside⟩
  have halive (h : Alive s) : False := by simpa [hcreated] using h.1
  cases hstep with
  | create => exact absurd rfl hevent
  | @enter _ i =>
    unfold Threadpool.enter
    split
    · exact ⟨hcreated, houtside⟩
    · exact htake i
  | @resume _ i => exact htake i
  | spurious chosen destroyer h =>
    refine ⟨hcreated, ?_⟩
    rw [houtside] at h
    exact h.elim id id
  | addtask chosen threadFunc param h => exact (halive h).elim
  | destroy finish h => exact (halive h).elim
  | drain h => cases houtside.symm.trans h
  | join h => cases houtside.symm.trans h
  | release h => cases houtside.symm.trans h
  | start | finish | status => exact ⟨hcreated, houtside⟩

theorem Worker.eq_starting_of_status {w : Worker} (h : w.status = -1) : w = .starting := by
  cases w with
  | starting => rfl
  | top | waiting | running | ended => simp [Worker.status] at h

/-! ## The pool as created -/

theorem asCreated_eq_self (h : ∀ j, threads j ≠ .absent) : asCreated threads s = s := by
  unfold asCreated
  simp [h]

theorem asCreated_congr {threads' : Fin size → Thread} {thStatus : Fin size → ℤ}
    (h : ∀ j, (if threads' j = .absent then -1 else thStatus j) =
      if threads j = .absent then -1 else s.thStatus j) :
    asCreated threads' { s with thStatus } = asCreated threads s := by
  unfold asCreated
  congr 1
  funext j
  exact h j

theorem asCreated_update (hi : threads i ≠ .absent) (status : ℤ) (workers : Fin size → Worker) :
    asCreated threads { s with thStatus := update s.thStatus i status, workers } =
      { s with
        thStatus := update (asCreated threads s).thStatus i status
        workers } := by
  unfold asCreated
  congr 1
  funext j
  by_cases hj : j = i
  · simp [hj, hi]
  · simp [update_of_ne hj]

theorem take_asCreated (hi : threads i ≠ .absent) : take i (asCreated threads s) =
    ((take i s).1, asCreated threads (take i s).2) := by
  unfold take
  by_cases hwait : s.stop = false ∧ s.taskQueue = []
  · rw [if_pos hwait, if_pos (by exact hwait)]
    rfl
  · rw [if_neg hwait, if_neg (by exact hwait)]
    cases hqueue : s.taskQueue with
    | nil =>
      have hqueue' : (asCreated threads s).taskQueue = [] := hqueue
      rw [hqueue']
      rfl
    | cons head rest =>
      have hqueue' : (asCreated threads s).taskQueue = head :: rest := hqueue
      rw [hqueue']
      dsimp only
      congr 1
      let destroyer := if rest = [] then s.destroyer.wake else s.destroyer
      exact (asCreated_update (s := { s with taskQueue := rest, destroyer }) hi 1 _).symm

theorem enter_asCreated (hi : threads i ≠ .absent) : enter i (asCreated threads s) =
    ((enter i s).1, asCreated threads (enter i s).2) := by
  unfold enter
  by_cases hstop : s.stop = true
  · rw [if_pos hstop, if_pos (by exact hstop)]
    rfl
  · rw [if_neg hstop, if_neg (by exact hstop)]
    exact take_asCreated hi

/-- Before there are clients nobody looks at the threads that are absent. -/
theorem Step.asCreated (hstep : Step event s s') (hevent : event ≠ .create)
    (hidle : s.created = false ∧ s.destroyer = .outside)
    (hworker : ∀ i, event.worker = some i → threads i ≠ .absent) :
    Step event (asCreated threads s) (asCreated threads s') := by
  obtain ⟨hcreated, houtside⟩ := hidle
  have halive (h : Alive s) : False := by simpa [hcreated] using h.1
  cases hstep with
  | create => exact absurd rfl hevent
  | @start _ i h =>
    have hstart : Threadpool.asCreated threads (Threadpool.start i s) =
        Threadpool.start i (Threadpool.asCreated threads s) :=
      asCreated_update (hworker i rfl) 0 _
    rw [hstart]
    exact .start h
  | @enter _ i h =>
    have henter := enter_asCreated (s := s) (hworker i rfl)
    have hstep := Step.enter (s := Threadpool.asCreated threads s) h
    rwa [henter] at hstep
  | @resume _ i h =>
    have htake := take_asCreated (s := s) (hworker i rfl)
    have hstep := Step.resume (s := Threadpool.asCreated threads s) h
    rwa [htake] at hstep
  | @finish _ i task h =>
    have hfinish : Threadpool.asCreated threads (Threadpool.finish i s) =
        Threadpool.finish i (Threadpool.asCreated threads s) :=
      asCreated_update (hworker i rfl) 0 _
    rw [hfinish]
    exact .finish h
  | spurious chosen destroyer h =>
    exact .spurious (s := Threadpool.asCreated threads s) chosen destroyer h
  | addtask chosen threadFunc param h => exact (halive h).elim
  | status h => exact (halive h).elim
  | destroy finish h => exact (halive h).elim
  | drain h => cases houtside.symm.trans h
  | join h => cases houtside.symm.trans h
  | release h => cases houtside.symm.trans h

end

/-! ## Steps of a creation -/

section

variable {s s' : Creation size} {answers : Answers} {label : Label size}

/-- The creator goes on. -/
theorem Consistent.goto (h : Consistent s) {creator : Creator} {storage : Resource → Storage}
    (hspawned : creator.spawned size ≤ s.creator.spawned size)
    (hunspawned : s.creator.unspawned size ≤ creator.unspawned size)
    (hscanned : creator.scanned size ≤ s.creator.scanned size)
    (hreturned : s.creator ≠ .returned true)
    (hstorage : storage .tpChannel = .freed → s.storage .tpChannel = .freed)
    (hleaked : ∀ rest, creator = .exiting rest → .tpChannel ∉ rest) :
    Consistent { s with creator, storage } where
  pool := h.pool
  starting := h.starting
  spawned i hi := h.spawned i (hi.trans_le hspawned)
  absent i hi := h.absent i (hunspawned.trans hi)
  scanned i hi := h.scanned i (hi.trans_le hscanned)
  idle _ := h.idle hreturned
  channel hfreed := absurd (h.channel (hstorage hfreed)) hreturned
  leaked := hleaked

theorem leaked_errorExit {rest : List Resource} (h : Creator.exiting errorExit = .exiting rest) :
    Resource.tpChannel ∉ rest := by
  cases h
  decide

theorem Consistent.allocate (h : Consistent s) {r : Resource} {rest : List Resource}
    (hcreator : s.creator = .allocating (r :: rest)) : Consistent (allocate answers r rest s) := by
  unfold Threadpool.allocate
  split
  · apply h.goto
    · exact Nat.zero_le _
    · rw [hcreator]
      rfl
    · exact Nat.zero_le _
    · simp [hcreator]
    · by_cases hr : Resource.tpChannel = r
      · simp [← hr]
      · rw [update_of_ne hr]
        exact id
    · simp
  · apply h.goto
    · split <;> exact Nat.zero_le _
    · rw [hcreator]
      exact Nat.zero_le _
    · split <;> exact Nat.zero_le _
    · simp [hcreator]
    · exact id
    · intro rest' hexiting
      split at hexiting
      · cases hexiting
      · exact leaked_errorExit hexiting

/-- The status of a thread that is absent is not seen. -/
theorem asCreated_spawn {i : Fin size} (habsent : s.threads i = .absent) :
    asCreated (spawn answers i s).threads (spawn answers i s).pool =
      asCreated s.threads s.pool := by
  unfold spawn
  split
  · apply asCreated_congr
    intro j
    by_cases hj : j = i
    · simp [hj, habsent]
    · simp [update_of_ne hj]
  · apply asCreated_congr
    intro j
    by_cases hj : j = i
    · simp [hj, habsent]
    · simp [update_of_ne hj]

theorem Consistent.spawn (h : Consistent s) {i : Fin size} (hcreator : s.creator = .spawning i) :
    Consistent (spawn answers i s) := by
  have habsent (j : Fin size) (hj : i ≤ j) : s.threads j = .absent := by
    apply h.absent
    rwa [hcreator]
  have hpool : Inv (asCreated (Threadpool.spawn answers i s).threads
      (Threadpool.spawn answers i s).pool) := by
    rw [asCreated_spawn (habsent i le_rfl)]
    exact h.pool
  have hreturned : s.creator ≠ .returned true := by simp [hcreator]
  have hlive := mt h.channel hreturned
  unfold Threadpool.spawn at hpool ⊢
  split at hpool
  · next hcreated =>
    rw [if_pos hcreated]
    refine ⟨hpool, fun j hj ↦ ?_, fun j hj ↦ ?_, fun j hj ↦ ?_, fun j hj ↦ ?_,
      fun _ ↦ h.idle hreturned, fun hfreed ↦ absurd hfreed hlive, by simp⟩
    · apply h.starting
      dsimp only at hj
      by_cases hji : j = i
      · simp [hji, habsent i le_rfl]
      · rwa [update_of_ne hji] at hj
    · dsimp only
      by_cases hji : j = i
      · simp [hji]
      · rw [update_of_ne hji]
        apply h.spawned
        rw [hcreator]
        exact Nat.lt_of_le_of_ne (Nat.le_of_lt_succ hj) (Fin.val_ne_of_ne hji)
    · have hle : (i : ℕ) + 1 ≤ j := hj
      dsimp only
      rw [update_of_ne (by rintro rfl; omega)]
      exact habsent j (Fin.le_def.2 (by omega))
    · exact absurd hj (Nat.not_lt_zero _)
  · next hcreated =>
    rw [if_neg hcreated]
    refine ⟨hpool, h.starting, fun j hj ↦ absurd hj (Nat.not_lt_zero _), fun j hj ↦ ?_,
      fun j hj ↦ absurd hj (Nat.not_lt_zero _), fun _ ↦ h.idle hreturned,
      fun hfreed ↦ absurd hfreed hlive, fun rest ↦ leaked_errorExit⟩
    exact absurd hj (Nat.not_le.2 j.isLt)

theorem Consistent.scan (h : Consistent s) {i : Fin size} (hcreator : s.creator = .scanning i) :
    Consistent (scan i s) := by
  have hspawned (j : Fin size) : s.threads j ≠ .absent := by
    apply h.spawned
    rw [hcreator]
    exact j.isLt
  unfold Threadpool.scan
  split
  · apply h.goto
    · rw [hcreator]
      rfl
    · rw [hcreator]
      rfl
    · exact Nat.zero_le _
    · simp [hcreator]
    · exact id
    · simp
  · next hset =>
    have hreturned : s.creator ≠ .returned true := by simp [hcreator]
    refine ⟨h.pool, h.starting, fun j _ ↦ hspawned j, fun j hj ↦ ?_, fun j hj ↦ ?_,
      fun _ ↦ h.idle hreturned, fun hfreed ↦ absurd hfreed (mt h.channel hreturned), by simp⟩
    · exact absurd hj (Nat.not_le.2 j.isLt)
    · by_cases hji : j = i
      · rw [hji]
        intro hstarting
        have hstatus := h.pool.status i
        simp only [asCreated, if_neg (hspawned i)] at hstatus
        rw [hstarting] at hstatus
        exact hset hstatus
      · apply h.scanned
        rw [hcreator]
        exact Nat.lt_of_le_of_ne (Nat.le_of_lt_succ hj) (Fin.val_ne_of_ne hji)

/-- Every thread is there, and every worker at work. -/
theorem Consistent.step_create (h : Consistent s) (hcreator : s.creator = .scanning size) :
    Step .create (asCreated s.threads s.pool)
      (asCreated (publish s).threads (publish s).pool) := by
  have hscanned (j : Fin size) : s.pool.workers j ≠ .starting := by
    apply h.scanned
    rw [hcreator]
    exact j.isLt
  refine Step.create (s := asCreated s.threads s.pool) fun i hi ↦ hscanned i ?_
  rw [h.pool.status i] at hi
  exact Worker.eq_starting_of_status hi

theorem Consistent.publish (h : Consistent s) (hcreator : s.creator = .scanning size) :
    Consistent (publish s) where
  pool := h.pool.step (h.step_create hcreator)
  starting := h.starting
  spawned i _ := by
    apply h.spawned
    rw [hcreator]
    exact i.isLt
  absent i hi := absurd hi (Nat.not_le.2 i.isLt)
  scanned i _ := by
    apply h.scanned
    rw [hcreator]
    exact i.isLt
  idle hreturned := absurd rfl hreturned
  channel _ := rfl
  leaked _ hexiting := by cases hexiting

theorem Consistent.free (h : Consistent s) {r : Resource} {rest : List Resource}
    (hcreator : s.creator = .exiting (r :: rest)) : Consistent (free r rest s) := by
  have hleaked := h.leaked _ hcreator
  rw [List.mem_cons, not_or] at hleaked
  obtain ⟨hr, hrest⟩ := hleaked
  apply h.goto
  · exact Nat.zero_le _
  · rw [hcreator]
    exact le_rfl
  · exact Nat.zero_le _
  · simp [hcreator]
  · split
    · rw [update_of_ne hr]
      exact id
    · exact id
  · intro rest' hexiting
    cases hexiting
    exact hrest

theorem asCreated_copy {i : Fin size} (hspawned : s.threads i = .spawned) :
    asCreated (update s.threads i .copied) s.pool = asCreated s.threads s.pool := by
  apply asCreated_congr
  intro j
  by_cases hj : j = i
  · simp [hj, hspawned]
  · rw [update_of_ne hj]

theorem Consistent.copy (h : Consistent s) {i : Fin size} (hspawned : s.threads i = .spawned) :
    Consistent { s with threads := update s.threads i .copied } where
  pool := by
    rw [asCreated_copy hspawned]
    exact h.pool
  starting j hj := by
    apply h.starting
    dsimp only at hj
    by_cases hji : j = i
    · simp [hji, hspawned]
    · rwa [update_of_ne hji] at hj
  spawned j hj := by
    dsimp only
    by_cases hji : j = i
    · simp [hji]
    · rw [update_of_ne hji]
      exact h.spawned j hj
  absent j hj := by
    have hji : j ≠ i := by
      rintro rfl
      cases hspawned.symm.trans (h.absent j hj)
    dsimp only
    rw [update_of_ne hji]
    exact h.absent j hj
  scanned := h.scanned
  idle := h.idle
  channel := h.channel
  leaked := h.leaked

/-- A section of the pool. -/
theorem Consistent.step_pool (h : Consistent s) {event : Event size} {pool : State size}
    (hevent : event ≠ .create) (hworker : ∀ i, event.worker = some i → s.threads i = .copied)
    (hstep : Step event s.pool pool) :
    Step event (asCreated s.threads s.pool) (asCreated s.threads pool) := by
  by_cases hcreator : s.creator = .returned true
  · have hspawned (i : Fin size) : s.threads i ≠ .absent := by
      apply h.spawned
      rw [hcreator]
      exact i.isLt
    rwa [asCreated_eq_self hspawned, asCreated_eq_self hspawned]
  · apply hstep.asCreated hevent (h.idle hcreator)
    intro i hi
    simp [hworker i hi]

theorem Consistent.pool_section (h : Consistent s) {event : Event size} {pool : State size}
    (hevent : event ≠ .create) (hworker : ∀ i, event.worker = some i → s.threads i = .copied)
    (hstep : Step event s.pool pool) : Consistent { s with pool } where
  pool := h.pool.step (h.step_pool hevent hworker hstep)
  starting i hi := (hstep.starting_iff i).2
    ⟨h.starting i hi, fun hevent ↦ hi (hworker i hevent)⟩
  spawned := h.spawned
  absent := h.absent
  scanned i hi hstarting := h.scanned i hi ((hstep.starting_iff i).1 hstarting).1
  idle hcreator := hstep.idle hevent (h.idle hcreator)
  channel := h.channel
  leaked := h.leaked

/-- **Every step keeps the invariant**, and is a step of the pool or hidden from it. -/
theorem Consistent.step (h : Consistent s) (hstep : Creating answers label s s') :
    Consistent s' ∧ (asCreated s'.threads s'.pool = asCreated s.threads s.pool ∨
      ∃ event, Step event (asCreated s.threads s.pool) (asCreated s'.threads s'.pool)) := by
  cases hstep with
  | @allocate _ r rest hcreator =>
    refine ⟨h.allocate hcreator, Or.inl ?_⟩
    unfold Threadpool.allocate
    split <;> rfl
  | allocated hcreator =>
    have hgoto : Consistent { s with creator := .spawning 0 } :=
      h.goto (Nat.zero_le _) (hcreator ▸ le_rfl) (Nat.zero_le _) (by simp [hcreator]) id (by simp)
    exact ⟨hgoto, Or.inl rfl⟩
  | @spawn _ i hcreator =>
    refine ⟨h.spawn hcreator, Or.inl (asCreated_spawn (h.absent i ?_))⟩
    rw [hcreator]
    exact le_rfl
  | spawned hcreator =>
    have hgoto : Consistent { s with creator := .scanning 0 } :=
      h.goto (hcreator ▸ le_rfl) (hcreator ▸ le_rfl) (Nat.zero_le _) (by simp [hcreator]) id
        (by simp)
    exact ⟨hgoto, Or.inl rfl⟩
  | scan hcreator => exact ⟨h.scan hcreator, Or.inl rfl⟩
  | publish hcreator => exact ⟨h.publish hcreator, Or.inr ⟨_, h.step_create hcreator⟩⟩
  | @free _ r rest hcreator => exact ⟨h.free hcreator, Or.inl rfl⟩
  | fail hcreator =>
    have hgoto : Consistent { s with creator := .returned false } :=
      h.goto (Nat.zero_le _) (hcreator ▸ le_rfl) (Nat.zero_le _) (by simp [hcreator]) id (by simp)
    exact ⟨hgoto, Or.inl rfl⟩
  | copy hspawned => exact ⟨h.copy hspawned, Or.inl (asCreated_copy hspawned)⟩
  | pool hevent hworker hstep =>
    exact ⟨h.pool_section hevent hworker hstep, Or.inr ⟨_, h.step_pool hevent hworker hstep⟩⟩

end

theorem consistent_call (size : ℕ) : Consistent (call size) where
  pool := inv_create size
  starting _ _ := rfl
  spawned _ hi := absurd hi (Nat.not_lt_zero _)
  absent _ _ := rfl
  scanned _ hi := absurd hi (Nat.not_lt_zero _)
  idle _ := ⟨rfl, rfl⟩
  channel hfreed := by cases hfreed
  leaked _ hexiting := by cases hexiting

/-- **A pool in creation is a reachable pool**, in every interleaving and with every failure. -/
theorem creation_refines {size : ℕ} {answers : Answers} {labels : List (Label (poolSize size))}
    {s : Creation (poolSize size)} (hrun : Run (Creating answers) labels (call size) s) :
    Consistent s ∧ ∃ events, Run Step events (create size) (asCreated s.threads s.pool) := by
  apply hrun.invariant fun s ↦
    Consistent s ∧ ∃ events, Run Step events (create size) (asCreated s.threads s.pool)
  · rintro label s s' ⟨hconsistent, events, hevents⟩ hstep
    obtain ⟨hconsistent', hhidden | ⟨event, hevent⟩⟩ := hconsistent.step hstep
    · refine ⟨hconsistent', events, ?_⟩
      rwa [hhidden]
    · exact ⟨hconsistent', events ++ [event], hevents.append (.cons hevent (.nil _))⟩
  · exact ⟨consistent_call size, [], .nil _⟩

/-- The pool that `create` returns. -/
theorem returned_refines {size : ℕ} {answers : Answers} {labels : List (Label (poolSize size))}
    {s : Creation (poolSize size)} (hrun : Run (Creating answers) labels (call size) s)
    (hreturned : s.creator = .returned true) : ∃ events, Run Step events (create size) s.pool := by
  obtain ⟨hconsistent, hevents⟩ := creation_refines hrun
  have hspawned (i : Fin (poolSize size)) : s.threads i ≠ .absent := by
    apply hconsistent.spawned
    rw [hreturned]
    exact i.isLt
  rwa [asCreated_eq_self hspawned] at hevents

/-- When `tp_channel` is freed every worker has copied its slot. -/
theorem Consistent.copied {s : Creation size} (h : Consistent s)
    (hfreed : s.storage .tpChannel = .freed) (i : Fin size) : s.threads i = .copied := by
  have hscanned : s.pool.workers i ≠ .starting := by
    apply h.scanned
    rw [h.channel hfreed]
    exact i.isLt
  by_contra hnot
  exact hscanned (h.starting i hnot)

end Zbaselib.Threadpool
