import Zbaselib.Threadpool.Model
import Zbaselib.Lib.Transition

/-!
# What holds in every state of a thread pool
-/

namespace Zbaselib.Threadpool

open Memory Condition Function Transition

/-- What `th_status` says about a worker. -/
def Worker.status : Worker → ℤ
  | .starting => -1
  | .running _ => 1
  | _ => 0

/-- The task that a worker took and has not finished. -/
def Worker.tasks : Worker → List Task
  | .running task => [task]
  | _ => []

/-- The caller of `destroy` has set `stop`. -/
def Destroyer.stopped : Destroyer → Bool
  | .joining _ _ | .returned _ => true
  | _ => false

/-- The caller of `destroy` has waited for an empty queue, or emptied it. -/
def Destroyer.drained : Destroyer → Bool
  | .joining finish _ => finish = 1
  | .returned _ => true
  | _ => false

/-- How many threads the caller of `destroy` has joined. -/
def Destroyer.joined (size : ℕ) : Destroyer → ℕ
  | .joining _ i => i
  | .returned _ => size
  | _ => 0

variable {size : ℕ}

/-- The fields agree with where the threads are. -/
structure Inv (s : State size) : Prop where
  status : ∀ i, s.thStatus i = (s.workers i).status
  created : s.created = true → ∀ i, s.workers i ≠ .starting
  ended : ∀ i, s.workers i = .ended → s.stop = true
  stop : s.stop = s.destroyer.stopped
  joined : ∀ i : Fin size, i < s.destroyer.joined size → s.workers i = .ended
  drained : s.destroyer.drained = true → s.taskQueue = []

/-! ## Wake-ups change nothing else -/

@[simp]
theorem stopped_wake (d : Destroyer) : d.wake.stopped = d.stopped := by
  cases d <;> rfl

@[simp]
theorem drained_wake (d : Destroyer) : d.wake.drained = d.drained := by
  cases d <;> rfl

@[simp]
theorem joined_wake (d : Destroyer) : d.wake.joined size = d.joined size := by
  cases d <;> rfl

theorem stopped_of_drained {d : Destroyer} (h : d.drained = true) : d.stopped = true := by
  cases d with
  | joining => rfl
  | returned => rfl
  | outside => cases h
  | waiting => cases h

section

variable {s s' : State size} {chosen : Fin size → Bool} {i : Fin size}

@[simp]
theorem status_wake :
    (wake (.waiting false) (.waiting true) chosen s.workers i).status = (s.workers i).status :=
  apply_wake (f := Worker.status) (by rfl) i

@[simp]
theorem tasks_wake :
    (wake (.waiting false) (.waiting true) chosen s.workers i).tasks = (s.workers i).tasks :=
  apply_wake (f := Worker.tasks) (by rfl) i

@[simp]
theorem wake_eq_starting :
    wake (.waiting false) (.waiting true) chosen s.workers i = .starting ↔
      s.workers i = .starting :=
  iff_of_eq (apply_wake (f := (· = Worker.starting)) (by simp) i)

@[simp]
theorem wake_eq_ended :
    wake (.waiting false) (.waiting true) chosen s.workers i = .ended ↔ s.workers i = .ended :=
  iff_of_eq (apply_wake (f := (· = Worker.ended)) (by simp) i)

/-! ## Sections -/

/-- A worker goes on and sets its status. -/
theorem Inv.update (h : Inv s) {w : Worker} (hnot : s.workers i ≠ .ended) (hw : w ≠ .starting)
    (hended : w = .ended → s.stop = true) {thStatus : Fin size → ℤ}
    (hstatus : ∀ j, thStatus j = (Function.update s.workers i w j).status) :
    Inv { s with thStatus, workers := Function.update s.workers i w } where
  status := hstatus
  created hcreated j := by
    dsimp only
    by_cases hj : j = i
    · rw [hj, update_self]
      exact hw
    · rw [update_of_ne hj]
      exact h.created hcreated j
  ended j hj := by
    dsimp only at hj
    by_cases hji : j = i
    · rw [hji, update_self] at hj
      exact hended hj
    · rw [update_of_ne hji] at hj
      exact h.ended j hj
  stop := h.stop
  joined j hj := by
    have hji : j ≠ i := by
      rintro rfl
      exact hnot (h.joined _ hj)
    dsimp only
    rw [update_of_ne hji]
    exact h.joined j hj
  drained := h.drained

theorem update_status (h : ∀ j, s.thStatus j = (s.workers j).status) (w : Worker) (j : Fin size) :
    Function.update s.thStatus i w.status j = (Function.update s.workers i w j).status := by
  by_cases hj : j = i
  · rw [hj, update_self, update_self]
  · rw [update_of_ne hj, update_of_ne hj, h j]

theorem keep_status (h : ∀ j, s.thStatus j = (s.workers j).status) {w : Worker}
    (hw : w.status = (s.workers i).status) (j : Fin size) :
    s.thStatus j = (Function.update s.workers i w j).status := by
  by_cases hj : j = i
  · rw [hj, update_self, hw, h i]
  · rw [update_of_ne hj, h j]

/-- The queue and the signal to the caller of `destroy`. -/
theorem Inv.queue (h : Inv s) {taskQueue : List Task} {destroyer : Destroyer}
    (hqueue : s.destroyer.drained = true → taskQueue = [])
    (hdestroyer : destroyer = s.destroyer ∨ destroyer = s.destroyer.wake) :
    Inv { s with taskQueue, destroyer } := by
  rcases hdestroyer with rfl | rfl
  · exact ⟨h.status, h.created, h.ended, h.stop, h.joined, hqueue⟩
  · refine ⟨h.status, h.created, h.ended, ?_, ?_, ?_⟩
    · simpa using h.stop
    · simpa using h.joined
    · simpa using hqueue

/-- Pending wake-ups. -/
theorem Inv.wake (h : Inv s) (chosen : Fin size → Bool) :
    Inv { s with workers := wake (.waiting false) (.waiting true) chosen s.workers } where
  status i := by simpa using h.status i
  created hcreated i := by simpa using h.created hcreated i
  ended i hi := h.ended i (wake_eq_ended.1 hi)
  stop := h.stop
  joined i hi := wake_eq_ended.2 (h.joined i hi)
  drained := h.drained

theorem Inv.start (h : Inv s) (hstarting : s.workers i = .starting) : Inv (start i s) :=
  h.update (by simp [hstarting]) (by simp) (by simp) (update_status h.status .top)

theorem Inv.finish (h : Inv s) {task : Task} (hrunning : s.workers i = .running task) :
    Inv (finish i s) :=
  h.update (by simp [hrunning]) (by simp) (by simp) (update_status h.status .top)

theorem Inv.take (h : Inv s) (hidle : (s.workers i).status = 0) (hnot : s.workers i ≠ .ended) :
    Inv (take i s).2 := by
  unfold Threadpool.take
  split
  case isTrue =>
    exact h.update hnot (by simp) (by simp) (keep_status h.status hidle.symm)
  case isFalse =>
    split
    case h_1 head rest hqueue =>
      have hupdate := h.update (w := .running head) hnot (by simp) (by simp)
        (update_status h.status _)
      refine hupdate.queue (fun hdrained ↦ ?_) ?_
      · rw [h.drained hdrained] at hqueue
        cases hqueue
      · split
        · exact .inr rfl
        · exact .inl rfl
    case h_2 =>
      exact h.update hnot (by simp) (by simp) (keep_status h.status hidle.symm)

theorem Inv.enter (h : Inv s) (htop : s.workers i = .top) : Inv (enter i s).2 := by
  unfold Threadpool.enter
  split
  case isTrue hstop =>
    exact h.update (by simp [htop]) (by simp) (fun _ ↦ hstop)
      (keep_status h.status (by simp [htop, Worker.status]))
  case isFalse => exact h.take (by simp [htop, Worker.status]) (by simp [htop])

theorem Inv.addtask (h : Inv s) (threadFunc param : Ptr) :
    Inv (addtask chosen threadFunc param s).2 := by
  unfold Threadpool.addtask
  split
  · exact h
  split
  · exact h
  case isFalse hstop =>
    refine (h.wake chosen).queue (fun hdrained ↦ ?_) (.inl rfl)
    rw [h.stop, stopped_of_drained hdrained] at hstop
    exact absurd rfl hstop

theorem Inv.setStop (h : Inv s) {finish : ℤ} (hqueue : finish = 1 → s.taskQueue = []) :
    Inv (setStop finish s) where
  status := (h.wake fun _ ↦ true).status
  created := (h.wake fun _ ↦ true).created
  ended _ _ := rfl
  stop := rfl
  joined i hi := absurd hi (Nat.not_lt_zero i)
  drained hdrained := hqueue (of_decide_eq_true hdrained)

theorem Inv.drain (h : Inv s) (hstop : s.stop = false) : Inv (drain s) := by
  unfold Threadpool.drain
  split
  case isTrue hqueue => exact h.setStop fun _ ↦ hqueue
  case isFalse =>
    exact ⟨h.status, h.created, h.ended, hstop, fun i hi ↦ absurd hi (Nat.not_lt_zero i), nofun⟩

theorem Inv.destroy (h : Inv s) (finish : ℤ) : Inv (destroy finish s) := by
  unfold Threadpool.destroy
  split
  case isTrue => exact h
  case isFalse hstop =>
    have hstop' : s.stop = false := eq_false_of_ne_true hstop
    split
    case isTrue => exact h.drain hstop'
    case isFalse hfinish => exact h.setStop fun hone ↦ absurd hone hfinish

theorem Inv.join (h : Inv s) {finish : ℤ} (hjoining : s.destroyer = .joining finish i)
    (hended : s.workers i = .ended) :
    Inv { s with destroyer := .joining finish (i + 1) } where
  status := h.status
  created := h.created
  ended := h.ended
  stop := by
    have hstop := h.stop
    rwa [hjoining] at hstop
  joined j hj := by
    have hjoined := h.joined j
    rw [hjoining] at hjoined
    rcases Nat.lt_succ_iff_lt_or_eq.1 hj with hlt | heq
    · exact hjoined hlt
    · rwa [Fin.ext heq]
  drained := by
    have hdrained := h.drained
    rwa [hjoining] at hdrained

theorem Inv.release (h : Inv s) {finish : ℤ} (hjoining : s.destroyer = .joining finish size) :
    Inv (release finish s) where
  status := h.status
  created := h.created
  ended := h.ended
  stop := by
    have hstop := h.stop
    rwa [hjoining] at hstop
  joined := by
    have hjoined := h.joined
    rwa [hjoining] at hjoined
  drained _ := rfl

theorem not_stop_of_waiting (h : Inv s) {woken : Bool} (hwaiting : s.destroyer = .waiting woken) :
    s.stop = false := by
  rw [h.stop, hwaiting]
  rfl

/-- **Every section keeps the invariant.** -/
theorem Inv.step {event : Event size} (h : Inv s) (hstep : Step event s s') : Inv s' := by
  cases hstep with
  | start hstarting => exact h.start hstarting
  | create hall =>
    refine ⟨h.status, fun _ i hi ↦ hall i ?_, h.ended, h.stop, h.joined, h.drained⟩
    rw [h.status i, hi]
    rfl
  | enter htop => exact h.enter htop
  | resume hwoken => exact h.take (by simp [hwoken, Worker.status]) (by simp [hwoken])
  | finish hrunning => exact h.finish hrunning
  | spurious chosen destroyer hdestroyer =>
    exact (h.wake chosen).queue h.drained hdestroyer
  | addtask chosen threadFunc param => exact h.addtask threadFunc param
  | status => exact h
  | destroy finish => exact h.destroy finish
  | drain hwaiting => exact h.drain (not_stop_of_waiting h hwaiting)
  | join hjoining hended => exact h.join hjoining hended
  | release hjoining => exact h.release hjoining

end

theorem inv_create (size : ℕ) : Inv (create size) where
  status _ := rfl
  created hcreated := by cases hcreated
  ended _ hended := by cases hended
  stop := rfl
  joined _ hi := absurd hi (Nat.not_lt_zero _)
  drained _ := rfl

/-- **The invariant holds in every reachable state.** -/
theorem inv_of_run {size : ℕ} {events : List (Event (poolSize size))} {s : State (poolSize size)}
    (h : Run Step events (create size) s) : Inv s :=
  h.invariant Inv (fun _ _ _ hinv hstep ↦ hinv.step hstep) (inv_create size)

end Zbaselib.Threadpool
