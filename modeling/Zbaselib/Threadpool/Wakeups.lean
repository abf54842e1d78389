import Zbaselib.Threadpool.Model
import Zbaselib.Lib.Transition

/-!
# No wake-up is lost

A thread waits without a pending wake-up only while what it waits for has not
happened.
-/

namespace Zbaselib.Threadpool

open Memory Condition Function Transition

variable {size : ℕ}

structure NoLostWakeup (s : State size) : Prop where
  taskEmpty : s.stop = false → s.taskQueue ≠ [] → ∃ i, s.workers i ≠ .waiting false
  taskNotEmpty : s.destroyer = .waiting false → s.taskQueue ≠ []
  stop : s.stop = true → ∀ i, s.workers i ≠ .waiting false

section

variable {s s' : State size} {i : Fin size} {chosen : Fin size → Bool}

/-- A worker that goes on does not wait. -/
theorem update_ne_waiting {w : Worker} (hw : w ≠ .waiting false)
    (h : ∀ j, s.workers j ≠ .waiting false) (j : Fin size) :
    update s.workers i w j ≠ .waiting false := by
  by_cases hj : j = i
  · rw [hj, update_self]
    exact hw
  · rw [update_of_ne hj]
    exact h j

/-- A worker goes on and leaves the queue alone. -/
theorem NoLostWakeup.update (h : NoLostWakeup s) {w : Worker} (hw : w ≠ .waiting false)
    (thStatus : Fin size → ℤ) :
    NoLostWakeup { s with thStatus, workers := Function.update s.workers i w } where
  taskEmpty _ _ := by
    refine ⟨i, ?_⟩
    dsimp only
    rwa [update_self]
  taskNotEmpty := h.taskNotEmpty
  stop hstop := update_ne_waiting hw (h.stop hstop)

theorem NoLostWakeup.wake (h : NoLostWakeup s) (chosen : Fin size → Bool) :
    NoLostWakeup { s with workers := wake (.waiting false) (.waiting true) chosen s.workers } where
  taskEmpty hstop hqueue := by
    obtain ⟨i, hi⟩ := h.taskEmpty hstop hqueue
    exact ⟨i, wake_ne_blocked (by simp) hi⟩
  taskNotEmpty := h.taskNotEmpty
  stop hstop i := wake_ne_blocked (by simp) (h.stop hstop i)

theorem wake_ne_waiting (d : Destroyer) : d.wake ≠ .waiting false := by
  cases d <;> simp [Destroyer.wake]

theorem NoLostWakeup.take (h : NoLostWakeup s) : NoLostWakeup (take i s).2 := by
  unfold Threadpool.take
  split
  case isTrue hempty =>
    -- only a worker that saw an empty queue waits
    obtain ⟨hstop, hqueue⟩ := hempty
    exact ⟨fun _ hne ↦ absurd hqueue hne, h.taskNotEmpty,
      fun hstop' ↦ absurd (hstop.symm.trans hstop') (by decide)⟩
  case isFalse =>
    split
    case h_1 head rest hqueue =>
      have hupdate :
          NoLostWakeup { s with workers := Function.update s.workers i (.running head) } :=
        h.update (by simp) s.thStatus
      refine ⟨fun _ _ ↦ ⟨i, by simp⟩, fun hwaiting hrest ↦ ?_, hupdate.stop⟩
      dsimp only at hwaiting hrest
      rw [if_pos hrest] at hwaiting
      exact wake_ne_waiting _ hwaiting
    case h_2 => exact h.update (by simp) _

theorem NoLostWakeup.enter (h : NoLostWakeup s) : NoLostWakeup (enter i s).2 := by
  unfold Threadpool.enter
  split
  case isTrue => exact h.update (by simp) _
  case isFalse => exact h.take

theorem NoLostWakeup.addtask [Nonempty (Fin size)] (h : NoLostWakeup s)
    (hsignal : Signals (.waiting false) chosen s.workers) (threadFunc param : Ptr) :
    NoLostWakeup (addtask chosen threadFunc param s).2 := by
  unfold Threadpool.addtask
  split
  case isTrue => exact h
  split
  case isTrue => exact h
  case isFalse hstop =>
    exact ⟨fun _ _ ↦ exists_ne_blocked (by simp) hsignal, fun _ ↦ by simp, (h.wake chosen).stop⟩

theorem NoLostWakeup.setStop (s : State size) (finish : ℤ) : NoLostWakeup (setStop finish s) where
  taskEmpty hstop := by cases hstop
  taskNotEmpty hwaiting := by cases hwaiting
  stop _ i := broadcast_ne_blocked (by simp) i

theorem NoLostWakeup.drain (h : NoLostWakeup s) : NoLostWakeup (drain s) := by
  unfold Threadpool.drain
  split
  case isTrue => exact .setStop s 1
  case isFalse hqueue => exact ⟨h.taskEmpty, fun _ ↦ hqueue, h.stop⟩

theorem NoLostWakeup.destroy (h : NoLostWakeup s) (finish : ℤ) :
    NoLostWakeup (destroy finish s) := by
  unfold Threadpool.destroy
  split
  case isTrue => exact h
  case isFalse =>
    split
    case isTrue => exact h.drain
    case isFalse => exact .setStop s finish

/-- **Every section keeps the wake-ups.** -/
theorem NoLostWakeup.step [Nonempty (Fin size)] {event : Event size} (h : NoLostWakeup s)
    (hstep : Step event s s') : NoLostWakeup s' := by
  cases hstep with
  | start => exact h.update (by simp) _
  | create => exact ⟨h.taskEmpty, h.taskNotEmpty, h.stop⟩
  | enter => exact h.enter
  | resume => exact h.take
  | finish => exact h.update (by simp) _
  | spurious chosen destroyer hdestroyer =>
    have hwake := h.wake chosen
    refine ⟨hwake.taskEmpty, fun hwaiting ↦ ?_, hwake.stop⟩
    rcases hdestroyer with rfl | rfl
    · exact h.taskNotEmpty hwaiting
    · exact absurd hwaiting (wake_ne_waiting _)
  | addtask chosen threadFunc param _ hsignal => exact h.addtask hsignal threadFunc param
  | status => exact h
  | destroy finish => exact h.destroy finish
  | drain => exact h.drain
  | join => exact ⟨h.taskEmpty, nofun, h.stop⟩
  | release => exact ⟨fun _ hqueue ↦ absurd rfl hqueue, nofun, h.stop⟩

end

theorem noLostWakeup_create (size : ℕ) : NoLostWakeup (create size) where
  taskEmpty _ hqueue := absurd rfl hqueue
  taskNotEmpty := nofun
  stop := nofun

theorem nonempty_threads {size : ℕ} (h : 1 ≤ size) : Nonempty (Fin (poolSize size)) := by
  refine ⟨⟨0, ?_⟩⟩
  unfold poolSize ZBASELIB_THREADPOOL_MAX
  split <;> omega

/-- **No wake-up is lost** in any state that a pool with a worker can reach. -/
theorem no_lost_wakeup {size : ℕ} (hsize : 1 ≤ size) {events : List (Event (poolSize size))}
    {s : State (poolSize size)} (hrun : Run Step events (create size) s) :
    ¬(s.stop = false ∧ s.taskQueue ≠ [] ∧ ∀ i, s.workers i = .waiting false) ∧
      ¬(s.destroyer = .waiting false ∧ s.taskQueue = []) ∧
      ¬(s.stop = true ∧ ∃ i, s.workers i = .waiting false) := by
  have := nonempty_threads hsize
  have h : NoLostWakeup s :=
    hrun.invariant NoLostWakeup (fun _ _ _ hinv hstep ↦ hinv.step hstep) (noLostWakeup_create size)
  refine ⟨?_, ?_, ?_⟩
  · rintro ⟨hstop, hqueue, hall⟩
    obtain ⟨i, hi⟩ := h.taskEmpty hstop hqueue
    exact hi (hall i)
  · rintro ⟨hwaiting, hqueue⟩
    exact h.taskNotEmpty hwaiting hqueue
  · rintro ⟨hstop, i, hi⟩
    exact h.stop hstop i hi

/-- A worker that waits when a task is accepted. -/
theorem signal_run : ∃ events s, Run Step events (create 1) s ∧ s.stop = false ∧
    s.taskQueue = [⟨5, 6⟩] :=
  ⟨_, _, .cons (.start (i := ⟨0, by decide⟩) rfl) <| .cons (.create (by decide)) <|
    .cons (.enter (i := ⟨0, by decide⟩) rfl) <|
    .cons (.addtask (fun _ ↦ true) 5 6 ⟨rfl, nofun⟩ fun _ ↦ ⟨⟨0, by decide⟩, rfl, rfl⟩) <|
    .nil _, rfl, rfl⟩

theorem no_lost_wakeup_signal : ∃ events s, Run Step events (create 1) s ∧
    s.taskQueue = [⟨5, 6⟩] ∧ ¬∀ i, s.workers i = .waiting false := by
  obtain ⟨events, s, hrun, hstop, hqueue⟩ := signal_run
  refine ⟨events, s, hrun, hqueue, fun hall ↦ ?_⟩
  exact (no_lost_wakeup (by decide) hrun).1 ⟨hstop, by simp [hqueue], hall⟩

end Zbaselib.Threadpool
