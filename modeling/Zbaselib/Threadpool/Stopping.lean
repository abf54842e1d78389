import Zbaselib.Threadpool.Accounting

/-!
# What still runs after `stop` is set

A worker looks at `stop` at the top of its loop and in the condition of its wait
loop.  One that leaves the wait loop goes on to take a task, whatever made it
leave.
-/

namespace Zbaselib.Threadpool

open Memory Condition Function Transition
open scoped List

variable {size : ℕ}

/-- After these events no task was taken from the queue that `stop` was set on.  When `destroy`
returns it has freed that queue, and what ran is what was taken before. -/
def StopsWork (queue : List Task) (before after : List (Event size)) (s : State size) : Prop :=
  dequeued after = [] ∧ ∀ finish, s.destroyer = .returned finish →
    freed (before ++ after) = queue ∧
      ((finished (before ++ after)).map Prod.snd).Perm ((dequeued before).map Prod.snd)

/-- There is nothing to take, or no worker in the wait loop to take it. -/
def Quiet (s : State size) : Prop :=
  s.taskQueue = [] ∨ ∀ i woken, s.workers i ≠ .waiting woken

section

variable {s s' : State size} {event : Event size} {i : Fin size} {chosen : Fin size → Bool}

/-- Who waits does not change by a wake-up. -/
theorem wake_waiting_iff : (∃ woken, wake (.waiting false) (.waiting true) chosen s.workers i =
    .waiting woken) ↔ ∃ woken, s.workers i = .waiting woken :=
  iff_of_eq (apply_wake (f := fun w ↦ ∃ woken, w = Worker.waiting woken) (by simp) i)

theorem Quiet.update (h : Quiet s) {w : Worker} (hw : ∀ woken, w ≠ .waiting woken)
    (thStatus : Fin size → ℤ) :
    Quiet { s with thStatus, workers := Function.update s.workers i w } := by
  apply h.imp_right
  intro hnone j woken
  dsimp only
  by_cases hj : j = i
  · rw [hj, update_self]
    exact hw woken
  · rw [update_of_ne hj]
    exact hnone j woken

theorem Quiet.wake (h : Quiet s) (chosen : Fin size → Bool) (destroyer : Destroyer) :
    Quiet { s with
      workers := wake (.waiting false) (.waiting true) chosen s.workers, destroyer } := by
  apply h.imp_right
  intro hnone j woken hwaiting
  obtain ⟨woken', hwaiting'⟩ := wake_waiting_iff.1 ⟨woken, hwaiting⟩
  exact hnone j woken' hwaiting'

theorem setStop_waiting_iff (finish : ℤ) : (∃ woken, (setStop finish s).workers i =
    .waiting woken) ↔ ∃ woken, s.workers i = .waiting woken :=
  @wake_waiting_iff size s i fun _ ↦ true

theorem quiet_setStop_iff (finish : ℤ) : Quiet (setStop finish s) ↔ Quiet s := by
  refine or_congr_right ?_
  constructor
  · intro hnone j woken hwaiting
    obtain ⟨woken', hwaiting'⟩ := (setStop_waiting_iff finish).2 ⟨woken, hwaiting⟩
    exact hnone j woken' hwaiting'
  · intro hnone j woken hwaiting
    obtain ⟨woken', hwaiting'⟩ := (setStop_waiting_iff finish).1 ⟨woken, hwaiting⟩
    exact hnone j woken' hwaiting'

@[simp]
theorem stop_take (i : Fin size) (s : State size) : (take i s).2.stop = s.stop := by
  unfold take
  split
  · rfl
  · split <;> rfl

@[simp]
theorem stop_enter (i : Fin size) (s : State size) : (enter i s).2.stop = s.stop := by
  unfold enter
  split
  · rfl
  · exact stop_take i s

@[simp]
theorem stop_addtask (threadFunc param : Ptr) :
    (addtask chosen threadFunc param s).2.stop = s.stop := by
  unfold addtask
  split
  · rfl
  · split <;> rfl

/-- The broadcast reaches every worker that waits. -/
theorem setStop_workers {woken : Bool} (hwaiting : s.workers i = .waiting woken) (finish : ℤ) :
    (setStop finish s).workers i = .waiting true := by
  change wake (.waiting false) (.waiting true) (fun _ ↦ true) s.workers i = .waiting true
  unfold Condition.wake
  cases woken with
  | false => exact if_pos ⟨hwaiting, rfl⟩
  | true => rw [if_neg (by simp [hwaiting]), hwaiting]

/-- Only the section of `destroy` sets `stop`. -/
theorem Step.sets_stop (hstep : Step event s s') (hgoing : s.stop = false)
    (hstop : s'.stop = true) :
    event.accepted = [] ∧ event.dequeued = [] ∧ ∃ finish, s' = setStop finish s := by
  have hdrain (hset : (Threadpool.drain s).stop = true) :
      ∃ finish, Threadpool.drain s = setStop finish s := by
    unfold Threadpool.drain at hset ⊢
    split
    · exact ⟨1, rfl⟩
    · next hqueue =>
      rw [if_neg hqueue] at hset
      exact absurd hset (by simp [hgoing])
  cases hstep with
  | destroy finish =>
    unfold Threadpool.destroy at hstop ⊢
    rw [if_neg (by simp [hgoing])] at hstop ⊢
    split
    · next hone =>
      rw [if_pos hone] at hstop
      exact ⟨rfl, rfl, hdrain hstop⟩
    · exact ⟨rfl, rfl, finish, rfl⟩
  | drain => exact ⟨rfl, rfl, hdrain hstop⟩
  | enter => exact absurd hstop (by simp [hgoing])
  | resume => exact absurd hstop (by simp [hgoing])
  | addtask => exact absurd hstop (by simp [hgoing])
  | start | create | finish | spurious | status | join | release =>
    exact absurd (hgoing.symm.trans hstop) (by decide)

/-- **When `stop` is set and it is quiet no section takes a task**, and it stays quiet. -/
theorem Quiet.step (h : Quiet s) (hstop : s.stop = true) (hstep : Step event s s') :
    event.dequeued = [] ∧ Quiet s' := by
  cases hstep with
  | start => exact ⟨rfl, h.update (by simp) _⟩
  | enter =>
    unfold enter
    rw [if_pos hstop]
    exact ⟨rfl, h.update (by simp) _⟩
  | @resume _ i hwoken =>
    have hqueue : s.taskQueue = [] := h.resolve_right fun hnone ↦ hnone i true hwoken
    unfold take
    rw [if_neg (by simp [hstop])]
    split
    · next head rest hcons =>
      rw [hqueue] at hcons
      cases hcons
    · exact ⟨rfl, Or.inl hqueue⟩
  | finish => exact ⟨rfl, h.update (by simp) _⟩
  | spurious chosen destroyer => exact ⟨rfl, h.wake chosen destroyer⟩
  | addtask chosen threadFunc param =>
    have hsame : (addtask chosen threadFunc param s).2 = s := by
      unfold addtask
      rw [if_pos hstop]
      split <;> rfl
    rw [hsame]
    exact ⟨rfl, h⟩
  | destroy finish =>
    unfold destroy
    rw [if_pos hstop]
    exact ⟨rfl, h⟩
  | drain =>
    refine ⟨rfl, ?_⟩
    unfold drain
    split
    · exact (quiet_setStop_iff 1).2 h
    · exact h
  | release => exact ⟨rfl, Or.inl rfl⟩
  | create | status | join => exact ⟨rfl, h⟩

/-- Every run after a quiet stop. -/
theorem Quiet.run {events : List (Event size)} (h : Quiet s) (hstop : s.stop = true)
    (hrun : Run Step events s s') : accepted events = [] ∧ dequeued events = [] := by
  induction hrun with
  | nil => exact ⟨rfl, rfl⟩
  | @cons event events s s₁ s' head tail ih =>
    obtain ⟨hdequeued, hquiet⟩ := h.step hstop head
    obtain ⟨haccepted, hstop'⟩ := head.stopped hstop
    obtain ⟨hacceptedRest, hdequeuedRest⟩ := ih hquiet hstop'
    constructor
    · unfold accepted at hacceptedRest ⊢
      rw [List.flatMap_cons, haccepted, hacceptedRest, List.nil_append]
    · unfold dequeued at hdequeuedRest ⊢
      rw [List.flatMap_cons, hdequeued, hdequeuedRest, List.nil_append]

/-- A worker that waits takes the first task whether `stop` is set or not. -/
theorem exists_take {head : Task} {rest : List Task} (hqueue : s.taskQueue = head :: rest)
    {woken : Bool} (hwaiting : s.workers i = .waiting woken) (finish : ℤ) :
    ∃ s', Step (.take i (some head)) (setStop finish s) s' := by
  have htaken : (take i (setStop finish s)).1 = some head := by
    unfold take
    rw [if_neg (by simp [setStop])]
    simp [setStop, hqueue]
  have hstep : Step _ (setStop finish s) _ := .resume (setStop_workers hwaiting finish)
  rw [htaken] at hstep
  exact ⟨_, hstep⟩

end

/-- What happens when `stop` is set and it is quiet. -/
theorem Quiet.stopsWork {size : ℕ} {before after : List (Event (poolSize size))}
    {event : Event (poolSize size)} {s₁ s : State (poolSize size)} {finish : ℤ} (h : Quiet s₁)
    (hrun : Run Step before (create size) s₁) (hstep : Step event s₁ (setStop finish s₁))
    (hevent : event.accepted = [] ∧ event.dequeued = []) (hgoing : s₁.stop = false)
    (hafter : Run Step after (setStop finish s₁) s) :
    StopsWork s₁.taskQueue before (event :: after) s := by
  have hbefore := accounted_of_run hrun
  have hall := accounted_of_run (hrun.append (.cons hstep hafter))
  have hquiet : Quiet (setStop finish s₁) := (quiet_setStop_iff finish).2 h
  obtain ⟨haccepted, hdequeued⟩ := hquiet.run rfl hafter
  have hnone : dequeued (event :: after) = [] := by
    unfold dequeued at hdequeued ⊢
    rw [List.flatMap_cons, hevent.2, hdequeued, List.nil_append]
  refine ⟨hnone, fun finish' hreturned ↦ ?_⟩
  have hacceptedAll : accepted (before ++ event :: after) = accepted before := by
    unfold accepted at haccepted ⊢
    rw [List.flatMap_append, List.flatMap_cons, hevent.1, haccepted, List.nil_append,
      List.append_nil]
  have hdequeuedAll : dequeued (before ++ event :: after) = dequeued before := by
    unfold dequeued at hnone ⊢
    rw [List.flatMap_append, hnone, List.append_nil]
  have hnoFreed : freed before = [] := by
    by_contra hne
    obtain ⟨finish'', -, hreturned'⟩ := hbefore.freed hne
    have hstopped := hbefore.inv.stop
    rw [hreturned', hgoing] at hstopped
    cases hstopped
  have hempty : s.taskQueue = [] := by
    apply hall.inv.drained
    rw [hreturned]
    rfl
  constructor
  · have horder := hall.order
    rw [hacceptedAll, hdequeuedAll, hbefore.order, hnoFreed, hempty, List.append_nil,
      List.append_nil] at horder
    exact (List.append_cancel_left horder).symm
  · have hworkers : (finished (before ++ event :: after)).Perm (dequeued before) := by
      apply perm_of_ofWorker
      intro i
      have hended : s.workers i = .ended := by
        apply hall.inv.joined
        rw [hreturned]
        exact i.isLt
      have hworker := hall.worker i
      rw [hdequeuedAll, runningOf, hended] at hworker
      rw [hworker]
      simp [Worker.tasks]
    exact hworkers.map Prod.snd

/-- **`stop` ends the work exactly when the queue is empty or no worker waits**, whatever the
threads do after it. -/
theorem stopsWork_iff {size : ℕ} {before : List (Event (poolSize size))}
    {event : Event (poolSize size)} {s₁ s₂ : State (poolSize size)}
    (hrun : Run Step before (create size) s₁) (hstep : Step event s₁ s₂)
    (hgoing : s₁.stop = false) (hstop : s₂.stop = true) :
    (∀ after s, Run Step after s₂ s → StopsWork s₁.taskQueue before (event :: after) s) ↔
      s₁.taskQueue = [] ∨ ∀ i woken, s₁.workers i ≠ .waiting woken := by
  obtain ⟨hnoAccept, hnoDequeue, finish, rfl⟩ := hstep.sets_stop hgoing hstop
  constructor
  · intro hall
    by_contra hno
    rw [not_or] at hno
    obtain ⟨hqueue, hsome⟩ := hno
    push Not at hsome
    obtain ⟨i, woken, hwaiting⟩ := hsome
    obtain ⟨head, rest, hcons⟩ := List.exists_cons_of_ne_nil hqueue
    -- the worker that waits goes on first
    obtain ⟨s', htake⟩ := exists_take hcons hwaiting finish
    have hnone := (hall [.take i (some head)] s' (.cons htake (.nil s'))).1
    unfold dequeued at hnone
    rw [List.flatMap_cons, List.append_eq_nil_iff] at hnone
    exact absurd hnone.2 (by simp [Event.dequeued])
  · intro hquiet after s hafter
    exact Quiet.stopsWork hquiet hrun hstep ⟨hnoAccept, hnoDequeue⟩ hgoing hafter

/-- The only worker runs the first of two tasks when `stop` is set. -/
theorem busy_run : ∃ before event, ∃ s₁ s₂ : State (poolSize 1), Run Step before (create 1) s₁ ∧
    Step event s₁ s₂ ∧ s₁.stop = false ∧ s₂.stop = true ∧ s₁.taskQueue = [⟨7, 8⟩] ∧
      ∀ i, s₁.workers i = .running ⟨5, 6⟩ :=
  ⟨_, _, _, _, .cons (.start (i := ⟨0, by decide⟩) rfl) <| .cons (.create (by decide)) <|
    .cons (.enter (i := ⟨0, by decide⟩) rfl) <|
    .cons (.addtask (fun _ ↦ true) 5 6 ⟨rfl, nofun⟩ fun ⟨i, hi⟩ ↦ ⟨i, hi, rfl⟩) <|
    .cons (.resume (i := ⟨0, by decide⟩) rfl) <|
    .cons (.addtask (fun _ ↦ true) 7 8 ⟨rfl, nofun⟩ fun ⟨i, hi⟩ ↦ ⟨i, hi, rfl⟩) <| .nil _,
    .destroy 0 ⟨rfl, nofun⟩ (.inr rfl), rfl, rfl, rfl, by decide⟩

theorem stopsWork_iff_busy : ∃ before event, ∃ s₁ s₂ : State (poolSize 1),
    Run Step before (create 1) s₁ ∧ Step event s₁ s₂ ∧ s₂.stop = true ∧
      s₁.taskQueue = [⟨7, 8⟩] ∧
        ∀ after s, Run Step after s₂ s → StopsWork [⟨7, 8⟩] before (event :: after) s := by
  obtain ⟨before, event, s₁, s₂, hrun, hstep, hgoing, hstop, hqueue, hbusy⟩ := busy_run
  refine ⟨before, event, s₁, s₂, hrun, hstep, hstop, hqueue, ?_⟩
  have hnone (i : Fin (poolSize 1)) (woken : Bool) : s₁.workers i ≠ .waiting woken := by
    rw [hbusy i]
    exact nofun
  have hall := (stopsWork_iff hrun hstep hgoing hstop).2 (Or.inr hnone)
  rwa [hqueue] at hall

/-- A task is accepted before, and the worker has not come to it. -/
def overtakenEvents : List (Event (poolSize 1)) :=
  [.start ⟨0, Nat.one_pos⟩, .create, .take ⟨0, Nat.one_pos⟩ none, .addtask 5 6 0]

theorem overtaken_run : ∃ before event after, ∃ s₁ s₂ s : State (poolSize 1),
    Run Step before (create 1) s₁ ∧ Step event s₁ s₂ ∧ Run Step after s₂ s ∧ s₁.stop = false ∧
      s₂.stop = true ∧ s₁.taskQueue = [⟨5, 6⟩] ∧ before = overtakenEvents ∧ event = .destroy 0 ∧
        after = [.take ⟨0, by decide⟩ (some ⟨5, 6⟩)] :=
  ⟨_, _, _, _, _, _, .cons (.start (i := ⟨0, by decide⟩) rfl) <| .cons (.create (by decide)) <|
    .cons (.enter (i := ⟨0, by decide⟩) rfl) <|
    .cons (.addtask (fun _ ↦ true) 5 6 ⟨rfl, nofun⟩ fun _ ↦ ⟨⟨0, by decide⟩, rfl, rfl⟩) <|
    .nil _, .destroy 0 ⟨rfl, nofun⟩ (.inr rfl), .cons (.resume (i := ⟨0, by decide⟩) rfl) <|
    .nil _, rfl, rfl, rfl, rfl, rfl, rfl⟩

theorem not_stopsWork_overtaken : ∃ s₁ s₂ s : State (poolSize 1),
    Run Step overtakenEvents (create 1) s₁ ∧ Step (.destroy 0) s₁ s₂ ∧ s₁.stop = false ∧
      s₂.stop = true ∧ s₁.taskQueue = [⟨5, 6⟩] ∧
      Run Step [.take ⟨0, by decide⟩ (some ⟨5, 6⟩)] s₂ s ∧
      ¬StopsWork s₁.taskQueue overtakenEvents
        (.destroy 0 :: [.take ⟨0, by decide⟩ (some ⟨5, 6⟩)]) s := by
  obtain ⟨before, event, after, s₁, s₂, s, hrun, hstep, hafter, hgoing, hstop, hqueue, rfl, rfl,
    rfl⟩ := overtaken_run
  refine ⟨s₁, s₂, s, hrun, hstep, hgoing, hstop, hqueue, hafter, fun hstops ↦ ?_⟩
  exact absurd hstops.1 (by decide)

end Zbaselib.Threadpool
