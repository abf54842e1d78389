import Zbaselib.Threadpool.Invariant

/-!
# Every accepted task is run once or freed

The history of a run says which tasks were accepted, which worker took and
finished which task, and which tasks `destroy` freed.
-/

namespace Zbaselib.Threadpool

open Memory Condition Function Transition
open scoped List

variable {size : ℕ}

def Event.accepted : Event size → List Task
  | .addtask threadFunc param ret => if ret = 0 then [⟨threadFunc, param⟩] else []
  | _ => []

def Event.dequeued : Event size → List (Fin size × Task)
  | .take i task => task.toList.map (i, ·)
  | _ => []

def Event.finished : Event size → List (Fin size × Task)
  | .finish i task => [(i, task)]
  | _ => []

def Event.freed : Event size → List Task
  | .release tasks => tasks
  | _ => []

/-- The tasks that `addtask` answered 0 for. -/
def accepted (events : List (Event size)) : List Task := events.flatMap Event.accepted

def dequeued (events : List (Event size)) : List (Fin size × Task) := events.flatMap Event.dequeued

def finished (events : List (Event size)) : List (Fin size × Task) := events.flatMap Event.finished

def freed (events : List (Event size)) : List Task := events.flatMap Event.freed

/-- What a worker is running. -/
def runningOf (s : State size) (i : Fin size) : List (Fin size × Task) :=
  (s.workers i).tasks.map (i, ·)

def running (s : State size) : List (Fin size × Task) :=
  (List.finRange size).flatMap (runningOf s)

/-- The part of one worker. -/
def ofWorker (i : Fin size) (tasks : List (Fin size × Task)) : List (Fin size × Task) :=
  tasks.filter (·.1 = i)

/-! ## One section -/

section

variable {s s' : State size} {event : Event size}

/-- What `take` takes from the queue is what the worker runs. -/
theorem take_spec (i : Fin size) (s : State size) :
    s.taskQueue = (take i s).1.toList ++ (take i s).2.taskQueue ∧
      ∃ w, (take i s).2.workers = update s.workers i w ∧ w.tasks = (take i s).1.toList := by
  unfold take
  split
  case isTrue => exact ⟨rfl, _, rfl, rfl⟩
  case isFalse =>
    split
    case h_1 head rest hqueue => exact ⟨hqueue, _, rfl, rfl⟩
    case h_2 => exact ⟨rfl, _, rfl, rfl⟩

theorem enter_spec (i : Fin size) (s : State size) :
    s.taskQueue = (enter i s).1.toList ++ (enter i s).2.taskQueue ∧
      ∃ w, (enter i s).2.workers = update s.workers i w ∧ w.tasks = (enter i s).1.toList := by
  unfold enter
  split
  case isTrue => exact ⟨rfl, _, rfl, rfl⟩
  case isFalse => exact take_spec i s

theorem addtask_spec (chosen : Fin size → Bool) (threadFunc param : Ptr) (s : State size) :
    (addtask chosen threadFunc param s).2.taskQueue = s.taskQueue ++
        (.addtask threadFunc param (addtask chosen threadFunc param s).1 : Event size).accepted ∧
      ∀ i, ((addtask chosen threadFunc param s).2.workers i).tasks = (s.workers i).tasks := by
  unfold addtask
  split
  case isTrue => simp [Event.accepted]
  split
  case isTrue => simp [Event.accepted]
  case isFalse => simp [Event.accepted]

theorem setStop_spec (finish : ℤ) (s : State size) :
    (setStop finish s).taskQueue = s.taskQueue ∧
      ∀ i, ((setStop finish s).workers i).tasks = (s.workers i).tasks := by
  refine ⟨rfl, fun i ↦ ?_⟩
  dsimp only [setStop, broadcast]
  exact tasks_wake

theorem drain_spec (s : State size) :
    (drain s).taskQueue = s.taskQueue ∧
      ∀ i, ((drain s).workers i).tasks = (s.workers i).tasks := by
  unfold drain
  split
  case isTrue => exact setStop_spec 1 s
  case isFalse => exact ⟨rfl, fun _ ↦ rfl⟩

theorem destroy_spec (finish : ℤ) (s : State size) :
    (destroy finish s).taskQueue = s.taskQueue ∧
      ∀ i, ((destroy finish s).workers i).tasks = (s.workers i).tasks := by
  unfold destroy
  split
  case isTrue => exact ⟨rfl, fun _ ↦ rfl⟩
  case isFalse =>
    split
    case isTrue => exact drain_spec s
    case isFalse => exact setStop_spec finish s

/-- The queue is first in, first out. -/
theorem Step.queue (hstep : Step event s s') :
    s.taskQueue ++ event.accepted =
      event.dequeued.map Prod.snd ++ (event.freed ++ s'.taskQueue) := by
  cases hstep with
  | enter => simpa [Event.accepted, Event.dequeued, Event.freed, comp_def]
    using (enter_spec _ s).1
  | resume => simpa [Event.accepted, Event.dequeued, Event.freed, comp_def]
    using (take_spec _ s).1
  | addtask chosen threadFunc param => exact (addtask_spec chosen threadFunc param s).1.symm
  | destroy finish => exact (List.append_nil _).trans (destroy_spec finish s).1.symm
  | drain => exact (List.append_nil _).trans (drain_spec s).1.symm
  | release => rfl
  | start | create | finish | spurious | status | join => exact List.append_nil _

theorem runningOf_congr {i : Fin size} (h : (s'.workers i).tasks = (s.workers i).tasks) :
    runningOf s' i = runningOf s i := by
  unfold runningOf
  rw [h]

theorem ofWorker_map (i j : Fin size) (tasks : List Task) :
    ofWorker j (tasks.map (i, ·)) = if j = i then tasks.map (i, ·) else [] := by
  unfold ofWorker
  split
  case isTrue hj => simp [hj]
  case isFalse hj => simp [Ne.symm hj]

/-- One worker goes on. -/
theorem runningOf_update {i : Fin size} {w : Worker} (h : s'.workers = update s.workers i w)
    (taken done : List Task) (hlaw : (s.workers i).tasks ++ taken = done ++ w.tasks)
    (j : Fin size) :
    runningOf s j ++ ofWorker j (taken.map (i, ·)) =
      ofWorker j (done.map (i, ·)) ++ runningOf s' j := by
  rw [ofWorker_map, ofWorker_map]
  unfold runningOf
  rw [h]
  by_cases hj : j = i
  · rw [if_pos hj, if_pos hj, hj, update_self, ← List.map_append, hlaw, List.map_append]
  · rw [if_neg hj, if_neg hj, update_of_ne hj, List.append_nil, List.nil_append]

/-- A worker finishes the task that it took last. -/
theorem Step.worker (hstep : Step event s s') (j : Fin size) :
    runningOf s j ++ ofWorker j event.dequeued = ofWorker j event.finished ++ runningOf s' j := by
  cases hstep with
  | @start _ i h =>
    apply runningOf_update (i := i) rfl [] []
    rw [h]
    rfl
  | create => exact List.append_nil _
  | @enter _ i h =>
    obtain ⟨-, w, hworkers, htasks⟩ := enter_spec i s
    apply runningOf_update hworkers _ []
    rw [h, htasks]
    rfl
  | @resume _ i h =>
    obtain ⟨-, w, hworkers, htasks⟩ := take_spec i s
    apply runningOf_update hworkers _ []
    rw [h, htasks]
    rfl
  | @finish _ i task h =>
    apply runningOf_update (i := i) rfl [] [task]
    rw [h]
    rfl
  | spurious => exact (List.append_nil _).trans (runningOf_congr tasks_wake).symm
  | addtask chosen threadFunc param =>
    exact (List.append_nil _).trans
      (runningOf_congr ((addtask_spec chosen threadFunc param s).2 j)).symm
  | destroy finish =>
    exact (List.append_nil _).trans (runningOf_congr ((destroy_spec finish s).2 j)).symm
  | drain => exact (List.append_nil _).trans (runningOf_congr ((drain_spec s).2 j)).symm
  | status | join | release => exact List.append_nil _

/-- Tasks are freed at the end of `destroy`. -/
theorem Step.freed (h : Inv s) (hstep : Step event s s') (hfreed : event.freed ≠ []) :
    s'.taskQueue = [] ∧ ∃ finish, finish ≠ 1 ∧ s'.destroyer = .returned finish := by
  cases hstep with
  | @release _ finish hjoining =>
    refine ⟨rfl, finish, ?_, rfl⟩
    rintro rfl
    exact hfreed (h.drained (by rw [hjoining]; rfl))
  | _ => exact absurd rfl hfreed

/-- Nothing happens after `destroy`. -/
theorem Step.returned (h : Inv s) (hstep : Step event s s') {finish : ℤ}
    (hreturned : s.destroyer = .returned finish) :
    event.accepted = [] ∧ event.dequeued = [] ∧ event.freed = [] ∧
      s'.destroyer = .returned finish := by
  have hended (i : Fin size) : s.workers i = .ended := by
    apply h.joined
    rw [hreturned]
    exact i.isLt
  cases hstep with
  | enter htop => simp [hended] at htop
  | resume hwoken => simp [hended] at hwoken
  | spurious chosen destroyer hdestroyer =>
    refine ⟨rfl, rfl, rfl, ?_⟩
    rw [hreturned] at hdestroyer
    rcases hdestroyer with rfl | rfl <;> rfl
  | addtask _ _ _ halive => exact absurd hreturned (halive.2 finish)
  | destroy _ halive => exact absurd hreturned (halive.2 finish)
  | drain hwaiting => simp [hreturned] at hwaiting
  | join hjoining => simp [hreturned] at hjoining
  | release hjoining => simp [hreturned] at hjoining
  | start | create | finish | status => exact ⟨rfl, rfl, rfl, hreturned⟩

end

/-! ## Whole runs -/

/-- What the history and the state say about each other. -/
structure Accounted (events : List (Event size)) (s : State size) : Prop where
  inv : Inv s
  order : accepted events = (dequeued events).map Prod.snd ++ s.taskQueue ++ freed events
  worker : ∀ i, ofWorker i (dequeued events) = ofWorker i (finished events) ++ runningOf s i
  freed : freed events ≠ [] → ∃ finish, finish ≠ 1 ∧ s.destroyer = .returned finish

theorem accounted_create (size : ℕ) : Accounted [] (create size) where
  inv := inv_create size
  order := rfl
  worker _ := rfl
  freed hfreed := absurd rfl hfreed

theorem Accounted.step {events : List (Event size)} {event : Event size} {s s' : State size}
    (h : Accounted events s) (hstep : Step event s s') : Accounted (events ++ [event]) s' := by
  have haccepted : accepted (events ++ [event]) = accepted events ++ event.accepted := by
    simp [accepted]
  have hdequeued : dequeued (events ++ [event]) = dequeued events ++ event.dequeued := by
    simp [dequeued]
  have hfinished : finished (events ++ [event]) = finished events ++ event.finished := by
    simp [finished]
  have hfreed : Threadpool.freed (events ++ [event]) = Threadpool.freed events ++ event.freed := by
    simp [Threadpool.freed]
  have hqueue := hstep.queue
  refine ⟨h.inv.step hstep, ?_, fun i ↦ ?_, fun hne ↦ ?_⟩
  · rw [haccepted, hdequeued, hfreed, h.order]
    by_cases hnone : Threadpool.freed events = []
    · have hgoal : (dequeued events).map Prod.snd ++ (s.taskQueue ++ event.accepted) =
          (dequeued events).map Prod.snd ++
            (event.dequeued.map Prod.snd ++ (s'.taskQueue ++ event.freed)) := by
        rw [hqueue]
        by_cases hevent : event.freed = []
        · rw [hevent, List.nil_append, List.append_nil]
        · rw [(hstep.freed h.inv hevent).1, List.append_nil, List.nil_append]
      simpa [hnone] using hgoal
    · -- tasks were freed before, so this step concerns none
      obtain ⟨finish, -, hreturned⟩ := h.freed hnone
      obtain ⟨hnoAccept, hnoDequeue, hnoFree, -⟩ := hstep.returned h.inv hreturned
      rw [hnoAccept, hnoDequeue, hnoFree] at hqueue
      simp only [List.append_nil, List.map_nil, List.nil_append] at hqueue
      rw [hnoAccept, hnoDequeue, hnoFree, hqueue]
      simp only [List.append_nil]
  · have hworker := hstep.worker i
    rw [hdequeued, hfinished]
    unfold ofWorker at hworker ⊢
    rw [List.filter_append, List.filter_append, List.append_assoc, ← hworker,
      ← List.append_assoc]
    exact congrArg (· ++ _) (h.worker i)
  · by_cases hnone : Threadpool.freed events = []
    · rw [hfreed, hnone, List.nil_append] at hne
      exact (hstep.freed h.inv hne).2
    · obtain ⟨finish, hfinish, hreturned⟩ := h.freed hnone
      exact ⟨finish, hfinish, (hstep.returned h.inv hreturned).2.2.2⟩

theorem accounted_of_run {size : ℕ} {events : List (Event (poolSize size))}
    {s : State (poolSize size)} (h : Run Step events (create size) s) : Accounted events s :=
  h.history Accounted (fun _ _ _ _ haccounted hstep ↦ haccounted.step hstep)
    (accounted_create size)

/-! ## Counting -/

/-- Lists of tasks with the same part for each worker hold the same tasks. -/
theorem perm_of_ofWorker {tasks tasks' : List (Fin size × Task)}
    (h : ∀ i, (ofWorker i tasks).Perm (ofWorker i tasks')) : tasks.Perm tasks' := by
  rw [List.perm_iff_count]
  intro task
  have hcount := List.perm_iff_count.1 (h task.1) task
  unfold ofWorker at hcount
  rwa [List.count_filter (by simp), List.count_filter (by simp)] at hcount

theorem ofWorker_flatMap (s : State size) (i : Fin size) {l : List (Fin size)} (h : l.Nodup) :
    ofWorker i (l.flatMap (runningOf s)) = if i ∈ l then runningOf s i else [] := by
  induction l with
  | nil => rfl
  | cons j l ih =>
    obtain ⟨hj, hl⟩ := List.nodup_cons.1 h
    have hhead : ofWorker i (runningOf s j) = if i = j then runningOf s j else [] :=
      ofWorker_map j i (s.workers j).tasks
    have hsplit : ofWorker i ((j :: l).flatMap (runningOf s)) =
        ofWorker i (runningOf s j) ++ ofWorker i (l.flatMap (runningOf s)) := by
      unfold ofWorker
      rw [List.flatMap_cons, List.filter_append]
    rw [hsplit, hhead, ih hl]
    by_cases hi : i = j
    · rw [if_pos hi, hi, if_neg hj, if_pos (List.mem_cons_self ..), List.append_nil]
    · rw [if_neg hi, List.nil_append]
      simp [hi]

theorem ofWorker_running (s : State size) (i : Fin size) :
    ofWorker i (running s) = runningOf s i := by
  unfold running
  rw [ofWorker_flatMap s i (List.nodup_finRange size), if_pos (List.mem_finRange i)]

/-- A worker that has begun is idle or runs one task. -/
theorem length_runningOf {s : State size} (h : Inv s) {i : Fin size}
    (hstarted : s.workers i ≠ .starting) :
    (runningOf s i).length = if s.thStatus i = 0 then 0 else 1 := by
  rw [h.status i]
  unfold runningOf
  cases hi : s.workers i with
  | starting => exact absurd hi hstarted
  | _ => rfl

/-- Every thread is idle or runs one task. -/
theorem status_add_running {s : State size} (h : Inv s) (hcreated : s.created = true) :
    status s + (running s).length = size := by
  have hcount (l : List (Fin size)) :
      l.countP (fun i ↦ s.thStatus i = 0) + (l.flatMap (runningOf s)).length = l.length := by
    induction l with
    | nil => rfl
    | cons i l ih =>
      rw [List.countP_cons, List.flatMap_cons, List.length_append, List.length_cons,
        length_runningOf h (h.created hcreated i)]
      by_cases hi : s.thStatus i = 0
      · simp only [hi, decide_true, if_true]
        omega
      · simp only [hi, decide_false, if_false, Bool.false_eq_true]
        omega
  exact (hcount _).trans List.length_finRange

/-! ## The claims of the pool to its clients -/

/-- `stop` stays set, and no task is accepted any more. -/
theorem Step.stopped {event : Event size} {s s' : State size} (hstep : Step event s s')
    (hstop : s.stop = true) : event.accepted = [] ∧ s'.stop = true := by
  cases hstep with
  | enter => exact ⟨rfl, by simp [Threadpool.enter, hstop]⟩
  | resume =>
    refine ⟨rfl, ?_⟩
    unfold Threadpool.take
    rw [if_neg (by simp [hstop])]
    split <;> exact hstop
  | addtask chosen threadFunc param =>
    have hrefused : Threadpool.addtask chosen threadFunc param s = (-1, s) := by
      unfold Threadpool.addtask
      rw [if_pos hstop, ite_self]
    rw [hrefused]
    exact ⟨rfl, hstop⟩
  | destroy finish =>
    refine ⟨rfl, ?_⟩
    rwa [Threadpool.destroy, if_pos hstop]
  | drain =>
    refine ⟨rfl, ?_⟩
    unfold Threadpool.drain
    split
    · rfl
    · exact hstop
  | _ => exact ⟨rfl, hstop⟩

/-- All accepted tasks are queued, running, finished or freed. -/
theorem Accounted.partition {events : List (Event size)} {s : State size}
    (h : Accounted events s) :
    (accepted events).Perm (s.taskQueue ++ (running s).map Prod.snd ++
      (finished events).map Prod.snd ++ Threadpool.freed events) := by
  have htaken : (dequeued events).Perm (finished events ++ running s) := by
    apply perm_of_ofWorker
    intro i
    have hsplit : ofWorker i (finished events ++ running s) =
        ofWorker i (finished events) ++ runningOf s i := by
      rw [← ofWorker_running s i]
      exact List.filter_append ..
    rw [hsplit, h.worker i]
  have hmap := htaken.map Prod.snd
  rw [List.map_append] at hmap
  rw [h.order]
  apply List.Perm.append_right
  calc (dequeued events).map Prod.snd ++ s.taskQueue
      _ ~ s.taskQueue ++ (dequeued events).map Prod.snd := List.perm_append_comm
      _ ~ s.taskQueue ++ ((finished events).map Prod.snd ++ (running s).map Prod.snd) :=
        hmap.append_left _
      _ ~ s.taskQueue ++ ((running s).map Prod.snd ++ (finished events).map Prod.snd) :=
        List.perm_append_comm.append_left _
      _ = s.taskQueue ++ (running s).map Prod.snd ++ (finished events).map Prod.snd :=
        (List.append_assoc ..).symm

/-- When `destroy` has returned no thread runs a task. -/
theorem running_eq_nil {s : State size} (h : Inv s) {finish : ℤ}
    (hreturned : s.destroyer = .returned finish) : running s = [] := by
  unfold running
  rw [List.flatMap_eq_nil_iff]
  intro i _
  have hended : s.workers i = .ended := by
    apply h.joined
    rw [hreturned]
    exact i.isLt
  rw [runningOf, hended]
  rfl

/-- **Every accepted task is queued, running, finished once or freed**, in every reachable state. -/
theorem tasks_accounted {size : ℕ} {events : List (Event (poolSize size))}
    {s : State (poolSize size)} (hrun : Run Step events (create size) s) :
    (accepted events).Perm (s.taskQueue ++ (running s).map Prod.snd ++
        (finished events).map Prod.snd ++ freed events) ∧
      accepted events = (dequeued events).map Prod.snd ++ s.taskQueue ++ freed events ∧
      (∀ i, ofWorker i (dequeued events) = ofWorker i (finished events) ++ runningOf s i) ∧
      (∀ i, runningOf s i ≠ [] ↔ s.thStatus i = 1) ∧
      (freed events ≠ [] → ∃ finish, finish ≠ 1 ∧ s.destroyer = .returned finish) ∧
      (∀ idleNum s', Step (.status idleNum) s s' →
        idleNum + (running s).length = poolSize size) ∧
      (s.stop = true → ∀ event s', Step event s s' → event.accepted = [] ∧ s'.stop = true) ∧
      (s.destroyer = .returned 1 → (accepted events).Perm ((finished events).map Prod.snd)) := by
  have h := accounted_of_run hrun
  refine ⟨h.partition, h.order, h.worker, fun i ↦ ?_, h.freed, fun idleNum s' hstep ↦ ?_,
    fun hstop event s' hstep ↦ hstep.stopped hstop, fun hreturned ↦ ?_⟩
  · rw [h.inv.status i]
    unfold runningOf
    cases s.workers i <;> simp [Worker.tasks, Worker.status]
  · cases hstep with
    | status halive => exact status_add_running h.inv halive.1
  · have hqueue : s.taskQueue = [] := h.inv.drained (by rw [hreturned]; rfl)
    have hfreed : freed events = [] := by
      by_contra hne
      obtain ⟨finish, hfinish, hreturned'⟩ := h.freed hne
      rw [hreturned] at hreturned'
      cases hreturned'
      exact hfinish rfl
    have hpartition := h.partition
    rw [hqueue, running_eq_nil h.inv hreturned, hfreed] at hpartition
    simpa using hpartition

/-- One worker, and a task that is accepted while it waits. -/
def drainEvents : List (Event (poolSize 1)) :=
  [.start ⟨0, by decide⟩, .create, .take ⟨0, by decide⟩ none, .addtask 5 6 0,
    .take ⟨0, by decide⟩ (some ⟨5, 6⟩), .destroy 1, .finish ⟨0, by decide⟩ ⟨5, 6⟩,
    .take ⟨0, by decide⟩ none, .join ⟨0, by decide⟩, .release []]

theorem drain_run : ∃ events s, Run Step events (create 1) s ∧ s.destroyer = .returned 1 ∧
    events = drainEvents :=
  ⟨_, _, .cons (.start (i := ⟨0, by decide⟩) rfl) <| .cons (.create (by decide)) <|
    .cons (.enter (i := ⟨0, by decide⟩) rfl) <|
    .cons (.addtask (fun _ ↦ true) 5 6 ⟨rfl, nofun⟩ fun _ ↦ ⟨⟨0, by decide⟩, rfl, rfl⟩) <|
    .cons (.resume (i := ⟨0, by decide⟩) rfl) <| .cons (.destroy 1 ⟨rfl, nofun⟩ (.inr rfl)) <|
    .cons (.finish (i := ⟨0, by decide⟩) rfl) <| .cons (.enter (i := ⟨0, by decide⟩) rfl) <|
    .cons (.join (i := ⟨0, by decide⟩) rfl rfl) <| .cons (.release rfl) <| .nil _, rfl, rfl⟩

theorem tasks_accounted_drain :
    (accepted drainEvents).Perm ((finished drainEvents).map Prod.snd) := by
  obtain ⟨events, s, hrun, hreturned, rfl⟩ := drain_run
  exact (tasks_accounted hrun).2.2.2.2.2.2.2 hreturned

end Zbaselib.Threadpool
