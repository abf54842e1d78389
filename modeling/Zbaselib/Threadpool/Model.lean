import Zbaselib.Lib.Condition
import Zbaselib.Lib.Memory

/-!
# The thread pool of `zbaselib_thread.c`

A step is a section with the mutex held.  Waiting on a condition variable ends
a section, and a thread with a pending wake-up begins the next one where it
waited.  Between its sections a worker runs the task that it took.
-/

namespace Zbaselib.Threadpool

open Memory Condition Function

def ZBASELIB_THREADPOOL_MAX : ℕ := 20

/-- `struct _zbaselib_threadpool_task` -/
structure Task where
  job : Ptr
  param : Ptr
  deriving DecidableEq

/-- Where a thread is in `zbaselib_threadpool_func`. -/
inductive Worker
  | starting
  | top
  | waiting (woken : Bool)
  | running (task : Task)
  | ended
  deriving DecidableEq

/-- Where the caller of `zbaselib_threadpool_destroy` is.  It waits only when `finish` is 1. -/
inductive Destroyer
  | outside
  | waiting (woken : Bool)
  | joining (finish : ℤ) (i : ℕ)
  | returned (finish : ℤ)
  deriving DecidableEq

/-- `struct _zbaselib_threadpool_t` and where its threads are. -/
structure State (size : ℕ) where
  thStatus : Fin size → ℤ
  taskQueue : List Task
  stop : Bool
  workers : Fin size → Worker
  created : Bool
  destroyer : Destroyer

/-- The size of a pool. -/
def poolSize (size : ℕ) : ℕ :=
  if size < ZBASELIB_THREADPOOL_MAX then size else ZBASELIB_THREADPOOL_MAX

/-- The pool in `create` when the last thread has been created. -/
def create (size : ℕ) : State (poolSize size) where
  thStatus := fun _ ↦ -1
  taskQueue := []
  stop := false
  workers := fun _ ↦ .starting
  created := false
  destroyer := .outside

/-- A signal of `task_not_empty`. -/
def Destroyer.wake : Destroyer → Destroyer
  | .waiting _ => .waiting true
  | d => d

variable {size : ℕ}

/-- Before the loop of `zbaselib_threadpool_func`. -/
def start (i : Fin size) (s : State size) : State size :=
  { s with thStatus := update s.thStatus i 0, workers := update s.workers i .top }

/-- From the wait loop to the unlock, and the task that was taken. -/
def take (i : Fin size) (s : State size) : Option Task × State size :=
  if s.stop = false ∧ s.taskQueue = [] then
    (none, { s with workers := update s.workers i (.waiting false) })
  else
    match s.taskQueue with
    | head :: rest =>
      (some head, { s with
        taskQueue := rest
        destroyer := if rest = [] then s.destroyer.wake else s.destroyer
        thStatus := update s.thStatus i 1
        workers := update s.workers i (.running head) })
    | [] => (none, { s with workers := update s.workers i .top })

/-- From the top of the loop. -/
def enter (i : Fin size) (s : State size) : Option Task × State size :=
  if s.stop then
    (none, { s with workers := update s.workers i .ended })
  else
    take i s

/-- The section after the task. -/
def finish (i : Fin size) (s : State size) : State size :=
  { s with thStatus := update s.thStatus i 0, workers := update s.workers i .top }

/-- `chosen` are the waiting workers that the signal reaches. -/
def addtask (chosen : Fin size → Bool) (threadFunc param : Ptr) (s : State size) :
    ℤ × State size :=
  if threadFunc = NULL then
    (-1, s)
  else if s.stop then
    (-1, s)
  else
    (0, { s with
      taskQueue := s.taskQueue ++ [⟨threadFunc, param⟩]
      workers := wake (.waiting false) (.waiting true) chosen s.workers })

def status (s : State size) : ℕ :=
  (List.finRange size).countP fun i ↦ s.thStatus i = 0

/-- The end of the section of `destroy`. -/
def setStop (finish : ℤ) (s : State size) : State size :=
  { s with
    stop := true
    workers := broadcast (.waiting false) (.waiting true) s.workers
    destroyer := .joining finish 0 }

/-- From the wait loop of `destroy`. -/
def drain (s : State size) : State size :=
  if s.taskQueue = [] then setStop 1 s else { s with destroyer := .waiting false }

def destroy (finish : ℤ) (s : State size) : State size :=
  if s.stop then
    s
  else if finish = 1 then
    drain s
  else
    setStop finish s

/-- After the threads are joined. -/
def release (finish : ℤ) (s : State size) : State size :=
  { s with taskQueue := [], destroyer := .returned finish }

/-- The pool is there for its clients. -/
def Alive (s : State size) : Prop :=
  s.created = true ∧ ∀ finish, s.destroyer ≠ .returned finish

/-- What a section does, seen from outside. -/
inductive Event (size : ℕ)
  | start (i : Fin size)
  | create
  | take (i : Fin size) (task : Option Task)
  | finish (i : Fin size) (task : Task)
  | spurious
  | addtask (threadFunc param : Ptr) (ret : ℤ)
  | status (idleNum : ℕ)
  | destroy (finish : ℤ)
  | drain
  | join (i : Fin size)
  | release (tasks : List Task)

/-- **The step relation.**  Only one thread waits in `destroy` or goes on after it. -/
inductive Step : Event size → State size → State size → Prop
  | start {s : State size} {i : Fin size} (h : s.workers i = .starting) :
      Step (.start i) s (start i s)
  | create {s : State size} (h : ∀ i, s.thStatus i ≠ -1) :
      Step .create s { s with created := true }
  | enter {s : State size} {i : Fin size} (h : s.workers i = .top) :
      Step (.take i (enter i s).1) s (enter i s).2
  | resume {s : State size} {i : Fin size} (h : s.workers i = .waiting true) :
      Step (.take i (take i s).1) s (take i s).2
  | finish {s : State size} {i : Fin size} {task : Task} (h : s.workers i = .running task) :
      Step (.finish i task) s (finish i s)
  | spurious {s : State size} (chosen : Fin size → Bool) (destroyer : Destroyer)
      (h : destroyer = s.destroyer ∨ destroyer = s.destroyer.wake) :
      Step .spurious s { s with
        workers := wake (.waiting false) (.waiting true) chosen s.workers, destroyer }
  | addtask {s : State size} (chosen : Fin size → Bool) (threadFunc param : Ptr) (h : Alive s)
      (hsignal : Signals (.waiting false) chosen s.workers) :
      Step (.addtask threadFunc param (addtask chosen threadFunc param s).1) s
        (addtask chosen threadFunc param s).2
  | status {s : State size} (h : Alive s) : Step (.status (status s)) s s
  | destroy {s : State size} (finish : ℤ) (h : Alive s)
      (hone : s.stop = true ∨ s.destroyer = .outside) :
      Step (.destroy finish) s (destroy finish s)
  | drain {s : State size} (h : s.destroyer = .waiting true) : Step .drain s (drain s)
  | join {s : State size} {finish : ℤ} {i : Fin size} (h : s.destroyer = .joining finish i)
      (hended : s.workers i = .ended) :
      Step (.join i) s { s with destroyer := .joining finish (i + 1) }
  | release {s : State size} {finish : ℤ} (h : s.destroyer = .joining finish size) :
      Step (.release s.taskQueue) s (release finish s)

end Zbaselib.Threadpool
