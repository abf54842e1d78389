import Zbaselib.Threadpool.Invariant

/-!
# The creation of a thread pool

A worker runs from the moment `zbaselib_threadpool_create` has created its
thread, while the creation of the next one can still fail.  Each access of the
creator to what the workers share is a step of its own.
-/

namespace Zbaselib.Threadpool

open Function Transition

/-- What `create` allocates. -/
inductive Resource
  | thiz
  | tid
  | thStatus
  | mutex
  | taskEmpty
  | taskNotEmpty
  | taskQueue
  | tpChannel
  deriving DecidableEq

inductive Storage
  | null
  | live
  | freed
  deriving DecidableEq

/-- Which calls succeed.  What else is allocated is not tested. -/
structure Answers where
  malloc : Bool
  mutexCreate : Bool
  taskEmptyCreate : Bool
  taskNotEmptyCreate : Bool
  listCreate : Bool
  threadCreate : ℕ → Bool

def Answers.creates (answers : Answers) : Resource → Bool
  | .thiz => answers.malloc
  | .mutex => answers.mutexCreate
  | .taskEmpty => answers.taskEmptyCreate
  | .taskNotEmpty => answers.taskNotEmptyCreate
  | .taskQueue => answers.listCreate
  | .tid | .thStatus | .tpChannel => true

/-- Where the caller of `create` is. -/
inductive Creator
  | allocating (rest : List Resource)
  | spawning (i : ℕ)
  | scanning (i : ℕ)
  | exiting (rest : List Resource)
  | returned (pool : Bool)
  deriving DecidableEq

/-- A thread before and after it has copied its slot of `tp_channel`. -/
inductive Thread
  | absent
  | spawned
  | copied
  deriving DecidableEq

/-- A pool in creation.  In `pool` a thread that is absent has yet to start. -/
structure Creation (size : ℕ) where
  pool : State size
  storage : Resource → Storage
  threads : Fin size → Thread
  creator : Creator

/-- The order of the allocations. -/
def allocations : List Resource :=
  [.thiz, .tid, .thStatus, .mutex, .taskEmpty, .taskNotEmpty, .taskQueue, .tpChannel]

/-- What `ERROR_EXIT` frees. -/
def errorExit : List Resource :=
  [.tid, .thStatus, .mutex, .taskEmpty, .taskNotEmpty, .taskQueue, .thiz]

/-- The call of `create`. -/
def call (size : ℕ) : Creation (poolSize size) where
  pool := { create size with thStatus := fun _ ↦ 0 }
  storage := fun _ ↦ .null
  threads := fun _ ↦ .absent
  creator := .allocating allocations

variable {size : ℕ}

def allocate (answers : Answers) (r : Resource) (rest : List Resource) (s : Creation size) :
    Creation size :=
  if answers.creates r then
    { s with storage := update s.storage r .live, creator := .allocating rest }
  else
    { s with creator := if r = .thiz then .returned false else .exiting errorExit }

/-- The body of the loop that creates the threads. -/
def spawn (answers : Answers) (i : Fin size) (s : Creation size) : Creation size :=
  let pool := { s.pool with thStatus := update s.pool.thStatus i (-1) }
  if answers.threadCreate i then
    { s with pool, threads := update s.threads i .spawned, creator := .spawning (i + 1) }
  else
    { s with pool, creator := .exiting errorExit }

/-- The body of the loop that waits for the workers. -/
def scan (i : Fin size) (s : Creation size) : Creation size :=
  { s with creator := if s.pool.thStatus i = -1 then .scanning 0 else .scanning (i + 1) }

/-- `tp_channel` is freed and the pool returned. -/
def publish (s : Creation size) : Creation size :=
  { s with
    storage := update s.storage .tpChannel .freed
    pool := { s.pool with created := true }
    creator := .returned true }

def free (r : Resource) (rest : List Resource) (s : Creation size) : Creation size :=
  { s with
    storage := if s.storage r = .live then update s.storage r .freed else s.storage
    creator := .exiting rest }

/-- The worker whose section it is. -/
def Event.worker : Event size → Option (Fin size)
  | .start i | .take i _ | .finish i _ => some i
  | _ => none

/-- What a worker reads or writes in a section. -/
def Event.touches : Event size → State size → List Resource
  | .start _, _ => [.thiz, .thStatus]
  | .take i _, s =>
    if s.workers i = .top ∧ s.stop = true then
      [.thiz, .mutex]
    else if s.stop = false ∧ s.taskQueue = [] then
      [.thiz, .mutex, .taskQueue, .taskEmpty]
    else
      match s.taskQueue with
      | [] => [.thiz, .mutex, .taskQueue]
      | [_] => [.thiz, .mutex, .taskQueue, .taskNotEmpty, .thStatus]
      | _ => [.thiz, .mutex, .taskQueue, .thStatus]
  | .finish _ _, _ => [.thiz, .mutex, .thStatus]
  | _, _ => []

inductive Label (size : ℕ)
  | creator
  | copy (i : Fin size)
  | pool (event : Event size)

def Label.touches : Label size → State size → List Resource
  | .creator, _ => []
  | .copy _, _ => [.tpChannel]
  | .pool event, s => event.touches s

/-- **The step relation of a pool in creation.**  Clients have no pool before `create` returns. -/
inductive Creating (answers : Answers) : Label size → Creation size → Creation size → Prop
  | allocate {s : Creation size} {r : Resource} {rest : List Resource}
      (h : s.creator = .allocating (r :: rest)) :
      Creating answers .creator s (allocate answers r rest s)
  | allocated {s : Creation size} (h : s.creator = .allocating []) :
      Creating answers .creator s { s with creator := .spawning 0 }
  | spawn {s : Creation size} {i : Fin size} (h : s.creator = .spawning i) :
      Creating answers .creator s (spawn answers i s)
  | spawned {s : Creation size} (h : s.creator = .spawning size) :
      Creating answers .creator s { s with creator := .scanning 0 }
  | scan {s : Creation size} {i : Fin size} (h : s.creator = .scanning i) :
      Creating answers .creator s (scan i s)
  | publish {s : Creation size} (h : s.creator = .scanning size) :
      Creating answers .creator s (publish s)
  | free {s : Creation size} {r : Resource} {rest : List Resource}
      (h : s.creator = .exiting (r :: rest)) :
      Creating answers .creator s (free r rest s)
  | fail {s : Creation size} (h : s.creator = .exiting []) :
      Creating answers .creator s { s with creator := .returned false }
  | copy {s : Creation size} {i : Fin size} (h : s.threads i = .spawned) :
      Creating answers (.copy i) s { s with threads := update s.threads i .copied }
  | pool {s : Creation size} {event : Event size} {pool : State size} (hevent : event ≠ .create)
      (h : ∀ i, event.worker = some i → s.threads i = .copied) (hstep : Step event s.pool pool) :
      Creating answers (.pool event) s { s with pool }

end Zbaselib.Threadpool
