import Zbaselib.Lib.Census
import Zbaselib.Lib.Transition

/-!
# The condition variable of `zbaselib_thread.c` on Windows

A condition variable is an event that stays set until it is reset, two counters
and a generation.  What a thread does with `cond->lock` held is one step, and so
is a system call between two such sections.  The counters are `int`s, and a run
is one in which they do not overflow.  The mutex of the caller is held once when
the caller waits.
-/

namespace Zbaselib.Win32Cond

open Census

def INT_MAX : ℤ := 2 ^ 31 - 1

def LLONG_MAX : ℤ := 2 ^ 63 - 1

/-- `DWORD` -/
def INFINITE : UInt32 := 0xffffffff

/-- `struct timeval` -/
structure Timeval where
  tvSec : ℤ
  tvUsec : ℤ
  deriving DecidableEq

def MAX_SECONDS_IN_MSEC_LLONG : ℤ := (LLONG_MAX - 999).tdiv 1000

/-- `zbaselib_tv_to_msec` -/
def tvToMsec (tv : Timeval) : ℤ :=
  if tv.tvUsec > 1000000 ∨ tv.tvSec > MAX_SECONDS_IN_MSEC_LLONG then
    -1
  else
    tv.tvSec * 1000 + (tv.tvUsec + 999).tdiv 1000

/-- `struct zbaselib_win32_cond` -/
structure Cond where
  event : Bool
  nWaiting : ℤ
  nToWake : ℤ
  generation : ℤ
  deriving DecidableEq

/-- `zbaselib_cond_create`, where nothing fails. -/
def create : Cond where
  event := false
  nWaiting := 0
  nToWake := 0
  generation := 0

/-- The section of `zbaselib_cond_signal`. -/
def signal (broadcast : Bool) (c : Cond) : Cond where
  event := true
  nWaiting := c.nWaiting
  nToWake := if broadcast then c.nWaiting else c.nToWake + 1
  generation := c.generation + 1

/-- The local variables of `zbaselib_cond_wait`. -/
structure Locals where
  generationAtStart : ℤ
  ms : UInt32
  msOrig : UInt32
  startTime : UInt32
  deriving DecidableEq

/-- What `WaitForSingleObject` answers. -/
inductive Waited
  | object
  | timeout
  | failed
  deriving DecidableEq

/-- Where a thread is in `zbaselib_cond_wait`: behind the first section; in the loop, before and
behind `WaitForSingleObject`; behind the loop; with the caller's mutex taken again. -/
inductive Thread
  | outside
  | entered (w : Locals)
  | waiting (w : Locals)
  | woken (w : Locals) (res : Waited)
  | left (result : ℤ)
  | returning (result : ℤ)
  deriving DecidableEq

/-- The first section of `zbaselib_cond_wait`. -/
def enter (tv : Option Timeval) (c : Cond) : Cond × Locals :=
  let ms := match tv with
    | some tv => UInt32.ofInt (tvToMsec tv)
    | none => INFINITE
  ({ c with nWaiting := c.nWaiting + 1 }, ⟨c.generation, ms, ms, 0⟩)

/-- The section in the loop, with the time that `GetTickCount` tells there. -/
def check (w : Locals) (res : Waited) (endTime : UInt32) (c : Cond) : Cond × Thread :=
  if c.nToWake ≠ 0 ∧ c.generation ≠ w.generationAtStart then
    ({ c with nToWake := c.nToWake - 1, nWaiting := c.nWaiting - 1 }, .left 0)
  else if res ≠ .object then
    ({ c with nWaiting := c.nWaiting - 1 }, .left (if res = .timeout then 1 else -1))
  else if w.ms ≠ INFINITE ∧ w.startTime + w.msOrig ≤ endTime then
    ({ c with nWaiting := c.nWaiting - 1 }, .left 1)
  else
    ({ c with event := if c.nToWake = 0 then false else c.event },
      .waiting { w with ms := if w.ms ≠ INFINITE then w.startTime + w.msOrig - endTime else w.ms })

/-- The last section. -/
def settle (c : Cond) : Cond :=
  { c with event := if c.nWaiting = 0 then false else c.event }

/-- The condition variable, who holds the caller's mutex, and where the threads are. -/
structure State (ι : Type) where
  cond : Cond
  lock : Option ι
  threads : ι → Thread

/-- What a thread does, seen from outside. -/
inductive Event (ι : Type)
  | lock (i : ι)
  | unlock (i : ι)
  | signal (i : ι) (broadcast : Bool)
  | enter (i : ι) (tv : Option Timeval)
  | leave (i : ι) (startTime : UInt32)
  | wake (i : ι) (res : Waited)
  | check (i : ι) (endTime : UInt32) (result : Option ℤ)
  | relock (i : ι)
  | return (i : ι) (result : ℤ)
  deriving DecidableEq

/-- What the section in the loop makes of a thread, as a result when it ends the loop. -/
def Thread.result : Thread → Option ℤ
  | .left result => some result
  | _ => none

variable {ι : Type} [DecidableEq ι]

/-- A thread moves. -/
def State.move (s : State ι) (c : Cond) (i : ι) (t : Thread) : State ι :=
  { s with cond := c, threads := Function.update s.threads i t }

@[simp]
theorem State.threads_move_self (s : State ι) (c : Cond) (i : ι) (t : Thread) :
    (s.move c i t).threads i = t := Function.update_self _ _ _

theorem State.threads_move_of_ne (s : State ι) (c : Cond) {i k : ι} (t : Thread) (h : k ≠ i) :
    (s.move c i t).threads k = s.threads k := Function.update_of_ne h _ _

/-- One step.  `WaitForSingleObject` answers that the object is there when the event is set, that
the time is over when there is a limit, and that it failed at any time. -/
inductive Step : Event ι → State ι → State ι → Prop
  | lock {s : State ι} {i : ι} (hplace : s.threads i = .outside) (hfree : s.lock = none) :
      Step (.lock i) s { s with lock := some i }
  | unlock {s : State ι} {i : ι} (hplace : s.threads i = .outside) (hlock : s.lock = some i) :
      Step (.unlock i) s { s with lock := none }
  | signal {s : State ι} {i : ι} {broadcast : Bool} (hplace : s.threads i = .outside)
      (hmax : s.cond.nToWake < INT_MAX ∧ s.cond.generation < INT_MAX) :
      Step (.signal i broadcast) s { s with cond := signal broadcast s.cond }
  | enter {s : State ι} {i : ι} {tv : Option Timeval} (hplace : s.threads i = .outside)
      (hlock : s.lock = some i) (hmax : s.cond.nWaiting < INT_MAX) :
      Step (.enter i tv) s (s.move (enter tv s.cond).1 i (.entered (enter tv s.cond).2))
  | leave {s : State ι} {i : ι} {w : Locals} {startTime : UInt32}
      (hplace : s.threads i = .entered w) :
      Step (.leave i startTime) s
        { s.move s.cond i (.waiting { w with startTime := startTime }) with lock := none }
  | wake {s : State ι} {i : ι} {w : Locals} {res : Waited} (hplace : s.threads i = .waiting w)
      (hobject : res = .object → s.cond.event = true)
      (htimeout : res = .timeout → w.ms ≠ INFINITE) :
      Step (.wake i res) s (s.move s.cond i (.woken w res))
  | check {s : State ι} {i : ι} {w : Locals} {res : Waited} {endTime : UInt32}
      {result : Option ℤ} (hplace : s.threads i = .woken w res)
      (hresult : (check w res endTime s.cond).2.result = result) :
      Step (.check i endTime result) s
        (s.move (check w res endTime s.cond).1 i (check w res endTime s.cond).2)
  | relock {s : State ι} {i : ι} {result : ℤ} (hplace : s.threads i = .left result)
      (hfree : s.lock = none) :
      Step (.relock i) s { s.move s.cond i (.returning result) with lock := some i }
  | return {s : State ι} {i : ι} {result : ℤ} (hplace : s.threads i = .returning result) :
      Step (.return i result) s (s.move (settle s.cond) i .outside)

/-- Nobody has called anything yet. -/
def State.start : State ι where
  cond := create
  lock := none
  threads := fun _ ↦ .outside

end Zbaselib.Win32Cond
