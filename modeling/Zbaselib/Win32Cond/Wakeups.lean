import Zbaselib.Win32Cond.Invariant

/-!
# No wake-up is lost

A thread that waits when a signal comes is awake until some thread has been given
a wake-up.  After a broadcast there is a wake-up for each thread that waited, as
long as no signal comes: a signal notifies the threads that came later too, and
they may take the wake-ups of the broadcast.
-/

namespace Zbaselib.Win32Cond

open Census Transition

variable {ι : Type} {s s' : State ι}

/-- The thread, if it is still in the loop, is not asleep, and finds its wake-up when it looks. -/
def Awake (i : ι) (s : State ι) : Prop :=
  ∀ w, (s.threads i).locals = some w →
    s.cond.event = true ∧ ∀ res endTime, (Win32Cond.check w res endTime s.cond).2 = .left 0

/-- There is a wake-up, and the thread is notified if it is still in the loop. -/
def Reached (i : ι) (s : State ι) : Prop :=
  ∀ w, (s.threads i).locals = some w → 0 < s.cond.nToWake ∧ w.generationAtStart < s.cond.generation

section

variable [DecidableEq ι]

/-- A thread that did not enter again has the generation it had. -/
theorem Step.generationAtStart {event : Event ι} (hstep : Step event s s') {i : ι}
    (hno : ∀ tv, event ≠ .enter i tv) {w' : Locals} (hw' : (s'.threads i).locals = some w') :
    ∃ w, (s.threads i).locals = some w ∧ w.generationAtStart = w'.generationAtStart := by
  have hmove {k : ι} (c : Cond) (t : Thread) (h : ((s.move c k t).threads i).locals = some w')
      (hlocals : ∀ w', t.locals = some w' →
        ∃ w, (s.threads k).locals = some w ∧ w.generationAtStart = w'.generationAtStart) :
      ∃ w, (s.threads i).locals = some w ∧ w.generationAtStart = w'.generationAtStart := by
    by_cases hik : i = k
    · subst hik
      rw [State.threads_move_self] at h
      exact hlocals w' h
    · rw [State.threads_move_of_ne _ _ _ hik] at h
      exact ⟨w', h, rfl⟩
  cases hstep with
  | lock | unlock | signal => exact ⟨w', hw', rfl⟩
  | @enter _ k tv hplace hlock hmax =>
    by_cases hik : i = k
    · exact absurd rfl (hik ▸ hno tv)
    · rw [State.threads_move_of_ne _ _ _ hik] at hw'
      exact ⟨w', hw', rfl⟩
  | @leave _ k w startTime hplace =>
    refine hmove s.cond (.waiting { w with startTime := startTime }) hw' ?_
    rintro _ ⟨⟩
    exact ⟨w, by rw [hplace]; rfl, rfl⟩
  | @wake _ k w res hplace hobject htimeout =>
    refine hmove _ _ hw' ?_
    rintro _ ⟨⟩
    exact ⟨w, by rw [hplace]; rfl, rfl⟩
  | @check _ k w res endTime result hplace hresult =>
    refine hmove _ _ hw' fun w'' hw'' ↦ ⟨w, by rw [hplace]; rfl, ?_⟩
    rcases check_cases w res endTime s.cond with
      ⟨-, -, hcheck⟩ | ⟨-, ⟨_, -, hcheck⟩ | ⟨ms, hcheck⟩⟩
    · rw [hcheck] at hw''
      exact nomatch hw''
    · rw [hcheck] at hw''
      exact nomatch hw''
    · rw [hcheck] at hw''
      cases hw''
      rfl
  | @relock _ k result hplace hfree =>
    exact hmove s.cond (.returning result) hw' fun _ hw ↦ nomatch hw
  | @«return» _ k result hplace => exact hmove (settle s.cond) .outside hw' fun _ hw ↦ nomatch hw

/-- The generation only changes with a signal. -/
theorem Step.generation_le {event : Event ι} (hstep : Step event s s') :
    s.cond.generation ≤ s'.cond.generation := by
  cases hstep with
  | signal => exact Int.le_add_one (Int.le_refl _)
  | @check _ i w res endTime result hplace hresult =>
    rcases check_cases w res endTime s.cond with
      ⟨-, -, hcheck⟩ | ⟨-, ⟨_, -, hcheck⟩ | ⟨ms, hcheck⟩⟩ <;> rw [hcheck] <;> exact Int.le_refl _
  | lock | unlock | enter | leave | wake | relock | «return» => exact Int.le_refl _

/-- Runs in which the thread does not enter. -/
theorem generationAtStart_of_run {events : List (Event ι)} (hrun : Run Step events s s') {i : ι}
    (hno : ∀ tv, .enter i tv ∉ events) {w' : Locals} (hw' : (s'.threads i).locals = some w') :
    ∃ w, (s.threads i).locals = some w ∧ w.generationAtStart = w'.generationAtStart := by
  induction hrun with
  | nil => exact ⟨w', hw', rfl⟩
  | cons head _ ih =>
    obtain ⟨w, hw, heq⟩ := ih (fun tv htv ↦ hno tv (List.mem_cons_of_mem _ htv)) hw'
    obtain ⟨w₀, hw₀, heq₀⟩ := head.generationAtStart
      (fun tv h ↦ hno tv (h ▸ List.mem_cons_self)) hw
    exact ⟨w₀, hw₀, heq₀.trans heq⟩

/-- Only a signal begins a new generation. -/
theorem Step.generation_eq {event : Event ι} (hstep : Step event s s')
    (hno : ∀ k broadcast, event ≠ .signal k broadcast) :
    s'.cond.generation = s.cond.generation := by
  cases hstep with
  | @signal _ k broadcast => exact absurd rfl (hno k broadcast)
  | @check _ i w res endTime result hplace hresult =>
    rcases check_cases w res endTime s.cond with
      ⟨-, -, hcheck⟩ | ⟨-, ⟨_, -, hcheck⟩ | ⟨ms, hcheck⟩⟩ <;> rw [hcheck] <;> rfl
  | lock | unlock | enter | leave | wake | relock | «return» => rfl

theorem generation_eq_of_run {events : List (Event ι)} (hrun : Run Step events s s')
    (hno : ∀ k broadcast, .signal k broadcast ∉ events) :
    s'.cond.generation = s.cond.generation := by
  induction hrun with
  | nil => rfl
  | cons head _ ih =>
    rw [ih fun k broadcast hk ↦ hno k broadcast (List.mem_cons_of_mem _ hk),
      head.generation_eq fun k broadcast h ↦ hno k broadcast (h ▸ List.mem_cons_self)]

/-- What a section in the loop that ends with 0 has seen and done. -/
theorem Step.of_given {i : ι} {endTime : UInt32} (hstep : Step (.check i endTime (some 0)) s s') :
    ∃ w, (s.threads i).locals = some w ∧ s.cond.generation ≠ w.generationAtStart ∧
      s'.cond.nToWake = s.cond.nToWake - 1 := by
  generalize hevent : Event.check i endTime (some 0) = event at hstep
  cases hstep with
  | @check _ k w res time result hplace hresult =>
    injection hevent with hi htime hzero
    subst hi
    rw [← hzero] at hresult
    refine ⟨w, by rw [hplace]; rfl, ?_⟩
    rcases check_cases w res time s.cond with
      ⟨-, hne, hcheck⟩ | ⟨-, ⟨result', hne, hcheck⟩ | ⟨ms, hcheck⟩⟩
    · rw [hcheck]
      exact ⟨hne, rfl⟩
    · rw [hcheck] at hresult
      exact absurd (Option.some_inj.1 hresult) hne
    · rw [hcheck] at hresult
      exact nomatch hresult
  | lock | unlock | signal | enter | leave | wake | relock | «return» => exact nomatch hevent

/-- **No thread is woken for nothing**: a wait that ends with 0 has seen a signal that came after
it began. -/
theorem signal_of_given {s₀ s₁ s₂ s₃ : State ι} {i : ι} {tv : Option Timeval} {endTime : UInt32}
    {during : List (Event ι)} (henter : Step (.enter i tv) s₀ s₁) (hrun : Run Step during s₁ s₂)
    (hno : ∀ tv, .enter i tv ∉ during) (hgiven : Step (.check i endTime (some 0)) s₂ s₃) :
    ∃ k broadcast, .signal k broadcast ∈ during := by
  obtain ⟨w₂, hw₂, hne, -⟩ := hgiven.of_given
  obtain ⟨w₁, hw₁, heq⟩ := generationAtStart_of_run hrun hno hw₂
  have hstart : w₁.generationAtStart = s₁.cond.generation := by
    cases henter with
    | enter hplace hlock hmax =>
      rw [State.threads_move_self] at hw₁
      cases hw₁
      rfl
  by_contra hnone
  push Not at hnone
  exact hne (by rw [generation_eq_of_run hrun hnone, ← hstart, heq])

/-- A wait gets its wake-up. -/
def Event.gives : Event ι → Bool
  | .check _ _ result => result = some 0
  | _ => false

def Event.signals : Event ι → Bool
  | .signal _ _ => true
  | _ => false

theorem Step.nToWake_add {event : Event ι} (hstep : Step event s s')
    (hno : ∀ k, event ≠ .signal k true) :
    s'.cond.nToWake + event.gives.toNat = s.cond.nToWake + event.signals.toNat := by
  cases hstep with
  | @signal _ k broadcast =>
    cases broadcast with
    | true => exact absurd rfl (hno k)
    | false =>
      exact Int.add_zero (s.cond.nToWake + 1)
  | @check _ k w res endTime result hplace hresult =>
    have hgives : (Event.check k endTime result).gives = decide (result = some 0) := rfl
    have hsignals : (Event.check k endTime result).signals = false := rfl
    rw [hgives, hsignals, ← hresult]
    rcases check_cases w res endTime s.cond with
      ⟨-, -, hcheck⟩ | ⟨-, ⟨result', hne, hcheck⟩ | ⟨ms, hcheck⟩⟩
    · rw [hcheck]
      exact (sub_add_cancel s.cond.nToWake 1).trans (Int.add_zero _).symm
    · have hfalse : decide ((Thread.left result').result = some 0) = false :=
        decide_eq_false fun h ↦ hne (Option.some_inj.1 h)
      rw [hcheck, hfalse]
      rfl
    · rw [hcheck]
      rfl
  | lock | unlock | enter | leave | wake | relock | «return» => rfl

/-- **Without broadcasts every signal is a wake-up that was given or is there to be given.** -/
theorem given_add_nToWake {events : List (Event ι)} (hrun : Run Step events State.start s)
    (hno : ∀ k, .signal k true ∉ events) :
    events.countP Event.gives + s.cond.nToWake = events.countP Event.signals := by
  have hstep (events : List (Event ι)) (s s' : State ι) (hrun : Run Step events s s')
      (hno : ∀ k, .signal k true ∉ events) :
      events.countP Event.gives + s'.cond.nToWake =
        s.cond.nToWake + events.countP Event.signals := by
    induction hrun with
    | nil => exact Int.add_comm _ _
    | @cons event events s s' s'' head _ ih =>
      have hrest := ih fun k hk ↦ hno k (List.mem_cons_of_mem _ hk)
      have hhead := head.nToWake_add fun k h ↦ hno k (h ▸ List.mem_cons_self)
      rw [List.countP_cons, List.countP_cons]
      cases hgives : event.gives <;> cases hsignals : event.signals <;>
        rw [hgives, hsignals] at hhead <;> simp at hhead ⊢ <;> omega
  rw [hstep events _ s hrun hno]
  exact Int.zero_add _

end

/-- The first of two threads begins to wait. -/
def oneEnters : State (Fin 2) where
  cond := ⟨false, 1, 0, 0⟩
  lock := some 0
  threads := Function.update (fun _ ↦ .outside) 0 (.entered ⟨0, INFINITE, INFINITE, 0⟩)

/-- It waits. -/
def oneWaits : State (Fin 2) where
  cond := ⟨false, 1, 0, 0⟩
  lock := none
  threads := Function.update oneEnters.threads 0 (.waiting ⟨0, INFINITE, INFINITE, 7⟩)

/-- A signal has come, and it is about to look. -/
def oneWoken : State (Fin 2) where
  cond := ⟨true, 1, 1, 1⟩
  lock := none
  threads := Function.update oneWaits.threads 0 (.woken ⟨0, INFINITE, INFINITE, 7⟩ .object)

theorem oneEnters_step :
    Step (.enter 0 none) ({ State.start with lock := some 0 } : State (Fin 2)) oneEnters :=
  .enter rfl rfl (by decide)

theorem oneWaits_run :
    Run Step [.lock 0, .enter 0 none, .leave 0 7] (State.start : State (Fin 2)) oneWaits :=
  .cons (.lock rfl rfl) (.cons oneEnters_step (.cons (.leave rfl) (.nil _)))

theorem oneWoken_run :
    Run Step [.leave 0 7, .signal 1 false, .wake 0 .object] oneEnters oneWoken :=
  .cons (.leave rfl) (.cons (.signal rfl (by decide))
    (.cons (.wake rfl (fun _ ↦ rfl) nofun) (.nil _)))

theorem signal_of_given_one : ∃ (k : Fin 2) (broadcast : Bool),
    .signal k broadcast ∈
      ([.leave 0 7, .signal 1 false, .wake 0 .object] : List (Event (Fin 2))) := by
  have hgiven : Step (.check 0 9 (some 0)) oneWoken _ := .check rfl rfl
  exact signal_of_given oneEnters_step oneWoken_run (by simp) hgiven

/-- Two signals come while a thread waits, and it takes one of the two wake-ups. -/
def oneOfTwo : List (Event (Fin 2)) :=
  [.lock 0, .enter 0 none, .leave 0 7, .signal 1 false, .signal 1 false, .wake 0 .object,
    .check 0 9 (some 0)]

theorem given_add_nToWake_one : ∃ s : State (Fin 2),
    Run Step oneOfTwo State.start s ∧ s.cond.nToWake = 1 ∧
      oneOfTwo.countP Event.gives + s.cond.nToWake = oneOfTwo.countP Event.signals := by
  have hrun : Run Step oneOfTwo State.start _ :=
    .cons (.lock rfl rfl) (.cons oneEnters_step (.cons (.leave rfl)
      (.cons (.signal rfl (by decide)) (.cons (.signal rfl (by decide))
        (.cons (.wake rfl (fun _ ↦ rfl) nofun) (.cons (.check rfl rfl) (.nil _)))))))
  exact ⟨_, hrun, rfl, given_add_nToWake hrun (by decide)⟩

section

variable [Fintype ι]

theorem Reached.awake (h : Invariant s) {i : ι} (hreached : Reached i s) : Awake i s := by
  intro w hw
  obtain ⟨hpos, hlt⟩ := hreached w hw
  refine ⟨h.event_of_notified hpos i ?_, fun res endTime ↦ ?_⟩
  · rw [Thread.notified, hw]
    exact decide_eq_true hlt.ne
  · rw [Win32Cond.check, if_pos ⟨hpos.ne', hlt.ne'⟩]

variable [DecidableEq ι]

/-- **The counter is right, a notified thread does not sleep while there are wake-ups, and one
thread at most believes to hold the mutex.** -/
theorem counted_of_run {events : List (Event ι)} (hrun : Run Step events State.start s) :
    s.cond.nWaiting = census Thread.registered s.threads ∧ 0 ≤ s.cond.nToWake ∧
      (0 < s.cond.nToWake → ∀ i, (s.threads i).notified s.cond.generation = true →
        s.cond.event = true) ∧
      ∀ i, (s.threads i).holds = true → s.lock = some i ∧
        ∀ k, (s.threads k).holds = true → k = i := by
  have h := invariant_run hrun
  refine ⟨h.nWaiting_eq, h.nToWake_nonneg, h.event_of_notified, fun i hi ↦ ?_⟩
  have hlock := h.lock_of_holds i hi
  refine ⟨hlock, fun k hk ↦ ?_⟩
  have hk' := h.lock_of_holds k hk
  rw [hlock, Option.some_inj] at hk'
  exact hk'.symm

theorem counted_of_run_one : oneWaits.cond.nWaiting = census Thread.registered oneWaits.threads :=
  (counted_of_run oneWaits_run).1

/-- A signal reaches every thread in the loop. -/
theorem reached_signal (h : Invariant s) {k : ι} {broadcast : Bool}
    (hstep : Step (.signal k broadcast) s s') (i : ι) : Reached i s' := by
  cases hstep with
  | signal hplace hmax =>
    intro w hw
    have hwake := h.nToWake_nonneg
    have hpos : 0 < s.cond.nWaiting := h.nWaiting_pos (by rw [Thread.registered, hw]; rfl)
    refine ⟨?_, Int.lt_add_one_of_le (h.generation_le i w hw)⟩
    dsimp only [signal]
    split <;> omega

/-- A wake-up stays until it is given to a thread. -/
theorem Reached.step (h : Invariant s) {i : ι} (hreached : Reached i s) {event : Event ι}
    (hstep : Step event s s') (hno : ∀ tv, event ≠ .enter i tv)
    (hgiven : ∀ k endTime, event ≠ .check k endTime (some 0)) : Reached i s' := by
  intro w' hw'
  obtain ⟨w, hw, heq⟩ := hstep.generationAtStart hno hw'
  obtain ⟨hpos, hlt⟩ := hreached w hw
  rw [← heq]
  refine ⟨?_, hlt.trans_le hstep.generation_le⟩
  have hwaiting : 0 < s.cond.nWaiting := h.nWaiting_pos (by rw [Thread.registered, hw]; rfl)
  cases hstep with
  | signal =>
    dsimp only [signal]
    split <;> omega
  | @check _ k w₀ res endTime result hplace hresult =>
    rcases check_cases w₀ res endTime s.cond with
      ⟨-, -, hcheck⟩ | ⟨-, ⟨_, -, hcheck⟩ | ⟨ms, hcheck⟩⟩
    · rw [hcheck] at hresult
      exact absurd rfl (hresult ▸ hgiven k endTime)
    · rw [hcheck]
      exact hpos
    · rw [hcheck]
      exact hpos
  | lock | unlock | enter | leave | wake | relock | «return» => exact hpos

/-- **No wake-up is lost.**  A thread that waits when a signal comes, and waits on, is woken by it
until some thread has been given a wake-up. -/
theorem awake_of_signal {before after : List (Event ι)} {s₀ s₁ : State ι} {k : ι}
    {broadcast : Bool} (hbefore : Run Step before State.start s₀)
    (hsignal : Step (.signal k broadcast) s₀ s₁) (hafter : Run Step after s₁ s) (i : ι)
    (hstays : ∀ tv, .enter i tv ∉ after) (hgiven : ∀ k endTime, .check k endTime (some 0) ∉ after) :
    Awake i s := by
  have h₀ := invariant_run hbefore
  have h₁ := h₀.step hsignal
  have hreached := reached_signal h₀ hsignal i
  have hs : Invariant s ∧ Reached i s := by
    clear hsignal hbefore
    induction hafter with
    | nil => exact ⟨h₁, hreached⟩
    | cons head _ ih =>
      refine ih (fun tv htv ↦ hstays tv (List.mem_cons_of_mem _ htv))
        (fun k endTime hk ↦ hgiven k endTime (List.mem_cons_of_mem _ hk)) (h₁.step head)
        (hreached.step h₁ head ?_ ?_)
      · rintro tv rfl
        exact hstays tv List.mem_cons_self
      · rintro k endTime rfl
        exact hgiven k endTime List.mem_cons_self
  exact hs.2.awake hs.1

/-- The thread that gave the signal begins to wait itself, is woken by the event, and leaves the
wake-up to the other one. -/
def joins : List (Event (Fin 2)) :=
  [.lock 1, .enter 1 none, .leave 1 8, .wake 1 .object, .check 1 9 none]

theorem awake_of_signal_one : ∃ s : State (Fin 2),
    Run Step joins { oneWaits with cond := signal false oneWaits.cond } s ∧
      s.threads 0 = .waiting ⟨0, INFINITE, INFINITE, 7⟩ ∧ Awake 0 s := by
  have hafter : Run Step joins { oneWaits with cond := signal false oneWaits.cond } _ :=
    .cons (.lock rfl rfl) (.cons (.enter rfl rfl (by decide)) (.cons (.leave rfl)
      (.cons (.wake rfl (fun _ ↦ rfl) nofun) (.cons (.check rfl rfl) (.nil _)))))
  have hsignal : Step (.signal 1 false) oneWaits _ := .signal rfl (by decide)
  exact ⟨_, hafter, rfl, awake_of_signal oneWaits_run hsignal hafter 0 (by simp [joins])
    (by simp [joins])⟩

/-! ## What a broadcast does -/

/-- There is a wake-up for each notified thread. -/
def Covered (s : State ι) : Prop :=
  (census (Thread.notified s.cond.generation) s.threads : ℤ) ≤ s.cond.nToWake

/-- A thread moves, and its wake-up goes with it. -/
theorem Covered.move (h : Covered s) {c : Cond} {i : ι} {t : Thread} {lock : Option ι}
    (hgeneration : c.generation = s.cond.generation)
    (hle : (t.notified s.cond.generation).toNat + s.cond.nToWake ≤
      ((s.threads i).notified s.cond.generation).toNat + c.nToWake) :
    Covered { s.move c i t with lock := lock } := by
  have hmove := census_update (Thread.notified s.cond.generation) s.threads i t
  unfold Covered at h ⊢
  dsimp only [State.move]
  rw [hgeneration]
  omega

theorem covered_broadcast (h : Invariant s) {k : ι} (hstep : Step (.signal k true) s s') :
    Covered s' := by
  cases hstep with
  | signal hplace hmax =>
    have hle : census (Thread.notified (s.cond.generation + 1)) s.threads ≤
        census Thread.registered s.threads :=
      census_mono fun _ ↦ Thread.registered_of_notified
    have hwaiting := h.nWaiting_eq
    unfold Covered
    dsimp only [signal]
    rw [if_pos rfl]
    omega

/-- Only a signal notifies threads. -/
theorem Covered.step (h : Covered s) {event : Event ι} (hstep : Step event s s')
    (hno : ∀ k broadcast, event ≠ .signal k broadcast) : Covered s' := by
  cases hstep with
  | lock | unlock => exact h
  | @signal _ k broadcast => exact absurd rfl (hno k broadcast)
  | @enter _ i tv hplace hlock hmax =>
    refine h.move rfl ?_
    rw [hplace]
    simp [Thread.notified, Thread.locals, enter]
  | @leave _ i w startTime hplace => exact h.move rfl (by rw [hplace]; rfl)
  | @wake _ i w res hplace hobject htimeout => exact h.move rfl (by rw [hplace]; rfl)
  | @check _ i w res endTime result hplace hresult =>
    rcases check_cases w res endTime s.cond with
      ⟨-, hne, hcheck⟩ | ⟨-, ⟨_, -, hcheck⟩ | ⟨ms, hcheck⟩⟩
    · rw [hcheck]
      refine h.move rfl ?_
      have hnotified : (s.threads i).notified s.cond.generation = true := by
        rw [hplace]
        exact decide_eq_true hne.symm
      rw [hnotified]
      dsimp only [Thread.notified, Thread.locals, Option.any, Bool.toNat, cond]
      omega
    · rw [hcheck]
      refine h.move rfl ?_
      dsimp only [Thread.notified, Thread.locals, Option.any, Bool.toNat, cond]
      omega
    · rw [hcheck]
      exact h.move rfl (by rw [hplace]; exact Int.le_refl _)
  | @relock _ i result hplace hfree => exact h.move rfl (by rw [hplace]; exact Int.le_refl _)
  | @«return» _ i result hplace => exact h.move rfl (by rw [hplace]; exact Int.le_refl _)

/-- **A broadcast reaches every thread that waits**, whatever the others do, as long as no signal
comes after it. -/
theorem awake_of_broadcast {before after : List (Event ι)} {s₀ s₁ : State ι} {k : ι}
    (hbefore : Run Step before State.start s₀) (hbroadcast : Step (.signal k true) s₀ s₁)
    (hafter : Run Step after s₁ s) (i : ι) (hstays : ∀ tv, .enter i tv ∉ after)
    (hno : ∀ k broadcast, .signal k broadcast ∉ after) : Awake i s := by
  have h₀ := invariant_run hbefore
  have h₁ := h₀.step hbroadcast
  have hs : Invariant s ∧ Covered s := by
    have hcovered := covered_broadcast h₀ hbroadcast
    clear hbroadcast hbefore hstays
    induction hafter with
    | nil => exact ⟨h₁, hcovered⟩
    | cons head _ ih =>
      exact ih (fun k broadcast hk ↦ hno k broadcast (List.mem_cons_of_mem _ hk)) (h₁.step head)
        (hcovered.step head fun k broadcast h ↦ hno k broadcast (h ▸ List.mem_cons_self))
  refine Reached.awake hs.1 fun w hw ↦ ?_
  obtain ⟨w₁, hw₁, heq⟩ := generationAtStart_of_run hafter hstays hw
  have hlt : w.generationAtStart < s.cond.generation := by
    rw [← heq, generation_eq_of_run hafter hno]
    exact (reached_signal h₀ hbroadcast i w₁ hw₁).2
  have hnotified : (s.threads i).notified s.cond.generation = true := by
    rw [Thread.notified, hw]
    exact decide_eq_true hlt.ne
  have hcovered := hs.2
  have hpos := census_pos hnotified
  unfold Covered at hcovered
  exact ⟨by omega, hlt⟩

/-- The first two of three threads begin to wait. -/
def bothWait : List (Event (Fin 3)) :=
  [.lock 0, .enter 0 none, .leave 0 7, .lock 1, .enter 1 none, .leave 1 7]

/-- The second one takes its wake-up, and returns. -/
def oneReturns : List (Event (Fin 3)) :=
  [.wake 1 .object, .check 1 9 (some 0), .relock 1, .return 1 0]

theorem awake_of_broadcast_two : ∃ s : State (Fin 3),
    Run Step (bothWait ++ .signal 2 true :: oneReturns) State.start s ∧
      s.threads 0 = .waiting ⟨0, INFINITE, INFINITE, 7⟩ ∧ Awake 0 s := by
  have hwait : Run Step bothWait State.start _ :=
    .cons (.lock rfl rfl) (.cons (.enter rfl rfl (by decide)) (.cons (.leave rfl)
      (.cons (.lock rfl rfl) (.cons (.enter rfl rfl (by decide)) (.cons (.leave rfl) (.nil _))))))
  have hrun : Run Step (bothWait ++ .signal 2 true :: oneReturns) State.start _ :=
    hwait.append (.cons (.signal rfl (by decide)) (.cons (.wake rfl (fun _ ↦ rfl) nofun)
      (.cons (.check rfl rfl) (.cons (.relock rfl rfl) (.cons (.return rfl) (.nil _))))))
  refine ⟨_, hrun, rfl, ?_⟩
  obtain ⟨s₀, hbefore, hrest⟩ := hrun.split
  cases hrest with
  | cons hbroadcast hafter =>
    exact awake_of_broadcast hbefore hbroadcast hafter 0 (by simp [oneReturns])
      (by simp [oneReturns])

end

/-- The broadcast finds thread 0 waiting.  Then threads 1 and 2 begin to wait, and one more signal
comes. -/
def stealing : List (Event (Fin 4)) :=
  [.lock 1, .enter 1 none, .leave 1 0, .lock 2, .enter 2 none, .leave 2 0, .signal 3 false,
    .wake 1 .object, .check 1 0 (some 0), .wake 2 .object, .check 2 0 (some 0),
    .wake 0 .object, .check 0 0 none]

/-- The two take the wake-up of the broadcast and that of the signal, and thread 0 sleeps. -/
theorem broadcast_lost : ∃ s : State (Fin 4),
    Run Step ([.lock 0, .enter 0 none, .leave 0 0, .signal 3 true] ++ stealing) State.start s ∧
      s.threads 0 = .waiting ⟨0, INFINITE, INFINITE, 0⟩ ∧ s.cond = ⟨false, 1, 0, 2⟩ := by
  refine ⟨?s, ?run, ?_, ?_⟩
  case run =>
    refine .cons (.lock rfl rfl) (.cons (.enter rfl rfl (by decide)) (.cons (.leave rfl) ?_))
    refine .cons (.signal rfl (by decide)) ?_
    refine .cons (.lock rfl rfl) (.cons (.enter rfl rfl (by decide)) (.cons (.leave rfl) ?_))
    refine .cons (.lock rfl rfl) (.cons (.enter rfl rfl (by decide)) (.cons (.leave rfl) ?_))
    refine .cons (.signal rfl (by decide)) ?_
    refine .cons (.wake rfl (fun _ ↦ rfl) nofun) ?_
    refine .cons (.check rfl rfl) ?_
    refine .cons (.wake rfl (fun _ ↦ rfl) nofun) ?_
    refine .cons (.check rfl rfl) ?_
    refine .cons (.wake rfl (fun _ ↦ rfl) nofun) ?_
    refine .cons (.check rfl rfl) ?_
    exact .nil _
  · rfl
  · rfl

end Zbaselib.Win32Cond
