import Zbaselib.Win32Cond.Model

/-!
# The state of the condition variable between two steps

A thread that waits is notified when a signal came after it began to wait.  The
counter of the waiting threads is right, and as long as there are wake-ups to
give and a notified thread in the loop, the event is set.
-/

namespace Zbaselib.Win32Cond

open Census Transition

variable {ι : Type}

/-- In the loop, or about to be, with these local variables. -/
def Thread.locals : Thread → Option Locals
  | .entered w | .waiting w | .woken w _ => some w
  | _ => none

/-- Counted in `n_waiting`. -/
def Thread.registered (t : Thread) : Bool := t.locals.isSome

/-- A signal came after the thread was counted. -/
def Thread.notified (generation : ℤ) (t : Thread) : Bool :=
  t.locals.any fun w ↦ w.generationAtStart ≠ generation

/-- In `zbaselib_cond_wait` with the caller's mutex. -/
def Thread.holds : Thread → Bool
  | .entered _ | .returning _ => true
  | _ => false

/-- What holds between any two steps. -/
structure Invariant [Fintype ι] (s : State ι) : Prop where
  /-- Every thread in the loop is counted, and no other. -/
  nWaiting_eq : s.cond.nWaiting = census Thread.registered s.threads
  nToWake_nonneg : 0 ≤ s.cond.nToWake
  /-- Generations only go up. -/
  generation_le : ∀ i w, (s.threads i).locals = some w → w.generationAtStart ≤ s.cond.generation
  /-- A notified thread does not sleep while there are wake-ups. -/
  event_of_notified : 0 < s.cond.nToWake →
    ∀ i, (s.threads i).notified s.cond.generation = true → s.cond.event = true
  /-- The caller's mutex is held where the code takes it to be. -/
  lock_of_holds : ∀ i, (s.threads i).holds = true → s.lock = some i

theorem Thread.registered_of_notified {generation : ℤ} {t : Thread}
    (h : t.notified generation = true) : t.registered = true := by
  unfold Thread.notified at h
  unfold Thread.registered
  cases hlocals : t.locals with
  | none =>
    rw [hlocals] at h
    exact h
  | some w => rfl

/-- What the section in the loop can do: give the thread a wake-up, end the loop without one, or
go on. -/
theorem check_cases (w : Locals) (res : Waited) (endTime : UInt32) (c : Cond) :
    (c.nToWake ≠ 0 ∧ c.generation ≠ w.generationAtStart ∧ check w res endTime c =
      ({ c with nToWake := c.nToWake - 1, nWaiting := c.nWaiting - 1 }, .left 0)) ∨
    (¬(c.nToWake ≠ 0 ∧ c.generation ≠ w.generationAtStart) ∧
      ((∃ result ≠ 0, check w res endTime c =
        ({ c with nWaiting := c.nWaiting - 1 }, .left result)) ∨
      ∃ ms, check w res endTime c =
        ({ c with event := if c.nToWake = 0 then false else c.event },
          .waiting { w with ms := ms }))) := by
  unfold check
  by_cases hwake : c.nToWake ≠ 0 ∧ c.generation ≠ w.generationAtStart
  · exact .inl ⟨hwake.1, hwake.2, if_pos hwake⟩
  refine .inr ⟨hwake, ?_⟩
  rw [if_neg hwake]
  by_cases hres : res ≠ .object
  · rw [if_pos hres]
    exact .inl ⟨if res = .timeout then 1 else -1, by split <;> decide, rfl⟩
  rw [if_neg hres]
  by_cases htime : w.ms ≠ INFINITE ∧ w.startTime + w.msOrig ≤ endTime
  · rw [if_pos htime]
    exact .inl ⟨1, by decide, rfl⟩
  · rw [if_neg htime]
    exact .inr ⟨_, rfl⟩

section

variable [Fintype ι] {s s' : State ι}

theorem invariant_start : Invariant (State.start : State ι) where
  nWaiting_eq := by
    rw [census_eq_zero fun _ ↦ rfl]
    rfl
  nToWake_nonneg := Int.le_refl 0
  generation_le := fun _ _ h ↦ nomatch h
  event_of_notified := fun h ↦ absurd h (Int.lt_irrefl 0)
  lock_of_holds := fun _ h ↦ nomatch h

/-- A thread that is counted makes the count positive. -/
theorem Invariant.nWaiting_pos (h : Invariant s) {i : ι} (hi : (s.threads i).registered = true) :
    0 < s.cond.nWaiting := by
  rw [h.nWaiting_eq]
  exact Int.natCast_pos.2 (census_pos hi)

variable [DecidableEq ι]

/-- What is to be shown when a thread moves. -/
theorem Invariant.move (h : Invariant s) {c : Cond} {i : ι} {t : Thread} {lock : Option ι}
    (hcount : c.nWaiting + (s.threads i).registered.toNat =
      s.cond.nWaiting + t.registered.toNat)
    (hwake : 0 ≤ c.nToWake) (hgeneration : c.generation = s.cond.generation)
    (hlocals : ∀ w, t.locals = some w → w.generationAtStart ≤ s.cond.generation)
    (hevent : 0 < c.nToWake → (t.notified s.cond.generation = true ∨
      ∃ k ≠ i, (s.threads k).notified s.cond.generation = true) → c.event = true)
    (hholds : t.holds = true → lock = some i)
    (hothers : ∀ k ≠ i, (s.threads k).holds = true → lock = some k) :
    Invariant { s.move c i t with lock := lock } where
  nWaiting_eq := by
    have hmove := census_update Thread.registered s.threads i t
    have hold := h.nWaiting_eq
    dsimp only [State.move]
    omega
  nToWake_nonneg := hwake
  generation_le := by
    intro k w hk
    dsimp only [State.move] at hk ⊢
    rw [hgeneration]
    by_cases hki : k = i
    · rw [hki, Function.update_self] at hk
      exact hlocals w hk
    · rw [Function.update_of_ne hki] at hk
      exact h.generation_le k w hk
  event_of_notified := by
    intro hpos k hk
    dsimp only [State.move] at hpos hk ⊢
    rw [hgeneration] at hk
    refine hevent hpos ?_
    by_cases hki : k = i
    · rw [hki, Function.update_self] at hk
      exact .inl hk
    · rw [Function.update_of_ne hki] at hk
      exact .inr ⟨k, hki, hk⟩
  lock_of_holds := by
    intro k hk
    dsimp only [State.move] at hk ⊢
    by_cases hki : k = i
    · rw [hki, Function.update_self] at hk
      rw [hki]
      exact hholds hk
    · rw [Function.update_of_ne hki] at hk
      exact hothers k hki hk

/-- A thread moves and leaves the condition variable as it is. -/
theorem Invariant.move_same (h : Invariant s) {i : ι} {t : Thread} {lock : Option ι}
    (hlocals : t.locals.map Locals.generationAtStart =
      (s.threads i).locals.map Locals.generationAtStart)
    (hholds : t.holds = true → lock = some i)
    (hothers : ∀ k ≠ i, (s.threads k).holds = true → lock = some k) :
    Invariant { s.move s.cond i t with lock := lock } := by
  have hregistered : t.registered = (s.threads i).registered := by
    have hsome := congrArg Option.isSome hlocals
    rwa [Option.isSome_map, Option.isSome_map] at hsome
  have hnotified : t.notified s.cond.generation = (s.threads i).notified s.cond.generation := by
    have hany := congrArg (Option.any (fun g : ℤ ↦ g ≠ s.cond.generation)) hlocals
    rwa [Option.any_map, Option.any_map] at hany
  refine h.move (by rw [hregistered]) h.nToWake_nonneg rfl ?_ ?_ hholds hothers
  · intro w hw
    rw [hw, Option.map_some] at hlocals
    obtain ⟨w', hw', heq⟩ := Option.map_eq_some_iff.1 hlocals.symm
    rw [← heq]
    exact h.generation_le i w' hw'
  · rintro hpos (hi | ⟨k, -, hk⟩)
    · exact h.event_of_notified hpos i (hnotified ▸ hi)
    · exact h.event_of_notified hpos k hk

/-- The section in the loop. -/
theorem Invariant.check (h : Invariant s) {i : ι} {w : Locals} {res : Waited} {endTime : UInt32}
    (hplace : s.threads i = .woken w res) :
    Invariant (s.move (check w res endTime s.cond).1 i (check w res endTime s.cond).2) := by
  have hlock : ∀ k ≠ i, (s.threads k).holds = true → s.lock = some k :=
    fun k _ hk ↦ h.lock_of_holds k hk
  have hregistered : (s.threads i).registered.toNat = 1 := by
    rw [hplace]
    rfl
  have hevent (hpos : 0 < s.cond.nToWake)
      (hsome : ∃ k ≠ i, (s.threads k).notified s.cond.generation = true) : s.cond.event = true := by
    obtain ⟨k, -, hk⟩ := hsome
    exact h.event_of_notified hpos k hk
  have hwake := h.nToWake_nonneg
  rcases check_cases w res endTime s.cond with ⟨hne, -, hcheck⟩ | ⟨-, ⟨r, -, hcheck⟩ | ⟨ms, hcheck⟩⟩
  · rw [hcheck]
    refine h.move ?_ ?_ rfl (fun _ hw ↦ nomatch hw) ?_ (fun hr ↦ nomatch hr) hlock
    · rw [hregistered]
      exact (sub_add_cancel s.cond.nWaiting 1).trans (Int.add_zero _).symm
    · exact Int.sub_nonneg_of_le (by omega)
    · rintro hpos (hi | hk)
      · exact nomatch hi
      · exact hevent (by omega) hk
  · rw [hcheck]
    refine h.move ?_ hwake rfl (fun _ hw ↦ nomatch hw) ?_ (fun hr ↦ nomatch hr) hlock
    · rw [hregistered]
      exact (sub_add_cancel s.cond.nWaiting 1).trans (Int.add_zero _).symm
    · rintro hpos (hi | hk)
      · exact nomatch hi
      · exact hevent hpos hk
  · rw [hcheck]
    refine h.move (by rw [hplace]; rfl) hwake rfl ?_ ?_ (fun hr ↦ nomatch hr) hlock
    · rintro _ ⟨⟩
      exact h.generation_le i w (by rw [hplace]; rfl)
    · intro hpos hsome
      have hne : s.cond.nToWake ≠ 0 := hpos.ne'
      dsimp only
      rw [if_neg hne]
      rcases hsome with hi | hk
      · exact h.event_of_notified hpos i (by rw [hplace]; exact hi)
      · exact hevent hpos hk

/-- **Every step keeps the invariant.** -/
theorem Invariant.step (h : Invariant s) {event : Event ι} (hstep : Step event s s') :
    Invariant s' := by
  have hothers {i : ι} (k : ι) (_ : k ≠ i) (hk : (s.threads k).holds = true) : s.lock = some k :=
    h.lock_of_holds k hk
  cases hstep with
  | @lock _ i hplace hfree =>
    exact ⟨h.nWaiting_eq, h.nToWake_nonneg, h.generation_le, h.event_of_notified,
      fun k hk ↦ absurd (h.lock_of_holds k hk) (by rw [hfree]; exact (Option.some_ne_none k).symm)⟩
  | @unlock _ i hplace hlock =>
    refine ⟨h.nWaiting_eq, h.nToWake_nonneg, h.generation_le, h.event_of_notified, fun k hk ↦ ?_⟩
    have hki := h.lock_of_holds k hk
    rw [hlock, Option.some_inj] at hki
    subst hki
    rw [hplace] at hk
    exact nomatch hk
  | @signal _ i broadcast hplace hmax =>
    refine ⟨h.nWaiting_eq, ?_, ?_, fun _ _ _ ↦ rfl, h.lock_of_holds⟩
    · have hwake := h.nToWake_nonneg
      have hwaiting := h.nWaiting_eq
      dsimp only [signal]
      split <;> omega
    · intro k w hk
      exact (h.generation_le k w hk).trans (Int.le_add_one (Int.le_refl _))
  | @enter _ i tv hplace hlock hmax =>
    refine h.move ?_ h.nToWake_nonneg rfl ?_ ?_ (fun _ ↦ hlock) hothers
    · rw [hplace]
      exact Int.add_zero _
    · rintro _ ⟨⟩
      exact Int.le_refl _
    · rintro hpos (hi | ⟨k, -, hk⟩)
      · simp [Thread.notified, Thread.locals, enter] at hi
      · exact h.event_of_notified hpos k hk
  | @leave _ i w startTime hplace =>
    refine h.move_same (by rw [hplace]; rfl) (fun hr ↦ nomatch hr) fun k hki hk ↦ ?_
    have hi := h.lock_of_holds i (by rw [hplace]; rfl)
    rw [h.lock_of_holds k hk, Option.some_inj] at hi
    exact absurd hi hki
  | @wake _ i w res hplace hobject htimeout =>
    exact h.move_same (by rw [hplace]; rfl) (fun hr ↦ nomatch hr) hothers
  | @check _ i w res endTime result hplace hresult => exact h.check hplace
  | @relock _ i result hplace hfree =>
    refine h.move_same (by rw [hplace]; rfl) (fun _ ↦ rfl) fun k _ hk ↦ ?_
    have hk' := h.lock_of_holds k hk
    rw [hfree] at hk'
    exact nomatch hk'
  | @«return» _ i result hplace =>
    refine h.move (by rw [hplace]; rfl) h.nToWake_nonneg rfl (fun _ hw ↦ nomatch hw) ?_
      (fun hr ↦ nomatch hr) hothers
    rintro hpos (hi | ⟨k, -, hk⟩)
    · exact nomatch hi
    · have hwaiting := h.nWaiting_pos (Thread.registered_of_notified hk)
      dsimp only [settle]
      rw [if_neg hwaiting.ne']
      exact h.event_of_notified hpos k hk

theorem invariant_run {events : List (Event ι)} (hrun : Run Step events State.start s) :
    Invariant s :=
  hrun.invariant Invariant (fun _ _ _ h hstep ↦ h.step hstep) invariant_start

end

end Zbaselib.Win32Cond
