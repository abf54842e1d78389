import Mathlib

/-!
# Condition variables

Where each of a group of threads is, seen from one condition variable.  A
thread that waits is `blocked` until a wake-up is pending, and `woken` then.  A
signal makes any set of blocked threads runnable that is not empty if it need
not be; a spurious wake-up is one without that promise.
-/

namespace Zbaselib.Condition

variable {ι κ α : Type} [DecidableEq κ]

/-- Those of the `chosen` threads that are blocked get a wake-up. -/
def wake (blocked woken : κ) (chosen : ι → Bool) (threads : ι → κ) (i : ι) : κ :=
  if threads i = blocked ∧ chosen i = true then woken else threads i

def broadcast (blocked woken : κ) (threads : ι → κ) : ι → κ :=
  wake blocked woken (fun _ ↦ true) threads

/-- A signal reaches a blocked thread if there is one. -/
def Signals (blocked : κ) (chosen : ι → Bool) (threads : ι → κ) : Prop :=
  (∃ i, threads i = blocked) → ∃ i, threads i = blocked ∧ chosen i = true

variable {blocked woken : κ} {chosen : ι → Bool} {threads : ι → κ}

/-- What does not tell a pending wake-up from none does not change. -/
theorem apply_wake {f : κ → α} (hf : f woken = f blocked) (i : ι) :
    f (wake blocked woken chosen threads i) = f (threads i) := by
  unfold wake
  split
  case isTrue h => rw [h.1, hf]
  case isFalse => rfl

/-- No thread becomes blocked by a wake-up. -/
theorem wake_ne_blocked (hne : woken ≠ blocked) {i : ι} (h : threads i ≠ blocked) :
    wake blocked woken chosen threads i ≠ blocked := by
  unfold wake
  split
  · exact hne
  · exact h

theorem broadcast_ne_blocked (hne : woken ≠ blocked) (i : ι) :
    broadcast blocked woken threads i ≠ blocked := by
  unfold broadcast wake
  split
  case isTrue => exact hne
  case isFalse h => exact fun hblocked ↦ h ⟨hblocked, rfl⟩

/-- After a signal not every thread is blocked. -/
theorem exists_ne_blocked [Nonempty ι] (hne : woken ≠ blocked)
    (h : Signals blocked chosen threads) : ∃ i, wake blocked woken chosen threads i ≠ blocked := by
  by_cases hsome : ∃ i, threads i = blocked
  · obtain ⟨i, hblocked, hchosen⟩ := h hsome
    refine ⟨i, ?_⟩
    rw [wake, if_pos ⟨hblocked, hchosen⟩]
    exact hne
  · obtain ⟨i⟩ := ‹Nonempty ι›
    exact ⟨i, wake_ne_blocked hne fun hblocked ↦ hsome ⟨i, hblocked⟩⟩

end Zbaselib.Condition
