import Mathlib

/-!
# Records of a deterministic process

What is recorded next is determined by the record so far.  Two processes that
record the same things, and stop under different conditions, are compared by
where their records stop.
-/

namespace Zbaselib.Trace

variable {α : Type}

/-- A record that did not meet the condition before its last entry. -/
inductive Recorded (next : List α → α) (stop : List α → Prop) : List α → Prop
  | nil : Recorded next stop []
  | concat {past : List α} (init : Recorded next stop past) (going : ¬stop past) :
      Recorded next stop (past ++ [next past])

variable {next : List α → α} {stop stop' : List α → Prop} {record record' : List α}

/-- Another condition may be met at the end only, as far as the record goes. -/
theorem Recorded.mono (h : Recorded next stop record)
    (hstop : ∀ past, past <+: record → stop' past → stop past) : Recorded next stop' record := by
  induction h with
  | nil => exact .nil
  | @concat past _ going ih =>
    have hprefix : past <+: past ++ [next past] := List.prefix_append _ _
    exact .concat (ih fun earlier hearlier ↦ hstop earlier (hearlier.trans hprefix))
      fun hmet ↦ going (hstop past hprefix hmet)

theorem Recorded.eq_of_length (h : Recorded next stop record) (h' : Recorded next stop' record')
    (hlength : record.length = record'.length) : record = record' := by
  induction h generalizing record' with
  | nil => exact (List.length_eq_zero_iff.1 hlength.symm).symm
  | concat _ _ ih =>
    cases h' with
    | nil => simp at hlength
    | concat init' _ =>
      rw [List.length_append, List.length_append] at hlength
      rw [ih init' (Nat.add_right_cancel hlength)]

/-- Whatever comes before the end is a record that does not meet the condition. -/
theorem Recorded.take (h : Recorded next stop record) {n : ℕ} (hn : n < record.length) :
    Recorded next stop (record.take n) ∧ ¬stop (record.take n) := by
  induction h with
  | nil => simp at hn
  | @concat past init going ih =>
    rw [List.length_append, List.length_singleton] at hn
    by_cases hpast : n < past.length
    · rw [List.take_append_of_le_length hpast.le]
      exact ih hpast
    · rw [show n = past.length by omega, List.take_left]
      exact ⟨init, going⟩

/-- No record goes on where the other stops. -/
theorem Recorded.length_le (h : Recorded next stop record) (h' : Recorded next stop record')
    (hstop : stop record) : record'.length ≤ record.length := by
  by_contra hlt
  obtain ⟨htake, hgoing⟩ := h'.take (not_le.1 hlt)
  have heq : record = record'.take record.length := by
    apply h.eq_of_length htake
    rw [List.length_take_of_le (not_le.1 hlt).le]
  rw [← heq] at hgoing
  exact hgoing hstop

/-- **There is only one record that stops.** -/
theorem Recorded.unique (h : Recorded next stop record) (h' : Recorded next stop record')
    (hstop : stop record) (hstop' : stop record') : record = record' :=
  h.eq_of_length h' (Nat.le_antisymm (h'.length_le h hstop') (h.length_le h' hstop))

/-- As long as the condition is not met there is something left of the record that stops. -/
theorem Recorded.lt_length (h : Recorded next stop record) (h' : Recorded next stop record')
    (hgoing : ¬stop record) (hstop' : stop record') : record.length < record'.length := by
  by_contra hle
  obtain hlt | heq := Nat.lt_or_eq_of_le (not_lt.1 hle)
  · obtain ⟨-, hgoing'⟩ := h.take hlt
    have hsame : record' = record.take record'.length := by
      apply h'.eq_of_length (h.take hlt).1
      rw [List.length_take_of_le hlt.le]
    rw [← hsame] at hgoing'
    exact hgoing' hstop'
  · rw [h'.eq_of_length h heq] at hstop'
    exact hgoing hstop'

end Zbaselib.Trace
