import Mathlib

/-!
# Runs of a labelled step relation

An operation and its result are one label, so that a run records what a client
saw.  Invariants are proved for one step and hold after every run; a relation
between two systems that every step keeps turns each run of one into a run of
the other with the same labels.
-/

namespace Zbaselib.Transition

variable {ι σ τ : Type}

/-- Finitely many steps, with their labels in order. -/
inductive Run (step : ι → σ → σ → Prop) : List ι → σ → σ → Prop
  | nil (s : σ) : Run step [] s s
  | cons {label : ι} {labels : List ι} {s s' s'' : σ} (head : step label s s')
      (tail : Run step labels s' s'') : Run step (label :: labels) s s''

variable {step : ι → σ → σ → Prop} {step' : ι → τ → τ → Prop} {labels : List ι} {s s' : σ}

theorem Run.append {labels' : List ι} {s'' : σ} (h : Run step labels s s')
    (h' : Run step labels' s' s'') : Run step (labels ++ labels') s s'' := by
  induction h with
  | nil => exact h'
  | cons head _ ih => exact .cons head (ih h')

theorem Run.split {labels' : List ι} {s'' : σ} (h : Run step (labels ++ labels') s s'') :
    ∃ s', Run step labels s s' ∧ Run step labels' s' s'' := by
  induction labels generalizing s with
  | nil => exact ⟨s, .nil s, h⟩
  | cons label labels ih =>
    cases h with
    | cons head tail =>
      obtain ⟨s', hfirst, hsecond⟩ := ih tail
      exact ⟨s', .cons head hfirst, hsecond⟩

/-- What every step keeps holds after every run. -/
theorem Run.invariant (inv : σ → Prop) (hstep : ∀ label s s', inv s → step label s s' → inv s')
    (h : Run step labels s s') (hinv : inv s) : inv s' := by
  induction h with
  | nil => exact hinv
  | cons head _ ih => exact ih (hstep _ _ _ hinv head)

/-- An invariant may look at the labels of the run so far. -/
theorem Run.history (inv : List ι → σ → Prop)
    (hstep : ∀ labels label s s', inv labels s → step label s s' → inv (labels ++ [label]) s')
    {past : List ι} (h : Run step labels s s') (hinv : inv past s) : inv (past ++ labels) s' := by
  induction h generalizing past with
  | nil => rwa [List.append_nil]
  | cons head _ ih =>
    have hnext := ih (hstep past _ _ _ hinv head)
    rwa [List.append_assoc] at hnext

/-- **Simulation.**  Every run of the first system is matched by the second. -/
theorem Run.simulation (rel : σ → τ → Prop)
    (hstep : ∀ label s s' t, rel s t → step label s s' → ∃ t', step' label t t' ∧ rel s' t')
    (h : Run step labels s s') {t : τ} (hrel : rel s t) :
    ∃ t', Run step' labels t t' ∧ rel s' t' := by
  induction h generalizing t with
  | nil => exact ⟨t, .nil t, hrel⟩
  | cons head _ ih =>
    obtain ⟨t₁, ht₁, hrel₁⟩ := hstep _ _ _ _ hrel head
    obtain ⟨t₂, ht₂, hrel₂⟩ := ih hrel₁
    exact ⟨t₂, .cons ht₁ ht₂, hrel₂⟩

/-- **Progress.**  Where some step always makes a measure smaller, a run leads to zero. -/
theorem exists_run_of_measure (inv : σ → Prop) (measure : σ → ℕ)
    (hstep : ∀ s, inv s → 0 < measure s →
      ∃ label s', step label s s' ∧ inv s' ∧ measure s' < measure s) {s : σ} (hinv : inv s) :
    ∃ labels s', Run step labels s s' ∧ inv s' ∧ measure s' = 0 := by
  induction hn : measure s using Nat.strong_induction_on generalizing s with
  | _ n ih =>
    obtain rfl | hpos := Nat.eq_zero_or_pos n
    · exact ⟨[], s, .nil s, hinv, hn⟩
    · obtain ⟨label, s₁, hhead, hinv₁, hless⟩ := hstep s hinv (hn ▸ hpos)
      obtain ⟨labels, s₂, htail, hinv₂, hzero⟩ := ih _ (hn ▸ hless) hinv₁ rfl
      exact ⟨label :: labels, s₂, .cons hhead htail, hinv₂, hzero⟩

end Zbaselib.Transition
