import Zbaselib.Lib.Program

/-!
# Code that computes a value or refuses

C code that either goes on with a value or leaves its function with
`return -1`.  `Decides` says which values it goes on with: it has an outcome,
and refuses exactly when there is none to be computed.
-/

namespace Zbaselib.Decision

open Program

variable {α β σ : Type}

/-- Code that may leave its function with a return value; `none` is undefined behaviour. -/
abbrev Code := ExceptT ℤ Option

def undefined : Code α := ExceptT.mk none

/-- `return -1` -/
def refuse : Code α := throw (-1)

/-- The code goes on with exactly the values of `P`, and refuses if there are none. -/
def Decides (code : Code α) (P : α → Prop) : Prop :=
  ∃ result, code.run = some result ∧
    (∀ value, result = .ok value ↔ P value) ∧ ∀ ret, result = .error ret → ret = -1

/-! ## Rules -/

@[simp]
theorem refuse_bind (next : α → Code β) : (refuse >>= next) = refuse := rfl

@[simp]
theorem lift_some (value : α) : (liftM (some value) : Code α) = pure value := rfl

@[simp]
theorem lift_some_bind (value : α) (next : α → Code β) :
    ((liftM (some value) : Code α) >>= next) = next value := rfl

theorem error_ne_ok (ret : ℤ) (value : α) : (Except.error ret : Except ℤ α) ≠ .ok value := by
  simp

@[simp]
theorem decides_pure {value : α} {P : α → Prop} :
    Decides (pure value) P ↔ ∀ other, P other ↔ other = value := by
  constructor
  · rintro ⟨result, hrun, hok, -⟩ other
    cases hrun
    rw [← hok, Except.ok.injEq, eq_comm]
  · intro h
    refine ⟨.ok value, rfl, fun other ↦ ?_, fun ret hret ↦ ?_⟩
    · rw [h, Except.ok.injEq, eq_comm]
    · exact absurd hret.symm (error_ne_ok ret value)

@[simp]
theorem decides_refuse {P : α → Prop} : Decides refuse P ↔ ∀ value, ¬P value := by
  constructor
  · rintro ⟨result, hrun, hok, -⟩ value hP
    cases hrun
    exact error_ne_ok _ value ((hok value).mpr hP)
  · intro h
    refine ⟨.error (-1), rfl, fun value ↦ ?_, fun ret hret ↦ ?_⟩
    · exact iff_of_false (error_ne_ok _ value) (h value)
    · cases hret
      rfl

theorem Decides.congr {code : Code α} {P Q : α → Prop} (h : Decides code P)
    (hPQ : ∀ value, P value ↔ Q value) : Decides code Q := by
  obtain ⟨result, hrun, hok, herror⟩ := h
  exact ⟨result, hrun, fun value ↦ (hok value).trans (hPQ value), herror⟩

/-- Code that decides something goes on with one value or refuses. -/
theorem Decides.cases {code : Code α} {P : α → Prop} (h : Decides code P) :
    (∃ value, code.run = some (.ok value) ∧ ∀ other, P other ↔ other = value) ∨
      code.run = some (.error (-1)) ∧ ∀ value, ¬P value := by
  obtain ⟨result, hrun, hok, herror⟩ := h
  cases result with
  | ok value =>
    refine Or.inl ⟨value, hrun, fun other ↦ ?_⟩
    rw [← hok, Except.ok.injEq, eq_comm]
  | error ret =>
    rw [herror ret rfl] at hrun
    refine Or.inr ⟨hrun, fun value hP ↦ ?_⟩
    exact error_ne_ok _ value ((hok value).mpr hP)

end Zbaselib.Decision
