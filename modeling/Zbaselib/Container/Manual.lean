import Zbaselib.Container.Ownership
import Zbaselib.Zlist.Manual

/-!
# Containers without a destroy function
-/

namespace Zbaselib.Container

open Program Memory Transition
open Zlist (Result Node Vars)

/-- The calls of the function that `destroy1` is given. -/
def given (d : Discipline) (items : List Ptr) : Op → List (Ptr × Ptr)
  | .destroy1 f => (d.order items).map fun data ↦ (f, data)
  | _ => []

section

variable {d : Discipline} {s s' : State} {addr : Ptr}

/-- A container calls only what it is given to destroy its items with. -/
theorem called_null (d : Discipline) (items : List Ptr) (op : Op) :
    called d NULL items op = given d items op := by
  cases op with
  | destroy1 f => simp only [called, given, Zlist.releasedAll_null, List.append_nil]
  | _ => simp only [called, given, Zlist.releasedAll_null]

/-- **A queue or a stack without a destroy function** needs none. -/
theorem run_of_null {block handle : Bool} {labels : List (Op × Result)}
    (hcreate : (d.create block handle addr NULL).run start = some ((), s))
    (hmade : s.thiz ≠ .null) (hrun : Run (Step d) labels s s') :
    ∃ items, Run (SpecStep d) labels (some []) items ∧ present d s' = items ∧
      ∀ held op, items = some held → Allowed s' held op → ∃ result s'',
        Step d (op, result) s' s'' ∧ spec d held op = (result, present d s'') ∧
          s''.mem.vars.calls = s'.mem.vars.calls ++ given d held op := by
  obtain ⟨hrep₀, -⟩ := represents_create hcreate hmade
  obtain ⟨items, hspec, hrep⟩ := run_follows hrep₀ hrun
  refine ⟨items, hspec, present_eq hrep, ?_⟩
  rintro held op rfl hop
  obtain ⟨result, s'', hstep, hresult, hrep', hcalls⟩ := wp_run hrep hop
  rw [called_null] at hcalls
  refine ⟨result, s'', hstep, ?_, hcalls⟩
  rw [present_eq hrep', hresult]

end

/-- **Without a destroy function no call goes through `NULL` unless it overwrites a datum.** -/
theorem manual_outcome {addr : Ptr} :
    (∀ {m₀ m : Mem Node Vars} {labels : List (Zlist.Op × Result)},
      (Zlist.create true addr NULL).run Zlist.start = some ((), m₀) →
      Run Zlist.Step labels m₀ m →
        Run Zlist.SpecStep labels (some []) (Zlist.itemsOf m) ∧ m.vars.calls = [] ∧
        ∀ op, Zlist.Allowed m op →
          ((∃ result m', Zlist.Step (op, result) m m' ∧
              Zlist.SpecStep (op, result) (Zlist.itemsOf m) (Zlist.itemsOf m') ∧
              m'.vars.calls = []) ↔
            Zlist.overwritten op ((Zlist.itemsOf m).getD []) = NULL)) ∧
    ∀ {d : Discipline} {block handle : Bool} {s s' : State} {labels : List (Op × Result)},
      (d.create block handle addr NULL).run start = some ((), s) → s.thiz ≠ .null →
      Run (Step d) labels s s' →
        ∃ items, Run (SpecStep d) labels (some []) items ∧ present d s' = items ∧
          ∀ held op, items = some held → Allowed s' held op → ∃ result s'',
            Step d (op, result) s' s'' ∧ spec d held op = (result, present d s'') ∧
              s''.mem.vars.calls = s'.mem.vars.calls ++ given d held op := by
  refine ⟨fun hcreate hrun ↦ ?_, fun hcreate hmade hrun ↦ run_of_null hcreate hmade hrun⟩
  obtain ⟨hsound, hspec, hcalls⟩ := Zlist.run_of_null hcreate hrun
  refine ⟨hspec, hcalls, fun op hop ↦ ?_⟩
  have hiff := Zlist.outcome_iff_of_null hsound hop
  rw [hcalls] at hiff
  exact hiff

/-- Two elements, one of which is `NULL` and is overwritten. -/
def manualLabels : List (Zlist.Op × Result) :=
  [(.addtail 2 20, .done), (.addhead 3 NULL, .done), (.sethead 30, .done)]

theorem manual_run : ∃ m₀ m, (Zlist.create true 1 NULL).run Zlist.start = some ((), m₀) ∧
    Run Zlist.Step manualLabels m₀ m ∧ Zlist.itemsOf m = some [30, 20] ∧
      (Zlist.Op.run (.set 40 1)).run m = none :=
  ⟨_, _, rfl, .cons ⟨⟨by decide, rfl⟩, rfl⟩ <| .cons ⟨⟨by decide, rfl⟩, rfl⟩ <|
    .cons ⟨trivial, rfl⟩ <| .nil _, rfl, rfl⟩

/-- Overwriting the other one calls through `NULL`. -/
theorem not_manual_outcome : ∃ m₀ m,
    (Zlist.create true 1 NULL).run Zlist.start = some ((), m₀) ∧
    Run Zlist.Step manualLabels m₀ m ∧ Zlist.Allowed m (.set 40 1) ∧
      ¬∃ result m', Zlist.Step (.set 40 1, result) m m' := by
  obtain ⟨m₀, m, hcreate, hrun, -, hnone⟩ := manual_run
  refine ⟨m₀, m, hcreate, hrun, trivial, ?_⟩
  rintro ⟨result, m', -, hsome⟩
  rw [hnone] at hsome
  cases hsome

/-- Deleting the last element is possible and overwriting it is not; a queue without a destroy
function gives one item back and passes the other to the function of `destroy1`. -/
theorem manual_outcome_two :
    (∃ m₀ m, (Zlist.create true 1 NULL).run Zlist.start = some ((), m₀) ∧
      Run Zlist.Step manualLabels m₀ m ∧ Zlist.itemsOf m = some [30, 20] ∧
      (∃ result m', Zlist.Step (.deltail, result) m m' ∧ Zlist.itemsOf m' = some [30] ∧
        m'.vars.calls = []) ∧
      ¬∃ result m', Zlist.Step (.set 40 1, result) m m' ∧
        Zlist.SpecStep (.set 40 1, result) (Zlist.itemsOf m) (Zlist.itemsOf m') ∧
          m'.vars.calls = []) ∧
    ∃ s₀ s s', (Discipline.fifo.create true true 1 NULL).run start = some ((), s₀) ∧
      Run (Step .fifo) queueLabels s₀ s ∧ Step .fifo (.destroy1 9, .done) s s' ∧
        s'.mem.vars.calls = s.mem.vars.calls ++ [(9, 30)] := by
  obtain ⟨m₀, m, hcreate, hrun, hitems, -⟩ := manual_run
  obtain ⟨s₀, s, -, hqueue, hmade, hrun', hheld, -⟩ := queue_run
  obtain ⟨-, -, hiff⟩ := manual_outcome.1 hcreate hrun
  obtain ⟨items, -, hpresent, hserve⟩ := manual_outcome.2 hqueue hmade hrun'
  obtain ⟨result, s', hstep, hresult, hcalls⟩ :=
    hserve [30] (.destroy1 9) (hpresent.symm.trans hheld) fun _ ↦ by decide
  obtain rfl : Result.done = result := (Prod.mk.inj hresult).1
  refine ⟨⟨m₀, m, hcreate, hrun, hitems, ?_, ?_⟩, s₀, s, s', hqueue, hrun', hstep, hcalls⟩
  · obtain ⟨result, m', hstep, hspec, hcalls⟩ := (hiff .deltail trivial).2 rfl
    exact ⟨result, m', hstep, by rw [hspec.2, hitems]; rfl, hcalls⟩
  · rw [hiff (.set 40 1) trivial, hitems]
    decide

end Zbaselib.Container
