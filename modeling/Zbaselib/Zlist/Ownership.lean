import Zbaselib.Zlist.Runs

/-!
# Who owns the data of a list

A datum that an operation stores stays with the list until it is given to the
destroy function, once.
-/

namespace Zbaselib.Zlist

open Program Memory Transition

/-- Whether a forward traversal of the client's list meets no node. -/
def isEmpty (m : Mem Node Vars) : Bool :=
  match m.vars.list with
  | some thiz => nextOf m.heap thiz.head = some thiz.head
  | none => true

/-- The data that a call stored in the list. -/
def storedBy (m : Mem Node Vars) : Op × Result → List Ptr
  | (.addhead _ data, _) | (.addtail _ data, _) => if m.vars.list = none then [] else [data]
  | (.add _ data _, result) | (.set data _, result) => if result = .int 0 then [data] else []
  | (.sethead data, _) | (.settail data, _) => if isEmpty m then [] else [data]
  | _ => []

/-- A run that keeps a record of what was stored. -/
structure Tracked where
  mem : Mem Node Vars
  stored : List Ptr

def TrackedStep (label : Op × Result) (s s' : Tracked) : Prop :=
  Step label s.mem s'.mem ∧ s'.stored = s.stored ++ storedBy s.mem label

/-- Keeping the record does not restrict a run. -/
theorem exists_tracked {labels : List (Op × Result)} {m m' : Mem Node Vars}
    (h : Run Step labels m m') (stored : List Ptr) :
    ∃ stored', Run TrackedStep labels ⟨m, stored⟩ ⟨m', stored'⟩ := by
  induction h generalizing stored with
  | nil m => exact ⟨stored, .nil _⟩
  | cons head _ ih =>
    obtain ⟨stored', htail⟩ := ih (stored ++ storedBy _ _)
    exact ⟨stored', .cons ⟨head, rfl⟩ htail⟩

/-- How often the destroy function was called on `p`. -/
def destroyed (ddfunc p : Ptr) (m : Mem Node Vars) : ℕ := m.vars.calls.count (ddfunc, p)

/-- What was stored was destroyed or is in the list, and only data were destroyed. -/
structure Balanced (ddfunc : Ptr) (s : Tracked) : Prop where
  sound : Sound ddfunc s.mem
  count : ∀ p, p ≠ NULL →
    s.stored.count p = destroyed ddfunc p s.mem + positions p (itemsOf s.mem)
  calls : ∀ call ∈ s.mem.vars.calls, call.1 = ddfunc ∧ call.2 ≠ NULL

section

variable {ddfunc p : Ptr}

theorem count_released (hddfunc : ddfunc ≠ NULL) (hp : p ≠ NULL) (data : Ptr) :
    (released ddfunc data).count (ddfunc, p) = [data].count p := by
  unfold released
  by_cases hdata : data = NULL
  · have hne : NULL ≠ p := hp.symm
    simp [hdata, hne]
  · simp [hdata, hddfunc, List.count_singleton]

theorem count_releasedAll (hddfunc : ddfunc ≠ NULL) (hp : p ≠ NULL) (items : List Ptr) :
    (releasedAll ddfunc items).count (ddfunc, p) = items.count p := by
  induction items with
  | nil => rfl
  | cons data items ih =>
    have hcons : releasedAll ddfunc (data :: items) =
        released ddfunc data ++ releasedAll ddfunc items := rfl
    rw [hcons, List.count_append, count_released hddfunc hp, ih, ← List.count_append]
    rfl

theorem mem_releasedAll {call : Ptr × Ptr} {items : List Ptr}
    (h : call ∈ releasedAll ddfunc items) : call.1 = ddfunc ∧ call.2 ≠ NULL := by
  obtain ⟨data, -, hcall⟩ := List.mem_flatMap.1 h
  unfold released at hcall
  split at hcall
  · next hdata =>
    obtain rfl := List.mem_singleton.1 hcall
    exact ⟨rfl, hdata.1⟩
  · cases hcall

theorem isEmpty_eq {m : Mem Node Vars} (h : Sound ddfunc m) :
    isEmpty m = true ↔ itemsOf m = none ∨ itemsOf m = some [] := by
  unfold Sound at h
  split at h
  · next thiz hlist =>
    obtain ⟨-, entries, hring⟩ := h
    have hfirst : Ring m.heap thiz.head ([] ++ entries) := hring
    have hnext : nextOf m.heap thiz.head = some (firstOf thiz.head (addrs entries)) :=
      hfirst.neighbours.1
    simp [isEmpty, hlist, hring.itemsOf_eq hlist, hnext, hfirst.firstOf_eq_head]
  · next hlist => simp [isEmpty, itemsOf, hlist]

/-- What a call stored is what the specification lets enter. -/
theorem storedBy_eq {m m' : Mem Node Vars} {label : Op × Result} (h : Sound ddfunc m)
    (hspec : SpecStep label (itemsOf m) (itemsOf m')) :
    storedBy m label = (spec label.1 (itemsOf m)).entered := by
  obtain ⟨op, result⟩ := label
  obtain ⟨hresult, -⟩ := hspec
  have hnull : m.vars.list = none ↔ itemsOf m = none := by simp [itemsOf]
  have hempty := isEmpty_eq h
  dsimp only at hresult
  generalize itemsOf m = items at *
  obtain _ | items := items
  · have hlist := hnull.2 rfl
    have hnone : isEmpty m = true := hempty.2 (Or.inl rfl)
    cases op <;> simp [storedBy, spec, resultNull, hresult, hlist, hnone]
  have hlist : m.vars.list ≠ none := fun heq ↦ by simpa using hnull.1 heq
  have hnil : isEmpty m = true ↔ items = [] := by simpa using hempty
  cases op with
  | add addr data index | set data index =>
    simp only [spec, specLive] at hresult ⊢
    split at hresult
    · next hrange => simp [storedBy, hresult, hrange]
    · next hrange => simp [storedBy, hresult, hrange]
  | sethead data =>
    obtain _ | ⟨old, rest⟩ := items <;> simp [storedBy, spec, specLive, hnil]
  | settail data =>
    by_cases hitems : items = [] <;> simp [storedBy, spec, specLive, hnil, hitems]
  | delUseCond cmp =>
    by_cases hitems : items = [] <;> simp [storedBy, spec, specLive, hitems]
  | del index =>
    simp only [spec, specLive]
    split <;> simp [storedBy]
  | _ => simp [storedBy, spec, specLive, hlist]

/-- **One step** keeps the balance. -/
theorem balanced_step (hddfunc : ddfunc ≠ NULL) {label : Op × Result} {s s' : Tracked}
    (h : Balanced ddfunc s) (hstep : TrackedStep label s s') : Balanced ddfunc s' := by
  obtain ⟨⟨hop, hrun⟩, hstored⟩ := hstep
  obtain ⟨hsound, hstep, hcalls⟩ := wp_outcome (wp_step h.sound (fun _ ↦ hddfunc) hop) hrun
  have hspec : SpecStep label (itemsOf s.mem) (itemsOf s'.mem) := hstep
  refine ⟨hsound, fun p hp ↦ ?_, fun call hcall ↦ ?_⟩
  · have hbefore := h.count p hp
    have hconserves := spec_conserves label.1 (itemsOf s.mem) p
    rw [← hspec.2] at hconserves
    unfold destroyed at hbefore ⊢
    rw [hstored, List.count_append, storedBy_eq h.sound hspec, hcalls, List.count_append,
      count_releasedAll hddfunc hp]
    omega
  · rw [hcalls, List.mem_append] at hcall
    obtain hcall | hcall := hcall
    · exact h.calls call hcall
    · exact mem_releasedAll hcall

/-- **Every stored datum is destroyed or in the list**, as often as it was stored. -/
theorem stored_eq_destroyed_add_held (hddfunc : ddfunc ≠ NULL) {addr : Ptr} {m₀ : Mem Node Vars}
    {s : Tracked} {labels : List (Op × Result)}
    (hcreate : (create true addr ddfunc).run start = some ((), m₀))
    (hrun : Run TrackedStep labels ⟨m₀, []⟩ s) :
    (∀ p, p ≠ NULL →
      s.stored.count p = destroyed ddfunc p s.mem + positions p (itemsOf s.mem)) ∧
    (∀ call ∈ s.mem.vars.calls, call.1 = ddfunc ∧ call.2 ≠ NULL) ∧
    (s.mem.vars.list = none → ∀ p, p ≠ NULL → destroyed ddfunc p s.mem = s.stored.count p) ∧
    ∀ p, p ≠ NULL → s.stored.count p ≤ 1 →
      (positions p (itemsOf s.mem) ≠ 0 → destroyed ddfunc p s.mem = 0) ∧
      (s.mem.vars.list = none → p ∈ s.stored → destroyed ddfunc p s.mem = 1) := by
  obtain ⟨hsound₀, hitems₀, hcalls₀⟩ := sound_create hcreate
  have hstart : Balanced ddfunc ⟨m₀, []⟩ := by
    refine ⟨hsound₀, fun p _ ↦ ?_, fun call hcall ↦ ?_⟩
    · simp [destroyed, hcalls₀, hitems₀, positions]
    · rw [hcalls₀] at hcall
      cases hcall
  obtain ⟨hsound, hcount, hcalls⟩ :=
    hrun.invariant (Balanced ddfunc) (fun _ _ _ ↦ balanced_step hddfunc) hstart
  have hgone (hlist : s.mem.vars.list = none) (p : Ptr) : positions p (itemsOf s.mem) = 0 := by
    simp [itemsOf, hlist, positions]
  refine ⟨hcount, hcalls, fun hlist p hp ↦ ?_,
    fun p hp honce ↦ ⟨fun hheld ↦ ?_, fun hlist hmem ↦ ?_⟩⟩
  · rw [hcount p hp, hgone hlist]
    rfl
  · have := hcount p hp
    omega
  · have hpos := List.count_pos_iff.2 hmem
    have := hcount p hp
    rw [hgone hlist] at this
    omega

end

/-- A datum is stored twice, once it is overwritten and once it is still there at the end. -/
def ownLabels : List (Op × Result) :=
  [(.addtail 2 20, .done), (.addhead 3 20, .done), (.sethead 30, .done), (.destroy, .done)]

theorem own_run : ∃ m₀ m, (create true 1 9).run start = some ((), m₀) ∧
    Run Step ownLabels m₀ m ∧ m.vars.list = none ∧ destroyed 9 20 m = 2 :=
  ⟨_, _, rfl,
    .cons ⟨⟨by decide, rfl⟩, rfl⟩ <| .cons ⟨⟨by decide, rfl⟩, rfl⟩ <|
      .cons ⟨trivial, rfl⟩ <| .cons ⟨trivial, rfl⟩ <| .nil _, rfl, rfl⟩

theorem stored_eq_destroyed_add_held_twice : ∃ m₀ s, (create true 1 9).run start = some ((), m₀) ∧
    Run TrackedStep ownLabels ⟨m₀, []⟩ s ∧ s.stored.count 20 = 2 := by
  obtain ⟨m₀, m, hcreate, hrun, hlist, htwice⟩ := own_run
  obtain ⟨stored, htracked⟩ := exists_tracked hrun []
  have hcount :=
    (stored_eq_destroyed_add_held (by decide) hcreate htracked).2.2.1 hlist 20 (by decide)
  exact ⟨m₀, ⟨m, stored⟩, hcreate, htracked, hcount.symm.trans htwice⟩

end Zbaselib.Zlist
