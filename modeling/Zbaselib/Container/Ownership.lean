import Zbaselib.Container.Refinement
import Zbaselib.Zlist.Ownership

/-!
# Who owns the items of a queue or a stack

Without a destroy function the client gets every item back, from `pop1` or
through the function that it gives to `destroy1`.  With one, `pop` and
`destroy` pass every item to it.
-/

namespace Zbaselib.Container

open Program Memory Zlist Transition

/-! ## Accounts of the abstract container -/

/-- The item that a call stores. -/
def Op.stored : Op → List Ptr
  | .push _ data => [data]
  | _ => []

def pushed (labels : List (Op × Result)) : List Ptr := labels.flatMap fun label ↦ label.1.stored

/-- The item that a call removes. -/
def leaving (d : Discipline) (items : List Ptr) : Op → List Ptr
  | .pop | .pop1 => (d.next items).toList
  | _ => []

/-- The items that calls of one kind removed from a container that held `items` at first. -/
def removed (d : Discipline) (op : Op) : List Ptr → List (Op × Result) → List Ptr
  | _, [] => []
  | items, label :: labels =>
      (if label.1 = op then leaving d items op else []) ++
        removed d op ((spec d items label.1).2.getD []) labels

section

variable {d : Discipline} {ddfunc : Ptr} {items items' : List Ptr}

theorem spec_conserves {op : Op} {result : Result} (h : spec d items op = (result, some items'))
    (p : Ptr) :
    items.count p + op.stored.count p = (leaving d items op).count p + items'.count p := by
  have hnext := d.count_next_rest items p
  cases op <;> simp only [spec, Prod.mk.injEq, Option.some.injEq, reduceCtorEq, and_false] at h
  all_goals
    obtain ⟨-, rfl⟩ := h
    simp only [Op.stored, leaving, List.count_append, List.count_nil]
    omega

/-- Only two kinds of calls remove an item. -/
theorem count_leaving (d : Discipline) (items : List Ptr) (op : Op) (p : Ptr) :
    (leaving d items op).count p =
      (if op = .pop then leaving d items .pop else []).count p +
        (if op = .pop1 then leaving d items .pop1 else []).count p := by
  cases op <;> simp [leaving]

theorem not_run_none {label : Op × Result} {labels : List (Op × Result)}
    {after : Option (List Ptr)} : ¬Run (SpecStep d) (label :: labels) none after := by
  intro h
  cases h with
  | cons head tail =>
    obtain ⟨held, hheld, -⟩ := head
    cases hheld

/-- A run that keeps the container alive starts with such a step. -/
theorem run_cons {label : Op × Result} {labels : List (Op × Result)}
    (h : Run (SpecStep d) (label :: labels) (some items) (some items')) :
    ∃ middle, spec d items label.1 = (label.2, some middle) ∧
      Run (SpecStep d) labels (some middle) (some items') := by
  cases h with
  | cons head tail =>
    obtain ⟨held, hheld, hspec⟩ := head
    cases hheld
    rename_i after
    cases after with
    | some middle => exact ⟨middle, hspec, tail⟩
    | none =>
      cases labels with
      | nil => cases tail
      | cons => exact absurd tail not_run_none

/-- **What was pushed was removed by a `pop` or a `pop1`, or is present.** -/
theorem count_pushed {labels : List (Op × Result)}
    (h : Run (SpecStep d) labels (some items) (some items')) (p : Ptr) :
    items.count p + (pushed labels).count p =
      (removed d .pop items labels).count p + (removed d .pop1 items labels).count p +
        items'.count p := by
  induction labels generalizing items with
  | nil =>
    cases h
    simp [pushed, removed]
  | cons label labels ih =>
    obtain ⟨middle, hspec, htail⟩ := run_cons h
    have hone := spec_conserves hspec p
    have hkind := count_leaving d items label.1 p
    have hrest := ih htail
    have hpushed : pushed (label :: labels) = label.1.stored ++ pushed labels := rfl
    unfold removed
    rw [hspec, hpushed]
    simp only [Option.getD_some, List.count_append]
    omega

/-- A `pop1` returns the item that it removes. -/
theorem count_returned {labels : List (Op × Result)}
    (h : Run (SpecStep d) labels (some items) (some items')) {p : Ptr} (hp : p ≠ NULL) :
    (removed d .pop1 items labels).count p = labels.count (.pop1, .ptr p) := by
  induction labels generalizing items with
  | nil => rfl
  | cons label labels ih =>
    obtain ⟨middle, hspec, htail⟩ := run_cons h
    obtain ⟨op, result⟩ := label
    unfold removed
    rw [hspec, Option.getD_some, List.count_append, ih htail, List.count_cons, add_comm]
    congr 1
    by_cases hop : op = .pop1
    · subst hop
      obtain ⟨rfl, -⟩ := Prod.mk.inj hspec
      cases hnext : d.next items with
      | none => simp [leaving, hnext, hp.symm]
      | some data => simp [leaving, hnext, List.count_singleton]
    · simp [hop]

end

/-! ## Accounts of the code -/

section

variable {d : Discipline} {ddfunc : Ptr} {items : List Ptr} {s s' : State}

theorem called_eq {op : Op} {result : Result} {items' : List Ptr}
    (h : spec d items op = (result, some items')) :
    called d ddfunc items op = releasedAll ddfunc (leaving d items op) := by
  cases op <;> simp [spec, called, leaving, releasedAll] at h ⊢

theorem live_of_run {labels : List (Op × Result)} (hrun : Run (Step d) labels s s')
    (hlive : s'.thiz = .live) : s.thiz ≠ .freed := by
  intro hfreed
  cases hrun with
  | nil => simp [hfreed] at hlive
  | cons head tail =>
    have hwp : wp _ (fun _ _ ↦ True) s := ⟨_, _, head, trivial⟩
    exact not_wp_of_freed hfreed hwp

/-- **While the container is alive**, its list's destroy function was called on what left. -/
theorem run_calls {labels : List (Op × Result)} (hrep : Represents d ddfunc s (some items))
    (hrun : Run (Step d) labels s s') (hlive : s'.thiz = .live) :
    ∃ gone, s'.mem.vars.calls = s.mem.vars.calls ++ releasedAll ddfunc gone ∧
      ∀ p, gone.count p =
        (removed d .pop items labels).count p + (removed d .pop1 items labels).count p := by
  induction hrun generalizing items with
  | nil s => exact ⟨[], by simp [releasedAll], fun p ↦ rfl⟩
  | @cons label labels s s₁ s' head tail ih =>
    obtain ⟨held, after, hheld, hspec, hrep₁, hcalls⟩ := step_follows hrep head
    cases hheld
    cases after with
    | none => exact absurd hrep₁.1 (live_of_run tail hlive)
    | some middle =>
      obtain ⟨gone, hgone, hcount⟩ := ih hrep₁ hlive
      refine ⟨leaving d items label.1 ++ gone, ?_, fun p ↦ ?_⟩
      · rw [hgone, hcalls, called_eq hspec, List.append_assoc]
        unfold releasedAll
        rw [List.flatMap_append]
      · have hkind := count_leaving d items label.1 p
        have hrest := hcount p
        unfold removed
        rw [hspec]
        simp only [Option.getD_some, List.count_append]
        omega

/-- The account of a live container: what was pushed was removed or is present. -/
theorem account {block handle : Bool} {addr : Ptr} {s₀ : State} {labels : List (Op × Result)}
    (hcreate : (d.create block handle addr ddfunc).run start = some ((), s₀))
    (hmade : s₀.thiz ≠ .null) (hrun : Run (Step d) labels s₀ s) (hlive : s.thiz = .live) :
    ∃ items gone, Represents d ddfunc s (some items) ∧
      s.mem.vars.calls = releasedAll ddfunc gone ∧
      (∀ p, gone.count p =
        (removed d .pop [] labels).count p + (removed d .pop1 [] labels).count p) ∧
      (∀ p, (pushed labels).count p = gone.count p + items.count p) ∧
      ∀ p, p ≠ NULL → (removed d .pop1 [] labels).count p = labels.count (.pop1, .ptr p) := by
  obtain ⟨hrep₀, hcalls₀⟩ := represents_create hcreate hmade
  obtain ⟨after, hspec, hrep⟩ := run_follows hrep₀ hrun
  cases after with
  | none =>
    rw [hrep.1] at hlive
    cases hlive
  | some items =>
    obtain ⟨gone, hgone, hcount⟩ := run_calls hrep₀ hrun hlive
    rw [hcalls₀, List.nil_append] at hgone
    refine ⟨items, gone, hrep, hgone, hcount, fun p ↦ ?_, fun p hp ↦ count_returned hspec hp⟩
    have hpushed := count_pushed hspec p
    rw [hcount, ← hpushed, List.count_nil, Nat.zero_add]

/-- Calls that no label makes remove nothing. -/
theorem removed_eq_nil {op : Op} {labels : List (Op × Result)}
    (h : ∀ label ∈ labels, label.1 ≠ op) : removed d op items labels = [] := by
  induction labels generalizing items with
  | nil => rfl
  | cons label labels ih =>
    obtain ⟨hhead, htail⟩ := List.forall_mem_cons.1 h
    unfold removed
    rw [if_neg hhead, ih htail, List.nil_append]

theorem live_of_step {op : Op} {result : Result} {items : Option (List Ptr)}
    (hrep : Represents d ddfunc s items) (hstep : Step d (op, result) s s') : s.thiz = .live := by
  obtain ⟨held, -, rfl, -⟩ := step_follows hrep hstep
  exact hrep.1

theorem count_calls (f p : Ptr) (items : List Ptr) :
    (items.map fun data ↦ (f, data)).count (f, p) = items.count p := by
  apply List.count_map_of_injective
  intro x y hxy
  exact (Prod.mk.inj hxy).2

/-- **Manual mode.**  A pushed item comes back from one `pop1` or goes to `f`. -/
theorem manual_mode {block handle : Bool} {addr f : Ptr} {s₀ : State} {labels : List (Op × Result)}
    {result : Result} (hcreate : (d.create block handle addr NULL).run start = some ((), s₀))
    (hmade : s₀.thiz ≠ .null) (hrun : Run (Step d) labels s₀ s)
    (hmode : ∀ label ∈ labels, label.1 ≠ .pop) (hstep : Step d (.destroy1 f, result) s s') :
    (s'.thiz = .freed ∧ s'.mem.heap.live = 0) ∧
    (∀ call ∈ s'.mem.vars.calls, call.1 = f) ∧
    (∀ p, (pushed labels).count p =
      (removed d .pop1 [] labels).count p + s'.mem.vars.calls.count (f, p)) ∧
    ∀ p, p ≠ NULL → (removed d .pop1 [] labels).count p = labels.count (.pop1, .ptr p) := by
  obtain ⟨hrep₀, -⟩ := represents_create hcreate hmade
  obtain ⟨after, -, hrep⟩ := run_follows hrep₀ hrun
  have hlive := live_of_step hrep hstep
  obtain ⟨items, gone, hrep, hgone, hcount, hpushed, hreturned⟩ :=
    account hcreate hmade hrun hlive
  obtain ⟨held, after, hheld, hspec, hrep', hcalls⟩ := step_follows hrep hstep
  cases hheld
  cases hspec
  have hcalled : s'.mem.vars.calls = (d.order items).map fun data ↦ (f, data) := by
    rw [hcalls, hgone, called, releasedAll_null, releasedAll_null, List.append_nil,
      List.nil_append]
  refine ⟨hrep', fun call hcall ↦ ?_, fun p ↦ ?_, hreturned⟩
  · rw [hcalled] at hcall
    obtain ⟨data, -, rfl⟩ := List.mem_map.1 hcall
    rfl
  · have hnone := hcount p
    rw [removed_eq_nil hmode, List.count_nil, Nat.zero_add] at hnone
    rw [hpushed, hnone, hcalled, count_calls, d.count_order]

/-- **Automatic mode.**  A pushed item goes to the destroy function, unless it is `NULL`. -/
theorem automatic_mode (hddfunc : ddfunc ≠ NULL) {block handle : Bool} {addr : Ptr} {s₀ : State}
    {labels : List (Op × Result)} {result : Result}
    (hcreate : (d.create block handle addr ddfunc).run start = some ((), s₀))
    (hmade : s₀.thiz ≠ .null) (hrun : Run (Step d) labels s₀ s)
    (hstep : Step d (.destroy, result) s s') :
    (s'.thiz = .freed ∧ s'.mem.heap.live = 0) ∧
    (∀ call ∈ s'.mem.vars.calls, call.1 = ddfunc ∧ call.2 ≠ NULL) ∧
    ∀ p, p ≠ NULL → (pushed labels).count p = s'.mem.vars.calls.count (ddfunc, p) := by
  obtain ⟨hrep₀, -⟩ := represents_create hcreate hmade
  obtain ⟨after, -, hrep⟩ := run_follows hrep₀ hrun
  have hlive := live_of_step hrep hstep
  obtain ⟨items, gone, hrep, hgone, -, hpushed, -⟩ := account hcreate hmade hrun hlive
  obtain ⟨held, after, hheld, hspec, hrep', hcalls⟩ := step_follows hrep hstep
  cases hheld
  cases hspec
  rw [hgone, called] at hcalls
  refine ⟨hrep', fun call hcall ↦ ?_, fun p hp ↦ ?_⟩
  · rw [hcalls, List.mem_append] at hcall
    obtain hcall | hcall := hcall <;> exact mem_releasedAll hcall
  · rw [hpushed, hcalls, List.count_append, count_releasedAll hddfunc hp,
      count_releasedAll hddfunc hp, List.count_reverse, d.count_order]

/-- **The container serves in its order, and every item has one owner.** -/
theorem serves_and_conserves {block handle : Bool} {addr : Ptr} {s₀ : State}
    {labels : List (Op × Result)}
    (hcreate : (d.create block handle addr ddfunc).run start = some ((), s₀))
    (hmade : s₀.thiz ≠ .null) (hrun : Run (Step d) labels s₀ s) :
    Run (SpecStep d) labels (some []) (present d s) ∧
    (∀ items, present d s = some items →
      ∀ op, Allowed s items op → ∃ result s', Step d (op, result) s s') ∧
    (ddfunc = NULL → (∀ label ∈ labels, label.1 ≠ .pop) →
      ∀ f result s', Step d (.destroy1 f, result) s s' →
        (s'.thiz = .freed ∧ s'.mem.heap.live = 0) ∧
        (∀ call ∈ s'.mem.vars.calls, call.1 = f ∧ call.2 ∈ pushed labels) ∧
        (∀ p, p ≠ NULL → (removed d .pop1 [] labels).count p = labels.count (.pop1, .ptr p)) ∧
        ((pushed labels).Nodup → ∀ p ∈ pushed labels,
          ((removed d .pop1 [] labels).count p = 1 ∧ s'.mem.vars.calls.count (f, p) = 0) ∨
          ((removed d .pop1 [] labels).count p = 0 ∧ s'.mem.vars.calls.count (f, p) = 1))) ∧
    (ddfunc ≠ NULL → (∀ label ∈ labels, label.1 ≠ .pop1) →
      ∀ result s', Step d (.destroy, result) s s' →
        (s'.thiz = .freed ∧ s'.mem.heap.live = 0) ∧
        (∀ call ∈ s'.mem.vars.calls, call.1 = ddfunc ∧ call.2 ∈ pushed labels ∧ call.2 ≠ NULL) ∧
        ((pushed labels).Nodup → ∀ p ∈ pushed labels, p ≠ NULL →
          s'.mem.vars.calls.count (ddfunc, p) = 1)) := by
  obtain ⟨hrep₀, -⟩ := represents_create hcreate hmade
  obtain ⟨after, hspec, hrep⟩ := run_follows hrep₀ hrun
  have hpresent := present_eq hrep
  refine ⟨hpresent ▸ hspec, fun items hitems op hop ↦ ?_, ?_, ?_⟩
  · rw [hpresent] at hitems
    subst hitems
    obtain ⟨result, s', hout, -⟩ := wp_run hrep hop
    exact ⟨result, s', hout⟩
  · rintro rfl hmode f result s' hstep
    obtain ⟨hgone, hcalled, hcount, hreturned⟩ := manual_mode hcreate hmade hrun hmode hstep
    refine ⟨hgone, fun call hcall ↦ ⟨hcalled call hcall, ?_⟩, hreturned, fun hnodup p hp ↦ ?_⟩
    · obtain rfl := hcalled call hcall
      have hpos := List.count_pos_iff.2 hcall
      rw [← List.count_pos_iff, hcount]
      exact Nat.add_pos_right _ hpos
    · have hone := List.count_eq_one_of_mem hnodup hp
      have hsplit := hcount p
      omega
  · intro hddfunc hmode result s' hstep
    obtain ⟨hgone, hcalled, hcount⟩ := automatic_mode hddfunc hcreate hmade hrun hstep
    refine ⟨hgone, fun call hcall ↦ ?_, fun hnodup p hp hne ↦ ?_⟩
    · obtain ⟨rfl, hne⟩ := hcalled call hcall
      have hpos := List.count_pos_iff.2 hcall
      refine ⟨rfl, ?_, hne⟩
      rw [← List.count_pos_iff, hcount call.2 hne]
      exact hpos
    · rw [← hcount p hne]
      exact List.count_eq_one_of_mem hnodup hp

end

/-- A queue without a destroy function, from which one of two items is taken. -/
def queueLabels : List (Op × Result) :=
  [(.push 2 20, .int 0), (.push 3 30, .int 0), (.peek, .ptr 20), (.pop1, .ptr 20),
    (.size, .int 1)]

theorem queue_run : ∃ s₀ s s', (Discipline.fifo.create true true 1 NULL).run start = some ((), s₀) ∧
    s₀.thiz ≠ .null ∧ Run (Step .fifo) queueLabels s₀ s ∧ present .fifo s = some [30] ∧
    Step .fifo (.destroy1 9, .done) s s' ∧ s'.mem.vars.calls = [(9, 30)] :=
  ⟨_, _, _, rfl, by decide,
    .cons rfl <| .cons rfl <| .cons rfl <| .cons rfl <| .cons rfl <| .nil _, rfl, rfl, rfl⟩

theorem serves_and_conserves_queue :
    Run (SpecStep .fifo) queueLabels (some []) (some [30]) ∧
      ∀ p ∈ pushed queueLabels, (removed .fifo .pop1 [] queueLabels).count p = 1 ∨
        [(9, 30)].count (9, p) = 1 := by
  obtain ⟨s₀, s, s', hcreate, hmade, hrun, hitems, hstep, hcalls⟩ := queue_run
  obtain ⟨hspec, -, hmanual, -⟩ := serves_and_conserves hcreate hmade hrun
  obtain ⟨-, -, -, hone⟩ := hmanual rfl (by decide) 9 .done s' hstep
  rw [hitems] at hspec
  refine ⟨hspec, fun p hp ↦ ?_⟩
  obtain ⟨hreturned, -⟩ | ⟨-, hcalled⟩ := hone (by decide) p hp
  · exact Or.inl hreturned
  · rw [hcalls] at hcalled
    exact Or.inr hcalled

/-! ## The largest container -/

/-- `n` items, in nodes at the addresses from 2 on. -/
def longLabels (n : ℕ) : List (Op × Result) :=
  (List.range n).map fun i ↦ (.push (i + 2) 20, .int 0)

/-- A push takes the address that it is given. -/
theorem isSome_of_push {addr data : Ptr} {items : List Ptr} {s s' : State} {ddfunc q : Ptr}
    (hrep : Represents .fifo ddfunc s (some items))
    (hstep : Step .fifo (.push addr data, .int 0) s s') (hq : q ≠ addr) :
    (s'.mem.heap.cell q).isSome = (s.mem.heap.cell q).isSome := by
  obtain ⟨hlive, thiz, entries, hlist, -⟩ := hrep
  have hwp : wp (Op.run .fifo (.push addr data)) (fun _ after ↦ after = s') s :=
    ⟨_, _, hstep, rfl⟩
  rw [Op.run_eq] at hwp
  unfold push at hwp
  simp only [wp_bind, wp_isNull hlive, hlist, Option.isNone_some, Bool.false_eq_true, wp_ite,
    if_false, wp_list, hlive, true_and, wp_onList, wp_pure, Discipline.insert] at hwp
  obtain ⟨after, rfl, hothers⟩ := of_wp_addtail hwp
  exact hothers q hq

theorem long_run (n : ℕ) : ∃ s₀ s, (Discipline.fifo.create true true 1 9).run start =
    some ((), s₀) ∧ s₀.thiz ≠ .null ∧ Run (Step .fifo) (longLabels n) s₀ s ∧
      Represents .fifo 9 s (some (List.replicate n 20)) ∧
        ∀ q, n + 1 < q → (s.mem.heap.cell q).isSome = false := by
  induction n with
  | zero =>
    obtain ⟨s₀, hcreate, hmade, hfree⟩ : ∃ s₀, (Discipline.fifo.create true true 1 9).run start =
        some ((), s₀) ∧ s₀.thiz ≠ .null ∧
          ∀ q : ℕ, 0 + 1 < q → (s₀.mem.heap.cell q).isSome = false := by
      refine ⟨_, rfl, by decide, fun q hq ↦ ?_⟩
      have hne : q ≠ 1 := by omega
      simp [start, Zlist.start, Heap.cell_insert_of_ne _ _ hne]
    obtain ⟨hrep, -⟩ := represents_create hcreate hmade
    exact ⟨s₀, s₀, hcreate, hmade, .nil _, hrep, hfree⟩
  | succ n ih =>
    obtain ⟨s₀, s, hcreate, hmade, hrun, hrep, hfree⟩ := ih
    have hop : Allowed s (List.replicate n 20) (.push (n + 2) 20) := by
      refine ⟨by simp, ?_⟩
      simpa using hfree (n + 2) (by omega)
    obtain ⟨result, s', hout, rfl, hrep', -⟩ := wp_run hrep hop
    have hstep : Step .fifo (.push (n + 2) 20, .int 0) s s' := hout
    have hnext := hrun.append (.cons hstep (.nil s'))
    refine ⟨s₀, s', hcreate, hmade, ?_, ?_, fun q hq ↦ ?_⟩
    · unfold longLabels at hnext ⊢
      rwa [List.range_succ, List.map_append]
    · rw [List.replicate_succ']
      exact hrep'
    · have hne : q ≠ n + 2 := by omega
      rw [isSome_of_push hrep hstep hne]
      exact hfree q (by omega)

/-- **The size of `2 ^ 31` items is not an `int`.** -/
theorem not_serves_and_conserves : ∃ s₀ s, (Discipline.fifo.create true true 1 9).run start =
    some ((), s₀) ∧ s₀.thiz ≠ .null ∧ Run (Step .fifo) (longLabels (2 ^ 31)) s₀ s ∧
      present .fifo s = some (List.replicate (2 ^ 31) 20) ∧
        ∀ result s', ¬Step .fifo (.size, result) s s' := by
  obtain ⟨s₀, s, hcreate, hmade, hrun, hrep, -⟩ := long_run (2 ^ 31)
  refine ⟨s₀, s, hcreate, hmade, hrun, present_eq hrep, fun result s' hstep ↦ ?_⟩
  have hwp : wp (Op.run .fifo .size) (fun _ _ ↦ True) s := ⟨_, _, hstep, trivial⟩
  have hsmall : (List.replicate (2 ^ 31) 20).length < 2 ^ 31 := allowed_of_wp hrep hwp
  rw [List.length_replicate] at hsmall
  exact absurd hsmall (lt_irrefl _)

end Zbaselib.Container
