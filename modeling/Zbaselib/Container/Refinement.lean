import Zbaselib.Container.Model
import Zbaselib.Zlist.Runs

/-!
# First in first out, last in first out

The abstract container is the sequence of the items that are present, in the
order in which they arrived.  A queue gives out the oldest, a stack the newest.
-/

namespace Zbaselib.Container

open Program Memory Zlist Transition

/-! ## The abstract container -/

inductive Discipline
  | fifo
  | lifo
  deriving DecidableEq

namespace Discipline

/-- The item that leaves next. -/
def next : Discipline → List Ptr → Option Ptr
  | fifo, items => items.head?
  | lifo, items => items.getLast?

/-- The items that stay when one leaves. -/
def rest : Discipline → List Ptr → List Ptr
  | fifo, items => items.tail
  | lifo, items => items.dropLast

/-- From the order of arrival to the order in which items leave, and back. -/
def order : Discipline → List Ptr → List Ptr
  | fifo, items => items
  | lifo, items => items.reverse

@[simp]
theorem order_order (d : Discipline) (items : List Ptr) : d.order (d.order items) = items := by
  cases d <;> simp [order]

@[simp]
theorem length_order (d : Discipline) (items : List Ptr) :
    (d.order items).length = items.length := by
  cases d <;> simp [order]

@[simp]
theorem count_order (d : Discipline) (items : List Ptr) (p : Ptr) :
    (d.order items).count p = items.count p := by
  cases d <;> simp [order]

@[simp]
theorem order_nil (d : Discipline) : d.order [] = [] := by
  cases d <;> rfl

theorem next_order (d : Discipline) (items : List Ptr) :
    d.next (d.order items) = items.head? := by
  cases d <;> simp [next, order]

theorem rest_order (d : Discipline) (items : List Ptr) :
    d.rest (d.order items) = d.order items.tail := by
  cases d <;> simp [rest, order]

theorem count_next_rest (d : Discipline) (items : List Ptr) (p : Ptr) :
    (d.next items).toList.count p + (d.rest items).count p = items.count p := by
  cases d with
  | fifo => cases items <;> simp [next, rest, List.count_cons]; omega
  | lifo =>
    obtain rfl | ⟨xs, x, rfl⟩ := List.eq_nil_or_concat items
    · rfl
    · simp [next, rest, List.count_append]
      omega

end Discipline

/-- A call on the container.  `addr` is the address of the node that a push makes. -/
inductive Op
  | push (addr data : Ptr)
  | pop
  | pop1
  | peek
  | size
  | destroy
  | destroy1 (ddfunc : Ptr)
  deriving DecidableEq

/-- The answer of a call, and the items afterwards; there are none once it is destroyed. -/
def spec (d : Discipline) (items : List Ptr) : Op → Result × Option (List Ptr)
  | .push _ data => (.int 0, some (items ++ [data]))
  | .pop => (.int 0, some (d.rest items))
  | .pop1 => (.ptr ((d.next items).getD NULL), some (d.rest items))
  | .peek => (.ptr ((d.next items).getD NULL), some items)
  | .size => (.int items.length, some items)
  | .destroy | .destroy1 _ => (.done, none)

/-- Nothing can be called on a container that was destroyed. -/
def SpecStep (d : Discipline) (label : Op × Result) (items items' : Option (List Ptr)) : Prop :=
  ∃ present, items = some present ∧ spec d present label.1 = (label.2, items')

/-! ## The code -/

def Op.run : Discipline → Op → ContainerCmd Result
  | .fifo, .push addr data => return .int (← Queue.push addr data)
  | .fifo, .pop => return .int (← Queue.pop)
  | .fifo, .pop1 => return .ptr (← Queue.pop1)
  | .fifo, .peek => return .ptr (← Queue.peek)
  | .fifo, .size => return .int (← Queue.size)
  | .fifo, .destroy => do Queue.destroy; return .done
  | .fifo, .destroy1 ddfunc => do Queue.destroy1 ddfunc; return .done
  | .lifo, .push addr data => return .int (← Stack.push addr data)
  | .lifo, .pop => return .int (← Stack.pop)
  | .lifo, .pop1 => return .ptr (← Stack.pop1)
  | .lifo, .peek => return .ptr (← Stack.peek)
  | .lifo, .size => return .int (← Stack.size)
  | .lifo, .destroy => do Stack.destroy; return .done
  | .lifo, .destroy1 ddfunc => do Stack.destroy1 ddfunc; return .done

/-- The list function behind `push`. -/
def Discipline.insert : Discipline → Option Handle → Ptr → Ptr → ZlistCmd Unit
  | .fifo => Zlist.addtail
  | .lifo => Zlist.addhead

/-- The two differ in `push` only. -/
theorem Op.run_eq (d : Discipline) (op : Op) : op.run d = match op with
    | .push addr data => return .int (← Container.push d.insert addr data)
    | .pop => return .int (← Container.pop)
    | .pop1 => return .ptr (← Container.pop1)
    | .peek => return .ptr (← Container.peek)
    | .size => return .int (← Container.size)
    | .destroy => do Container.destroy; return .done
    | .destroy1 ddfunc => do Container.destroy1 ddfunc; return .done := by
  cases d <;> cases op <;> rfl

def Discipline.create : Discipline → Bool → Bool → Ptr → Ptr → ContainerCmd Unit
  | .fifo => Queue.create
  | .lifo => Stack.create

theorem Discipline.create_eq (d : Discipline) : d.create = Container.create := by
  cases d <;> rfl

/-- The client's destroy function and the one of the list, as an operation calls them. -/
def called (d : Discipline) (ddfunc : Ptr) (items : List Ptr) : Op → List (Ptr × Ptr)
  | .pop | .pop1 => releasedAll ddfunc (d.next items).toList
  | .destroy => releasedAll ddfunc (d.order items).reverse
  | .destroy1 f =>
      (d.order items).map (fun data ↦ (f, data)) ++ releasedAll ddfunc (d.order items).reverse
  | _ => []

/-- The block is live and its list holds the items, or all that was allocated is freed. -/
def Represents (d : Discipline) (ddfunc : Ptr) (s : State) : Option (List Ptr) → Prop
  | some items => s.thiz = .live ∧ ∃ thiz entries, s.mem.vars.list = some thiz ∧
      thiz.ddfunc = ddfunc ∧ Ring s.mem.heap thiz.head entries ∧
      d.order (entries.map Prod.snd) = items
  | none => s.thiz = .freed ∧ s.mem.heap.live = 0

/-- The allocator finds a free address for a new node, the items can be counted in an `int`, and
there is a function to pass them to. -/
def Allowed (s : State) (items : List Ptr) : Op → Prop
  | .push addr _ => addr ≠ NULL ∧ s.mem.heap.cell addr = none
  | .size => items.length < 2 ^ 31
  | .destroy1 f => items ≠ [] → f ≠ NULL
  | _ => True

/-- What a call has to do. -/
def Achieves (d : Discipline) (ddfunc : Ptr) (items : List Ptr) (s : State) (op : Op)
    (result : Result) (s' : State) : Prop :=
  result = (spec d items op).1 ∧ Represents d ddfunc s' (spec d items op).2 ∧
    s'.mem.vars.calls = s.mem.vars.calls ++ called d ddfunc items op

/-! ## One call -/

section

variable {α : Type} {s : State} {d : Discipline} {ddfunc : Ptr} {items : List Ptr}

@[simp]
theorem wp_onList (command : ZlistCmd α) (post : α → State → Prop) :
    wp (onList command) post s ↔
      wp command (fun result mem ↦ post result { s with mem }) s.mem := by
  simp only [wp, onList, StateT.run, Option.bind_eq_bind, Option.bind_eq_some_iff, Prod.exists]
  constructor
  · rintro ⟨result, after, ⟨value, mem, hrun, hpure⟩, hpost⟩
    cases hpure
    exact ⟨result, mem, hrun, hpost⟩
  · rintro ⟨result, mem, hrun, hpost⟩
    exact ⟨result, _, ⟨result, mem, hrun, rfl⟩, hpost⟩

@[simp]
theorem wp_setBlock (thiz : Block) (post : Unit → State → Prop) :
    wp (setBlock thiz) post s ↔ post () { s with thiz } := wp_modify _ _ _

@[simp]
theorem wp_list (post : Option Handle → State → Prop) :
    wp list post s ↔ s.thiz = .live ∧ post s.mem.vars.list s := by
  simp [list]

theorem wp_isNull (hlive : s.thiz = .live) (post : Bool → State → Prop) :
    wp isNull post s ↔ post s.mem.vars.list.isNone s := by
  simp [isNull, hlive]

variable {thiz : Handle} {entries : List (Ptr × Ptr)}

/-- The call left the block alone and a ring behind. -/
theorem achieves_of_ring {op : Op} {result : Result} {items' : List Ptr} {h' : Heap Node}
    {vars : Vars} (hspec : spec d items op = (result, some items'))
    (hlist : vars.list = some thiz) (hring : Ring h' thiz.head entries)
    (hitems : d.order (entries.map Prod.snd) = items')
    (hcalls : vars.calls = s.mem.vars.calls ++ called d thiz.ddfunc items op) :
    Achieves d thiz.ddfunc items s op result ⟨⟨h', vars⟩, .live⟩ := by
  unfold Achieves
  rw [hspec]
  exact ⟨rfl, ⟨rfl, thiz, entries, hlist, rfl, hring, hitems⟩, hcalls⟩

theorem wp_push (hlist : s.mem.vars.list = some thiz) (hlive : s.thiz = .live)
    (hring : Ring s.mem.heap thiz.head entries) {addr data : Ptr} (haddr : addr ≠ NULL)
    (hfree : s.mem.heap.cell addr = none) {post : ℤ → State → Prop}
    (hpost : ∀ h' entries', Ring h' thiz.head entries' →
      d.order (entries'.map Prod.snd) = d.order (entries.map Prod.snd) ++ [data] →
      post 0 ⟨⟨h', s.mem.vars⟩, s.thiz⟩) : wp (push d.insert addr data) post s := by
  unfold push
  simp only [wp_bind, wp_isNull hlive, hlist, Option.isNone_some, Bool.false_eq_true, wp_ite,
    if_false, wp_list, hlive, true_and, wp_onList, wp_pure]
  rw [← hlive]
  cases d with
  | fifo =>
    apply wp_addtail hring haddr hfree
    intro h' hring'
    exact hpost h' _ hring' (by simp [Discipline.order])
  | lifo =>
    apply wp_addhead hring haddr hfree
    intro h' hring'
    exact hpost h' _ hring' (by simp [Discipline.order])

/-- The first entry leaves, if there is one. -/
theorem wp_onList_delhead (hlist : s.mem.vars.list = some thiz)
    (hring : Ring s.mem.heap thiz.head entries) {post : Unit → State → Prop}
    (hpost : ∀ h', Ring h' thiz.head entries.tail → post () ⟨⟨h', { s.mem.vars with
      calls := s.mem.vars.calls ++
        releasedAll thiz.ddfunc (entries.map Prod.snd).head?.toList }⟩, s.thiz⟩) :
    wp (onList (delhead s.mem.vars.list)) post s := by
  rw [wp_onList, hlist]
  apply wp_delhead hring
  · rintro rfl
    simpa [releasedAll] using hpost s.mem.heap hring
  · rintro p d ys h' rfl hring'
    simpa [releasedAll] using hpost h' hring'

/-- **Every call does what the discipline says.** -/
theorem wp_run (hrep : Represents d ddfunc s (some items)) {op : Op} (hop : Allowed s items op) :
    wp (op.run d) (Achieves d ddfunc items s op) s := by
  obtain ⟨hlive, thiz, entries, hlist, rfl, hring, rfl⟩ := hrep
  rw [Op.run_eq]
  have hhead : (entries.map Prod.snd).headD NULL =
      (d.next (d.order (entries.map Prod.snd))).getD NULL := by
    rw [d.next_order, List.headD_eq_head?_getD]
  cases op with
  | push addr data =>
    simp only [wp_bind, wp_pure]
    apply wp_push hlist hlive hring hop.1 hop.2
    intro h' entries' hring' hitems
    rw [hlive]
    exact achieves_of_ring rfl hlist hring' hitems (List.append_nil _).symm
  | pop =>
    unfold pop
    simp only [wp_bind, wp_isNull hlive, hlist, Option.isNone_some, Bool.false_eq_true, wp_ite,
      if_false, wp_list, hlive, true_and, wp_pure]
    rw [← hlist]
    apply wp_onList_delhead hlist hring
    intro h' hring'
    rw [hlive]
    exact achieves_of_ring rfl hlist hring' (by rw [d.rest_order, List.map_tail])
      (by simp only [called, d.next_order])
  | pop1 =>
    unfold pop1
    simp only [wp_bind, wp_isNull hlive, hlist, Option.isNone_some, Bool.false_eq_true, wp_ite,
      if_false, wp_list, hlive, true_and, wp_pure]
    rw [wp_onList]
    apply wp_gethead hring
    refine ⟨hlive, wp_onList_delhead (s := s) hlist hring fun h' hring' ↦ ?_⟩
    rw [hlive]
    exact achieves_of_ring (by rw [spec, hhead]) hlist hring' (by rw [d.rest_order, List.map_tail])
      (by simp only [called, d.next_order])
  | peek =>
    unfold peek
    simp only [wp_bind, wp_isNull hlive, hlist, Option.isNone_some, Bool.false_eq_true, wp_ite,
      if_false, wp_list, hlive, true_and, wp_pure, wp_onList]
    apply wp_gethead hring
    exact achieves_of_ring (by rw [spec, hhead]) hlist hring rfl (List.append_nil _).symm
  | size =>
    have hsmall : entries.length < 2 ^ 31 := by simpa [Allowed] using hop
    unfold size
    simp only [wp_bind, wp_isNull hlive, hlist, Option.isNone_some, Bool.false_eq_true, wp_ite,
      if_false, wp_list, hlive, true_and, wp_pure, wp_onList]
    apply wp_size hring hsmall
    exact achieves_of_ring (by simp [spec]) hlist hring rfl (List.append_nil _).symm
  | destroy =>
    unfold destroy
    simp only [wp_bind, Program.wp_get, hlive, ne_eq, reduceCtorEq, not_false_eq_true, wp_ite,
      if_true, wp_list, hlist, Option.isSome_some, true_and, wp_onList, wp_setBlock, wp_pure]
    apply wp_destroy hlist hring
    intro h' hlive'
    exact ⟨rfl, ⟨rfl, hlive'⟩, by simp only [called, d.order_order]⟩
  | destroy1 f =>
    unfold destroy1
    simp only [wp_bind, Program.wp_get, hlive, ne_eq, reduceCtorEq, not_false_eq_true, wp_ite,
      if_true, wp_list, hlist, Option.isSome_some, true_and, wp_onList, wp_setBlock, wp_pure]
    apply wp_foreach_call hring
    · intro hne
      apply hop
      cases d <;> simpa [Discipline.order] using hne
    · intro result
      have hcalled : (Vars.mk s.mem.vars.list (s.mem.vars.calls ++
          entries.map fun e ↦ (f, e.2)) s.mem.vars.compared).list = some thiz := hlist
      apply wp_destroy (m := ⟨s.mem.heap, _⟩) hcalled hring
      intro h' hlive'
      refine ⟨rfl, ⟨rfl, hlive'⟩, ?_⟩
      simp only [called, d.order_order, List.map_map, List.append_assoc]
      rfl

/-- A call that has an outcome was allowed. -/
theorem allowed_of_wp (hrep : Represents d ddfunc s (some items)) {op : Op}
    {post : Result → State → Prop} (h : wp (op.run d) post s) : Allowed s items op := by
  obtain ⟨hlive, thiz, entries, hlist, rfl, hring, rfl⟩ := hrep
  rw [Op.run_eq] at h
  cases op with
  | push addr data =>
    unfold push at h
    simp only [wp_bind, wp_isNull hlive, hlist, Option.isNone_some, Bool.false_eq_true, wp_ite,
      if_false, wp_list, hlive, true_and, wp_onList] at h
    cases d with
    | fifo =>
      simp only [Discipline.insert, addtail, wp_bind] at h
      exact fresh_of_wp_createNode h
    | lifo =>
      simp only [Discipline.insert, addhead, wp_bind] at h
      exact fresh_of_wp_createNode h
  | size =>
    unfold size at h
    simp only [wp_bind, wp_isNull hlive, hlist, Option.isNone_some, Bool.false_eq_true, wp_ite,
      if_false, wp_list, hlive, true_and, wp_onList] at h
    have hsmall := small_of_wp_size hring h
    simpa [Allowed] using hsmall
  | destroy1 f =>
    unfold destroy1 at h
    simp only [wp_bind, Program.wp_get, hlive, ne_eq, reduceCtorEq, not_false_eq_true, wp_ite,
      if_true, wp_list, hlist, Option.isSome_some, true_and, wp_onList] at h
    intro hne
    apply ne_null_of_wp_foreach_call hring h
    rintro rfl
    simp at hne
  | _ => trivial

/-- Whatever a call answers and leaves behind is what the discipline says. -/
theorem achieves_of_outcome (hrep : Represents d ddfunc s (some items)) {op : Op} {result : Result}
    {s' : State} (hrun : (op.run d).run s = some (result, s')) :
    Achieves d ddfunc items s op result s' := by
  have hwp : wp (op.run d) (fun _ _ ↦ True) s := ⟨_, _, hrun, trivial⟩
  exact wp_outcome (wp_run hrep (allowed_of_wp hrep hwp)) hrun

/-- The pointer to a destroyed container cannot be used. -/
theorem not_wp_of_freed (hfreed : s.thiz = .freed) {op : Op} {post : Result → State → Prop} :
    ¬wp (op.run d) post s := by
  rw [Op.run_eq]
  cases op <;> simp [push, pop, pop1, peek, size, destroy, destroy1, isNull, hfreed, Program.wp_get]

/-! ## Runs -/

/-- The items that are present, in the order in which they arrived. -/
def present (d : Discipline) (s : State) : Option (List Ptr) :=
  if s.thiz = .live then (itemsOf s.mem).map d.order else none

theorem present_eq {items : Option (List Ptr)} (hrep : Represents d ddfunc s items) :
    present d s = items := by
  unfold present
  cases items with
  | some items =>
    obtain ⟨hlive, thiz, entries, hlist, rfl, hring, rfl⟩ := hrep
    rw [if_pos hlive, hring.itemsOf_eq hlist, Option.map_some]
  | none => simp [hrep.1]

def Step (d : Discipline) (label : Op × Result) (s s' : State) : Prop :=
  (label.1.run d).run s = some (label.2, s')

/-- **One step** follows the discipline, and calls the functions that it says. -/
theorem step_follows {items : Option (List Ptr)} {label : Op × Result} {s' : State}
    (hrep : Represents d ddfunc s items) (hstep : Step d label s s') :
    ∃ held items', items = some held ∧ spec d held label.1 = (label.2, items') ∧
      Represents d ddfunc s' items' ∧
      s'.mem.vars.calls = s.mem.vars.calls ++ called d ddfunc held label.1 := by
  cases items with
  | some held =>
    obtain ⟨hresult, hrep', hcalls⟩ := achieves_of_outcome hrep hstep
    exact ⟨held, _, rfl, by rw [hresult], hrep', hcalls⟩
  | none =>
    have hwp : wp (label.1.run d) (fun _ _ ↦ True) s := ⟨_, _, hstep, trivial⟩
    exact absurd hwp (not_wp_of_freed hrep.1)

/-- **Every run follows the discipline.** -/
theorem run_follows {items : Option (List Ptr)} {labels : List (Op × Result)} {s' : State}
    (hrep : Represents d ddfunc s items) (hrun : Run (Step d) labels s s') :
    ∃ items', Run (SpecStep d) labels items items' ∧ Represents d ddfunc s' items' := by
  have hsim (label : Op × Result) (s s' : State) (items : Option (List Ptr))
      (hrel : Represents d ddfunc s items) (hstep : Step d label s s') :
      ∃ items', SpecStep d label items items' ∧ Represents d ddfunc s' items' := by
    obtain ⟨held, items', hheld, hspec, hrep', -⟩ := step_follows hrel hstep
    exact ⟨items', ⟨held, hheld, hspec⟩, hrep'⟩
  exact hrun.simulation _ hsim hrep

def start : State := ⟨Zlist.start, .null⟩

/-- A container that was made is empty. -/
theorem represents_create {block handle : Bool} {addr : Ptr}
    (hcreate : (d.create block handle addr ddfunc).run start = some ((), s))
    (hmade : s.thiz ≠ .null) :
    Represents d ddfunc s (some []) ∧ s.mem.vars.calls = [] := by
  have hwp : wp (d.create block handle addr ddfunc) (fun _ s' ↦ s' = s) start :=
    ⟨_, _, hcreate, rfl⟩
  rw [d.create_eq] at hwp
  unfold create at hwp
  rw [wp_ite] at hwp
  split at hwp
  · simp only [wp_bind, wp_setBlock, wp_onList] at hwp
    obtain ⟨⟨⟩, mem, hlist, hrest⟩ := hwp
    obtain rfl : handle = true := by
      have hdone : wp (Zlist.create handle addr ddfunc) (fun _ _ ↦ True) Zlist.start :=
        ⟨_, _, hlist, trivial⟩
      unfold Zlist.create at hdone
      rw [wp_bind, wp_require] at hdone
      exact hdone.1
    obtain ⟨hsound, hitems, hcalls⟩ := sound_create hlist
    unfold Sound at hsound
    split at hsound
    · next thiz hthiz =>
      obtain ⟨hddfunc, entries, hring⟩ := hsound
      rw [hring.itemsOf_eq hthiz, Option.some_inj] at hitems
      simp only [wp_list, hthiz, Option.isNone_some, Bool.false_eq_true, if_false, wp_ite,
        wp_pure, true_and] at hrest
      rw [← hrest]
      exact ⟨⟨rfl, thiz, entries, hthiz, hddfunc, hring, by rw [hitems, d.order_nil]⟩, hcalls⟩
    · next hnone => simp [itemsOf, hnone] at hitems
  · simp only [wp_setBlock] at hwp
    rw [← hwp] at hmade
    exact absurd rfl hmade

end

end Zbaselib.Container
