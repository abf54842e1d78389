import Zbaselib.Rbtree.Interface
import Zbaselib.Lib.Transition

/-!
# Runs of the red-black tree

A client calls the interface functions in any order.  Every reachable state is
a balanced search tree, and the in-order sequence behaves like a stable sorted
list.
-/

namespace Zbaselib.Rbtree

open Program Memory RedBlack Transition

/-- Addresses of nodes that can be reached from the root through child pointers. -/
inductive Reachable (m : State) : Ptr → Prop
  | root (h : m.vars.root ≠ m.vars.sentinel) : Reachable m m.vars.root
  | child {p : Ptr} {n : Node} (side : Side) (h : Reachable m p) (hn : m.heap.cell p = some n)
      (hc : n.child side ≠ m.vars.sentinel) : Reachable m (n.child side)

/-- A call with its arguments; `remove` is `delete` and `free` of one node, as `popmin` and
`delnode` do it.  The address of a new node is the allocator's answer. -/
inductive Call
  | push (addr key : Ptr)
  | popmin
  | remove (addr : Ptr)
  | getmin
  | getmax
  | find (key : Ptr)
  | delnode (key : Ptr)

inductive Result
  | void
  | ptr (p : Ptr)
  | int (n : ℤ)
  deriving DecidableEq

def Call.run (cmp : CompareFunc) : Call → TreeCmd Result
  | .push addr key => do Rbtree.push cmp addr key; return .void
  | .popmin => return .ptr (← Rbtree.popmin)
  | .remove addr => do delete addr; free addr; return .void
  | .getmin => return .ptr (← Rbtree.getmin)
  | .getmax => return .ptr (← Rbtree.getmax)
  | .find key => return .ptr (← Rbtree.find cmp key)
  | .delnode key => return .int (← Rbtree.delnode cmp key)

/-- The allocator hands out a free address. -/
def Free (m : State) (addr : Ptr) : Prop := addr ≠ NULL ∧ m.heap.cell addr = none

/-- `zbaselib_rbtree_init` returned a tree, whatever else lies in the heap. -/
def Initial (m : State) : Prop :=
  ∃ addr before, Free before addr ∧ (init addr).run before = some ((), m)

theorem Initial.rep {m : State} (h : Initial m) : Rep m .leaf := by
  obtain ⟨addr, before, ⟨haddr, hfree⟩, hrun⟩ := h
  have hrep := wp_outcome (wp_init haddr hfree) hrun
  exact hrep

theorem Holds.reachable_path {m : State} {top scratch : Ptr} {path : Path Entry} {t : RBTree Entry}
    (h : Holds m top scratch (path.plug t)) (ht : t ≠ .leaf) :
    Reachable m (ptr m.vars.sentinel t) := by
  have hne {q : Path Entry} {t : RBTree Entry} (h : Holds m top scratch (q.plug t))
      (ht : t ≠ .leaf) : ptr m.vars.sentinel t ≠ m.vars.sentinel := fun heq ↦
    h.fresh (mem_addrs_plug.2 (.inl (heq ▸ ptr_mem_addrs (s := m.vars.sentinel) ht)))
  induction path generalizing t with
  | nil =>
    have hroot : m.vars.root = ptr m.vars.sentinel t := h.root
    rw [← hroot]
    exact .root (hroot ▸ hne (q := []) h ht)
  | cons f rest ih =>
    have hcell := Holds.cell (q := rest) h
    have hparent := ih h (fill_ne_leaf f t)
    rw [ptr_fill] at hparent
    have hchild := Reachable.child f.side hparent hcell (by
      rw [Node.child_branch]
      exact hne h ht)
    rwa [Node.child_branch] at hchild

/-- The reachable nodes are the nodes of the tree. -/
theorem Holds.reachable_iff {m : State} {top scratch a : Ptr} {t : RBTree Entry}
    (h : Holds m top scratch t) : Reachable m a ↔ a ∈ addrs t := by
  constructor
  · intro hreach
    induction hreach with
    | root hroot =>
      rw [h.root] at hroot ⊢
      exact ptr_mem_addrs fun hleaf ↦ hroot (by rw [hleaf, ptr_leaf])
    | child side _ hn hc ih =>
      obtain ⟨path, near, c, e, far, rfl, rfl⟩ := exists_branch_of_mem side ih
      have hcell := h.cell
      rw [hn, Option.some.injEq] at hcell
      rw [hcell, Node.child_branch] at hc ⊢
      refine mem_addrs_plug.2 (.inl (mem_addrs_branch.2 (.inr (.inl (ptr_mem_addrs ?_)))))
      exact fun hleaf ↦ hc (by rw [hleaf, ptr_leaf])
  · intro hmem
    obtain ⟨path, near, c, e, far, rfl, rfl⟩ := exists_branch_of_mem .left hmem
    exact h.reachable_path (RBTree.branch_ne_leaf _ _ _ _ _)

/-! ## Steps -/

/-- One call that a client may make, with its result. -/
def Step (cmp : CompareFunc) (allowed : State → Call → Prop) (label : Call × Result)
    (m m' : State) : Prop :=
  allowed m label.1 ∧ (label.1.run cmp).run m = some (label.2, m')

/-- Every call that is allowed and meets its postcondition is a step to a state that meets it. -/
theorem Step.of_wp {cmp : CompareFunc} {allowed : State → Call → Prop} {m : State} {call : Call}
    {post : Result → State → Prop} (hallowed : allowed m call)
    (h : wp (call.run cmp) post m) :
    ∃ result m', Step cmp allowed (call, result) m m' ∧ post result m' := by
  obtain ⟨result, m', hrun, hpost⟩ := h
  exact ⟨result, m', ⟨hallowed, hrun⟩, hpost⟩

/-- The counter has room for what the call adds. -/
def Fits (m : State) : Call → Prop
  | .push _ _ => m.vars.size + 1 < 2 ^ 31
  | _ => True

theorem Rep.compares {cmp : CompareFunc} {isKey : Ptr → Prop} {t : RBTree Entry} {key : Ptr}
    (hcmp : TotalPreorder cmp isKey) (hkeys : ∀ e ∈ t.toList, isKey e.key) (hkey : isKey key) :
    Compares cmp key t :=
  fun e he ↦ hcmp.defined hkey (hkeys e he)

/-- A call that returned has counted what it added. -/
theorem Rep.fits {cmp : CompareFunc} {m m' : State} {t : RBTree Entry} {call : Call}
    {result : Result} (h : Rep m t)
    (hpush : ∀ addr key, call = .push addr key → Free m addr ∧ Compares cmp key t)
    (hrun : (call.run cmp).run m = some (result, m')) : Fits m call := by
  cases call with
  | push addr key =>
    obtain ⟨hfree, hcompares⟩ := hpush addr key rfl
    have hwp : wp (Call.run cmp (.push addr key)) (fun _ _ ↦ True) m := ⟨_, _, hrun, trivial⟩
    simp only [Call.run, wp_bind, wp_pure] at hwp
    obtain ⟨⟨⟩, after, hafter, -⟩ := hwp
    exact h.room_of_push hfree.1 hfree.2 hcompares hafter
  | popmin | remove | getmin | getmax | find | delnode => trivial

/-! ## Balance and order -/

/-- The calls that change the tree: insertions of keys, and removals of nodes of the tree. -/
def Mutation (m : State) : Call → Prop
  | .push addr key => Free m addr ∧ key ≠ NULL
  | .popmin => True
  | .remove addr => Reachable m addr
  | _ => False

/-- The records reachable from the root are a red-black search tree. -/
structure WellFormed (cmp : CompareFunc) (m : State) (t : RBTree Entry) : Prop where
  root : m.vars.root = ptr m.vars.sentinel t
  tree : ∃ top, TreeAt m.heap m.vars.sentinel top t
  reachable : ∀ a, Reachable m a ↔ a ∈ addrs t
  distinct : (addrs t).Nodup
  leaves : m.vars.sentinel ∉ addrs t
  rootBlack : t.color = .black
  sentinelBlack : ∃ n, m.heap.cell m.vars.sentinel = some n ∧ n.color = .black
  noRedRed : t.NoRedRed
  blackHeight : ∃ n, t.BlackHeight n
  sorted : Sorted cmp t.toList
  size : m.vars.size = t.toList.length

theorem Rep.wellFormed {cmp : CompareFunc} {m : State} {t : RBTree Entry} (h : Rep m t)
    (hsorted : Sorted cmp t.toList) : WellFormed cmp m t := by
  obtain ⟨⟨top, scratch, hholds⟩, ⟨hheight, hno, hroot⟩, hsize⟩ := h
  exact ⟨hholds.root, ⟨top, hholds.tree⟩, fun _ ↦ hholds.reachable_iff, hholds.nodup,
    hholds.fresh, hroot, ⟨_, hholds.sentinel, rfl⟩, hno, hheight, hsorted, hsize⟩

/-- A search tree over the given keys. -/
structure SearchTree (cmp : CompareFunc) (isKey : Ptr → Prop) (m : State) (t : RBTree Entry) :
    Prop where
  rep : Rep m t
  sorted : Sorted cmp t.toList
  keys : ∀ e ∈ t.toList, isKey e.key

section

variable {cmp : CompareFunc} {isKey : Ptr → Prop} {m m₀ : State} {t : RBTree Entry}

theorem SearchTree.push (hcmp : TotalPreorder cmp isKey) (h : SearchTree cmp isKey m t)
    {addr key : Ptr} (hfree : Free m addr) (hkey : isKey key) (hroom : m.vars.size + 1 < 2 ^ 31) :
    wp (push cmp addr key) (fun _ m' ↦ ∃ before after, t.toList = before ++ after ∧
      (∀ e ∈ before, Le cmp e.key key) ∧ (∀ e ∈ after, Lt cmp key e.key) ∧
        ∃ t', t'.toList = before ++ ⟨addr, key⟩ :: after ∧ SearchTree cmp isKey m' t' ∧
          Allocated addr m m') m := by
  obtain ⟨hrep, hsorted, hkeys⟩ := h
  have hmono := goLeft_mono hcmp hkey hkeys hsorted
  have hsplit : t.toList =
      t.toList.filter (fun e ↦ !goLeft cmp key e) ++ t.toList.filter (goLeft cmp key) :=
    (filter_append_filter hmono).symm
  apply wp_mono (wp_push_rep hrep hfree.1 hfree.2 (Rep.compares hcmp hkeys hkey) hroom)
  rintro - m' ⟨h', halloc⟩
  have hlist : (insertTree (goLeft cmp key) t ⟨addr, key⟩).toList = _ := toList_insertTree hmono
  have hbefore : ∀ e ∈ t.toList.filter (fun e ↦ !goLeft cmp key e), Le cmp e.key key := by
    intro e he
    obtain ⟨he, hleft⟩ := List.mem_filter.1 he
    refine le_of_not_lt hcmp hkey (hkeys e he) fun hlt ↦ ?_
    rw [(goLeft_iff hcmp hkey (hkeys e he)).2 hlt] at hleft
    cases hleft
  have hafter : ∀ e ∈ t.toList.filter (goLeft cmp key), Lt cmp key e.key := fun e he ↦
    (goLeft_iff hcmp hkey (hkeys e (List.mem_filter.1 he).1)).1 (List.mem_filter.1 he).2
  refine ⟨_, _, hsplit, hbefore, hafter, _, hlist, ⟨h', ?_, ?_⟩, halloc⟩
  · rw [hlist]
    exact Sorted.insert (hsplit ▸ hsorted) hbefore hafter
  · rw [hlist]
    intro e he
    rcases List.mem_append.1 he with he | he
    · exact hkeys e (List.mem_filter.1 he).1
    rcases List.mem_cons.1 he with rfl | he
    · exact hkey
    · exact hkeys e (List.mem_filter.1 he).1

theorem SearchTree.fits (hcmp : TotalPreorder cmp isKey) (h : SearchTree cmp isKey m t)
    {call : Call} {result : Result} {m' : State}
    (hpush : ∀ addr key, call = .push addr key → Free m addr ∧ isKey key)
    (hrun : (call.run cmp).run m = some (result, m')) : Fits m call :=
  h.rep.fits (fun addr key heq ↦ (hpush addr key heq).imp_right (Rep.compares hcmp h.keys)) hrun

/-- Removing elements keeps a search tree. -/
theorem SearchTree.of_sublist {m' : State} {t' : RBTree Entry} (h : SearchTree cmp isKey m t)
    (hrep : Rep m' t') (hsub : t'.toList.Sublist t.toList) : SearchTree cmp isKey m' t' :=
  ⟨hrep, h.sorted.sublist hsub, fun e he ↦ h.keys e (hsub.mem he)⟩

theorem SearchTree.remove (h : SearchTree cmp isKey m t) {addr : Ptr} (ha : Reachable m addr) :
    wp (do delete addr; free addr) (fun _ m' ↦ ∃ t', SearchTree cmp isKey m' t') m := by
  obtain ⟨top, scratch, hholds⟩ := h.rep.holds
  obtain ⟨path, left, c, e, right, rfl, rfl⟩ :=
    exists_branch_of_mem .left (hholds.reachable_iff.1 ha)
  refine wp_remove h.rep fun m' h' _ ↦ ⟨_, h.of_sublist h' ?_⟩
  rw [toList_deleteNode, Path.toList_plug]
  simp [RBTree.branch]

theorem SearchTree.step (hcmp : TotalPreorder cmp (· ≠ NULL))
    (h : SearchTree cmp (· ≠ NULL) m t) {call : Call} (hcall : Mutation m call)
    (hfits : Fits m call) :
    wp (call.run cmp) (fun _ m' ↦ ∃ t', SearchTree cmp (· ≠ NULL) m' t') m := by
  cases call with
  | push addr key =>
    simp only [Call.run, wp_bind, wp_pure]
    apply wp_mono (h.push hcmp hcall.1 hcall.2 hfits)
    rintro - m' ⟨-, -, -, -, -, t', -, h', -⟩
    exact ⟨t', h'⟩
  | popmin =>
    simp only [Call.run, wp_bind, wp_pure]
    apply wp_mono (wp_popmin h.rep)
    rintro - m' ⟨-, -, t', h', htail, -⟩
    refine ⟨t', h.of_sublist h' ?_⟩
    exact htail ▸ List.tail_sublist _
  | remove addr =>
    have hremove := h.remove hcall
    simp only [Call.run, wp_bind, wp_pure] at hremove ⊢
    exact hremove
  | getmin | getmax | find | delnode => exact hcall.elim

theorem SearchTree.fits_of_mutation (hcmp : TotalPreorder cmp (· ≠ NULL))
    (h : SearchTree cmp (· ≠ NULL) m t) {call : Call} {result : Result} {m' : State}
    (hcall : Mutation m call) (hrun : (call.run cmp).run m = some (result, m')) : Fits m call := by
  refine h.fits hcmp (fun addr key heq ↦ ?_) hrun
  subst heq
  exact hcall

theorem Initial.searchTree (hinit : Initial m₀) : SearchTree cmp isKey m₀ .leaf :=
  ⟨hinit.rep, .nil, by simp⟩

theorem searchTree_of_run (hcmp : TotalPreorder cmp (· ≠ NULL)) {labels : List (Call × Result)}
    (hinit : Initial m₀) (hrun : Run (Step cmp Mutation) labels m₀ m) :
    ∃ t, SearchTree cmp (· ≠ NULL) m t := by
  apply hrun.invariant (fun m ↦ ∃ t, SearchTree cmp (· ≠ NULL) m t) _ ⟨.leaf, hinit.searchTree⟩
  rintro label m m' ⟨t, h⟩ hstep
  exact wp_outcome (h.step hcmp hstep.1 (h.fits_of_mutation hcmp hstep.1 hstep.2)) hstep.2

/-- **Every reachable state is a red-black search tree**, and every call on it returns that does not
overflow the counter. -/
theorem reachable_wellFormed (hcmp : TotalPreorder cmp (· ≠ NULL)) {labels : List (Call × Result)}
    (hinit : Initial m₀) (hrun : Run (Step cmp Mutation) labels m₀ m) :
    (∃ t, WellFormed cmp m t) ∧
      ∀ call, Mutation m call → Fits m call →
        ∃ result m', Step cmp Mutation (call, result) m m' := by
  obtain ⟨t, h⟩ := searchTree_of_run hcmp hinit hrun
  refine ⟨⟨t, h.rep.wellFormed h.sorted⟩, fun call hcall hfits ↦ ?_⟩
  obtain ⟨result, m', hstep, -⟩ := Step.of_wp hcall (h.step hcmp hcall hfits)
  exact ⟨result, m', hstep⟩

end

/-- Numbers, compared by their tens: `31` and `35` are equal. -/
def decades : CompareFunc := fun a b ↦ some ((a / 10 : ℕ) - (b / 10 : ℕ) : ℤ)

theorem decades_totalPreorder (isKey : Ptr → Prop) : TotalPreorder decades isKey where
  defined _ _ := rfl
  swap _ _ := by simp only [Lt, Le, decades, Option.some.injEq, exists_eq_left']; omega
  trans _ _ _ := by simp only [Le, decades, Option.some.injEq, exists_eq_left']; omega

def blank : State := ⟨Heap.empty, ⟨NULL, NULL, 0⟩⟩

theorem mutation_run : ∃ m₀ m, Initial m₀ ∧ Run (Step decades Mutation)
    [(.push 100 31, .void), (.push 101 12, .void), (.push 102 35, .void), (.remove 100, .void),
      (.popmin, .ptr 12)] m₀ m :=
  ⟨_, _, ⟨1, blank, ⟨by decide, rfl⟩, rfl⟩,
    .cons ⟨⟨⟨by decide, rfl⟩, by decide⟩, rfl⟩
      (.cons ⟨⟨⟨by decide, rfl⟩, by decide⟩, rfl⟩
        (.cons ⟨⟨⟨by decide, rfl⟩, by decide⟩, rfl⟩
          (.cons ⟨.root (by decide), rfl⟩ (.cons ⟨trivial, rfl⟩ (.nil _)))))⟩

theorem reachable_wellFormed_decades : ∃ m₀ m, Initial m₀ ∧ Run (Step decades Mutation)
    [(.push 100 31, .void), (.push 101 12, .void), (.push 102 35, .void), (.remove 100, .void),
      (.popmin, .ptr 12)] m₀ m ∧ ∃ t, WellFormed decades m t := by
  obtain ⟨m₀, m, hinit, hrun⟩ := mutation_run
  exact ⟨m₀, m, hinit, hrun, (reachable_wellFormed (decades_totalPreorder _) hinit hrun).1⟩

/-! ## The largest tree -/

/-- Insertions of `n` keys. -/
def longLabels (n : ℕ) : List (Call × Result) :=
  (List.range n).map fun i ↦ (.push (i + 2) 20, .void)

/-- `n` keys are inserted, where inserting this key is always allowed. -/
theorem long_run {allowed : State → Call → Prop}
    (hallowed : ∀ m addr, Free m addr → allowed m (.push addr 20)) {n : ℕ} (hn : n < 2 ^ 31) :
    ∃ m₀ m, (init 1).run blank = some ((), m₀) ∧
      Run (Step decades allowed) (longLabels n) m₀ m ∧
        (∃ t, SearchTree decades (fun _ ↦ True) m t) ∧ m.vars.size = n ∧
          ∀ a, n + 1 < a → m.heap.cell a = none := by
  induction n with
  | zero =>
    have hinit : Initial ⟨_, ⟨1, 1, 0⟩⟩ := ⟨1, blank, ⟨by decide, rfl⟩, rfl⟩
    refine ⟨_, _, rfl, .nil _, ⟨.leaf, hinit.searchTree⟩, rfl, fun a ha ↦ ?_⟩
    have hne : a ≠ 1 := by omega
    rw [Heap.cell_update_of_ne _ _ hne, Heap.cell_insert_of_ne _ _ hne]
    rfl
  | succ n ih =>
    obtain ⟨m₀, m, hinit, hrun, ⟨t, h⟩, hsize, hnone⟩ := ih (by omega)
    have hfree : Free m (n + 2) := ⟨by simp, hnone _ (by omega)⟩
    obtain ⟨⟨⟩, m', hpush, before, after, hlist, -, -, t', hlist', h', halloc⟩ :=
      h.push (decades_totalPreorder _) hfree (trivial : (fun _ ↦ True) (20 : Ptr)) (by omega)
    have hstep : Step decades allowed (.push (n + 2) 20, .void) m m' :=
      ⟨hallowed m _ hfree, by rw [Call.run, StateT.run_bind, hpush]; rfl⟩
    refine ⟨m₀, m', hinit, ?_, ⟨t', h'⟩, ?_, fun a ha ↦ ?_⟩
    · have hnext := hrun.append (.cons hstep (.nil m'))
      unfold longLabels at hnext ⊢
      rwa [List.range_succ, List.map_append]
    · rw [h.rep.size, hlist] at hsize
      rw [h'.rep.size, hlist']
      simp only [List.length_append, List.length_cons] at hsize ⊢
      omega
    · have hdom := halloc.dom a
      have hne : a ≠ n + 2 := by omega
      simpa [hnone a (by omega), hne] using hdom

/-- A tree whose counter is full takes no further key. -/
theorem SearchTree.not_run_push {cmp : CompareFunc} {isKey : Ptr → Prop} {m : State}
    {t : RBTree Entry} {addr key : Ptr} (hcmp : TotalPreorder cmp isKey)
    (h : SearchTree cmp isKey m t) (hfree : Free m addr) (hkey : isKey key)
    (hfull : m.vars.size = 2 ^ 31 - 1) (result : Result) (m' : State) :
    ((Call.push addr key).run cmp).run m ≠ some (result, m') := by
  intro hrun
  have hfits : m.vars.size + 1 < 2 ^ 31 := h.fits hcmp
    (fun addr' key' heq ↦ by cases heq; exact ⟨hfree, hkey⟩) hrun
  omega

theorem exists_full {allowed : State → Call → Prop}
    (hallowed : ∀ m addr, Free m addr → allowed m (.push addr 20)) :
    ∃ m₀ m, (init 1).run blank = some ((), m₀) ∧
      Run (Step decades allowed) (longLabels (2 ^ 31 - 1)) m₀ m ∧ Free m (2 ^ 31 + 1) ∧
        ∀ result m', ¬Step decades allowed (.push (2 ^ 31 + 1) 20, result) m m' := by
  obtain ⟨m₀, m, hinit, hrun, ⟨t, h⟩, hsize, hnone⟩ :=
    long_run hallowed (show 2 ^ 31 - 1 < 2 ^ 31 by norm_num)
  have hfree : Free m (2 ^ 31 + 1) := ⟨by norm_num, hnone _ (by norm_num)⟩
  have hfull : m.vars.size = 2 ^ 31 - 1 := by rw [hsize]; norm_num
  exact ⟨m₀, m, hinit, hrun, hfree, fun result m' hstep ↦
    h.not_run_push (decades_totalPreorder _) hfree trivial hfull result m' hstep.2⟩

/-- **The counter overflows at `2 ^ 31` nodes.** -/
theorem not_reachable_wellFormed : ∃ m₀ m, Initial m₀ ∧
    Run (Step decades Mutation) (longLabels (2 ^ 31 - 1)) m₀ m ∧
      Mutation m (.push (2 ^ 31 + 1) 20) ∧
        ∀ result m', ¬Step decades Mutation (.push (2 ^ 31 + 1) 20, result) m m' := by
  obtain ⟨m₀, m, hinit, hrun, hfree, hnone⟩ := @exists_full Mutation
    fun _ _ hfree ↦ ⟨hfree, by decide⟩
  exact ⟨m₀, m, ⟨1, blank, ⟨by decide, rfl⟩, hinit⟩, hrun, ⟨hfree, by decide⟩, hnone⟩

/-! ## A sorted sequence -/

/-- The calls of a client; it uses no key that the comparator equates with `NULL`. -/
def Client (cmp : CompareFunc) (m : State) : Call → Prop
  | .push addr key => Free m addr ∧ key ≠ NULL ∧ ¬Equiv cmp NULL key
  | .find key | .delnode key => key ≠ NULL ∧ ¬Equiv cmp NULL key
  | .popmin | .getmin | .getmax => True
  | .remove _ => False

/-- A stable sorted sequence: what each call returns and makes of the sequence. -/
inductive Spec (cmp : CompareFunc) : Call × Result → List Entry → List Entry → Prop
  | push {addr key : Ptr} {before after : List Entry}
      (hbefore : ∀ e ∈ before, Le cmp e.key key) (hafter : ∀ e ∈ after, Lt cmp key e.key) :
      Spec cmp (.push addr key, .void) (before ++ after) (before ++ ⟨addr, key⟩ :: after)
  | popmin (l : List Entry) : Spec cmp (.popmin, .ptr (firstKey l)) l l.tail
  | getmin (l : List Entry) : Spec cmp (.getmin, .ptr (firstKey l)) l l
  | getmax (l : List Entry) : Spec cmp (.getmax, .ptr (lastKey l)) l l
  | find {key : Ptr} {l : List Entry} {e : Entry} (he : e ∈ l) (hequiv : Equiv cmp e.key key)
      (hnull : e.addr ≠ NULL) : Spec cmp (.find key, .ptr e.addr) l l
  | findNone {key : Ptr} {l : List Entry} (hnone : ∀ e ∈ l, ¬Equiv cmp e.key key) :
      Spec cmp (.find key, .ptr NULL) l l
  | delnode {key : Ptr} {before after : List Entry} {e : Entry} (hequiv : Equiv cmp e.key key) :
      Spec cmp (.delnode key, .int 0) (before ++ e :: after) (before ++ after)
  | delnodeNone {key : Ptr} {l : List Entry} (hnone : ∀ e ∈ l, ¬Equiv cmp e.key key) :
      Spec cmp (.delnode key, .int (-1)) l l

/-- The calls, with their results, that leave the whole memory alone. -/
def ReadOnly : Call × Result → Prop
  | (.getmin, _) | (.getmax, _) | (.find _, _) | (.delnode _, .int (-1)) => True
  | _ => False

/-- The in-order sequence of the tree in memory. -/
def InOrder (m : State) (l : List Entry) : Prop := ∃ t, Rep m t ∧ t.toList = l

section

variable {cmp : CompareFunc} {m m₀ : State} {t : RBTree Entry}

/-- What one call of a client does to the tree in memory. -/
def Refines (cmp : CompareFunc) (m : State) (t : RBTree Entry) (call : Call) (result : Result)
    (m' : State) : Prop :=
  (∃ t', Spec cmp (call, result) t.toList t'.toList ∧
    SearchTree cmp (fun _ ↦ True) m' t') ∧ (ReadOnly (call, result) → m' = m)

theorem SearchTree.fits_of_client (hcmp : TotalPreorder cmp fun _ ↦ True)
    (h : SearchTree cmp (fun _ ↦ True) m t) {call : Call} {result : Result} {m' : State}
    (hcall : Client cmp m call) (hrun : (call.run cmp).run m = some (result, m')) :
    Fits m call := by
  refine h.fits hcmp (fun addr key heq ↦ ?_) hrun
  subst heq
  exact ⟨hcall.1, trivial⟩

theorem SearchTree.refines (hcmp : TotalPreorder cmp fun _ ↦ True)
    (h : SearchTree cmp (fun _ ↦ True) m t) {call : Call} (hcall : Client cmp m call)
    (hfits : Fits m call) : wp (call.run cmp) (Refines cmp m t call) m := by
  cases call with
  | push addr key =>
    simp only [Call.run, wp_bind, wp_pure]
    apply wp_mono (h.push hcmp hcall.1 trivial hfits)
    rintro - m' ⟨before, after, hsplit, hbefore, hafter, t', hlist, h', -⟩
    refine ⟨⟨t', ?_, h'⟩, False.elim⟩
    rw [hsplit, hlist]
    exact .push hbefore hafter
  | popmin =>
    simp only [Call.run, wp_bind, wp_pure]
    refine wp_mono (wp_popmin h.rep) ?_
    rintro - m' ⟨rfl, -, t', h', htail, -⟩
    refine ⟨⟨t', ?_, h.of_sublist h' (htail ▸ List.tail_sublist _)⟩, False.elim⟩
    rw [htail]
    exact .popmin _
  | remove addr => exact hcall.elim
  | getmin =>
    simp only [Call.run, wp_bind, wp_pure]
    refine wp_mono (wp_getmin h.rep) ?_
    rintro - m' ⟨hm, rfl⟩
    exact ⟨⟨t, .getmin _, hm ▸ h⟩, fun _ ↦ hm⟩
  | getmax =>
    simp only [Call.run, wp_bind, wp_pure]
    refine wp_mono (wp_getmax h.rep) ?_
    rintro - m' ⟨hm, rfl⟩
    exact ⟨⟨t, .getmax _, hm ▸ h⟩, fun _ ↦ hm⟩
  | find key =>
    simp only [Call.run, wp_bind, wp_pure]
    refine wp_find h.rep hcmp hcall.2 h.sorted (fun path c left e right hplug hequiv ↦ ?_)
      fun hnone ↦ ⟨⟨t, .findNone hnone, h⟩, fun _ ↦ rfl⟩
    obtain ⟨top, scratch, hholds⟩ := h.rep.holds
    rw [← hplug] at hholds
    refine ⟨⟨t, .find ?_ hequiv (Heap.ne_null_of_cell hholds.hole.1), h⟩, fun _ ↦ rfl⟩
    simp [← hplug, Path.toList_plug]
  | delnode key =>
    simp only [Call.run, wp_bind, wp_pure]
    refine wp_delnode h.rep hcmp hcall.1 hcall.2 h.sorted
      (fun before e after m' t' hlist hequiv h' hlist' ↦ ?_)
      fun hnone ↦ ⟨⟨t, .delnodeNone hnone, h⟩, fun _ ↦ rfl⟩
    refine ⟨⟨t', ?_, h.of_sublist h' ?_⟩, False.elim⟩
    · rw [hlist, hlist']
      exact .delnode hequiv
    · rw [hlist, hlist']
      simp

/-! ## Stable sorting -/

/-- `sorted` lists the keys in order, and equal keys as they came. -/
structure StableSort (cmp : CompareFunc) (keys sorted : List Ptr) : Prop where
  perm : sorted.Perm keys
  ordered : sorted.Pairwise (Le cmp)
  stable : ∀ key, sorted.filter (Equiv cmp key ·) = keys.filter (Equiv cmp key ·)

/-- Pushing the keys, each at its own address. -/
def pushLabels (pushes : List Entry) : List (Call × Result) :=
  pushes.map fun e ↦ (.push e.addr e.key, .void)

/-- Popping these keys. -/
def popLabels (keys : List Ptr) : List (Call × Result) := keys.map fun key ↦ (.popmin, .ptr key)

theorem filter_insert (hcmp : TotalPreorder cmp fun _ ↦ True) {before after : List Entry}
    {e : Entry} (hafter : ∀ e' ∈ after, Lt cmp e.key e'.key) (key : Ptr) :
    ((before ++ e :: after).map Entry.key).filter (Equiv cmp key ·) =
      ((before ++ after).map Entry.key).filter (Equiv cmp key ·) ++
        [e.key].filter (Equiv cmp key ·) := by
  by_cases hequiv : Equiv cmp key e.key
  · have hnone : (after.map Entry.key).filter (Equiv cmp key ·) = [] := by
      refine List.filter_eq_nil_iff.2 fun k hk hk' ↦ ?_
      obtain ⟨e', he', rfl⟩ := List.mem_map.1 hk
      have hle := ((equiv_iff hcmp trivial trivial).1 hequiv).1
      exact not_equiv_of_lt hcmp trivial trivial trivial hle (hafter e' he') (by simpa using hk')
    simp [hequiv, hnone]
  · simp [hequiv]

/-- The sequence after a run of pushes. -/
theorem Spec.pushes (hcmp : TotalPreorder cmp fun _ ↦ True) {pushes l l' : List Entry}
    (hrun : Run (Spec cmp) (pushLabels pushes) l l') (hl : Sorted cmp l) :
    Sorted cmp l' ∧ (l'.map Entry.key).Perm ((l ++ pushes).map Entry.key) ∧
      ∀ key, (l'.map Entry.key).filter (Equiv cmp key ·) =
        ((l ++ pushes).map Entry.key).filter (Equiv cmp key ·) := by
  induction pushes generalizing l with
  | nil =>
    cases hrun
    simpa using hl
  | cons e pushes ih =>
    cases hrun with
    | cons head tail =>
      cases head with
      | @push _ _ before after hbefore hafter =>
        obtain ⟨hsorted, hperm, hstable⟩ := ih tail (hl.insert hbefore hafter)
        refine ⟨hsorted, hperm.trans (List.Perm.map _ ?_), fun key ↦ ?_⟩
        · simpa using List.perm_middle.symm.append_left before
        · rw [hstable key, List.map_append, List.filter_append, filter_insert hcmp hafter key,
            List.append_assoc, ← List.filter_append, ← List.filter_append]
          simp

/-- A run of `popmin` returns the keys from the front. -/
theorem Spec.pops {keys : List Ptr} {l l' : List Entry}
    (hrun : Run (Spec cmp) (popLabels keys) l l') (hlen : keys.length = l.length) :
    keys = l.map Entry.key := by
  induction keys generalizing l with
  | nil =>
    have hl : l = [] := List.eq_nil_of_length_eq_zero hlen.symm
    rw [hl]
    rfl
  | cons key keys ih =>
    cases l with
    | nil => cases hlen
    | cons e l =>
      cases hrun with
      | cons head tail =>
        cases head with
        | popmin => exact congrArg (e.key :: ·) (ih tail (Nat.succ.inj hlen))

/-- **The tree is a stable sorted sequence** under every run of a client, and pushing keys and
popping as many sorts them.  Every call returns that does not overflow the counter. -/
theorem refines_stable_sequence (hcmp : TotalPreorder cmp fun _ ↦ True) (hinit : Initial m₀) :
    (∀ labels m, Run (Step cmp (Client cmp)) labels m₀ m →
      (∃ l, Run (Spec cmp) labels [] l ∧ InOrder m l) ∧
      (∀ call, Client cmp m call → Fits m call →
        ∃ result m', Step cmp (Client cmp) (call, result) m m') ∧
      ∀ label m', Step cmp (Client cmp) label m m' → ReadOnly label → m' = m) ∧
    ∀ pushes keys m,
      Run (Step cmp (Client cmp)) (pushLabels pushes ++ popLabels keys) m₀ m →
        keys.length = pushes.length → StableSort cmp (pushes.map Entry.key) keys := by
  have hstep (label : Call × Result) (m m' : State) (l : List Entry)
      (hrel : ∃ t, SearchTree cmp (fun _ ↦ True) m t ∧ t.toList = l)
      (hstep : Step cmp (Client cmp) label m m') :
      ∃ l', Spec cmp label l l' ∧ ∃ t, SearchTree cmp (fun _ ↦ True) m' t ∧ t.toList = l' := by
    obtain ⟨t, h, hl⟩ := hrel
    have hfits := h.fits_of_client hcmp hstep.1 hstep.2
    obtain ⟨⟨t', hspec, h'⟩, -⟩ := wp_outcome (h.refines hcmp hstep.1 hfits) hstep.2
    exact ⟨t'.toList, hl ▸ hspec, t', h', rfl⟩
  have hsim (labels : List (Call × Result)) (m : State)
      (hrun : Run (Step cmp (Client cmp)) labels m₀ m) :
      ∃ l, Run (Spec cmp) labels [] l ∧ ∃ t, SearchTree cmp (fun _ ↦ True) m t ∧ t.toList = l :=
    hrun.simulation _ hstep ⟨.leaf, hinit.searchTree, rfl⟩
  refine ⟨fun labels m hrun ↦ ?_, fun pushes keys m hrun hlen ↦ ?_⟩
  · obtain ⟨l, hspec, t, h, hl⟩ := hsim labels m hrun
    refine ⟨⟨l, hspec, t, h.rep, hl⟩, fun call hcall hfits ↦ ?_, fun label m' hstep ↦ ?_⟩
    · obtain ⟨result, m', hstep, -⟩ := Step.of_wp hcall (h.refines hcmp hcall hfits)
      exact ⟨result, m', hstep⟩
    · have hfits := h.fits_of_client hcmp hstep.1 hstep.2
      exact (wp_outcome (h.refines hcmp hstep.1 hfits) hstep.2).2
  · obtain ⟨l', hspec, -⟩ := hsim _ m hrun
    obtain ⟨l, hpush, hpop⟩ := hspec.split
    obtain ⟨hsorted, hperm, hstable⟩ := Spec.pushes hcmp hpush .nil
    rw [List.nil_append] at hperm
    have hkeys := Spec.pops hpop (by
      rw [hlen, ← List.length_map Entry.key, ← hperm.length_eq, List.length_map])
    rw [hkeys]
    exact ⟨hperm, List.pairwise_map.2 hsorted, hstable⟩

end

theorem client_run : ∃ m₀ m, Initial m₀ ∧ Run (Step decades (Client decades))
    (pushLabels [⟨100, 31⟩, ⟨101, 12⟩, ⟨102, 35⟩] ++ popLabels [12, 31, 35]) m₀ m :=
  ⟨_, _, ⟨1, blank, ⟨by decide, rfl⟩, rfl⟩,
    .cons ⟨⟨⟨by decide, rfl⟩, by decide, by decide⟩, rfl⟩
      (.cons ⟨⟨⟨by decide, rfl⟩, by decide, by decide⟩, rfl⟩
        (.cons ⟨⟨⟨by decide, rfl⟩, by decide, by decide⟩, rfl⟩
          (.cons ⟨trivial, rfl⟩ (.cons ⟨trivial, rfl⟩ (.cons ⟨trivial, rfl⟩ (.nil _))))))⟩

theorem refines_stable_sequence_decades : StableSort decades [31, 12, 35] [12, 31, 35] := by
  obtain ⟨m₀, m, hinit, hrun⟩ := client_run
  exact (refines_stable_sequence (decades_totalPreorder _) hinit).2 _ _ m hrun rfl

/-- **No sequence of `2 ^ 31` elements is refined**: the last insertion has no outcome. -/
theorem not_refines_stable_sequence : ∃ m₀ m, Initial m₀ ∧
    Run (Step decades (Client decades)) (longLabels (2 ^ 31 - 1)) m₀ m ∧
      Client decades m (.push (2 ^ 31 + 1) 20) ∧
        ∀ result m', ¬Step decades (Client decades) (.push (2 ^ 31 + 1) 20, result) m m' := by
  obtain ⟨m₀, m, hinit, hrun, hfree, hnone⟩ := @exists_full (Client decades)
    fun _ _ hfree ↦ ⟨hfree, by decide, by decide⟩
  exact ⟨m₀, m, ⟨1, blank, ⟨by decide, rfl⟩, hinit⟩, hrun, ⟨hfree, by decide, by decide⟩, hnone⟩

end Zbaselib.Rbtree
