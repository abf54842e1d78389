import Zbaselib.Rbtree.Runs

/-!
# The heap of a tree

A dereference or a `free` of a pointer that is not live has no outcome.  Where
only the sentinel and the stored nodes are live, an outcome therefore means
that nothing else was touched, and that nothing was freed twice.
-/

namespace Zbaselib.Rbtree

open Program Memory RedBlack Transition

/-- Insertions of keys that the comparator knows, and removals of stored nodes. -/
def Mutates (isKey : Ptr → Prop) (m : State) : Call → Prop
  | .push addr key => Free m addr ∧ isKey key
  | .popmin => True
  | .remove addr => Reachable m addr
  | _ => False

/-- `zbaselib_rbtree_init` returned a tree, and nothing else is live. -/
def Created (m : State) : Prop :=
  ∃ addr, addr ≠ NULL ∧ (init addr).run blank = some ((), m)

/-- A search tree, whose nodes and sentinel are all that is live. -/
structure Owns (cmp : CompareFunc) (isKey : Ptr → Prop) (m : State) (t : RBTree Entry) : Prop
    extends SearchTree cmp isKey m t where
  dom : ∀ a, (m.heap.cell a).isSome ↔ a = m.vars.sentinel ∨ a ∈ addrs t

section

variable {cmp : CompareFunc} {isKey : Ptr → Prop} {m m' m₀ : State} {t t' : RBTree Entry}

theorem Created.initial (h : Created m) : Initial m := by
  obtain ⟨addr, haddr, hrun⟩ := h
  exact ⟨addr, blank, ⟨haddr, rfl⟩, hrun⟩

/-- The sentinel starts with all fields zero. -/
theorem Created.owns (cmp : CompareFunc) (isKey : Ptr → Prop) (h : Created m) :
    Owns cmp isKey m .leaf ∧ m.heap.cell m.vars.sentinel = some {} := by
  have hinitial := h.initial
  obtain ⟨addr, haddr, hrun⟩ := h
  have hwp : wp (init addr) (fun _ m ↦ m.vars.sentinel = addr ∧
      m.heap.cell addr = some {} ∧ ∀ a, (m.heap.cell a).isSome ↔ a = addr) blank := by
    simp only [init, wp_bind, wp_calloc, if_neg haddr, wp_setColor, wp_modifyVars,
      Heap.cell_insert_self _ _ haddr, Option.some.injEq, exists_eq', true_and]
    refine ⟨rfl, ?_, fun a ↦ ?_⟩
    · rw [Heap.cell_update_self, Heap.cell_insert_self _ _ haddr]
      rfl
    · rw [Heap.isSome_cell_update]
      by_cases ha : a = addr
      · simp [ha, Heap.cell_insert_self _ _ haddr]
      · rw [Heap.cell_insert_of_ne _ _ ha]
        simp [blank, ha]
  obtain ⟨hsentinel, hcell, hdom⟩ := wp_outcome hwp hrun
  refine ⟨⟨hinitial.searchTree, fun a ↦ ?_⟩, by rw [hsentinel, hcell]⟩
  rw [hdom, hsentinel]
  simp

/-- Removing one address keeps the live records and the tree together. -/
theorem Owns.of_freed {addr : Ptr} (h : Owns cmp isKey m t) (h' : SearchTree cmp isKey m' t')
    (hfreed : Freed addr m m') (hmem : addr ∈ addrs t)
    (haddrs : ∀ a, a ∈ addrs t' ↔ a ≠ addr ∧ a ∈ addrs t) : Owns cmp isKey m' t' := by
  refine ⟨h', fun a ↦ ?_⟩
  obtain ⟨top, scratch, hholds⟩ := h.rep.holds
  have hsentinel : m.vars.sentinel ≠ addr := fun heq ↦ hholds.fresh (heq ▸ hmem)
  rw [hfreed.dom, h.dom, haddrs, hfreed.sentinel]
  constructor
  · rintro ⟨ha, rfl | hin⟩
    · exact Or.inl rfl
    · exact Or.inr ⟨ha, hin⟩
  · rintro (rfl | ⟨ha, hin⟩)
    · exact ⟨hsentinel, Or.inl rfl⟩
    · exact ⟨ha, Or.inr hin⟩

theorem Owns.wp_push (hcmp : TotalPreorder cmp isKey) (h : Owns cmp isKey m t) {addr key : Ptr}
    (hfree : Free m addr) (hkey : isKey key) (hroom : m.vars.size + 1 < 2 ^ 31) :
    wp (push cmp addr key) (fun _ m' ↦ m'.vars.sentinel = m.vars.sentinel ∧
      ∃ t', Owns cmp isKey m' t') m := by
  apply wp_mono (h.toSearchTree.push hcmp hfree hkey hroom)
  rintro - m' ⟨before, after, hsplit, -, -, t', hlist, h', halloc⟩
  refine ⟨halloc.sentinel, t', h', fun a ↦ ?_⟩
  rw [halloc.dom, halloc.sentinel, h.dom, addrs, addrs, hsplit, hlist]
  simp only [List.map_append, List.map_cons, List.mem_append, List.mem_cons]
  tauto

theorem Owns.wp_remove (h : Owns cmp isKey m t) {addr : Ptr} (ha : Reachable m addr) :
    wp (do delete addr; free addr) (fun _ m' ↦ m'.vars.sentinel = m.vars.sentinel ∧
      ∃ t', Owns cmp isKey m' t') m := by
  obtain ⟨top, scratch, hholds⟩ := h.rep.holds
  have hmem := hholds.reachable_iff.1 ha
  obtain ⟨path, left, c, e, right, rfl, rfl⟩ := exists_branch_of_mem .left hmem
  refine Rbtree.wp_remove h.rep fun m' h' hfreed ↦ ⟨hfreed.sentinel, deleteNode path c left e right,
    h.of_freed ?_ hfreed hmem fun a ↦ ?_⟩
  · apply h.of_sublist h'
    rw [toList_deleteNode, Path.toList_plug]
    simp [RBTree.branch]
  · have hgone := not_mem_removed hholds.nodup
    rw [addrs, toList_deleteNode, addrs, Path.toList_plug]
    simp only [RBTree.branch, RBTree.toList_node, List.map_append, List.map_cons,
      List.mem_append, List.mem_cons] at hgone ⊢
    constructor
    · intro hin
      exact ⟨fun heq ↦ hgone (heq ▸ hin), by tauto⟩
    · tauto

theorem Owns.wp_popmin (h : Owns cmp isKey m t) :
    wp popmin (fun _ m' ↦ m'.vars.sentinel = m.vars.sentinel ∧
      ∃ t', Owns cmp isKey m' t' ∧ t'.toList = t.toList.tail ∧
        ∀ e ∈ t.toList.head?, Freed e.addr m m') m := by
  obtain ⟨top, scratch, hholds⟩ := h.rep.holds
  have hnodup := hholds.nodup
  apply wp_mono (Rbtree.wp_popmin h.rep)
  rintro - m' ⟨-, hleaf, t', h', htail, hfreed⟩
  have hsearch := h.of_sublist h' (htail ▸ List.tail_sublist _)
  unfold addrs at hnodup
  cases hlist : t.toList with
  | nil =>
    obtain rfl : t = .leaf := by
      cases t with
      | leaf => rfl
      | node => simp at hlist
    rw [hleaf rfl]
    exact ⟨rfl, .leaf, h, rfl, by simp⟩
  | cons e rest =>
    rw [hlist] at hfreed htail hnodup
    have hone := hfreed e rfl
    refine ⟨hone.sentinel, t', h.of_freed hsearch hone ?_ fun a ↦ ?_, htail, hfreed⟩
    · simp [addrs, hlist]
    · have hgone := (List.nodup_cons.1 hnodup).1
      rw [addrs, htail, addrs, hlist]
      simp only [List.tail_cons, List.map_cons, List.mem_cons]
      constructor
      · intro hin
        exact ⟨fun heq ↦ hgone (heq ▸ hin), Or.inr hin⟩
      · tauto

theorem wp_empty {post : Bool → State → Prop} (h : Owns cmp isKey m t) :
    wp empty post m ↔ post (decide (t = .leaf)) m := by
  unfold empty
  simp only [wp_bind, wp_getVars, wp_pure, h.rep.size_eq_zero_iff]

/-- **`deinit` frees the nodes in order, and the sentinel last.** -/
theorem Owns.wp_deinit (h : Owns cmp isKey m t) :
    wp deinit (fun _ m' ↦ Run Freed (addrs t ++ [m.vars.sentinel]) m m' ∧
      ∀ a, m'.heap.cell a = none) m := by
  have hroom : t.toList.length < m.heap.live := by
    obtain ⟨top, scratch, hholds⟩ := h.rep.holds
    simpa [addrs] using hholds.room
  unfold deinit
  rw [wp_bind]
  -- the nodes that are gone come first in the order of the tree
  refine wp_heapLoop (fun n _ m' ↦ ∃ t' gone, Owns cmp isKey m' t' ∧ n = t'.toList.length ∧
    m'.vars.sentinel = m.vars.sentinel ∧ addrs t = gone ++ addrs t' ∧ Run Freed gone m m')
    (fun n _ m' hinv ↦ ?_) ⟨t, [], h, rfl, rfl, rfl, .nil m⟩ (by omega)
  obtain ⟨t', gone, h', hn, hsentinel, hsplit, hrun⟩ := hinv
  rw [wp_bind, wp_empty h', wp_ite]
  split
  · next hleaf =>
    rw [decide_eq_true_eq] at hleaf
    subst hleaf
    have hlive : (m'.heap.cell m'.vars.sentinel).isSome := (h'.dom _).2 (Or.inl rfl)
    obtain ⟨n, hn⟩ := Option.isSome_iff_exists.1 hlive
    rw [wp_pure]
    simp only [LoopPost, wp_bind, wp_sentinel, wp_free, if_neg (Heap.ne_null_of_cell hn)]
    refine ⟨⟨n, hn⟩, ?_, fun a ↦ ?_⟩
    · rw [hsplit, addrs_leaf, List.append_nil, ← hsentinel]
      have hlast : Freed m'.vars.sentinel m'
          { m' with heap := m'.heap.erase m'.vars.sentinel } :=
        ⟨rfl, hlive, fun a ↦ isSome_erase⟩
      exact hrun.append (.cons hlast (.nil _))
    · have hdom := h'.dom a
      by_cases ha : a = m'.vars.sentinel
      · rw [ha, Heap.cell_erase_self]
      · rw [Heap.cell_erase_of_ne _ ha]
        simpa [ha] using hdom
  · next hmore =>
    rw [decide_eq_true_eq] at hmore
    rw [wp_bind]
    apply wp_mono h'.wp_popmin
    rintro - m'' ⟨hsame, t'', h'', htail, hfreed⟩
    rw [wp_pure]
    cases hlist : t'.toList with
    | nil =>
      cases t' with
      | leaf => exact absurd rfl hmore
      | node => simp at hlist
    | cons e rest =>
      rw [hlist] at hfreed htail
      refine ⟨t''.toList.length, ?_, t'', gone ++ [e.addr], h'', rfl, hsame.trans hsentinel, ?_,
        hrun.append (.cons (hfreed e rfl) (.nil _))⟩
      · rw [hn, htail, hlist]
        simp
      · rw [hsplit, addrs, addrs, hlist, htail]
        simp

/-! ## Runs -/

theorem Owns.step (hcmp : TotalPreorder cmp isKey) (h : Owns cmp isKey m t) {call : Call}
    (hcall : Mutates isKey m call) (hfits : Fits m call) :
    wp (call.run cmp) (fun _ m' ↦ m'.vars.sentinel = m.vars.sentinel ∧
      ∃ t', Owns cmp isKey m' t') m := by
  cases call with
  | push addr key =>
    simp only [Call.run, wp_bind, wp_pure]
    exact h.wp_push hcmp hcall.1 hcall.2 hfits
  | popmin =>
    simp only [Call.run, wp_bind, wp_pure]
    apply wp_mono h.wp_popmin
    rintro - m' ⟨hsentinel, t', h', -, -⟩
    exact ⟨hsentinel, t', h'⟩
  | remove addr =>
    have hremove := h.wp_remove hcall
    simp only [Call.run, wp_bind, wp_pure] at hremove ⊢
    exact hremove
  | getmin | getmax | find | delnode => exact hcall.elim

/-- **Only live nodes and the sentinel are touched**: every call of a run returns that does not
overflow the counter, the sentinel keeps its fields except for the parent, and `deinit` frees what
is live, once. -/
theorem heap_safe (hcmp : TotalPreorder cmp isKey) {labels : List (Call × Result)}
    (hcreated : Created m₀) (hrun : Run (Step cmp (Mutates isKey)) labels m₀ m) :
    (∀ a, (m.heap.cell a).isSome ↔ a = m.vars.sentinel ∨ Reachable m a) ∧
    (∀ call, Mutates isKey m call → Fits m call →
      ∃ result m', Step cmp (Mutates isKey) (call, result) m m') ∧
    (m.vars.sentinel = m₀.vars.sentinel ∧ ∃ n₀ n, m₀.heap.cell m₀.vars.sentinel = some n₀ ∧
      m.heap.cell m.vars.sentinel = some n ∧ n.left = n₀.left ∧ n.right = n₀.right ∧
        n.key = n₀.key ∧ n.color = n₀.color) ∧
    ∃ freed m', deinit.run m = some ((), m') ∧ freed.Nodup ∧
      (∀ a, a ∈ freed ↔ (m.heap.cell a).isSome) ∧ Run Freed freed m m' ∧
        ∀ a, m'.heap.cell a = none := by
  obtain ⟨howns₀, hsentinel₀⟩ := hcreated.owns cmp isKey
  have hinv : m.vars.sentinel = m₀.vars.sentinel ∧ ∃ t, Owns cmp isKey m t := by
    refine hrun.invariant
      (fun m ↦ m.vars.sentinel = m₀.vars.sentinel ∧ ∃ t, Owns cmp isKey m t)
      (fun label m m' hinv hstep ↦ ?_) ⟨rfl, .leaf, howns₀⟩
    obtain ⟨hsentinel, t, h⟩ := hinv
    have hfits : Fits m label.1 := by
      refine h.fits hcmp (fun addr key heq ↦ ?_) hstep.2
      have hcall : Mutates isKey m label.1 := hstep.1
      rwa [heq] at hcall
    obtain ⟨hsentinel', h'⟩ := wp_outcome (h.step hcmp hstep.1 hfits) hstep.2
    exact ⟨hsentinel'.trans hsentinel, h'⟩
  obtain ⟨hsentinel, t, h⟩ := hinv
  obtain ⟨top, scratch, hholds⟩ := h.rep.holds
  refine ⟨fun a ↦ ?_, fun call hcall hfits ↦ ?_,
    ⟨hsentinel, {}, _, hsentinel₀, hholds.sentinel, rfl, rfl, rfl, rfl⟩, ?_⟩
  · rw [h.dom, hholds.reachable_iff]
  · obtain ⟨result, m', hstep, -⟩ := Step.of_wp hcall (h.step hcmp hcall hfits)
    exact ⟨result, m', hstep⟩
  · obtain ⟨⟨⟩, m', hdeinit, hfreed, hgone⟩ := h.wp_deinit
    refine ⟨_, m', hdeinit, ?_, fun a ↦ ?_, hfreed, hgone⟩
    · rw [List.nodup_append]
      refine ⟨hholds.nodup, List.nodup_singleton _, fun a ha b hb heq ↦ ?_⟩
      rw [List.mem_singleton.1 hb] at heq
      exact hholds.fresh (heq ▸ ha)
    · rw [h.dom, List.mem_append, List.mem_singleton, or_comm]

end

/-- The root is removed, its successor takes its place, and one node stays. -/
def safeLabels : List (Call × Result) :=
  [(.push 100 31, .void), (.push 101 12, .void), (.push 102 35, .void), (.remove 100, .void),
    (.popmin, .ptr 12)]

theorem safe_run : ∃ m₀ m, Created m₀ ∧ Run (Step decades (Mutates (· ≠ NULL))) safeLabels m₀ m ∧
    m.vars.root = 102 :=
  ⟨_, _, ⟨1, by decide, rfl⟩,
    .cons ⟨⟨⟨by decide, rfl⟩, by decide⟩, rfl⟩
      (.cons ⟨⟨⟨by decide, rfl⟩, by decide⟩, rfl⟩
        (.cons ⟨⟨⟨by decide, rfl⟩, by decide⟩, rfl⟩
          (.cons ⟨.root (by decide), rfl⟩ (.cons ⟨trivial, rfl⟩ (.nil _))))), rfl⟩

theorem heap_safe_decades : ∃ m m' freed, m.vars.root = 102 ∧ Run Freed freed m m' ∧
    ∀ a, m'.heap.cell a = none := by
  obtain ⟨m₀, m, hcreated, hrun, hroot⟩ := safe_run
  obtain ⟨-, -, -, freed, m', -, -, -, hfreed, hgone⟩ :=
    heap_safe (decades_totalPreorder _) hcreated hrun
  exact ⟨m, m', freed, hroot, hfreed, hgone⟩

/-- **The `2 ^ 31`-th insertion is undefined.** -/
theorem not_heap_safe : ∃ m₀ m, Created m₀ ∧
    Run (Step decades (Mutates (· ≠ NULL))) (longLabels (2 ^ 31 - 1)) m₀ m ∧
      Mutates (· ≠ NULL) m (.push (2 ^ 31 + 1) 20) ∧
        ∀ result m', ¬Step decades (Mutates (· ≠ NULL)) (.push (2 ^ 31 + 1) 20, result) m m' := by
  obtain ⟨m₀, m, hinit, hrun, hfree, hnone⟩ := @exists_full (Mutates (· ≠ NULL))
    fun _ _ hfree ↦ ⟨hfree, by decide⟩
  exact ⟨m₀, m, ⟨1, by decide, hinit⟩, hrun, ⟨hfree, by decide⟩, hnone⟩

end Zbaselib.Rbtree
