import Zbaselib.Rbtree.Delete
import Zbaselib.Rbtree.Order

/-!
# The interface functions, from one represented tree to the next
-/

namespace Zbaselib.Rbtree

open Program Memory RedBlack

/-- The state represents a valid tree, and the counter is right and an `int`. -/
structure Rep (m : State) (t : RBTree Entry) : Prop where
  holds : ∃ top scratch, Holds m top scratch t
  valid : Valid t
  size : m.vars.size = t.toList.length
  bound : m.vars.size < 2 ^ 31

variable {m : State} {t : RBTree Entry} {cmp : CompareFunc}

theorem Rep.size_eq_zero_iff (h : Rep m t) : m.vars.size = 0 ↔ t = .leaf := by
  rw [h.size]
  cases t with
  | leaf => simp
  | node c left e right => simp; omega

/-- The tree that `init` builds is empty. -/
theorem wp_init {addr : Ptr} (haddr : addr ≠ NULL) (hfree : m.heap.cell addr = none) :
    wp (init addr) (fun _ m' ↦ Rep m' .leaf) m := by
  simp only [init, wp_bind, wp_calloc, if_neg haddr, hfree, true_and, wp_setColor,
    Heap.cell_insert_self _ _ haddr, Option.some.injEq, exists_eq', wp_modifyVars]
  refine ⟨⟨NULL, NULL, rfl, trivial, by simp, by simp, ?_, by simp⟩, ⟨⟨0, rfl⟩, trivial, rfl⟩, rfl,
    by norm_num⟩
  simp [Heap.cell_insert_self _ _ haddr, Node.setColor]

theorem wp_push_rep {addr key : Ptr} (h : Rep m t) (haddr : addr ≠ NULL)
    (hfree : m.heap.cell addr = none) (hcmp : Compares cmp key t)
    (hroom : m.vars.size + 1 < 2 ^ 31) :
    wp (push cmp addr key) (fun _ m' ↦
      Rep m' (insertTree (goLeft cmp key) t ⟨addr, key⟩) ∧ Allocated addr m m') m := by
  obtain ⟨⟨top, scratch, hholds⟩, hvalid, hsize, -⟩ := h
  apply wp_mono (wp_push hholds hvalid haddr hfree hcmp ⟨by omega, hroom⟩)
  rintro - m' ⟨⟨top', h'⟩, hsize', halloc⟩
  refine ⟨⟨⟨top', scratch, h'⟩, valid_insertTree hvalid, ?_, hsize' ▸ hroom⟩, halloc⟩
  rw [hsize', hsize, length_insertTree]
  simp

/-- A node that was inserted was counted. -/
theorem Rep.room_of_push {addr key : Ptr} {m' : State} (h : Rep m t) (haddr : addr ≠ NULL)
    (hfree : m.heap.cell addr = none) (hcmp : Compares cmp key t)
    (hrun : (push cmp addr key).run m = some ((), m')) : m.vars.size + 1 < 2 ^ 31 := by
  obtain ⟨⟨top, scratch, hholds⟩, hvalid, -⟩ := h
  have hwp : wp (push cmp addr key) (fun _ _ ↦ True) m := ⟨_, _, hrun, trivial⟩
  exact ((wp_push_iff hholds hvalid haddr hfree hcmp).1 hwp).1.2

/-- One live record was freed. -/
structure Freed (addr : Ptr) (m m' : State) : Prop where
  sentinel : m'.vars.sentinel = m.vars.sentinel
  live : (m.heap.cell addr).isSome
  dom : ∀ a, (m'.heap.cell a).isSome ↔ a ≠ addr ∧ (m.heap.cell a).isSome

theorem isSome_erase {h : Heap Node} {addr a : Ptr} :
    ((h.erase addr).cell a).isSome ↔ a ≠ addr ∧ (h.cell a).isSome := by
  by_cases ha : a = addr
  · rw [ha, Heap.cell_erase_self]
    simp
  · rw [Heap.cell_erase_of_ne _ ha]
    simp [ha]

/-- A node is deleted and its record given back. -/
theorem wp_remove {path : Path Entry} {c : Color} {left right : RBTree Entry} {e : Entry}
    {post : Unit → State → Prop} (h : Rep m (path.plug (.node c left e right)))
    (hpost : ∀ m', Rep m' (deleteNode path c left e right) → Freed e.addr m m' → post () m') :
    wp (do delete e.addr; free e.addr) post m := by
  obtain ⟨⟨top, scratch, hholds⟩, hvalid, hsize, hbound⟩ := h
  have hlen : (deleteNode path c left e right).toList.length + 1 =
      (path.plug (.node c left e right)).toList.length := by
    simp only [toList_deleteNode, Path.toList_plug, RBTree.toList_node, List.length_append,
      List.length_cons]
    omega
  have hpos : 0 < m.vars.size := by omega
  refine (wp_bind ..).2 (wp_delete hholds hvalid ⟨hpos, hbound⟩ fun m₁ top' scratch' hf h₁ ↦ ?_)
  have hmem : e.addr ∈ addrs (path.plug (.branch .left c left e right)) :=
    mem_addrs_plug.2 (.inl (mem_addrs_branch.2 (.inl rfl)))
  have hnull : e.addr ≠ NULL := by
    obtain ⟨n, hn⟩ := Option.isSome_iff_exists.1 (hholds.tree.isSome hmem)
    exact Heap.ne_null_of_cell hn
  have hlive : ∃ n, (grow (-1) m₁).heap.cell e.addr = some n :=
    Option.isSome_iff_exists.1 ((hf.dom _).trans (hholds.tree.isSome hmem))
  have hgone : e.addr ∉ addrs (deleteNode path c left e right) := by
    rw [addrs, toList_deleteNode]
    exact not_mem_removed hholds.nodup
  have hsent : m₁.vars.sentinel ≠ e.addr := fun heq ↦
    hholds.fresh (hf.sentinel ▸ heq ▸ hmem)
  rw [wp_free, if_neg hnull]
  refine ⟨hlive, hpost _ ⟨⟨top', scratch', h₁.root, h₁.tree.congr fun a ha ↦ ?_, h₁.nodup, h₁.fresh,
    ?_, ?_⟩, valid_deleteNode hvalid, ?_, ?_⟩
      ⟨hf.sentinel, hholds.tree.isSome hmem, fun a ↦ ?_⟩⟩
  · exact Heap.cell_erase_of_ne _ fun heq ↦ hgone (heq ▸ ha)
  · exact (Heap.cell_erase_of_ne _ hsent).trans h₁.sentinel
  · have := hholds.room
    simp only [addrs, List.length_map, heap_grow, Heap.live_erase, hf.live] at this ⊢
    omega
  · simp only [size_grow, hf.size, hsize]
    omega
  · simp only [size_grow, hf.size]
    omega
  · rw [isSome_erase, heap_grow, hf.dom]

/-! ## Reading -/

theorem LastOn.toList_left {inner : Path Entry} {c : Color} {e : Entry} {far : RBTree Entry}
    (h : LastOn .left t inner c e far) :
    t.toList = e :: (far.toList ++ Path.after inner) := by
  rw [← h.1, Path.toList_plug, h.before]
  simp [RBTree.branch]

theorem LastOn.toList_right {inner : Path Entry} {c : Color} {e : Entry} {far : RBTree Entry}
    (h : LastOn .right t inner c e far) :
    t.toList = Path.before inner ++ far.toList ++ [e] := by
  rw [← h.1, Path.toList_plug, h.after]
  simp [RBTree.branch]

/-- The key of the first element, `NULL` when there is none. -/
def firstKey (l : List Entry) : Ptr := (l.head?.map Entry.key).getD NULL

def lastKey (l : List Entry) : Ptr := (l.getLast?.map Entry.key).getD NULL

theorem Rep.wp_endKey {side : Side} {post : Ptr → State → Prop} (h : Rep m t)
    (hleaf : t = .leaf → post NULL m)
    (hpost : ∀ inner c e far, LastOn side t inner c e far → post e.key m) :
    wp (endKey side) post m := by
  simp only [endKey, wp_bind, wp_getVars, wp_ite, wp_pure, h.size_eq_zero_iff]
  split
  case isTrue ht => exact hleaf ht
  case isFalse ht =>
    obtain ⟨top, scratch, hholds⟩ := h.holds
    simp only [wp_root, hholds.root]
    refine wp_walk (q := []) side hholds ht fun inner c e far hlast ↦ ?_
    have hplug := hholds
    rw [← hlast.1] at hplug
    simpa [hplug.cell] using hpost inner c e far hlast

theorem wp_getmin (h : Rep m t) :
    wp getmin (fun key m' ↦ m' = m ∧ key = firstKey t.toList) m :=
  h.wp_endKey (fun hleaf ↦ ⟨rfl, by simp [hleaf, firstKey]⟩)
    fun inner c e far hlast ↦ ⟨rfl, by simp [hlast.toList_left, firstKey]⟩

theorem wp_getmax (h : Rep m t) :
    wp getmax (fun key m' ↦ m' = m ∧ key = lastKey t.toList) m :=
  h.wp_endKey (fun hleaf ↦ ⟨rfl, by simp [hleaf, lastKey]⟩)
    fun inner c e far hlast ↦ ⟨rfl, by simp [hlast.toList_right, lastKey]⟩

/-- `popmin` deletes the leftmost node and returns its key. -/
theorem wp_popmin (h : Rep m t) :
    wp popmin (fun key m' ↦ key = firstKey t.toList ∧ (t = .leaf → m' = m) ∧
      ∃ t', Rep m' t' ∧ t'.toList = t.toList.tail ∧
        ∀ e ∈ t.toList.head?, Freed e.addr m m') m := by
  simp only [popmin, wp_bind, wp_getVars, wp_ite, wp_pure, h.size_eq_zero_iff]
  split
  case isTrue hleaf =>
    exact ⟨by simp [hleaf, firstKey], fun _ ↦ trivial, t, h, by simp [hleaf], by simp [hleaf]⟩
  case isFalse hleaf =>
    obtain ⟨top, scratch, hholds⟩ := h.holds
    simp only [wp_root, hholds.root]
    refine wp_walk (q := []) .left hholds hleaf fun inner c e far hlast ↦ ?_
    have hcell := hholds
    rw [← hlast.1] at hcell h
    simp only [wp_load, hcell.cell, Option.some.injEq, exists_eq_left', Node.key_branch]
    refine (wp_bind ..).1 (wp_remove h fun m' h' hfreed ↦ ?_)
    refine ⟨by simp [hlast.toList_left, firstKey], fun hleaf' ↦ absurd hleaf' hleaf, _, h', ?_, ?_⟩
    · rw [toList_deleteNode, hlast.toList_left, hlast.before]
      simp
    · simpa [hlast.toList_left] using hfreed

/-! ## Searching -/

/-- Below an element an equal key is in the left part. -/
theorem mem_left_of_equiv {key : Ptr} (hcmp : TotalPreorder cmp fun _ ↦ True)
    {left right : List Entry} {e e' : Entry} (hsorted : Sorted cmp (left ++ e :: right))
    (hlt : Lt cmp key e.key) (hself : ¬Equiv cmp e.key key) (hmem : e' ∈ left ++ e :: right)
    (hequiv : Equiv cmp e'.key key) : e' ∈ left := by
  obtain ⟨-, hright, -⟩ := List.pairwise_append.1 hsorted
  rw [List.mem_append, List.mem_cons] at hmem
  rcases hmem with hmem | rfl | hmem
  · exact hmem
  · exact absurd hequiv hself
  · have hle := (List.pairwise_cons.1 hright).1 e' hmem
    exact absurd hequiv (not_equiv_of_gt hcmp trivial trivial trivial hlt hle)

/-- Above it, in the right part. -/
theorem mem_right_of_equiv {key : Ptr} (hcmp : TotalPreorder cmp fun _ ↦ True)
    {left right : List Entry} {e e' : Entry} (hsorted : Sorted cmp (left ++ e :: right))
    (hlt : Lt cmp e.key key) (hself : ¬Equiv cmp e.key key) (hmem : e' ∈ left ++ e :: right)
    (hequiv : Equiv cmp e'.key key) : e' ∈ right := by
  obtain ⟨-, -, hleft⟩ := List.pairwise_append.1 hsorted
  rw [List.mem_append, List.mem_cons] at hmem
  rcases hmem with hmem | rfl | hmem
  · have hle := hleft e' hmem e List.mem_cons_self
    exact absurd hequiv (not_equiv_of_lt hcmp trivial trivial trivial hle hlt)
  · exact absurd hequiv hself
  · exact hmem

/-- Where the search is: in a subtree that holds every equal key, or done. -/
def FindInv (cmp : CompareFunc) (key : Ptr) (t : RBTree Entry) (start : State) (n : ℕ) (node : Ptr)
    (m : State) : Prop :=
  m = start ∧ ((∃ path t', Path.plug path t' = t ∧ node = ptr m.vars.sentinel t' ∧
    (∀ e ∈ t.toList, Equiv cmp e.key key → e ∈ t'.toList) ∧ (addrs t').length < n) ∨
      node = NULL ∧ ∀ e ∈ t.toList, ¬Equiv cmp e.key key)

/-- `find` only leaves parts of the tree behind that hold no equal key.  It goes on into the
sentinel, whose key is `NULL` and whose children are. -/
theorem wp_find {key : Ptr} {post : Ptr → State → Prop} (h : Rep m t)
    (hcmp : TotalPreorder cmp fun _ ↦ True) (hnull : ¬Equiv cmp NULL key)
    (hsorted : Sorted cmp t.toList)
    (hfound : ∀ path c left e right, Path.plug path (.node c left e right) = t →
      Equiv cmp e.key key → post e.addr m)
    (hnone : (∀ e ∈ t.toList, ¬Equiv cmp e.key key) → post NULL m) :
    wp (find cmp key) post m := by
  obtain ⟨top, scratch, hholds⟩ := h.holds
  simp only [find, wp_bind, wp_root, hholds.root]
  refine wp_heapLoop (FindInv cmp key t m) ?_
    ⟨rfl, .inl ⟨[], t, rfl, rfl, fun _ he _ ↦ he, Nat.lt_succ_self _⟩⟩ ?_
  · rintro n node m' ⟨rfl, ⟨path, t', hplug, rfl, hall, hlen⟩ | ⟨rfl, hnone'⟩⟩
    · have h' := hholds
      rw [← hplug] at h' hsorted
      cases t' with
      | leaf =>
        have hnone' : ∀ e ∈ t.toList, ¬Equiv cmp e.key key := fun e he hequiv ↦
          absurd (hall e he hequiv) (by simp)
        have hnext : LoopPost (FindInv cmp key t m') post n (.inl NULL) m' :=
          ⟨0, Nat.lt_of_le_of_lt (Nat.zero_le _) hlen, rfl, .inr ⟨rfl, hnone'⟩⟩
        have hns : m'.vars.sentinel ≠ NULL := Heap.ne_null_of_cell h'.sentinel
        obtain ⟨result, hresult⟩ := Option.isSome_iff_exists.1
          (hcmp.defined (a := NULL) (b := key) trivial trivial)
        have hne : result ≠ 0 := by
          rintro rfl
          exact hnull hresult
        rw [findRound, ptr_leaf, wp_ite, if_neg hns]
        simp only [wp_bind, wp_load, h'.sentinel, Option.some.injEq, exists_eq_left', compare,
          hresult, wp_pure, if_neg hne]
        split <;>
          simpa only [wp_bind, wp_child, h'.sentinel, Option.some.injEq, exists_eq_left', wp_pure,
            Node.child] using hnext
      | node c left e right =>
        have hcell : m'.heap.cell e.addr = some ⟨e.key, ptr m'.vars.sentinel left,
          ptr m'.vars.sentinel right, parentOf top path, c⟩ := h'.hole.1
        have hnull' : e.addr ≠ NULL := Heap.ne_null_of_cell hcell
        obtain ⟨result, hresult⟩ := Option.isSome_iff_exists.1
          (hcmp.defined (a := e.key) (b := key) trivial trivial)
        have hsub : Sorted cmp (left.toList ++ e :: right.toList) := by
          rw [Path.toList_plug, Sorted, List.pairwise_append, List.pairwise_append] at hsorted
          exact hsorted.1.2.1
        have hsize : (addrs (.node c left e right)).length =
          (addrs left).length + (addrs right).length + 1 := length_addrs_branch .left ..
        rw [findRound, wp_ite, ptr, if_neg hnull']
        simp only [wp_bind, wp_load, hcell, Option.some.injEq, exists_eq_left', compare, hresult,
          wp_pure]
        by_cases hzero : result = 0
        · rw [if_pos hzero]
          exact (wp_pure ..).2 (hfound path c left e right hplug (by rw [Equiv, hresult, hzero]))
        rw [if_neg hzero]
        have hself : ¬Equiv cmp e.key key := by
          intro hequiv
          rw [Equiv, hresult, Option.some.injEq] at hequiv
          exact hzero hequiv
        by_cases hpos : result > 0
        · have hlt : Lt cmp key e.key := by
            apply lt_of_not_le hcmp trivial trivial
            rintro ⟨x, hx, hle⟩
            rw [hresult, Option.some.injEq] at hx
            omega
          rw [if_pos hpos, wp_bind, wp_child, hcell]
          refine ⟨_, rfl, (wp_pure ..).2 ⟨_, hlen, rfl, .inl ⟨⟨.left, c, e, right⟩ :: path, left,
            hplug, rfl, fun e' he' hequiv ↦ ?_, by omega⟩⟩⟩
          exact mem_left_of_equiv hcmp hsub hlt hself (hall e' he' hequiv) hequiv
        · have hlt : Lt cmp e.key key := ⟨result, hresult, by omega⟩
          rw [if_neg hpos, wp_bind, wp_child, hcell]
          refine ⟨_, rfl, (wp_pure ..).2 ⟨_, hlen, rfl, .inl ⟨⟨.right, c, e, left⟩ :: path, right,
            hplug, rfl, fun e' he' hequiv ↦ ?_, by omega⟩⟩⟩
          exact mem_right_of_equiv hcmp hsub hlt hself (hall e' he' hequiv) hequiv
    · rw [findRound, wp_ite, if_pos rfl]
      exact (wp_pure ..).2 (hnone hnone')
  · have := hholds.room
    omega

/-- `delnode` removes one element with an equal key, or does nothing. -/
theorem wp_delnode {key : Ptr} {post : ℤ → State → Prop} (h : Rep m t)
    (hcmp : TotalPreorder cmp fun _ ↦ True) (hkey : key ≠ NULL) (hnull : ¬Equiv cmp NULL key)
    (hsorted : Sorted cmp t.toList)
    (hfound : ∀ before e after m' t', t.toList = before ++ e :: after → Equiv cmp e.key key →
      Rep m' t' → t'.toList = before ++ after → post 0 m')
    (hnone : (∀ e ∈ t.toList, ¬Equiv cmp e.key key) → post (-1) m) :
    wp (delnode cmp key) post m := by
  rw [delnode, wp_bind]
  refine wp_find h hcmp hnull hsorted ?_ ?_
  · intro path c left e right hplug hequiv
    obtain ⟨top, scratch, hholds⟩ := h.holds
    rw [← hplug] at h hholds
    have hne : ¬(e.addr = NULL ∨ key = NULL) := not_or.2 ⟨Heap.ne_null_of_cell hholds.hole.1, hkey⟩
    rw [wp_ite, if_neg hne]
    simp only [wp_bind]
    refine (wp_bind ..).1 (wp_remove h fun m' h' _ ↦ ?_)
    rw [wp_pure]
    refine hfound (Path.before path ++ left.toList) e (right.toList ++ Path.after path) m' _ ?_
      hequiv h' ?_
    · rw [← hplug, Path.toList_plug]
      simp
    · rw [toList_deleteNode]
      simp
  · intro hnone'
    rw [wp_ite, if_pos (.inl rfl), wp_pure]
    exact hnone hnone'

end Zbaselib.Rbtree
