import Zbaselib.Rbtree.Search
import Zbaselib.Lib.RedBlack.Height

/-!
# How often the comparator is called

The loops of `find` and of `insert_value` call the comparator once in each round.
Here the same loops give up after a number of rounds; that number is a bound when
nothing changes by it.
-/

namespace Zbaselib.Rbtree

open Program Memory RedBlack Transition

def findWithin (rounds : ℕ) (cmp : CompareFunc) (key : Ptr) : TreeCmd Ptr := do
  loop (findRound cmp key) rounds (← root)

def delnodeWithin (rounds : ℕ) (cmp : CompareFunc) (key : Ptr) : TreeCmd ℤ := do
  let node ← findWithin rounds cmp key
  if node = NULL ∨ key = NULL then return -1
  delete node
  free node
  return 0

def insertValueWithin (rounds : ℕ) (cmp : CompareFunc) (temp node : Ptr) : TreeCmd Unit := do
  let (temp, side) ← loop (insertRound cmp node) rounds temp
  linkBelow side temp node

def pushWithin (rounds : ℕ) (cmp : CompareFunc) (addr key : Ptr) : TreeCmd Unit := do
  attach (insertValueWithin rounds cmp) addr key
  addSize 1

/-- The calls, where those that compare give up after some rounds. -/
def Call.runWithin (rounds : ℕ) (cmp : CompareFunc) : Call → TreeCmd Result
  | .push addr key => do
    pushWithin rounds cmp addr key
    return .void
  | .find key => return .ptr (← findWithin rounds cmp key)
  | .delnode key => return .int (← delnodeWithin rounds cmp key)
  | call => call.run cmp

section

variable {cmp : CompareFunc} {m m₀ : State} {t t' : RBTree Entry} {key addr node top scratch : Ptr}

/-- The search is over two rounds below the last node: at the sentinel, whose key is compared, and
at its child. -/
theorem wp_findRounds (hcmp : ∀ a, (cmp a key).isSome) (h : Holds m top scratch t)
    (hplace : Place m t node t') :
    wp (loop (findRound cmp key) (t'.height + 2) node) (fun _ _ ↦ True) m := by
  induction t' generalizing node with
  | leaf =>
    obtain ⟨path, -, hnode⟩ := hplace
    rw [ptr_leaf] at hnode
    have hcell : m.heap.cell node = some { parent := scratch } := hnode ▸ h.sentinel
    have hnull (post : Ptr → State → Prop) (hpost : post NULL m) :
        wp (loop (findRound cmp key) 1 NULL) post m := by
      rw [loop, wp_bind, findRound, wp_ite, if_pos rfl, wp_pure]
      exact (wp_pure ..).2 hpost
    rw [RBTree.height, loop, wp_bind, findRound, wp_ite, if_neg (Heap.ne_null_of_cell hcell)]
    simp only [wp_bind, wp_load, wp_child, hcell, Option.some.injEq, exists_eq_left',
      wp_compare (hcmp _), wp_ite, wp_pure, Node.child]
    split
    · trivial
    · split <;> exact hnull _ trivial
  | node c left e right ihleft ihright =>
    obtain ⟨n, hn, -, hne, -, -, hleft, hright⟩ := hplace.cell h
    have hl := wp_loop_mono (show _ ≤ max left.height right.height + 2 by omega) (ihleft hleft)
    have hr := wp_loop_mono (show _ ≤ max left.height right.height + 2 by omega) (ihright hright)
    rw [RBTree.height, loop, wp_bind, findRound, wp_ite, if_neg hne]
    simp only [wp_bind, wp_load, wp_child, hn, Option.some.injEq, exists_eq_left',
      wp_compare (hcmp _), wp_ite, wp_pure, Node.child]
    split
    · trivial
    · split
      · exact hl
      · exact hr

/-- The descent is over at the last node. -/
theorem wp_insertRounds (hcmp : ∀ a, (cmp key a).isSome) (h : HoldsFresh m top scratch addr key t)
    (hplace : Place m t node t') (ht' : t' ≠ .leaf) :
    wp (loop (insertRound cmp addr) t'.height node) (fun _ _ ↦ True) m := by
  induction t' generalizing node with
  | leaf => exact absurd rfl ht'
  | node c left e right ihleft ihright =>
    obtain ⟨n, hn, -, hne, -, -, hleft, hright⟩ := hplace.cell h.toHolds
    -- the child is the sentinel, or the descent goes on there
    have hside (child : RBTree Entry) (p : Ptr) (hchild : Place m t p child)
        (ih : child ≠ .leaf → wp (loop (insertRound cmp addr) child.height p) (fun _ _ ↦ True) m)
        (hle : child.height ≤ max left.height right.height) (hns : p ≠ m.vars.sentinel) :
        wp (loop (insertRound cmp addr) (max left.height right.height) p) (fun _ _ ↦ True) m := by
      refine wp_loop_mono hle (ih ?_)
      rintro rfl
      obtain ⟨path, -, hp⟩ := hchild
      exact hns hp
    rw [RBTree.height, loop, wp_bind, insertRound]
    simp only [wp_bind, wp_load, wp_child, wp_sentinel, h.cell, hn, Option.some.injEq,
      exists_eq_left', wp_compare (hcmp _), wp_ite, wp_pure]
    by_cases hlt : (cmp key n.key).getD 0 < 0
    · simp only [if_pos hlt, Node.child]
      split
      · trivial
      · next hns => exact hside left n.left hleft (ihleft hleft) (le_max_left _ _) hns
    · simp only [if_neg hlt, Node.child]
      split
      · trivial
      · next hns => exact hside right n.right hright (ihright hright) (le_max_right _ _) hns

/-- A loop over the records does the same when it gives up after enough rounds. -/
theorem wp_loop_of_heapLoop {α β : Type} {body : α → TreeCmd (α ⊕ β)} {rounds : ℕ} {locals : α}
    {post : β → State → Prop} (h : wp (loop body rounds locals) (fun _ _ ↦ True) m)
    (h' : wp (heapLoop body locals) post m) : wp (loop body rounds locals) post m := by
  rw [heapLoop, wp_bind, wp_get] at h'
  exact wp_loop_of_wp_loop h h'

theorem Rep.height_le (h : Rep m t) : t.height ≤ 2 * Nat.log 2 (m.vars.size.toNat + 1) := by
  rw [h.size, Int.toNat_natCast]
  exact h.valid.height_le

theorem Rep.wp_findWithin (hcmp : ∀ a, (cmp a key).isSome) (h : Rep m t)
    {post : Ptr → State → Prop} (hfind : wp (find cmp key) post m) :
    wp (findWithin (2 * Nat.log 2 (m.vars.size.toNat + 1) + 2) cmp key) post m := by
  obtain ⟨top, scratch, hholds⟩ := h.holds
  have hrounds := wp_loop_mono (Nat.add_le_add_right h.height_le 2)
    (wp_findRounds hcmp hholds (Place.root hholds))
  rw [findWithin, wp_bind, wp_root]
  rw [find, wp_bind, wp_root] at hfind
  exact wp_loop_of_heapLoop hrounds hfind

theorem Rep.wp_pushWithin (hcmp : ∀ a, (cmp key a).isSome) (h : Rep m t) (haddr : addr ≠ NULL)
    (hfree : m.heap.cell addr = none) {post : Unit → State → Prop}
    (hpush : wp (push cmp addr key) post m) :
    wp (pushWithin (2 * Nat.log 2 (m.vars.size.toNat + 1) + 2) cmp addr key) post m := by
  obtain ⟨top, scratch, hholds⟩ := h.holds
  have hnew : HoldsFresh _ top scratch addr key t := hholds.calloc haddr hfree
  rw [push, wp_bind, attach, wp_bind, wp_calloc, if_neg haddr] at hpush
  rw [pushWithin, wp_bind, attach, wp_bind, wp_calloc, if_neg haddr]
  obtain ⟨-, hpush⟩ := hpush
  refine ⟨hfree, ?_⟩
  rw [wp_bind, wp_update] at hpush ⊢
  obtain ⟨hcell, hpush⟩ := hpush
  refine ⟨hcell, ?_⟩
  rw [wp_bind, wp_root, wp_bind, wp_sentinel, wp_ite] at hpush ⊢
  split at hpush
  · next hroot => rwa [if_pos hroot]
  · next hroot =>
    have hleaf : t ≠ .leaf := by
      rintro rfl
      exact hroot hholds.root
    have hle : t.height ≤ 2 * Nat.log 2 (m.vars.size.toNat + 1) + 2 :=
      Nat.le_add_right_of_le h.height_le
    have hrounds := wp_loop_mono hle (wp_insertRounds hcmp hnew (Place.root hnew.toHolds) hleaf)
    rw [if_neg hroot]
    rw [wp_bind, wp_root, wp_bind, insertValue, wp_bind] at hpush
    rw [wp_bind, wp_root, wp_bind, insertValueWithin, wp_bind]
    exact wp_loop_of_heapLoop hrounds hpush

/-- **The comparator is called a logarithmic number of times.**  In a tree of `n` nodes that a
client can reach, every call does the same when its search or its descent gives up after
`2 * log₂ (n + 1) + 2` rounds. -/
theorem runWithin_of_run (hcmp : TotalPreorder cmp fun _ ↦ True) {labels : List (Call × Result)}
    (hinit : Initial m₀) (hrun : Run (Step cmp (Client cmp)) labels m₀ m) {call : Call}
    {result : Result} {m' : State} (hstep : Step cmp (Client cmp) (call, result) m m') :
    (call.runWithin (2 * Nat.log 2 (m.vars.size.toNat + 1) + 2) cmp).run m =
      some (result, m') := by
  obtain ⟨t, h⟩ : ∃ t, SearchTree cmp (fun _ ↦ True) m t := by
    refine hrun.invariant (fun m ↦ ∃ t, SearchTree cmp (fun _ ↦ True) m t) ?_ ⟨_, hinit.searchTree⟩
    rintro label m m' ⟨t, h⟩ hstep
    have hfits := h.fits_of_client hcmp hstep.1 hstep.2
    obtain ⟨⟨t', -, h'⟩, -⟩ := wp_outcome (h.refines hcmp hstep.1 hfits) hstep.2
    exact ⟨t', h'⟩
  obtain ⟨hcall, hresult⟩ := hstep
  have hwp : wp (call.run cmp) (fun r after ↦ r = result ∧ after = m') m :=
    ⟨_, _, hresult, rfl, rfl⟩
  suffices hwithin : wp (call.runWithin (2 * Nat.log 2 (m.vars.size.toNat + 1) + 2) cmp)
      (fun r after ↦ r = result ∧ after = m') m by
    obtain ⟨_, _, hrun', rfl, rfl⟩ := hwithin
    exact hrun'
  cases call with
  | push addr key =>
    rw [Call.run, wp_bind] at hwp
    rw [Call.runWithin, wp_bind]
    exact h.rep.wp_pushWithin (fun a ↦ hcmp.defined trivial trivial) hcall.1.1 hcall.1.2 hwp
  | find key =>
    rw [Call.run, wp_bind] at hwp
    rw [Call.runWithin, wp_bind]
    exact h.rep.wp_findWithin (fun a ↦ hcmp.defined trivial trivial) hwp
  | delnode key =>
    rw [Call.run, wp_bind, delnode, wp_bind] at hwp
    rw [Call.runWithin, wp_bind, delnodeWithin, wp_bind]
    exact h.rep.wp_findWithin (fun a ↦ hcmp.defined trivial trivial) hwp
  | popmin | remove | getmin | getmax => exact hwp

end

theorem find_run : ∃ m₀ m, Initial m₀ ∧ Run (Step decades (Client decades))
    [(.push 100 31, .void), (.push 101 12, .void)] m₀ m ∧
      Step decades (Client decades) (.find 12, .ptr 101) m m ∧ m.vars.size = 2 :=
  ⟨_, _, ⟨1, blank, ⟨by decide, rfl⟩, rfl⟩,
    .cons ⟨⟨⟨by decide, rfl⟩, by decide, by decide⟩, rfl⟩
      (.cons ⟨⟨⟨by decide, rfl⟩, by decide, by decide⟩, rfl⟩ (.nil _)),
    ⟨⟨by decide, by decide⟩, rfl⟩, rfl⟩

theorem runWithin_of_run_decades : ∃ m : State, m.vars.size = 2 ∧
    ((Call.find 12).runWithin (2 * Nat.log 2 3 + 2) decades).run m = some (.ptr 101, m) := by
  obtain ⟨m₀, m, hinit, hrun, hstep, hsize⟩ := find_run
  have hwithin := runWithin_of_run (decades_totalPreorder _) hinit hrun hstep
  rw [hsize] at hwithin
  exact ⟨m, hsize, hwithin⟩

end Zbaselib.Rbtree
