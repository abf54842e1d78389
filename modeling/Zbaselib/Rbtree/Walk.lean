import Zbaselib.Rbtree.Rotate
import Zbaselib.Lib.RedBlack.Delete

/-!
# Walking down the tree
-/

namespace Zbaselib.Rbtree

open Program Memory RedBlack

variable {m : State} {top scratch : Ptr}

/-- The last node before the sentinel on one side of a subtree. -/
def LastOn (side : Side) (t : RBTree Entry) (inner : Path Entry) (c : Color) (e : Entry)
    (far : RBTree Entry) : Prop :=
  Path.plug inner (.branch side c .leaf e far) = t ∧ ∀ f ∈ inner, f.side = side

theorem LastOn.before {t far : RBTree Entry} {inner : Path Entry} {c : Color} {e : Entry}
    (h : LastOn .left t inner c e far) : Path.before inner = [] :=
  Path.before_of_left h.2

theorem LastOn.after {t far : RBTree Entry} {inner : Path Entry} {c : Color} {e : Entry}
    (h : LastOn .right t inner c e far) : Path.after inner = [] :=
  Path.after_of_right h.2

/-- The walk stops at the last node on the side. -/
theorem wp_walk {q : Path Entry} {t : RBTree Entry} {post : Ptr → State → Prop} (side : Side)
    (h : Holds m top scratch (q.plug t)) (ht : t ≠ .leaf)
    (hpost : ∀ inner c e far, LastOn side t inner c e far → post e.addr m) :
    wp (walk side (ptr m.vars.sentinel t)) post m := by
  refine wp_heapLoop (fun n node m' ↦ m' = m ∧ ∃ inner t', Path.plug inner t' = t ∧
    (∀ f ∈ inner, f.side = side) ∧ t' ≠ .leaf ∧ node = ptr m.vars.sentinel t' ∧
      (addrs t').length ≤ n) ?_
    ⟨rfl, [], t, rfl, by simp, ht, rfl, Nat.le_refl _⟩ ?_
  · rintro n node m' ⟨rfl, inner, t', hplug, hsides, ht', rfl, hlen⟩
    obtain ⟨c, near, e, far, rfl⟩ := RBTree.exists_branch side ht'
    have h' : Holds m' top scratch (Path.plug (inner ++ q) (.branch side c near e far)) := by
      rw [Path.plug_append, hplug]
      exact h
    have hfresh : m'.vars.sentinel ∉ addrs near := fun hs ↦
      h'.fresh (mem_addrs_plug.2 (.inl (mem_addrs_branch.2 (.inr (.inl hs)))))
    simp only [wp_bind, ptr_branch, wp_child, h'.cell, Option.some.injEq, exists_eq_left',
      Node.child_branch, wp_sentinel, wp_ite, wp_pure, ne_eq, ptr_eq_sentinel_iff hfresh]
    split
    case isTrue hnear =>
      refine ⟨(addrs near).length, ?_, rfl, ⟨side, c, e, far⟩ :: inner, near, hplug, ?_, hnear, rfl,
        Nat.le_refl _⟩
      · refine Nat.lt_of_lt_of_le ?_ hlen
        rw [length_addrs_branch]
        omega
      · simpa using hsides
    case isFalse hnear =>
      have hnear := Decidable.not_not.1 hnear
      subst hnear
      exact hpost inner c e far ⟨hplug, hsides⟩
  · have := h.room
    have := length_addrs_plug q t
    omega

end Zbaselib.Rbtree
