import Zbaselib.Rbtree.Rotate
import Zbaselib.Lib.RedBlack.Delete

/-!
# The fix-up loop of `zbaselib_rbtree_delete` refines the climb of the abstract tree

The loop may start at the sentinel.  It then reads the parent of the removed
node from the sentinel's own parent field, which no rotation changes.
-/

namespace Zbaselib.Rbtree

open Program Memory RedBlack

variable {m : State} {top scratch : Ptr} {f : Frame Entry} {rest : Path Entry} {t : RBTree Entry}

/-- The focus of the climb: its parent field is right, also when it is the sentinel. -/
structure Focus (m : State) (top scratch : Ptr) (path : Path Entry) (t : RBTree Entry) : Prop
    extends Holds m top scratch (path.plug t) where
  up : t = .leaf → path = [] ∨ scratch = parentOf top path

theorem Focus.wp_parent {post : Ptr → State → Prop} (h : Focus m top scratch (f :: rest) t) :
    wp (parent (ptr m.vars.sentinel t)) post m ↔ post f.value.addr m := by
  by_cases ht : t = .leaf
  · have hup := (h.up ht).resolve_left nofun
    simp [ht, h.sentinel, hup, parentOf]
  · exact Holds.wp_parent h.toHolds ht

/-- What a step leaves of the focus: the frame above it may only change colour and sibling. -/
theorem Focus.of_holds {m' : State} {f' : Frame Entry} {rest' : Path Entry}
    (h : Focus m top scratch (f :: rest) t)
    (h' : Holds m' top scratch (Path.plug (f' :: rest') t)) (hf : f'.value = f.value) :
    Focus m' top scratch (f' :: rest') t :=
  ⟨h', fun ht ↦ .inr (((h.up ht).resolve_left nofun).trans (congrArg Entry.addr hf.symm))⟩

theorem Focus.wp_sibling {post : Ptr → State → Prop} (h : Focus m top scratch (f :: rest) t) :
    wp (child f.side.other f.value.addr) post m ↔ post (ptr m.vars.sentinel f.sibling) m :=
  h.wp_child_other

section Sibling

variable {c : Color} {near far : RBTree Entry} {e : Entry}

/-- The record of the sibling, with the tree seen from the hole in its place. -/
theorem Holds.at_sibling (h : Holds m top scratch (Path.plug (f :: rest) t))
    (hsib : f.sibling = .branch f.side c near e far) :
    Holds m top scratch (Path.plug (swapFrame f t :: rest) (.branch f.side c near e far)) := by
  rw [← hsib, plug_swapFrame]
  exact h

theorem Holds.of_sibling {c' c'' : Color} {near' far' : RBTree Entry} {e' : Entry}
    (h : Holds m top scratch (Path.plug (swapFrame { f with color := c'' } t :: rest)
      (.branch f.side c' near' e' far'))) :
    Holds m top scratch (Path.plug ({ f with
      color := c'', sibling := .branch f.side c' near' e' far' } :: rest) t) := by
  rw [← plug_swapFrame]
  exact h

theorem Holds.wp_child_sibling {side : Side} {post : Ptr → State → Prop}
    (h : Holds m top scratch (Path.plug (f :: rest) t))
    (hsib : f.sibling = .branch f.side c near e far) :
    wp (child side e.addr) post m ↔
      post (ptr m.vars.sentinel (if side = f.side then near else far)) m := by
  by_cases hside : side = f.side
  · simp [(h.at_sibling hsib).cell, hside]
  · rw [if_neg hside, Side.eq_other_of_ne hside]
    simp [(h.at_sibling hsib).cell]

theorem Holds.wp_color_near {path : Path Entry} {side : Side} {post : Color → State → Prop}
    (h : Holds m top scratch (path.plug (.branch side c near e far))) :
    wp (color (ptr m.vars.sentinel near)) post m ↔ post near.color m :=
  Holds.wp_color (q := ⟨side, c, e, far⟩ :: path) h

theorem Holds.wp_color_far {path : Path Entry} {side : Side} {post : Color → State → Prop}
    (h : Holds m top scratch (path.plug (.branch side c near e far))) :
    wp (color (ptr m.vars.sentinel far)) post m ↔ post far.color m := by
  rw [← RBTree.branch_other] at h
  exact h.wp_color_near

end Sibling

/-! ## One round -/

/-- The sibling is rotated above the parent and the focus gets a black sibling. -/
theorem wp_deleteDemote (h : Focus m top scratch (f :: rest) t) (hw : f.sibling.color = .red) :
    wp (deleteDemote f.side (ptr m.vars.sentinel t) (ptr m.vars.sentinel f.sibling))
      (fun w m' ↦ SameFrame m m' ∧
        Focus m' top scratch ((demote f).1 :: (demote f).2 :: rest) t ∧
          w = ptr m'.vars.sentinel (demote f).1.sibling) m := by
  obtain ⟨c, near, e, far, hsib⟩ := RBTree.exists_branch f.side (RBTree.ne_leaf_of_color_red hw)
  simp only [deleteDemote, wp_bind, h.wp_color_sibling, hw, wp_ite, if_true]
  refine h.wp_setColor_sibling (RBTree.ne_leaf_of_color_red hw) fun m₁ hf₁ h₁ ↦ ?_
  rw [← hf₁.sentinel]
  have h₁' := h.of_holds h₁ rfl
  simp only [h₁'.wp_parent]
  refine h₁.wp_setColor_frame fun m₂ hf₂ h₂ ↦ ?_
  rw [← hf₂.sentinel]
  simp only [(h.of_holds h₂ rfl).wp_parent]
  rw [hsib, RBTree.paint_branch] at h₂
  rw [demote_eq hsib]
  apply wp_mono (wp_rotate (r := rest) h₂)
  rintro - m₃ ⟨hf₃, h₃⟩
  have h₃' : Focus m₃ top scratch (⟨f.side, .red, f.value, near⟩ ::
    ⟨f.side, .black, e, far⟩ :: rest) t := h.of_holds h₃ rfl
  rw [← hf₃.sentinel]
  simp only [h₃'.wp_parent]
  exact h₃'.wp_sibling.2 ⟨(hf₁.trans hf₂).trans hf₃, h₃', rfl⟩

/-- Afterwards the outer child of the sibling is red. -/
theorem wp_deleteOutward {c : Color} {near far : RBTree Entry} {e : Entry}
    (h : Focus m top scratch (f :: rest) t) (hsib : f.sibling = .branch f.side c near e far)
    (hred : ¬(near.color = .black ∧ far.color = .black)) :
    wp (deleteOutward f.side (ptr m.vars.sentinel t) e.addr) (fun w m' ↦ SameFrame m m' ∧
      Focus m' top scratch ({ f with sibling := outward f.side f.sibling } :: rest) t ∧
        w = ptr m'.vars.sentinel (outward f.side f.sibling)) m := by
  have hsib' := h.at_sibling hsib
  simp only [deleteOutward, wp_bind, h.wp_child_sibling hsib, if_neg f.side.other_ne,
    hsib'.wp_color_far, wp_ite, wp_pure, if_true]
  split
  case isFalse hfar =>
    rw [hsib, outward_of_red (Color.eq_red_of_ne_black hfar), ptr_branch]
    exact ⟨.refl m, h.of_holds (by rw [← hsib]; exact h.toHolds) rfl, rfl⟩
  case isTrue hfar =>
    have hnear : near ≠ .leaf := fun hleaf ↦ hred ⟨by simp [hleaf], hfar⟩
    obtain ⟨c', a, x, b, rfl⟩ := RBTree.exists_branch f.side hnear
    have hout :
        outward f.side f.sibling = .branch f.side .black a x (.branch f.side .red b e far) :=
      hsib ▸ outward_of_black hfar
    refine Holds.wp_setColor (q := ⟨f.side, c, e, far⟩ :: swapFrame f t :: rest) hsib'
      hnear fun m₁ hf₁ h₁ ↦ ?_
    refine Holds.wp_setColor_branch (q := swapFrame f t :: rest) h₁ fun m₂ hf₂ h₂ ↦ ?_
    rw [RBTree.paint_branch, ← RBTree.branch_other, ← RBTree.branch_other f.side .black] at h₂
    apply wp_mono (wp_rotate h₂)
    rintro - m₃ ⟨hf₃, h₃⟩
    rw [RBTree.branch_other, RBTree.branch_other, ← hout] at h₃
    have h₃' : Focus m₃ top scratch ({ f with sibling := outward f.side f.sibling } :: rest) t :=
      h.of_holds (by rw [← plug_swapFrame]; exact h₃) rfl
    have hf := (hf₁.trans hf₂).trans hf₃
    rw [← hf.sentinel]
    simp only [h₃'.wp_parent]
    exact h₃'.wp_sibling.2 ⟨hf, h₃', rfl⟩

/-- The sibling lends a node, and the climb is over. -/
theorem wp_deleteBorrow {c : Color} {near far : RBTree Entry} {e : Entry}
    (h : Focus m top scratch (f :: rest) t) (hsib : f.sibling = .branch f.side c near e far)
    (hred : ¬(near.color = .black ∧ far.color = .black)) :
    wp (deleteBorrow f.side (ptr m.vars.sentinel t) e.addr) (fun node m' ↦ SameFrame m m' ∧
      Holds m' top scratch (Path.plug rest (borrow f t)) ∧ node = m'.vars.root) m := by
  rw [deleteBorrow, wp_bind]
  refine wp_mono (wp_deleteOutward h hsib hred) ?_
  rintro - m₁ ⟨hf₁, h₁, rfl⟩
  obtain ⟨c₁, a, x, b, hout, hb⟩ : ∃ c' a x b,
      outward f.side f.sibling = .branch f.side c' a x b ∧ b.color = .red :=
    hsib ▸ exists_outward hred
  rw [borrow_eq hout]
  rw [hout] at h₁ ⊢
  rw [← hf₁.sentinel]
  simp only [wp_bind, h₁.wp_parent, h₁.wp_color_frame]
  refine h₁.wp_setColor_sibling (RBTree.branch_ne_leaf _ _ _ _ _) fun m₂ hf₂ h₂ ↦ ?_
  have h₂' := h₁.of_holds h₂ rfl
  rw [← hf₂.sentinel]
  simp only [h₂'.wp_parent]
  refine h₂.wp_setColor_frame fun m₃ hf₃ h₃ ↦ ?_
  simp only [RBTree.paint_branch, ptr_branch] at h₃ ⊢
  rw [h₃.wp_child_sibling rfl, if_neg f.side.other_ne]
  have h₃' := h₃.at_sibling rfl
  rw [← RBTree.branch_other] at h₃'
  refine Holds.wp_setColor (q := ⟨f.side.other, f.color, x, a⟩ ::
    swapFrame ⟨f.side, .black, f.value, _⟩ t :: rest) h₃' (RBTree.ne_leaf_of_color_red hb)
    fun m₄ hf₄ h₄ ↦ ?_
  have h₄' : Holds m₄ top scratch (Path.plug ({ f with
      color := .black, sibling := .branch f.side f.color a x (b.paint .black) } :: rest) t) := by
    refine Holds.of_sibling ?_
    rw [← RBTree.branch_other]
    exact h₄
  rw [← hf₃.sentinel, ← hf₄.sentinel]
  simp only [(h₁.of_holds h₄' rfl).wp_parent]
  apply wp_mono (wp_rotate (r := rest) h₄')
  rintro - m₅ ⟨hf₅, h₅⟩
  rw [wp_root]
  exact ⟨(((hf₁.trans hf₂).trans hf₃).trans hf₄).trans hf₅, h₅, rfl⟩

/-- A round with a black sibling. -/
theorem wp_deleteSettle (h : Focus m top scratch (f :: rest) t) (hsib : f.sibling ≠ .leaf) :
    wp (deleteSettle f.side (ptr m.vars.sentinel t) (ptr m.vars.sentinel f.sibling))
      (fun node m' ↦ SameFrame m m' ∧ ∃ t', t' ≠ .leaf ∧
        Holds m' top scratch (Path.plug rest t') ∧
          (settle f t = .inl t' ∧ node = ptr m'.vars.sentinel t' ∨
            settle f t = .inr t' ∧ node = m'.vars.root)) m := by
  obtain ⟨c, near, e, far, hbranch⟩ := RBTree.exists_branch f.side hsib
  have hsib' := h.at_sibling hbranch
  have hcolor {side : Side} {post : Color → State → Prop} :
      wp (color (ptr m.vars.sentinel (if side = f.side then near else far))) post m ↔
        post (if side = f.side then near else far).color m := by
    split
    · exact hsib'.wp_color_near
    · exact hsib'.wp_color_far
  have hcond : (((if Side.left = f.side then near else far).color = .black ∧
      (if Side.right = f.side then near else far).color = .black)) ↔
        near.color = .black ∧ far.color = .black := by
    cases f.side <;> simp [and_comm]
  simp only [deleteSettle, hbranch, ptr_branch, wp_bind, h.wp_child_sibling hbranch, hcolor,
    wp_ite, hcond]
  split
  case isTrue hblack =>
    rw [settle_of_black hbranch hblack.1 hblack.2]
    refine hsib'.wp_setColor_branch fun m₁ hf₁ h₁ ↦ ?_
    have h₁' : Focus m₁ top scratch
        ({ f with sibling := .branch f.side .red near e far } :: rest) t :=
      h.of_holds (by rw [← plug_swapFrame]; exact h₁) rfl
    rw [← hf₁.sentinel]
    refine h₁'.wp_parent.2 ⟨hf₁, _, RBTree.branch_ne_leaf _ _ _ _ _, ?_, .inl ⟨rfl, ?_⟩⟩
    · rw [hbranch, RBTree.paint_branch]
      exact h₁'.toHolds
    · rw [ptr_branch]
  case isFalse hred =>
    rw [settle_of_red hbranch hred]
    apply wp_mono (wp_deleteBorrow h hbranch hred)
    rintro node m' ⟨hf, h', hnode⟩
    exact ⟨hf, _, borrow_ne_leaf f t, h', .inr ⟨rfl, hnode⟩⟩

/-! ## The loop -/

/-- Where the climb is: at the root, or below a path that is one black node too long. -/
def FixupInv (goal : RBTree Entry) (top scratch : Ptr) (start : State) (measure : ℕ) (node : Ptr)
    (m : State) : Prop :=
  ∃ path t, SameFrame start m ∧ Focus m top scratch path t ∧ node = ptr m.vars.sentinel t ∧
    deleteFix path t = goal ∧ path.length + t.color.weight ≤ measure ∧
      (path = [] → t ≠ .leaf) ∧ (path ≠ [] → DeleteInv path t)

theorem weight_le_one (c : Color) : c.weight ≤ 1 := by cases c <;> decide

theorem FixupInv.of_root {goal : RBTree Entry} {start : State} {measure : ℕ}
    (hf : SameFrame start m) (h : Holds m top scratch t) (ht : t ≠ .leaf)
    (hgoal : t.paint .black = goal) : FixupInv goal top scratch start (measure + 1) m.vars.root m :=
  ⟨[], t, hf, ⟨h, fun hleaf ↦ absurd hleaf ht⟩, h.root, hgoal,
    (by have := weight_le_one t.color; simp; omega), fun _ ↦ ht, fun h ↦ absurd rfl h⟩

/-- One round of the climb. -/
theorem wp_deleteStep {goal : RBTree Entry} {start : State} (hf : SameFrame start m)
    (h : Focus m top scratch (f :: rest) t) (hinv : DeleteInv (f :: rest) t)
    (ht : t.color = .black) (hgoal : deleteFix (f :: rest) t = goal) :
    wp (deleteStep f.side (ptr m.vars.sentinel t))
      (fun node m' ↦ FixupInv goal top scratch start (rest.length + 1) node m') m := by
  rw [deleteFix, if_neg (by simp [ht])] at hgoal
  simp only [deleteStep, wp_bind, h.wp_parent, h.wp_sibling]
  by_cases hw : f.sibling.color = .red
  · rw [if_pos hw] at hgoal
    obtain ⟨hinv₁, hc₁, hs₁⟩ := hinv.demote hw
    refine wp_mono (wp_deleteDemote h hw) ?_
    rintro - m₁ ⟨hf₁, h₁, rfl⟩
    rw [← hf₁.sentinel]
    refine wp_mono (side_demote f ▸ wp_deleteSettle h₁ hinv₁.sibling_ne_leaf) ?_
    rintro node m₂ ⟨hf₂, t', htleaf, h₂, hstep⟩
    rcases hstep with ⟨hs, hnode⟩ | ⟨hs, hnode⟩
    · obtain ⟨hinv₂, hc₂⟩ := (hinv₁.settle ht hs₁).1 t' hs
      rw [hs] at hgoal
      refine ⟨_, t', (hf.trans hf₁).trans hf₂, ⟨h₂, fun hleaf ↦ absurd hleaf htleaf⟩, hnode, ?_, ?_,
        fun _ ↦ htleaf, fun _ ↦ hinv₂⟩
      · rw [deleteFix, if_pos (hc₂.trans hc₁)]
        exact hgoal
      · rw [hc₂, hc₁]
        exact Nat.le_refl _
    · rw [hs] at hgoal
      exact hnode ▸ .of_root ((hf.trans hf₁).trans hf₂) h₂ (Path.plug_ne_leaf _ htleaf) hgoal
  · rw [if_neg hw] at hgoal
    have hwb := Color.eq_black_of_ne_red hw
    simp only [deleteDemote, wp_bind, h.wp_color_sibling, wp_ite, if_neg hw, wp_pure]
    apply wp_mono (wp_deleteSettle h hinv.sibling_ne_leaf)
    rintro node m₁ ⟨hf₁, t', htleaf, h₁, hstep⟩
    rcases hstep with ⟨hs, hnode⟩ | ⟨hs, hnode⟩
    · rw [hs] at hgoal
      refine ⟨rest, t', hf.trans hf₁, ⟨h₁, fun hleaf ↦ absurd hleaf htleaf⟩, hnode, hgoal, ?_,
        fun _ ↦ htleaf, fun _ ↦ ((hinv.settle ht hwb).1 t' hs).1⟩
      have := weight_le_one t'.color
      omega
    · rw [hs] at hgoal
      exact hnode ▸ .of_root (hf.trans hf₁) h₁ (Path.plug_ne_leaf _ htleaf) hgoal

theorem Focus.ptr_ne_root (h : Focus m top scratch (f :: rest) t) :
    ptr m.vars.sentinel t ≠ m.vars.root := by
  by_cases ht : t = .leaf
  · rw [ht, ptr_leaf, h.root]
    have hmem := ptr_plug_mem (s := m.vars.sentinel) (r := f :: rest) nofun t
    exact fun heq ↦ h.fresh (mem_addrs_plug.2 (.inr (heq ▸ hmem)))
  · exact h.toHolds.ptr_ne_root ht

theorem Focus.ptr_ne_sibling (h : Focus m top scratch (f :: rest) t) (hsib : f.sibling ≠ .leaf) :
    ptr m.vars.sentinel t ≠ ptr m.vars.sentinel f.sibling := by
  have h' : Holds m top scratch (Path.plug (swapFrame f t :: rest) f.sibling) := by
    rw [plug_swapFrame]
    exact h.toHolds
  exact (h'.ptr_ne_sibling hsib).symm

/-- **The fix-up loop ends, and computes `deleteFix`.** -/
theorem wp_deleteFixup (h : Focus m top scratch (f :: rest) t) (hinv : DeleteInv (f :: rest) t) :
    wp (deleteFixup (ptr m.vars.sentinel t)) (fun _ m' ↦
      SameFrame m m' ∧ Holds m' top scratch (deleteFix (f :: rest) t)) m := by
  rw [deleteFixup, wp_bind]
  refine wp_heapLoop (FixupInv (deleteFix (f :: rest) t) top scratch m) ?_
    ⟨f :: rest, t, .refl m, h, rfl, rfl, Nat.le_refl _, by simp, fun _ ↦ hinv⟩ ?_
  · rintro measure node m₁ ⟨path', t', hf, h₁, rfl, hgoal, hlen, hleaf, hinv'⟩
    -- the loop is left with a node that is then blackened
    have hdone (ht' : t' ≠ .leaf) (hpaint : Path.plug path' (t'.paint .black) =
        deleteFix (f :: rest) t) :
        wp (setColor (ptr m₁.vars.sentinel t') .black) (fun _ m' ↦
          SameFrame m m' ∧ Holds m' top scratch (deleteFix (f :: rest) t)) m₁ :=
      Holds.wp_setColor h₁.toHolds ht' fun m₂ hf₂ h₂ ↦ ⟨hf.trans hf₂, hpaint ▸ h₂⟩
    simp only [wp_bind, wp_root, wp_ite, wp_pure]
    cases path' with
    | nil =>
      rw [if_pos (show ptr m₁.vars.sentinel t' = m₁.vars.root from h₁.root.symm)]
      exact hdone (hleaf rfl) hgoal
    | cons f' rest' =>
      rw [if_neg h₁.ptr_ne_root]
      simp only [h₁.toHolds.wp_color]
      by_cases hred : t'.color = .red
      · rw [if_pos hred]
        rw [deleteFix, if_pos hred] at hgoal
        exact hdone (RBTree.ne_leaf_of_color_red hred) hgoal
      have hinv₁ := hinv' (by simp)
      have hne := h₁.ptr_ne_sibling hinv₁.sibling_ne_leaf
      have hblack := Color.eq_black_of_ne_red hred
      rw [if_neg hred]
      simp only [h₁.wp_parent, h₁.toHolds.wp_child_left]
      refine (ite_side f'.side (fun side ↦ wp (deleteStep side _) _ m₁) hne).2 ?_
      refine wp_mono (wp_deleteStep hf h₁ hinv₁ hblack hgoal) fun node m₂ h₂ ↦ ?_
      rw [hblack, List.length_cons] at hlen
      exact ⟨_, hlen, h₂⟩
  · have := h.room
    have := length_le_addrs_plug (f :: rest) t
    have := weight_le_one t.color
    omega

end Zbaselib.Rbtree
