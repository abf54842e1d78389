import Zbaselib.Rbtree.Rotate
import Zbaselib.Lib.RedBlack.Insert

/-!
# `zbaselib_rbtree_push` refines the insertion of the abstract tree
-/

namespace Zbaselib.Rbtree

open Program Memory RedBlack

variable {m : State} {top scratch : Ptr}

/-- A red uncle: the colours move and the climb goes on at the grandparent. -/
theorem wp_pushStep_recolor {p g : Frame Entry} {rest : Path Entry} {t : RBTree Entry}
    (h : Holds m top scratch (Path.plug (p :: g :: rest) t)) (ht : t ≠ .leaf)
    (hg : g.sibling.color = .red) :
    wp (pushStep g.side (ptr m.vars.sentinel t)) (fun node m' ↦ SameFrame m m' ∧
      Holds m' top scratch (Path.plug rest (recolor p g t)) ∧
        node = ptr m'.vars.sentinel (recolor p g t)) m := by
  have hg' := RBTree.ne_leaf_of_color_red hg
  simp only [pushStep, wp_bind, h.wp_parent ht, parentOf, h.wp_parent_frame,
    Holds.wp_child_other (f := g) (t := p.fill t) h,
    Holds.wp_color_sibling (f := g) (t := p.fill t) h, hg, wp_ite, if_true]
  refine h.wp_setColor_frame fun m₁ hf₁ h₁ ↦ ?_
  rw [← hf₁.sentinel]
  refine Holds.wp_setColor_sibling (f := g) (t := Frame.fill { p with color := .black } t)
    h₁ hg' fun m₂ hf₂ h₂ ↦ ?_
  rw [← hf₂.sentinel]
  have h₂' : Holds m₂ top scratch (Path.plug ({ p with color := .black } ::
    { g with sibling := g.sibling.paint .black } :: rest) t) := h₂
  simp only [h₂'.wp_parent ht, parentOf, h₂'.wp_parent_frame]
  refine h₂.wp_setColor_frame fun m₃ hf₃ h₃ ↦ ?_
  have h₃' : Holds m₃ top scratch (Path.plug ({ p with color := .black } ::
    { g with color := .red, sibling := g.sibling.paint .black } :: rest) t) := h₃
  rw [← hf₃.sentinel]
  simp only [h₃'.wp_parent ht, parentOf, h₃'.wp_parent_frame]
  exact ⟨(hf₁.trans hf₂).trans hf₃, h₃, (ptr_branch ..).symm⟩

/-- The grandparent is rotated below the parent. -/
theorem wp_pushRaise {p g : Frame Entry} {rest : Path Entry} {t : RBTree Entry}
    (h : Holds m top scratch (Path.plug (p :: g :: rest) t)) (ht : t ≠ .leaf)
    (hside : p.side = g.side) :
    wp (pushRaise g.side (ptr m.vars.sentinel t)) (fun _ m' ↦ SameFrame m m' ∧
      Holds m' top scratch (Path.plug rest (raise p g t))) m := by
  simp only [pushRaise, wp_bind, h.wp_parent ht, parentOf]
  refine h.wp_setColor_frame fun m₁ hf₁ h₁ ↦ ?_
  rw [← hf₁.sentinel]
  simp only [h₁.wp_parent ht, parentOf, h₁.wp_parent_frame]
  refine Holds.wp_setColor_frame (f := g) (t := Frame.fill { p with color := .black } t)
    h₁ fun m₂ hf₂ h₂ ↦ ?_
  rw [← hf₂.sentinel]
  have h₂' : Holds m₂ top scratch (Path.plug ({ p with color := .black } ::
    { g with color := .red } :: rest) t) := h₂
  simp only [h₂'.wp_parent ht, parentOf, h₂'.wp_parent_frame]
  have hrot : Holds m₂ top scratch (Path.plug rest (.branch g.side.other .red g.sibling g.value
      (.branch g.side.other .black p.sibling p.value t))) := by
    rw [RBTree.branch_other, RBTree.branch_other, ← hside]
    exact hside ▸ h₂
  apply wp_mono (wp_rotate hrot)
  rintro - m₃ ⟨hf₃, h₃⟩
  refine ⟨(hf₁.trans hf₂).trans hf₃, ?_⟩
  rwa [RBTree.branch_other, RBTree.branch_other] at h₃

theorem straighten_side (p g : Frame Entry) {t : RBTree Entry} (ht : t ≠ .leaf) :
    (straighten p g t).1.side = g.side ∧ (straighten p g t).2 ≠ .leaf := by
  by_cases hside : p.side = g.side
  · rw [straighten_of_eq t hside]
    exact ⟨hside, ht⟩
  · obtain ⟨c, near, e, far, rfl⟩ := RBTree.exists_branch g.side ht
    rw [straighten_branch _ _ _ _ hside]
    exact ⟨rfl, RBTree.branch_ne_leaf _ _ _ _ _⟩

theorem wp_pushStraighten {p g : Frame Entry} {rest : Path Entry} {t : RBTree Entry}
    (h : Holds m top scratch (Path.plug (p :: g :: rest) t)) (ht : t ≠ .leaf) :
    wp (pushStraighten g.side (ptr m.vars.sentinel t)) (fun node m' ↦ SameFrame m m' ∧
      Holds m' top scratch
        (Path.plug ((straighten p g t).1 :: g :: rest) (straighten p g t).2) ∧
          node = ptr m'.vars.sentinel (straighten p g t).2) m := by
  simp only [pushStraighten, wp_bind, h.wp_parent ht, parentOf]
  by_cases hside : p.side = g.side
  · simp only [← hside, h.wp_child_other, wp_ite, if_neg (h.ptr_ne_sibling ht), wp_pure,
      straighten_of_eq t hside]
    exact ⟨.refl m, h, trivial⟩
  · obtain ⟨c, near, e, far, rfl⟩ := RBTree.exists_branch g.side ht
    have hother := Side.eq_other_of_ne hside
    simp only [← hother, h.wp_child, wp_ite, if_true, wp_bind, h.wp_parent ht, parentOf,
      straighten_branch _ _ _ _ hside]
    have hrot : Holds m top scratch (Path.plug (g :: rest) (.branch g.side p.color p.sibling
        p.value (.branch g.side c near e far))) := by
      rw [← RBTree.branch_other, ← hother]
      exact h
    apply wp_mono (wp_rotate hrot)
    rintro - m' ⟨hf, h'⟩
    rw [wp_pure]
    exact ⟨hf, h', (ptr_branch ..).symm⟩

/-- A black uncle: one or two rotations, and the focus has a black parent. -/
theorem wp_pushStep_raise {p g : Frame Entry} {rest : Path Entry} {t : RBTree Entry}
    (h : Holds m top scratch (Path.plug (p :: g :: rest) t)) (ht : t ≠ .leaf)
    (hg : g.sibling.color = .black) :
    wp (pushStep g.side (ptr m.vars.sentinel t)) (fun node m' ↦ SameFrame m m' ∧
      Holds m' top scratch (Path.plug rest (raise (straighten p g t).1 g (straighten p g t).2)) ∧
        node = ptr m'.vars.sentinel (straighten p g t).2) m := by
  simp only [pushStep, wp_bind, h.wp_parent ht, parentOf, h.wp_parent_frame,
    Holds.wp_child_other (f := g) (t := p.fill t) h,
    Holds.wp_color_sibling (f := g) (t := p.fill t) h, hg, wp_ite, reduceCtorEq, if_false]
  refine wp_mono (wp_pushStraighten h ht) ?_
  rintro - m₁ ⟨hf₁, h₁, rfl⟩
  obtain ⟨hside, hleaf⟩ := straighten_side p g ht
  apply wp_mono (wp_pushRaise h₁ hleaf hside)
  rintro - m₂ ⟨hf₂, h₂⟩
  rw [wp_pure]
  exact ⟨hf₁.trans hf₂, h₂, by rw [hf₂.sentinel]⟩

/-- The path and focus that the loop is at: it is done, or the red focus is what is wrong. -/
def RebalanceInv (goal : RBTree Entry) (top scratch : Ptr) (start : State) (measure : ℕ)
    (node : Ptr) (m : State) : Prop :=
  ∃ path t, SameFrame start m ∧ Holds m top scratch (Path.plug path t) ∧ t ≠ .leaf ∧
    node = ptr m.vars.sentinel t ∧ insertFix path t = goal ∧ path.length ≤ measure ∧
      (Path.outerColor path = .black ∨ InsertInv path t)

theorem insertFix_of_black {f : Frame Entry} {rest : Path Entry} {t : RBTree Entry}
    (hf : f.color = .black) : insertFix (f :: rest) t = Path.plug (f :: rest) t := by
  cases rest with
  | nil => rfl
  | cons g rest => rw [insertFix, if_pos hf]

/-- One round of the climb. -/
theorem wp_pushStep {p g : Frame Entry} {rest : Path Entry} {t goal : RBTree Entry} {start : State}
    (hf : SameFrame start m) (h : Holds m top scratch (Path.plug (p :: g :: rest) t))
    (hinv : InsertInv (p :: g :: rest) t) (hp : p.color = .red)
    (hgoal : insertFix (p :: g :: rest) t = goal) :
    wp (pushStep g.side (ptr m.vars.sentinel t))
      (fun node m' ↦ RebalanceInv goal top scratch start (rest.length + 1) node m') m := by
  have ht := RBTree.ne_leaf_of_color_red hinv.red
  rw [insertFix, if_neg (by simp [hp])] at hgoal
  by_cases hg : g.sibling.color = .red
  · rw [if_pos hg] at hgoal
    apply wp_mono (wp_pushStep_recolor h ht hg)
    rintro node m' ⟨hf', h', hnode⟩
    exact ⟨rest, _, hf.trans hf', h', recolor_ne_leaf p g t, hnode, hgoal, Nat.le_succ _,
      .inr (hinv.recolor hp hg)⟩
  · rw [if_neg hg] at hgoal
    apply wp_mono (wp_pushStep_raise h ht (Color.eq_black_of_ne_red hg))
    rintro node m' ⟨hf', h', hnode⟩
    refine ⟨⟨g.side, .black, (straighten p g t).1.value, .branch g.side .red
      (straighten p g t).1.sibling g.value g.sibling⟩ :: rest, _, hf.trans hf', h',
      (straighten_side p g ht).2, hnode, ?_, Nat.le_refl _, .inl rfl⟩
    rw [insertFix_of_black rfl]
    exact hgoal

/-- **The re-balancing loop ends, and computes `insertFix`.** -/
theorem wp_rebalance {path : Path Entry} {t : RBTree Entry}
    (h : Holds m top scratch (Path.plug path t)) (hinv : InsertInv path t) :
    wp (rebalance (ptr m.vars.sentinel t)) (fun _ m' ↦
      SameFrame m m' ∧ Holds m' top scratch (insertFix path t)) m := by
  refine wp_heapLoop (RebalanceInv (insertFix path t) top scratch m) ?_
    (n := path.length) ⟨path, t, .refl m, h, RBTree.ne_leaf_of_color_red hinv.red, rfl, rfl,
      Nat.le_refl _, .inr hinv⟩ ?_
  · rintro measure node m₁ ⟨path', t', hf, h₁, ht, rfl, hgoal, hlen, hinv'⟩
    simp only [wp_bind, wp_root, wp_ite, wp_pure]
    cases path' with
    | nil =>
      rw [if_pos (show ptr m₁.vars.sentinel t' = m₁.vars.root from h₁.root.symm), ← hgoal]
      exact ⟨hf, h₁⟩
    | cons f rest =>
      rw [if_neg (h₁.ptr_ne_root ht)]
      simp only [h₁.wp_parent ht, parentOf, h₁.wp_color_frame]
      by_cases hfc : f.color = .black
      · rw [if_pos hfc, ← hgoal, insertFix_of_black hfc]
        exact ⟨hf, h₁⟩
      rw [if_neg hfc]
      have hred := Color.eq_red_of_ne_black hfc
      have hinv₁ : InsertInv (f :: rest) t' := hinv'.resolve_left (by simpa [Path.outerColor])
      cases rest with
      | nil => exact absurd (hinv₁.pathNoRedRed.2.1 hred).2 (by simp [Path.outerColor])
      | cons g rest =>
        have hp : Holds m₁ top scratch (Path.plug (g :: rest) (f.fill t')) := h₁
        have hne := hp.ptr_ne_sibling (fill_ne_leaf f t')
        rw [ptr_fill] at hne
        simp only [h₁.wp_parent_frame, parentOf, hp.wp_child_left, ptr_fill]
        refine (ite_side g.side (fun side ↦ wp (pushStep side _) _ m₁) hne).2 ?_
        refine wp_mono (wp_pushStep hf h₁ hinv₁ hred hgoal) fun node m₂ h₂ ↦ ?_
        simp only [List.length_cons] at hlen
        exact ⟨_, by omega, h₂⟩
  · have := h.room
    have := length_le_addrs_plug path t
    omega

/-! ## The new node -/

/-- The comparator's verdict as the descent uses it. -/
def goLeft (cmp : CompareFunc) (key : Ptr) (e : Entry) : Bool :=
  decide ((cmp key e.key).getD 0 < 0)

/-- The comparator answers for this key against every key of the tree. -/
def Compares (cmp : CompareFunc) (key : Ptr) (t : RBTree Entry) : Prop :=
  ∀ e ∈ t.toList, (cmp key e.key).isSome

/-- The state with a new node that is not linked yet. -/
structure HoldsFresh (m : State) (top scratch addr key : Ptr) (t : RBTree Entry) : Prop
    extends Holds m top scratch t where
  cell : m.heap.cell addr = some { key }
  addrFresh : addr ∉ addrs t
  addrSentinel : addr ≠ m.vars.sentinel
  roomFresh : (addrs t).length + 1 < m.heap.live

theorem wp_compare {cmp : CompareFunc} {a b : Ptr} {post : ℤ → State → Prop}
    (h : (cmp a b).isSome) : wp (compare cmp a b) post m ↔ post ((cmp a b).getD 0) m := by
  obtain ⟨result, hresult⟩ := Option.isSome_iff_exists.1 h
  simp [compare, hresult]

/-- The descent has come to a subtree without leaving the path to the key's leaf. -/
def DescendInv (cmp : CompareFunc) (key : Ptr) (t : RBTree Entry) (start : State) (measure : ℕ)
    (temp : Ptr) (m : State) : Prop :=
  m = start ∧ ∃ path t', Path.plug path t' = t ∧ t' ≠ .leaf ∧ Compares cmp key t' ∧
    temp = ptr m.vars.sentinel t' ∧ (addrs t').length ≤ measure ∧
      insertPath (goLeft cmp key) t' path = insertPath (goLeft cmp key) t []

/-- The descent stops at the frame above the leaf where the key belongs. -/
theorem wp_descend {cmp : CompareFunc} {addr key : Ptr} {t : RBTree Entry}
    {post : Ptr × Side → State → Prop} (h : HoldsFresh m top scratch addr key t) (ht : t ≠ .leaf)
    (hcmp : Compares cmp key t)
    (hpost : ∀ f rest, insertPath (goLeft cmp key) t [] = f :: rest →
      post (f.value.addr, f.side) m) :
    wp (heapLoop (insertRound cmp addr) (ptr m.vars.sentinel t)) post m := by
  refine wp_heapLoop (DescendInv cmp key t m) ?_
    (n := (addrs t).length) ⟨rfl, [], t, rfl, ht, hcmp, rfl, Nat.le_refl _, rfl⟩ ?_
  · rintro measure temp m' ⟨rfl, path, t', hplug, ht', hcmp', rfl, hlen, hsame⟩
    -- the child on `side` is the leaf where the key belongs, or the loop goes on there
    have hside (f : Frame Entry) (t'' : RBTree Entry)
        (hfill : Path.plug (f :: path) t'' = t) (hcmp'' : Compares cmp key t'')
        (hsize : (addrs t'').length < (addrs t').length)
        (hstep : insertPath (goLeft cmp key) t'' (f :: path) =
          insertPath (goLeft cmp key) t []) :
        wp (do
          let next ← child f.side f.value.addr
          if next = (← sentinel) then return .inr (f.value.addr, f.side)
          else return .inl next : TreeCmd (Ptr ⊕ Ptr × Side))
          (LoopPost (DescendInv cmp key t m') post measure) m' := by
      have h' := h.toHolds
      rw [← hfill] at h'
      have hfresh : m'.vars.sentinel ∉ addrs t'' := fun hs ↦
        h'.fresh (mem_addrs_plug.2 (.inl hs))
      simp only [wp_bind, h'.wp_child, wp_sentinel, wp_ite, wp_pure,
        ptr_eq_sentinel_iff hfresh]
      split
      case isTrue hleaf =>
        subst hleaf
        exact hpost f path hstep.symm
      case isFalse hleaf =>
        exact ⟨_, Nat.lt_of_lt_of_le hsize hlen, rfl, _, _, hfill, hleaf, hcmp'', rfl,
          Nat.le_refl _, hstep⟩
    obtain ⟨c, left, e, right, rfl⟩ := RBTree.exists_branch .left ht'
    have h' := h.toHolds
    rw [← hplug] at h'
    have hmem {x : Entry} (hx : x ∈ left.toList ∨ x ∈ right.toList) :
        (cmp key x.key).isSome := hcmp' x (by simpa [RBTree.branch] using hx.imp_right .inr)
    simp only [insertRound, wp_bind, wp_load, h.cell, ptr_branch, h'.cell, Option.some.injEq,
      exists_eq_left', Node.key_branch, wp_compare (hcmp' e (by simp [RBTree.branch]))]
    simp only [RBTree.branch, insertPath, goLeft, decide_eq_true_eq] at hsame
    split
    case isTrue hlt =>
      rw [if_pos hlt] at hsame
      simpa only [wp_bind] using hside ⟨.left, c, e, right⟩ left hplug (fun x hx ↦ hmem (.inl hx))
        (by simp [addrs, RBTree.branch]) hsame
    case isFalse hlt =>
      rw [if_neg hlt] at hsame
      simpa only [wp_bind] using hside ⟨.right, c, e, left⟩ right hplug (fun x hx ↦ hmem (.inr hx))
        (by simp [addrs, RBTree.branch]; omega) hsame
  · have := h.room
    omega

/-- Linking the new node into the hole where the key belongs. -/
theorem wp_insertValue {cmp : CompareFunc} {addr key : Ptr} {t : RBTree Entry}
    (h : HoldsFresh m top scratch addr key t) (ht : t ≠ .leaf) (hcmp : Compares cmp key t) :
    wp (insertValue cmp (ptr m.vars.sentinel t) addr) (fun _ m' ↦ SameFrame m m' ∧
      Holds m' top scratch (Path.plug (insertPath (goLeft cmp key) t [])
        (.node .red .leaf ⟨addr, key⟩ .leaf))) m := by
  rw [insertValue, wp_bind]
  refine wp_descend h ht hcmp fun f rest hpath ↦ ?_
  have hplug : Path.plug (f :: rest) .leaf = t := by rw [← hpath, plug_insertPath, Path.plug_nil]
  rw [hpath]
  obtain ⟨hbase, hcell, hfresh, hsent, hroom⟩ := h
  rw [← hplug] at hbase hfresh hroom
  obtain ⟨-, hpathNodup, -⟩ := nodup_addrs_plug.1 hbase.nodup
  rw [mem_addrs_plug, not_or] at hfresh
  have hsfresh := hbase.fresh
  rw [mem_addrs_plug, not_or] at hsfresh
  have hfaddr : f.value.addr ≠ addr := fun heq ↦ hfresh.2 (mem_pathAddrs_cons.2 (.inl heq.symm))
  have hsf : m.vars.sentinel ≠ f.value.addr := fun heq ↦
    hsfresh.2 (mem_pathAddrs_cons.2 (.inl heq))
  have hfcell := hbase.path.1
  simp only [linkBelow, wp_bind, wp_setChild, wp_setParent, wp_setColor, wp_sentinel, hfcell,
    Option.some.injEq, exists_eq', true_and, Heap.cell_update_self,
    Heap.cell_update_of_ne _ _ (Ne.symm hfaddr), hcell, Option.map_some]
  refine ⟨(((((SameFrame.refl m).update _ _).update _ _).update _ _).update _ _).update _ _, ?_,
    (treeAt_plug ..).2 ⟨?_, ?_, trivial, trivial⟩, ?_, ?_, ?_, ?_⟩
  · exact hbase.root.trans (ptr_plug_congr fun h ↦ by simp at h)
  · have hlinked := hbase.path.setHole (q := addr) hpathNodup
    exact (((hlinked.update hfresh.2).update hfresh.2).update hfresh.2).update hfresh.2
  · simp [Heap.cell_update_of_ne _ _ (Ne.symm hfaddr), hcell, Node.setColor, Node.setChild,
      Node.setParent, parentOf]
  · refine nodup_addrs_plug.2 ⟨by simp [addrs], hpathNodup, ?_⟩
    simpa [addrs] using hfresh.2
  · rw [mem_addrs_plug]
    simpa [addrs] using ⟨Ne.symm hsent, hsfresh.2⟩
  · simp only [Heap.cell_update_of_ne _ _ (Ne.symm hsent), Heap.cell_update_of_ne _ _ hsf]
    exact hbase.sentinel
  · rw [length_addrs_plug] at hroom ⊢
    simpa [addrs, Nat.add_comm] using hroom

/-- Allocating and filling in the new node. -/
theorem Holds.calloc {addr key : Ptr} {t : RBTree Entry} (h : Holds m top scratch t)
    (haddr : addr ≠ NULL) (hfree : m.heap.cell addr = none) :
    HoldsFresh { m with heap := (m.heap.insert addr {}).update addr fun n ↦ { n with key } }
      top scratch addr key t := by
  have hfresh : addr ∉ addrs t := fun hmem ↦ by simpa [hfree] using h.tree.isSome hmem
  have hsent : addr ≠ m.vars.sentinel := by
    rintro rfl
    simp [h.sentinel] at hfree
  have hcell {a : Ptr} (ha : a ≠ addr) :
      ((m.heap.insert addr {}).update addr fun n ↦ { n with key }).cell a = m.heap.cell a := by
    rw [Heap.cell_update_of_ne _ _ ha, Heap.cell_insert_of_ne _ _ ha]
  refine ⟨⟨h.root, h.tree.congr fun a ha ↦ hcell fun heq ↦ hfresh (heq ▸ ha), h.nodup, h.fresh,
    (hcell (Ne.symm hsent)).trans h.sentinel, ?_⟩, ?_, hfresh, hsent, ?_⟩
  · exact Nat.lt_succ_of_lt h.room
  · simp [Heap.cell_insert_self _ _ haddr]
  · exact Nat.succ_lt_succ h.room

/-- One record was allocated. -/
structure Allocated (addr : Ptr) (m m' : State) : Prop where
  sentinel : m'.vars.sentinel = m.vars.sentinel
  dom : ∀ a, (m'.heap.cell a).isSome ↔ a = addr ∨ (m.heap.cell a).isSome

theorem Allocated.of_dom {addr key : Ptr} {m' : State} (haddr : addr ≠ NULL)
    (hsentinel : m'.vars.sentinel = m.vars.sentinel)
    (hdom : ∀ a, (m'.heap.cell a).isSome =
      (((m.heap.insert addr {}).update addr fun n ↦ { n with key }).cell a).isSome) :
    Allocated addr m m' := by
  refine ⟨hsentinel, fun a ↦ ?_⟩
  rw [hdom, Heap.isSome_cell_update]
  by_cases ha : a = addr
  · rw [ha, Heap.cell_insert_self _ _ haddr]
    simp
  · rw [Heap.cell_insert_of_ne _ _ ha]
    simp [ha]

/-- The new node of an empty tree. -/
theorem HoldsFresh.wp_setFirst {addr key : Ptr} (h : HoldsFresh m top scratch addr key .leaf) :
    wp (do
      setParent addr NULL
      setChild .left addr (← sentinel)
      setChild .right addr (← sentinel)
      setColor addr .black
      setRoot addr : TreeCmd Unit) (fun _ m' ↦
        Holds m' NULL scratch (.node .black .leaf ⟨addr, key⟩ .leaf) ∧
          m'.vars.size = m.vars.size ∧ m'.vars.sentinel = m.vars.sentinel ∧
            ∀ a, (m'.heap.cell a).isSome = (m.heap.cell a).isSome) m := by
  have hcell := h.cell
  simp only [wp_bind, wp_setParent, wp_setChild, wp_setColor, wp_sentinel, wp_setRoot,
    Heap.cell_update_self, hcell, Option.map_some, Option.some.injEq, exists_eq', true_and]
  refine ⟨⟨rfl, ⟨?_, trivial, trivial⟩, by simp [addrs], ?_, ?_, ?_⟩, by simp⟩
  · simp [hcell, Node.setColor, Node.setChild, Node.setParent]
  · simpa [addrs] using h.addrSentinel.symm
  · simp only [Heap.cell_update_of_ne _ _ h.addrSentinel.symm, h.sentinel]
  · simpa [addrs] using h.roomFresh

theorem insertFix_ne_leaf (path : Path Entry) {t : RBTree Entry} (ht : t ≠ .leaf) :
    insertFix path t ≠ .leaf := by
  intro heq
  have hlist := toList_insertFix path ht
  rw [heq, Path.toList_plug] at hlist
  obtain ⟨c, left, e, right, rfl⟩ := RBTree.exists_branch .left ht
  simp [RBTree.branch] at hlist

/-- The tree has a new node, and the counter is as it was. -/
theorem wp_attach {cmp : CompareFunc} {addr key : Ptr} {t : RBTree Entry}
    (h : Holds m top scratch t) (hvalid : Valid t) (haddr : addr ≠ NULL)
    (hfree : m.heap.cell addr = none) (hcmp : Compares cmp key t) :
    wp (attach (insertValue cmp) addr key) (fun _ m' ↦
      (∃ top', Holds m' top' scratch (insertTree (goLeft cmp key) t ⟨addr, key⟩)) ∧
        m'.vars.size = m.vars.size ∧ Allocated addr m m') m := by
  have hnew : HoldsFresh _ top scratch addr key t := h.calloc haddr hfree
  rw [attach, wp_bind, wp_calloc, if_neg haddr]
  refine ⟨hfree, ?_⟩
  rw [wp_bind, wp_update]
  refine ⟨⟨_, Heap.cell_insert_self _ _ haddr⟩, ?_⟩
  simp only [wp_bind, wp_root, wp_sentinel]
  rw [h.root, wp_ite]
  simp only [ptr_eq_sentinel_iff h.fresh]
  split
  case isTrue hleaf =>
    subst hleaf
    apply wp_mono hnew.wp_setFirst
    rintro - m' ⟨h', hsize, hsentinel, hdom⟩
    exact ⟨⟨NULL, h'⟩, hsize, .of_dom haddr hsentinel hdom⟩
  case isFalse hleaf =>
    rw [insertTree_of_ne_leaf hleaf, wp_bind, wp_root, wp_bind, hnew.root]
    apply wp_mono (wp_insertValue hnew hleaf hcmp)
    rintro - m₁ ⟨hf₁, h₁⟩
    have hinv : InsertInv (insertPath (goLeft cmp key) t [])
        (.node .red .leaf ⟨addr, key⟩ .leaf) := insertInv_insertPath hvalid
    rw [wp_bind]
    apply wp_mono (wp_rebalance h₁ hinv)
    rintro - m₂ ⟨hf₂, h₂⟩
    rw [wp_bind, wp_root, h₂.root]
    refine Holds.wp_setColor (q := []) h₂ (insertFix_ne_leaf _ (by simp)) fun m₃ hf₃ h₃ ↦ ?_
    have hf := (hf₁.trans hf₂).trans hf₃
    exact ⟨⟨top, h₃⟩, hf.size, .of_dom haddr hf.sentinel hf.dom⟩

theorem wp_push_iff {cmp : CompareFunc} {addr key : Ptr} {t : RBTree Entry}
    {post : Unit → State → Prop} (h : Holds m top scratch t) (hvalid : Valid t)
    (haddr : addr ≠ NULL) (hfree : m.heap.cell addr = none) (hcmp : Compares cmp key t) :
    wp (push cmp addr key) post m ↔ (-2 ^ 31 ≤ m.vars.size + 1 ∧ m.vars.size + 1 < 2 ^ 31) ∧
      wp (attach (insertValue cmp) addr key) (fun _ m' ↦ post () (grow 1 m')) m := by
  obtain ⟨⟨⟩, m₁, hrun, -, hsize, -⟩ := wp_attach h hvalid haddr hfree hcmp
  have hattach (post : Unit → State → Prop) :
      wp (attach (insertValue cmp) addr key) post m ↔ post () m₁ :=
    ⟨fun hwp ↦ wp_outcome hwp hrun, fun hpost ↦ ⟨_, _, hrun, hpost⟩⟩
  rw [push, wp_bind, hattach, hattach, wp_addSize, hsize]

/-- **`push` computes the insertion of the abstract tree** while the counter has room. -/
theorem wp_push {cmp : CompareFunc} {addr key : Ptr} {t : RBTree Entry}
    (h : Holds m top scratch t) (hvalid : Valid t) (haddr : addr ≠ NULL)
    (hfree : m.heap.cell addr = none) (hcmp : Compares cmp key t)
    (hroom : -2 ^ 31 ≤ m.vars.size + 1 ∧ m.vars.size + 1 < 2 ^ 31) :
    wp (push cmp addr key) (fun _ m' ↦
      (∃ top', Holds m' top' scratch (insertTree (goLeft cmp key) t ⟨addr, key⟩)) ∧
        m'.vars.size = m.vars.size + 1 ∧ Allocated addr m m') m := by
  refine (wp_push_iff h hvalid haddr hfree hcmp).2 ⟨hroom, ?_⟩
  apply wp_mono (wp_attach h hvalid haddr hfree hcmp)
  rintro - m' ⟨⟨top', h'⟩, hsize, halloc⟩
  exact ⟨⟨top', h'.grow 1⟩, by rw [size_grow, hsize], halloc.sentinel, halloc.dom⟩

end Zbaselib.Rbtree
