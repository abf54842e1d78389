import Zbaselib.Rbtree.Unlink

/-!
# `zbaselib_rbtree_delete` refines the deletion of the abstract tree
-/

namespace Zbaselib.Rbtree

open Program Memory RedBlack

variable {m : State} {top scratch up : Ptr} {path : Path Entry} {c : Color}
  {left right : RBTree Entry} {e : Entry}

/-! ## The node that leaves its place -/

/-- What `chooseSubst` found: the node itself when it has at most one child `t`, and otherwise
its successor `e'`, whose only child `t` is on the right. -/
inductive Chosen (left : RBTree Entry) (e : Entry) (right : RBTree Entry) :
    Entry → RBTree Entry → Prop
  | right (h : left = .leaf) : Chosen left e right e right
  | left (h : left ≠ .leaf) (h' : right = .leaf) : Chosen left e right e left
  | successor (inner : Path Entry) (c' : Color) (e' : Entry) (t : RBTree Entry)
      (h : left ≠ .leaf) (h' : LastOn .left right inner c' e' t) : Chosen left e right e' t

theorem Holds.ptr_eq_sentinel {t : RBTree Entry} (h : Holds m top scratch (path.plug t)) :
    ptr m.vars.sentinel t = m.vars.sentinel ↔ t = .leaf :=
  ptr_eq_sentinel_iff fun hs ↦ h.fresh (mem_addrs_plug.2 (.inl hs))

theorem wp_chooseSubst {post : Ptr × Ptr → State → Prop}
    (h : Holds m top scratch (path.plug (.branch .left c left e right)))
    (hpost : ∀ e' t, Chosen left e right e' t → post (e'.addr, ptr m.vars.sentinel t) m) :
    wp (chooseSubst e.addr) post m := by
  have hl : Holds m top scratch (Path.plug (⟨.left, c, e, right⟩ :: path) left) := h
  have hr : Holds m top scratch (Path.plug (⟨.right, c, e, left⟩ :: path) right) := h
  have hright : ∀ {post : Ptr → State → Prop},
      wp (child .right e.addr) post m ↔ post (ptr m.vars.sentinel right) m := hr.wp_child
  have hleft : ∀ {post : Ptr → State → Prop},
      wp (child .left e.addr) post m ↔ post (ptr m.vars.sentinel left) m := hl.wp_child
  simp only [chooseSubst, wp_bind, hleft, hright, wp_sentinel, wp_ite, wp_pure,
    hl.ptr_eq_sentinel, hr.ptr_eq_sentinel]
  split
  case isTrue hleaf => exact hpost _ _ (.right hleaf)
  case isFalse hleft =>
    split
    case isTrue hleaf => exact hpost _ _ (.left hleft hleaf)
    case isFalse hright =>
      refine wp_walk .left hr hright fun inner c' e' far hlast ↦ ?_
      have hsub := hr
      rw [← hlast.1, ← Path.plug_append] at hsub
      simpa [hsub.cell, Node.branch, Node.child] using
        hpost _ _ (.successor inner c' e' far hleft hlast)

/-! ## Filling the gap -/

/-- The node has at most one child, which moves up. -/
theorem wp_fillGap_self {f : Frame Entry} {rest : Path Entry} {side : Side} {t : RBTree Entry}
    (h : Holds m top scratch (Path.plug (f :: rest) (.branch side c .leaf e t))) :
    wp (do
      bypass e.addr (ptr m.vars.sentinel t)
      fillGap e.addr (ptr m.vars.sentinel t) e.addr : TreeCmd Unit) (fun _ m' ↦
        SameFrame m m' ∧ ∃ scratch', Focus m' top scratch' (f :: rest) t) m := by
  have hne : e.addr ≠ f.value.addr := fun heq ↦ (nodup_addrs_plug.1 h.nodup).2.2 _
    (mem_addrs_branch.2 (.inl rfl)) (mem_pathAddrs_cons.2 (.inl heq))
  refine (wp_bind ..).2 (wp_bypass h (RBTree.branch_ne_leaf _ _ _ _ _) (ptr_branch ..).symm ?_)
  simp only [fillGap, if_true, wp_bind, wp_parent, Heap.cell_update_of_ne _ _ hne, h.cell,
    Option.some.injEq, exists_eq_left', Node.parent_branch, parentOf]
  refine h.bypass.wp_setParent fun m₁ hf₁ h₁ hcell₁ ↦ ?_
  refine ⟨((SameFrame.refl m).update _ _).trans hf₁, _, h₁.holds, fun ht ↦ ?_⟩
  simp [ht, parentOf]

theorem plug_gap (inner path : Path Entry) (t : RBTree Entry) (e : Entry) :
    Path.plug (inner ++ ⟨.right, c, e, left⟩ :: path) t =
      Path.plug path (.branch .left c left e (inner.plug t)) := by
  rw [Path.plug_append]
  rfl

/-- The gap that the successor leaves, seen from the node whose place it takes. -/
theorem Loose.detached {inner : Path Entry} {t : RBTree Entry} {e' : Entry}
    (h : Loose m top scratch up (inner ++ ⟨.right, c, e, left⟩ :: path) t)
    (hup : inner ≠ [] → up = parentOf top (inner ++ ⟨.right, c, e, left⟩ :: path))
    (hsub : ∃ n, m.heap.cell e'.addr = some n ∧ n.key = e'.key)
    (hfresh : e'.addr ∉ addrs (Path.plug (inner ++ ⟨.right, c, e, left⟩ :: path) t))
    (hsent : m.vars.sentinel ≠ e'.addr) :
    ∃ up', Detached m top scratch up' path c left e e' (inner.plug t) := by
  by_cases hinner : inner = []
  · subst hinner
    obtain ⟨hcell, hleft, hpath⟩ := h.pathAt
    exact ⟨up, h.root, hpath, hcell, hleft, h.treeAt, hsub, h.nodup, h.fresh, hfresh, hsent,
      h.sentinel, h.room⟩
  · rw [hup hinner] at h
    have hh := h.holds
    rw [plug_gap] at hh hfresh
    obtain ⟨hcell, hleft, hright⟩ := (treeAt_branch ..).1 hh.hole
    have hpath := hh.path
    rw [ptr_branch] at hpath
    exact ⟨e.addr, hh.root, hpath, hcell, hleft, hright, hsub, hh.nodup, hh.fresh, hfresh, hsent,
      hh.sentinel, hh.room⟩

/-- The successor of a node with two children leaves its own place and takes the node's. -/
theorem wp_fillGap_successor {inner : Path Entry} {c' : Color} {e' : Entry} {t : RBTree Entry}
    (h : Holds m top scratch (path.plug (.branch .left c left e right)))
    (hlast : LastOn .left right inner c' e' t) :
    wp (do
      bypass e'.addr (ptr m.vars.sentinel t)
      fillGap e'.addr (ptr m.vars.sentinel t) e.addr : TreeCmd Unit) (fun _ m' ↦
        SameFrame m m' ∧ ∃ scratch',
          Focus m' top scratch' (inner ++ ⟨.right, c, e', left⟩ :: path) t) m := by
  rw [← hlast.1, ← plug_gap] at h
  obtain ⟨f, rest, hgap⟩ : ∃ f rest, inner ++ ⟨.right, c, e, left⟩ :: path = f :: rest :=
    List.exists_cons_of_ne_nil (by simp)
  rw [hgap] at h
  obtain ⟨⟨-, het, -⟩, hpathn, hdisj⟩ := by
    have := h.nodup
    rwa [nodup_addrs_plug, nodup_addrs_branch] at this
  have hmem {inner' : Path Entry} :
      e.addr ∈ pathAddrs (inner' ++ ⟨.right, c, e, left⟩ :: path) :=
    mem_pathAddrs_append.2 (.inr (mem_pathAddrs_cons.2 (.inl rfl)))
  -- the successor is a child of the node itself exactly when there is nothing between them
  have hfe : f.value.addr = e.addr ↔ inner = [] := by
    cases inner with
    | nil => cases hgap; simp
    | cons g inner =>
      cases hgap
      have hfresh := (nodup_pathAddrs_cons.1 hpathn).2.1
      simpa using fun heq : f.value.addr = e.addr ↦ hfresh (heq ▸ hmem)
  have hene : e'.addr ≠ e.addr := fun heq ↦
    hdisj _ (mem_addrs_branch.2 (.inl rfl)) (heq ▸ hgap ▸ hmem)
  have hne : e'.addr ≠ f.value.addr := fun heq ↦
    hdisj _ (mem_addrs_branch.2 (.inl rfl)) (mem_pathAddrs_cons.2 (.inl heq))
  have hsent : m.vars.sentinel ≠ e'.addr := fun heq ↦
    h.fresh (mem_addrs_plug.2 (.inl (mem_addrs_branch.2 (.inl heq))))
  have hfresh : e'.addr ∉ addrs (Path.plug (f :: rest) t) := by
    rw [mem_addrs_plug, not_or]
    exact ⟨het, hdisj _ (mem_addrs_branch.2 (.inl rfl))⟩
  let m₁ : State := { m with
    heap := m.heap.update f.value.addr (·.setChild f.side (ptr m.vars.sentinel t)) }
  have hcell : m₁.heap.cell e'.addr = _ := (Heap.cell_update_of_ne _ _ hne).trans h.cell
  have hloose : Loose m₁ top scratch e'.addr (f :: rest) t := h.bypass
  -- the parent field of what moves up is assigned, and then the successor moves
  have hcont (q : Ptr) (hq : q = if inner = [] then e'.addr else f.value.addr) :
      wp (do setParent (ptr m.vars.sentinel t) q; takePlace e'.addr e.addr : TreeCmd Unit)
        (fun _ m' ↦ SameFrame m m' ∧ ∃ scratch',
          Focus m' top scratch' (inner ++ ⟨.right, c, e', left⟩ :: path) t) m₁ := by
    refine (wp_bind ..).2 (hloose.wp_setParent fun m₂ hf₂ h₂ hcell₂ ↦ ?_)
    have hcell' : m₂.heap.cell e'.addr = _ := (hcell₂ _ (Ne.symm hsent) het).trans hcell
    rw [← hgap] at h₂ hfresh
    have hsub : ∃ n, m₂.heap.cell e'.addr = some n ∧ n.key = e'.key :=
      ⟨_, hcell', Node.key_branch ..⟩
    obtain ⟨up', hdet⟩ := h₂.detached (fun hinner ↦ by rw [hq, if_neg hinner, hgap]; rfl) hsub
      hfresh (hf₂.sentinel.symm ▸ hsent)
    apply wp_mono (wp_takePlace hdet)
    rintro - m₃ ⟨hf₃, h₃⟩
    refine ⟨(((SameFrame.refl m).update _ _).trans hf₂).trans hf₃, _, ⟨plug_gap .. ▸ h₃, ?_⟩⟩
    intro ht
    rw [if_pos ht, hq]
    cases inner with
    | nil => simp [parentOf]
    | cons g inner => cases hgap; simp [parentOf]
  refine (wp_bind ..).2 (wp_bypass h (RBTree.branch_ne_leaf _ _ _ _ _) (ptr_branch ..).symm ?_)
  simp only [fillGap, if_neg hene, wp_bind, wp_ite, wp_parent, Heap.cell_update_of_ne _ _ hne,
    h.cell, Option.some.injEq, exists_eq_left', Node.parent_branch, parentOf, hfe]
  split
  case isTrue hinner => exact (wp_bind ..).1 (hcont _ (by rw [if_pos hinner]))
  case isFalse hinner => exact (wp_bind ..).1 (hcont _ (by rw [if_neg hinner]))

/-! ## The deletion -/

/-- Blackening is harmless at a leaf, because the sentinel is black anyway. -/
theorem Holds.wp_blacken {t : RBTree Entry} {post : Unit → State → Prop}
    (h : Holds m top scratch t)
    (hpost : ∀ m', SameFrame m m' → Holds m' top scratch (t.paint .black) → post () m') :
    wp (Rbtree.setColor (ptr m.vars.sentinel t) .black) post m := by
  by_cases ht : t = .leaf
  · subst ht
    refine (Rbtree.wp_setColor ..).2 ⟨⟨_, h.sentinel⟩, hpost _ ((SameFrame.refl m).update _ _) ?_⟩
    exact ⟨h.root, trivial, h.nodup, h.fresh, by simp [h.sentinel, Node.setColor], h.room⟩
  · exact Holds.wp_setColor (q := []) h ht hpost

/-- Records outside the tree may be assigned. -/
theorem Holds.update {t : RBTree Entry} {a : Ptr} {g : Node → Node} (h : Holds m top scratch t)
    (ha : a ∉ addrs t) (hs : a ≠ m.vars.sentinel) :
    Holds { m with heap := m.heap.update a g } top scratch t :=
  ⟨h.root, h.tree.update ha, h.nodup, h.fresh,
    (Heap.cell_update_of_ne _ _ (Ne.symm hs)).trans h.sentinel, h.room⟩

/-- Another node `e'` leaves its place, and after its only child `t` moved up the tree is
repaired. -/
theorem wp_unlink_gap {gap gap' : Path Entry} {t : RBTree Entry} {side : Side} {lost : Color}
    {e' : Entry} {post : Unit → State → Prop}
    (h : Holds m top scratch (Path.plug gap (.branch side lost .leaf e' t))) (hgap : gap ≠ [])
    (hgap' : gap' ≠ []) (hfill : wp (do
      bypass e'.addr (ptr m.vars.sentinel t)
      fillGap e'.addr (ptr m.vars.sentinel t) e.addr : TreeCmd Unit) (fun _ m' ↦
        SameFrame m m' ∧ ∃ scratch', Focus m' top scratch' gap' t) m)
    (hinv : SpliceInv gap' t lost) (hlive : (m.heap.cell e.addr).isSome)
    (hgone : e.addr ∉ addrs (gap'.plug t)) (hsent : e.addr ≠ m.vars.sentinel)
    (hsize : 0 < m.vars.size ∧ m.vars.size < 2 ^ 31)
    (hpost : ∀ m' scratch', SameFrame m m' → Holds m' top scratch' (repair lost gap' t) →
      post () (grow (-1) m')) :
    wp (unlink e'.addr (ptr m.vars.sentinel t) e.addr) post m := by
  obtain ⟨f, rest, rfl⟩ := List.exists_cons_of_ne_nil hgap'
  obtain ⟨f', rest', rfl⟩ := List.exists_cons_of_ne_nil hgap
  have hroot := h.ptr_ne_root (RBTree.branch_ne_leaf _ _ _ _ _)
  rw [ptr_branch] at hroot
  simp only [unlink, wp_bind, wp_root, wp_ite, if_neg hroot, wp_color, h.cell, Option.some.injEq,
    exists_eq_left', Node.color_branch]
  refine wp_mono ((wp_bind ..).1 hfill) fun _ m₁ hfill₁ ↦ ?_
  apply wp_mono hfill₁
  rintro - m₂ ⟨hf, scratch', h₂⟩
  obtain ⟨n, hn⟩ := Option.isSome_iff_exists.1 ((hf.dom e.addr).trans hlive)
  rw [← hf.sentinel] at hsent ⊢
  simp only [clearNode, wp_update, hn, Option.some.injEq, exists_eq', true_and, wp_addSize]
  have h₃ := h₂.toHolds.update (g := fun n ↦ { n with
    left := NULL, right := NULL, parent := NULL, key := NULL }) hgone hsent
  cases lost with
  | red => exact ⟨hf.shrinks hsize, hpost _ _ (hf.update _ _) h₃⟩
  | black =>
    rw [if_neg (by decide)]
    have h₃' : Focus _ top scratch' (f :: rest) t := ⟨h₃, h₂.up⟩
    apply wp_mono (wp_deleteFixup h₃' (.of_splice hinv))
    rintro - m₄ ⟨hf₄, h₄⟩
    have hf₅ := (hf.update _ _).trans hf₄
    exact ⟨hf₅.shrinks hsize, hpost _ _ hf₅ h₄⟩

/-- The node is the root, and its only child becomes the root. -/
theorem wp_unlink_root {side : Side} {t : RBTree Entry} {post : Unit → State → Prop}
    (h : Holds m top scratch (.branch side c .leaf e t))
    (hsize : 0 < m.vars.size ∧ m.vars.size < 2 ^ 31)
    (hpost : ∀ m', SameFrame m m' → Holds m' e.addr scratch (t.paint .black) →
      post () (grow (-1) m')) :
    wp (unlink e.addr (ptr m.vars.sentinel t) e.addr) post m := by
  have hroot := h.root
  rw [ptr_branch] at hroot
  simp only [unlink, wp_bind, wp_root, hroot, wp_ite, if_true, wp_setRoot]
  have hnodup := h.nodup
  have hfresh := h.fresh
  rw [nodup_addrs_branch] at hnodup
  simp only [mem_addrs_branch, not_or] at hfresh
  obtain ⟨-, het, -, htn, -⟩ := hnodup
  obtain ⟨hcell, -, htree⟩ := (treeAt_branch ..).1 h.tree
  have hroom := h.room
  rw [length_addrs_branch] at hroom
  have h₁ :
      Holds { m with vars := { m.vars with root := ptr m.vars.sentinel t } } e.addr scratch t :=
    ⟨rfl, htree, htn, hfresh.2.2, h.sentinel, by simp only; omega⟩
  refine h₁.wp_blacken fun m₂ hf₂ h₂ ↦ ?_
  have hf : SameFrame m m₂ := ⟨hf₂.sentinel, hf₂.size, hf₂.live, hf₂.dom⟩
  obtain ⟨n, hn⟩ := Option.isSome_iff_exists.1 ((hf.dom e.addr).trans (by simp [hcell]))
  simp only [clearNode, wp_update, hn, Option.some.injEq, exists_eq', true_and, wp_addSize]
  refine ⟨hf.shrinks hsize, hpost _ (hf.update _ _) (h₂.update ?_ ?_)⟩
  · rwa [addrs_paint]
  · rw [hf.sentinel]
    exact Ne.symm hfresh.1

/-- The abstract deletion finds the same successor. -/
theorem LastOn.splice {inner : Path Entry} {c' : Color} {e' : Entry} {t : RBTree Entry}
    (h : LastOn .left right inner c' e' t) (hleft : left ≠ .leaf) :
    splice path c left e right = (inner ++ ⟨.right, c, e', left⟩ :: path, t, c') := by
  obtain ⟨hplug, hsides⟩ := h
  cases left with
  | leaf => exact absurd rfl hleft
  | node cl ll vl rl =>
    cases right with
    | leaf => exact absurd hplug (Path.plug_ne_leaf _ (RBTree.branch_ne_leaf _ _ _ _ _))
    | node c₀ l₀ v₀ r₀ =>
      have hmin := minOf_plug hsides [] hplug
      rw [List.append_nil] at hmin
      simp only [RedBlack.splice, hmin, minOf]

theorem not_mem_removed (h : (addrs (path.plug (.node c left e right))).Nodup) :
    e.addr ∉ (Path.before path ++ left.toList ++ right.toList ++ Path.after path).map
      Entry.addr := by
  change (addrs (path.plug (.branch .left c left e right))).Nodup at h
  rw [nodup_addrs_plug, nodup_addrs_branch] at h
  obtain ⟨⟨hl, hr, -⟩, -, hdisj⟩ := h
  have hpath := hdisj e.addr (mem_addrs_branch.2 (.inl rfl))
  simp only [addrs, pathAddrs, List.map_append, List.mem_append] at hl hr hpath ⊢
  grind

/-- **`delete` computes the deletion of the abstract tree.** -/
theorem wp_delete {post : Unit → State → Prop}
    (h : Holds m top scratch (path.plug (.node c left e right)))
    (hvalid : Valid (path.plug (.node c left e right)))
    (hsize : 0 < m.vars.size ∧ m.vars.size < 2 ^ 31)
    (hpost : ∀ m' top' scratch', SameFrame m m' →
      Holds m' top' scratch' (deleteNode path c left e right) →
        post () (grow (-1) m')) :
    wp (delete e.addr) post m := by
  have hsplice := spliceInv_splice hvalid
  have hmem : e.addr ∈ addrs (path.plug (.branch .left c left e right)) :=
    mem_addrs_plug.2 (.inl (mem_addrs_branch.2 (.inl rfl)))
  have hlive := h.tree.isSome hmem
  have hsent : e.addr ≠ m.vars.sentinel := fun heq ↦ h.fresh (heq ▸ hmem)
  have hgone : e.addr ∉ addrs (Path.plug (splice path c left e right).1
      (splice path c left e right).2.1) := by
    rw [addrs, toList_splice]
    exact not_mem_removed h.nodup
  have hroot : m.vars.root = ptr m.vars.sentinel (path.plug (.node c left e right)) := h.root
  rw [deleteNode] at hpost
  rw [delete, wp_bind]
  refine wp_chooseSubst h fun e' t hchosen ↦ ?_
  -- the node itself leaves its place
  have hself (side : Side) (t : RBTree Entry) (hT : path.plug (.node c left e right) =
      path.plug (.branch side c .leaf e t)) (hs : splice path c left e right = (path, t, c)) :
      wp (unlink e.addr (ptr m.vars.sentinel t) e.addr) post m := by
    rw [hs] at hpost hsplice hgone
    rw [hT] at h
    cases path with
    | nil => exact wp_unlink_root h hsize fun m' hf h' ↦ hpost m' _ _ hf h'
    | cons f rest =>
      have hne : f :: rest ≠ [] := List.cons_ne_nil _ _
      exact wp_unlink_gap h hne hne (wp_fillGap_self h) hsplice hlive hgone hsent hsize
        fun m' scratch' hf h' ↦ hpost m' _ _ hf h'
  cases hchosen with
  | right hleft =>
    subst hleft
    exact hself .left right rfl rfl
  | left hleft hright =>
    subst hright
    refine hself .right left rfl ?_
    cases left with
    | leaf => exact absurd rfl hleft
    | node => rfl
  | successor inner c' e' t hleft hlast =>
    have hs : splice path c left e right = (inner ++ ⟨.right, c, e', left⟩ :: path, t, c') :=
      hlast.splice hleft
    rw [hs] at hpost hsplice hgone
    have hfill := wp_fillGap_successor h hlast
    rw [show RBTree.node c left e right = .branch .left c left e right from rfl, ← hlast.1,
      ← plug_gap] at h
    exact wp_unlink_gap h (by simp) (by simp) hfill hsplice hlive hgone hsent hsize
      fun m' scratch' hf h' ↦ hpost m' _ _ hf h'

end Zbaselib.Rbtree
