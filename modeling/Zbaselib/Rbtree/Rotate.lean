import Zbaselib.Rbtree.Layout

/-!
# What one assignment sequence does to a laid-out tree

`Holds` ties a state to an abstract tree.  Recolouring a node and rotating an
edge are proved here once, from the assignments; the rebalancing loops only use
the two rules.
-/

namespace Zbaselib.Rbtree

open Program Memory RedBlack

/-! ## Field access rules -/

@[simp]
theorem wp_child (side : Side) (p : Ptr) (post : Ptr → State → Prop) (m : State) :
    wp (child side p) post m ↔ ∃ n, m.heap.cell p = some n ∧ post (n.child side) m := by
  simp [child]

@[simp]
theorem wp_parent (p : Ptr) (post : Ptr → State → Prop) (m : State) :
    wp (parent p) post m ↔ ∃ n, m.heap.cell p = some n ∧ post n.parent m := by
  simp [parent]

@[simp]
theorem wp_color (p : Ptr) (post : Color → State → Prop) (m : State) :
    wp (color p) post m ↔ ∃ n, m.heap.cell p = some n ∧ post n.color m := by
  simp [color]

@[simp]
theorem wp_setChild (side : Side) (p q : Ptr) (post : Unit → State → Prop) (m : State) :
    wp (setChild side p q) post m ↔ (∃ n, m.heap.cell p = some n) ∧
      post () { m with heap := m.heap.update p (·.setChild side q) } :=
  wp_update ..

@[simp]
theorem wp_setParent (p q : Ptr) (post : Unit → State → Prop) (m : State) :
    wp (setParent p q) post m ↔ (∃ n, m.heap.cell p = some n) ∧
      post () { m with heap := m.heap.update p (·.setParent q) } :=
  wp_update ..

@[simp]
theorem wp_setColor (p : Ptr) (c : Color) (post : Unit → State → Prop) (m : State) :
    wp (setColor p c) post m ↔ (∃ n, m.heap.cell p = some n) ∧
      post () { m with heap := m.heap.update p (·.setColor c) } :=
  wp_update ..

@[simp]
theorem wp_root (post : Ptr → State → Prop) (m : State) :
    wp root post m ↔ post m.vars.root m := by
  simp [root]

@[simp]
theorem wp_sentinel (post : Ptr → State → Prop) (m : State) :
    wp sentinel post m ↔ post m.vars.sentinel m := by
  simp [sentinel]

@[simp]
theorem wp_setRoot (p : Ptr) (post : Unit → State → Prop) (m : State) :
    wp (setRoot p) post m ↔ post () { m with vars := { m.vars with root := p } } :=
  wp_modifyVars ..

/-- The state with another count. -/
def grow (n : ℤ) (m : State) : State :=
  { m with vars := { m.vars with size := m.vars.size + n } }

@[simp]
theorem heap_grow (n : ℤ) (m : State) : (grow n m).heap = m.heap := rfl

@[simp]
theorem sentinel_grow (n : ℤ) (m : State) : (grow n m).vars.sentinel = m.vars.sentinel := rfl

@[simp]
theorem size_grow (n : ℤ) (m : State) : (grow n m).vars.size = m.vars.size + n := rfl

@[simp]
theorem wp_addSize (n : ℤ) (post : Unit → State → Prop) (m : State) :
    wp (addSize n) post m ↔
      (-2 ^ 31 ≤ m.vars.size + n ∧ m.vars.size + n < 2 ^ 31) ∧ post () (grow n m) := by
  simp only [addSize, wp_bind, wp_getVars, wp_require]
  exact and_congr_right fun _ ↦ wp_modifyVars ..

/-! ## Represented trees -/

/-- The state holds the tree: `top` is the parent field of the root, `scratch` the one of the
sentinel. -/
structure Holds (m : State) (top scratch : Ptr) (t : RBTree Entry) : Prop where
  root : m.vars.root = ptr m.vars.sentinel t
  tree : TreeAt m.heap m.vars.sentinel top t
  nodup : (addrs t).Nodup
  fresh : m.vars.sentinel ∉ addrs t
  sentinel : m.heap.cell m.vars.sentinel = some { parent := scratch }
  room : (addrs t).length < m.heap.live

theorem Holds.grow {m : State} {top scratch : Ptr} {t : RBTree Entry} (h : Holds m top scratch t)
    (n : ℤ) : Holds (grow n m) top scratch t :=
  ⟨h.root, h.tree, h.nodup, h.fresh, h.sentinel, h.room⟩

/-- Nothing was allocated or freed, and the counter is as it was. -/
structure SameFrame (m m' : State) : Prop where
  sentinel : m'.vars.sentinel = m.vars.sentinel
  size : m'.vars.size = m.vars.size
  live : m'.heap.live = m.heap.live
  dom : ∀ a, (m'.heap.cell a).isSome = (m.heap.cell a).isSome

theorem SameFrame.refl (m : State) : SameFrame m m := ⟨rfl, rfl, rfl, fun _ ↦ rfl⟩

theorem SameFrame.trans {m m' m'' : State} (h : SameFrame m m') (h' : SameFrame m' m'') :
    SameFrame m m'' :=
  ⟨h'.sentinel.trans h.sentinel, h'.size.trans h.size, h'.live.trans h.live,
    fun a ↦ (h'.dom a).trans (h.dom a)⟩

theorem SameFrame.update {m m' : State} (h : SameFrame m m') (p : Ptr) (f : Node → Node) :
    SameFrame m { m' with heap := m'.heap.update p f } :=
  ⟨h.sentinel, h.size, h.live, fun a ↦ by simp [h.dom a]⟩

/-- The counter can go down by one. -/
theorem SameFrame.shrinks {m m' : State} (h : SameFrame m m')
    (hsize : 0 < m.vars.size ∧ m.vars.size < 2 ^ 31) :
    -2 ^ 31 ≤ m'.vars.size + -1 ∧ m'.vars.size + -1 < 2 ^ 31 := by
  rw [h.size]
  omega

variable {m : State} {top scratch : Ptr}

theorem ptr_plug_mem {s : Ptr} {r : Path Entry} (hpath : r ≠ []) (t : RBTree Entry) :
    ptr s (r.plug t) ∈ pathAddrs r := by
  induction r generalizing t with
  | nil => exact absurd rfl hpath
  | cons f rest ih =>
    by_cases hrest : rest = []
    · subst hrest
      exact mem_pathAddrs_cons.2 (.inl (ptr_fill ..))
    · exact mem_pathAddrs_cons.2 (.inr (.inr (ih hrest _)))

theorem ptr_plug_congr {s : Ptr} {path : Path Entry} {t t' : RBTree Entry}
    (h : path = [] → ptr s t = ptr s t') : ptr s (path.plug t) = ptr s (path.plug t') := by
  induction path generalizing t t' with
  | nil => exact h rfl
  | cons f rest ih => exact ih fun _ ↦ by simp

/-- The parent, or the root pointer, is redirected; nothing else changes. -/
theorem wp_replaceChild {r : Path Entry} {x y : Ptr} {n : Node} (side : Side)
    (hx : m.heap.cell x = some n) (hup : n.parent = parentOf top r)
    (hpath : PathAt m.heap m.vars.sentinel top r x) (hnodup : (pathAddrs r).Nodup)
    (hfresh : x ∉ pathAddrs r) (hxs : x ≠ m.vars.sentinel)
    (hroot : if r = [] then m.vars.root = x else m.vars.root ∈ pathAddrs r) :
    wp (replaceChild side x y) (fun _ m' ↦
      SameFrame m m' ∧ PathAt m'.heap m.vars.sentinel top r y ∧
        (∀ a, a ∉ pathAddrs r → m'.heap.cell a = m.heap.cell a) ∧
        m'.vars.root = if r = [] then y else m.vars.root) m := by
  cases r with
  | nil =>
    rw [if_pos rfl] at hroot
    simp only [replaceChild, wp_bind, wp_root, hroot, if_true, wp_setRoot]
    exact ⟨⟨rfl, rfl, rfl, fun _ ↦ rfl⟩, trivial, fun _ _ ↦ trivial, trivial⟩
  | cons f rest =>
    rw [if_neg (by simp)] at hroot
    have hhole := hpath.setHole (q := y) hnodup
    obtain ⟨hcell, hsib, hrest⟩ := hpath
    have hxroot : x ≠ m.vars.root := fun h ↦ hfresh (h ▸ hroot)
    have hxsib : x ≠ ptr m.vars.sentinel f.sibling := by
      intro h
      by_cases hleaf : f.sibling = .leaf
      · exact hxs (by rw [h, hleaf, ptr_leaf])
      · exact hfresh (mem_pathAddrs_cons.2 (.inr (.inl (h ▸ ptr_mem_addrs hleaf))))
    -- whichever test the code makes, the child pointer on the frame's side is assigned
    have hpost : SameFrame m { m with heap := m.heap.update f.value.addr (·.setChild f.side y) } ∧
        PathAt (m.heap.update f.value.addr (·.setChild f.side y)) m.vars.sentinel top
          (f :: rest) y ∧ ∀ a, a ∉ pathAddrs (f :: rest) →
            (m.heap.update f.value.addr (·.setChild f.side y)).cell a = m.heap.cell a := by
      refine ⟨(SameFrame.refl m).update _ _, hhole, fun a ha ↦ ?_⟩
      exact Heap.cell_update_of_ne _ _ fun h ↦ ha (mem_pathAddrs_cons.2 (.inl h))
    by_cases hside : side = f.side
    · subst hside
      simpa [replaceChild, hxroot, hx, hup, parentOf, hcell] using hpost
    · rw [Side.eq_other_of_ne hside]
      simpa [replaceChild, hxroot, hx, hup, parentOf, hcell, hxsib] using hpost

theorem Holds.path {path : Path Entry} {t : RBTree Entry} (h : Holds m top scratch (path.plug t)) :
    PathAt m.heap m.vars.sentinel top path (ptr m.vars.sentinel t) :=
  ((treeAt_plug ..).1 h.tree).1

theorem Holds.hole {path : Path Entry} {t : RBTree Entry} (h : Holds m top scratch (path.plug t)) :
    TreeAt m.heap m.vars.sentinel (parentOf top path) t :=
  ((treeAt_plug ..).1 h.tree).2

/-- The record of any node of the tree. -/
theorem Holds.cell {q : Path Entry} {side : Side} {c : Color} {near far : RBTree Entry}
    {e : Entry} (h : Holds m top scratch (q.plug (.branch side c near e far))) :
    m.heap.cell e.addr = some (.branch side e.key (ptr m.vars.sentinel near)
      (ptr m.vars.sentinel far) (parentOf top q) c) :=
  ((treeAt_branch ..).1 h.hole).1

/-- Recolouring a node. -/
theorem Holds.setColor {path : Path Entry} {t : RBTree Entry} {c : Color}
    (h : Holds m top scratch (path.plug t)) (ht : t ≠ .leaf) :
    Holds { m with heap := m.heap.update (ptr m.vars.sentinel t) (·.setColor c) } top scratch
      (path.plug (t.paint c)) := by
  obtain ⟨c', near, e, far, rfl⟩ := RBTree.exists_branch .left ht
  have hnodup := h.nodup
  have hfresh := h.fresh
  rw [nodup_addrs_plug, nodup_addrs_branch] at hnodup
  simp only [mem_addrs_plug, mem_addrs_branch, not_or] at hfresh
  obtain ⟨⟨henear, hefar, -⟩, -, hdisj⟩ := hnodup
  have hepath : e.addr ∉ pathAddrs path := hdisj _ (mem_addrs_branch.2 (.inl rfl))
  obtain ⟨hcell, hnear, hfar⟩ := (treeAt_branch ..).1 h.hole
  have haddrs : addrs (path.plug ((RBTree.branch .left c' near e far).paint c)) =
      addrs (path.plug (.branch .left c' near e far)) :=
    addrs_plug_congr path (RBTree.toList_paint _ _)
  refine ⟨?_, (treeAt_plug ..).2 ⟨?_, ?_⟩, haddrs ▸ h.nodup, haddrs ▸ h.fresh, ?_,
    haddrs ▸ h.room⟩
  · rw [h.root]
    exact ptr_plug_congr fun _ ↦ (ptr_paint _ _).symm
  · rw [ptr_branch, ptr_paint]
    exact h.path.update hepath
  · rw [ptr_branch, RBTree.paint_branch, treeAt_branch, Heap.cell_update_self, hcell]
    exact ⟨by simp, hnear.update henear, hfar.update hefar⟩
  · rw [ptr_branch, Heap.cell_update_of_ne _ _ hfresh.1.1]
    exact h.sentinel

theorem Holds.wp_parent {path : Path Entry} {t : RBTree Entry} {post : Ptr → State → Prop}
    (h : Holds m top scratch (path.plug t)) (ht : t ≠ .leaf) :
    wp (parent (ptr m.vars.sentinel t)) post m ↔ post (parentOf top path) m := by
  obtain ⟨c, near, e, far, rfl⟩ := RBTree.exists_branch .left ht
  simp [h.cell]

/-- The sentinel is black, so the colour of a subtree can always be read. -/
theorem Holds.wp_color {q : Path Entry} {t : RBTree Entry} {post : Color → State → Prop}
    (h : Holds m top scratch (q.plug t)) :
    wp (color (ptr m.vars.sentinel t)) post m ↔ post t.color m := by
  by_cases ht : t = .leaf
  · subst ht
    simp [h.sentinel]
  · obtain ⟨c, near, e, far, rfl⟩ := RBTree.exists_branch .left ht
    simp [h.cell]

theorem Holds.wp_child {f : Frame Entry} {rest : Path Entry} {t : RBTree Entry}
    {post : Ptr → State → Prop} (h : Holds m top scratch (Path.plug (f :: rest) t)) :
    wp (child f.side f.value.addr) post m ↔ post (ptr m.vars.sentinel t) m := by
  have hcell := Holds.cell (q := rest) h
  simp [hcell]

theorem Holds.wp_child_other {f : Frame Entry} {rest : Path Entry} {t : RBTree Entry}
    {post : Ptr → State → Prop} (h : Holds m top scratch (Path.plug (f :: rest) t)) :
    wp (child f.side.other f.value.addr) post m ↔ post (ptr m.vars.sentinel f.sibling) m := by
  have hcell := Holds.cell (q := rest) h
  simp [hcell]

theorem Holds.wp_setColor {q : Path Entry} {t : RBTree Entry} {c : Color}
    {post : Unit → State → Prop} (h : Holds m top scratch (q.plug t)) (ht : t ≠ .leaf)
    (hpost : ∀ m', SameFrame m m' → Holds m' top scratch (q.plug (t.paint c)) → post () m') :
    wp (Rbtree.setColor (ptr m.vars.sentinel t) c) post m := by
  obtain ⟨c', near, e, far, rfl⟩ := RBTree.exists_branch .left ht
  have hcell := h.cell
  simp only [ptr_branch, Rbtree.wp_setColor, hcell, Option.some.injEq, exists_eq', true_and]
  exact hpost _ ((SameFrame.refl m).update _ _) (by simpa using h.setColor ht)

theorem Holds.wp_setColor_branch {q : Path Entry} {side : Side} {c c' : Color}
    {near far : RBTree Entry} {e : Entry} {post : Unit → State → Prop}
    (h : Holds m top scratch (q.plug (.branch side c near e far)))
    (hpost : ∀ m', SameFrame m m' →
      Holds m' top scratch (q.plug (.branch side c' near e far)) → post () m') :
    wp (Rbtree.setColor e.addr c') post m := by
  rw [← ptr_branch (s := m.vars.sentinel) side c near far e]
  refine h.wp_setColor (RBTree.branch_ne_leaf _ _ _ _ _) fun m' hframe h' ↦ hpost m' hframe ?_
  rwa [RBTree.paint_branch] at h'

/-! ## The frame above the hole, and the sibling -/

/-- The same node, seen from its other child. -/
def swapFrame (f : Frame Entry) (t : RBTree Entry) : Frame Entry :=
  ⟨f.side.other, f.color, f.value, t⟩

theorem plug_swapFrame (f : Frame Entry) (rest : Path Entry) (t : RBTree Entry) :
    Path.plug (swapFrame f t :: rest) f.sibling = Path.plug (f :: rest) t :=
  congrArg (Path.plug rest) (RBTree.branch_other ..)

theorem fill_ne_leaf (f : Frame Entry) (t : RBTree Entry) : f.fill t ≠ .leaf :=
  RBTree.branch_ne_leaf _ _ _ _ _

section Frame

variable {f : Frame Entry} {rest : Path Entry} {t : RBTree Entry}

theorem Holds.wp_parent_frame {post : Ptr → State → Prop}
    (h : Holds m top scratch (Path.plug (f :: rest) t)) :
    wp (parent f.value.addr) post m ↔ post (parentOf top rest) m := by
  have hcell := Holds.cell (q := rest) h
  simp [hcell]

theorem Holds.wp_color_frame {post : Color → State → Prop}
    (h : Holds m top scratch (Path.plug (f :: rest) t)) :
    wp (color f.value.addr) post m ↔ post f.color m := by
  have hcell := Holds.cell (q := rest) h
  simp [hcell]

theorem Holds.wp_color_sibling {post : Color → State → Prop}
    (h : Holds m top scratch (Path.plug (f :: rest) t)) :
    wp (color (ptr m.vars.sentinel f.sibling)) post m ↔ post f.sibling.color m :=
  Holds.wp_color (plug_swapFrame f rest t ▸ h)

/-- The test `p == p->parent->left` picks the branch written for the side on which `p` hangs. -/
theorem ite_side {q r : Ptr} (side : Side) (branch : Side → Prop) (hne : q ≠ r) :
    (if q = (if side = .left then q else r) then branch .left else branch .right) ↔
      branch side := by
  cases side <;> simp [hne]

theorem Holds.wp_child_left {post : Ptr → State → Prop}
    (h : Holds m top scratch (Path.plug (f :: rest) t)) :
    wp (child .left f.value.addr) post m ↔
      post (if f.side = .left then ptr m.vars.sentinel t else ptr m.vars.sentinel f.sibling) m := by
  by_cases hside : f.side = .left
  · rw [if_pos hside, ← hside, h.wp_child]
  · have hother : Side.left = f.side.other := Side.eq_other_of_ne (Ne.symm hside)
    rw [if_neg hside, hother, h.wp_child_other]

/-- The two children of a node are told apart by their addresses. -/
theorem Holds.ptr_ne_sibling (h : Holds m top scratch (Path.plug (f :: rest) t)) (ht : t ≠ .leaf) :
    ptr m.vars.sentinel t ≠ ptr m.vars.sentinel f.sibling := by
  have hnodup := h.nodup
  have hfresh := h.fresh
  rw [nodup_addrs_plug] at hnodup
  rw [mem_addrs_plug, not_or] at hfresh
  have hmem := ptr_mem_addrs (s := m.vars.sentinel) ht
  by_cases hsib : f.sibling = .leaf
  · rw [hsib, ptr_leaf]
    exact fun heq ↦ hfresh.1 (heq ▸ hmem)
  · refine fun heq ↦ hnodup.2.2 _ hmem (mem_pathAddrs_cons.2 (.inr (.inl ?_)))
    exact heq ▸ ptr_mem_addrs hsib

theorem Holds.ptr_ne_root (h : Holds m top scratch (Path.plug (f :: rest) t)) (ht : t ≠ .leaf) :
    ptr m.vars.sentinel t ≠ m.vars.root := by
  rw [h.root]
  exact fun heq ↦ (nodup_addrs_plug.1 h.nodup).2.2 _ (ptr_mem_addrs ht)
    (heq ▸ ptr_plug_mem (by simp) t)

theorem Holds.wp_setColor_frame {c : Color} {post : Unit → State → Prop}
    (h : Holds m top scratch (Path.plug (f :: rest) t))
    (hpost : ∀ m', SameFrame m m' →
      Holds m' top scratch (Path.plug ({ f with color := c } :: rest) t) → post () m') :
    wp (Rbtree.setColor f.value.addr c) post m :=
  Holds.wp_setColor_branch (q := rest) h hpost

theorem Holds.wp_setColor_sibling {c : Color} {post : Unit → State → Prop}
    (h : Holds m top scratch (Path.plug (f :: rest) t)) (hsib : f.sibling ≠ .leaf)
    (hpost : ∀ m', SameFrame m m' →
      Holds m' top scratch (Path.plug ({ f with sibling := f.sibling.paint c } :: rest) t) →
        post () m') :
    wp (Rbtree.setColor (ptr m.vars.sentinel f.sibling) c) post m := by
  refine Holds.wp_setColor (plug_swapFrame f rest t ▸ h) hsib fun m' hframe h' ↦ hpost m' hframe ?_
  exact plug_swapFrame { f with sibling := f.sibling.paint c } rest t ▸ h'

end Frame

/-- The root of a subtree gets a new parent; a leaf has no record to change. -/
theorem wp_adopt {t : RBTree Entry} {up q : Ptr} (ht : TreeAt m.heap m.vars.sentinel up t)
    (hnodup : (addrs t).Nodup) (hfresh : m.vars.sentinel ∉ addrs t) :
    wp (adopt (ptr m.vars.sentinel t) q) (fun _ m' ↦
      SameFrame m m' ∧ m'.vars = m.vars ∧ TreeAt m'.heap m.vars.sentinel q t ∧
        ∀ a, a ∉ addrs t → m'.heap.cell a = m.heap.cell a) m := by
  by_cases hleaf : t = .leaf
  · subst hleaf
    simpa [adopt] using SameFrame.refl m
  have hmem := ptr_mem_addrs (s := m.vars.sentinel) hleaf
  have hne : ptr m.vars.sentinel t ≠ m.vars.sentinel := fun h ↦ hfresh (h ▸ hmem)
  obtain ⟨n, hn⟩ : ∃ n, m.heap.cell (ptr m.vars.sentinel t) = some n := by
    obtain ⟨c, left, e, right, rfl⟩ := RBTree.exists_branch .left hleaf
    exact ⟨_, by rw [ptr_branch]; exact ((treeAt_branch ..).1 ht).1⟩
  have hpost :
      SameFrame m { m with heap := m.heap.update (ptr m.vars.sentinel t) (·.setParent q) } ∧
      TreeAt (m.heap.update (ptr m.vars.sentinel t) (·.setParent q)) m.vars.sentinel q t ∧
        ∀ a, a ∉ addrs t → (m.heap.update (ptr m.vars.sentinel t) (·.setParent q)).cell a =
          m.heap.cell a :=
    ⟨(SameFrame.refl m).update _ _, ht.reparent hnodup,
      fun a ha ↦ Heap.cell_update_of_ne _ _ fun h ↦ ha (h ▸ hmem)⟩
  simpa [adopt, hne, hn] using hpost

/-- **A rotation at `x` raises its child `y`.** -/
theorem wp_rotate {r : Path Entry} {side : Side} {cx cy : Color} {a b d : RBTree Entry}
    {x y : Entry}
    (h : Holds m top scratch (r.plug (.branch side cx a x (.branch side cy b y d)))) :
    wp (rotate side x.addr) (fun _ m' ↦ SameFrame m m' ∧
      Holds m' top scratch (r.plug (.branch side cy (.branch side cx a x b) y d))) m := by
  have hnodup := h.nodup
  have hfresh := h.fresh
  simp only [nodup_addrs_plug, nodup_addrs_branch, mem_addrs_branch, not_or] at hnodup
  simp only [mem_addrs_plug, mem_addrs_branch, not_or] at hfresh
  obtain ⟨⟨hxa, ⟨hxy, hxb, hxd⟩, ha, ⟨hyb, hyd, hb, hd, hbd⟩, hay⟩, hpath, hdisj⟩ := hnodup
  obtain ⟨⟨hsx, hsa, hsy, hsb, hsd⟩, hspath⟩ := hfresh
  have hxpath : x.addr ∉ pathAddrs r := hdisj _ (.inl rfl)
  have hypath : y.addr ∉ pathAddrs r := hdisj _ (.inr (.inr (.inl rfl)))
  have hpathb : ∀ p ∈ pathAddrs r, p ∉ addrs b := fun p hp hpb ↦
    hdisj p (.inr (.inr (.inr (.inl hpb)))) hp
  have hroot := h.root
  have hpathAt := h.path
  have hscratch := h.sentinel
  obtain ⟨hx, hta, hty⟩ := (treeAt_branch ..).1 h.hole
  obtain ⟨hy, htb, htd⟩ := (treeAt_branch ..).1 hty
  obtain ⟨heap, vars⟩ := m
  obtain ⟨root, s, size⟩ := vars
  simp only [ptr_branch] at hx hy hta htb htd hpathAt hroot hscratch
  -- temp = node->other; node->other = temp->side
  simp only [rotate, wp_bind, wp_child, wp_setChild, hx, Option.some.injEq, exists_eq_left',
    Node.child_other_branch, hy, Node.child_branch, Heap.cell_update_of_ne _ _ (Ne.symm hxy),
    exists_eq', true_and]
  refine wp_mono (wp_adopt (t := b) (htb.update hxb) hb hsb) ?_
  rintro - ⟨heap₂, vars₂⟩ ⟨hframe₂, hvars₂, htb₂, hcell₂⟩
  cases hvars₂
  have hother₂ : ∀ p, p ≠ x.addr → p ∉ addrs b → heap₂.cell p = heap.cell p :=
    fun p hp hpb ↦ (hcell₂ p hpb).trans (Heap.cell_update_of_ne _ _ hp)
  have hx₂ : heap₂.cell x.addr =
      some (.branch side x.key (ptr s a) (ptr s b) (parentOf top r) cx) := by
    rw [hcell₂ _ hxb, Heap.cell_update_self, hx]
    simp
  have hy₂ := (hother₂ y.addr (Ne.symm hxy) hyb).trans hy
  -- temp->parent = node->parent
  simp only [wp_parent, hx₂, Option.some.injEq, exists_eq_left', Node.parent_branch,
    wp_setParent, hy₂, exists_eq', true_and]
  have hpath₂ : PathAt (heap₂.update y.addr (·.setParent (parentOf top r))) s top r x.addr := by
    refine hpathAt.congr fun p hp ↦ ?_
    rw [Heap.cell_update_of_ne _ _ fun hpy : p = y.addr ↦ hypath (hpy ▸ hp)]
    exact hother₂ p (fun hpx ↦ hxpath (hpx ▸ hp)) (hpathb p hp)
  have hx₂' := (Heap.cell_update_of_ne heap₂ (·.setParent (parentOf top r)) hxy).trans hx₂
  refine wp_mono (wp_replaceChild side hx₂' (by simp) hpath₂ hpath hxpath (Ne.symm hsx) ?_) ?_
  · split
    case isTrue hnil => simpa [hnil] using hroot
    case isFalse hnil => exact hroot ▸ ptr_plug_mem hnil _
  rintro - ⟨heap₃, vars₃⟩ ⟨hframe₃, hpath₃, hcell₃, hroot₃⟩
  have hs₃ : vars₃.sentinel = s := hframe₃.sentinel
  have hx₃ : heap₃.cell x.addr =
      some (.branch side x.key (ptr s a) (ptr s b) (parentOf top r) cx) := by
    rw [hcell₃ _ hxpath, Heap.cell_update_of_ne _ _ hxy, hx₂]
  have hy₃ : heap₃.cell y.addr =
      some (.branch side y.key (ptr s b) (ptr s d) (parentOf top r) cy) := by
    rw [hcell₃ _ hypath, Heap.cell_update_self, hy₂]
    simp
  have hother₃ : ∀ p, p ≠ x.addr → p ≠ y.addr → p ∉ addrs b → p ∉ pathAddrs r →
      heap₃.cell p = heap.cell p := by
    intro p hpx hpy hpb hppath
    rw [hcell₃ p hppath, Heap.cell_update_of_ne _ _ hpy, hother₂ p hpx hpb]
  -- temp->side = node; node->parent = temp
  simp only [hy₃, hx₃, Heap.cell_update_of_ne _ _ hxy, Option.some.injEq, exists_eq', true_and]
  have hframe : SameFrame ⟨heap, root, s, size⟩ ⟨heap₃, vars₃⟩ :=
    ((((SameFrame.refl ⟨heap, root, s, size⟩).update _ _).trans hframe₂).update _ _).trans hframe₃
  have haddrs : addrs (r.plug (.branch side cy (.branch side cx a x b) y d)) =
      addrs (r.plug (.branch side cx a x (.branch side cy b y d))) :=
    addrs_plug_congr r (RBTree.toList_rotate ..)
  refine ⟨(hframe.update _ _).update _ _, ?_, (treeAt_plug ..).2 ⟨?_, ?_⟩, haddrs ▸ h.nodup,
    ?_, ?_, ?_⟩
  · refine hroot₃.trans ?_
    simp only [hs₃]
    split
    case isTrue hnil => simp [hnil]
    case isFalse hnil => exact hroot.trans (ptr_plug_congr fun h ↦ absurd h hnil)
  · simp only [hs₃, ptr_branch]
    exact (hpath₃.update hypath).update hxpath
  · simp only [treeAt_branch, ptr_branch, hs₃]
    refine ⟨?_, ⟨?_, ?_, ?_⟩, ?_⟩
    · rw [Heap.cell_update_of_ne _ _ (Ne.symm hxy), Heap.cell_update_self, hy₃]
      simp
    · rw [Heap.cell_update_self, Heap.cell_update_of_ne _ _ hxy, hx₃]
      simp
    · refine ((hta.congr fun p hp ↦ ?_).update (fun hya ↦ (hay _ hya).1 rfl)).update hxa
      exact hother₃ p (fun h ↦ hxa (h ▸ hp)) (hay p hp).1 (hay p hp).2.1
        (hdisj p (.inr (.inl hp)))
    · refine ((htb₂.congr fun p hp ↦ ?_).update hyb).update hxb
      rw [hcell₃ p (hdisj p (.inr (.inr (.inr (.inl hp))))),
        Heap.cell_update_of_ne _ _ fun h : p = y.addr ↦ hyb (h ▸ hp)]
    · refine ((htd.congr fun p hp ↦ ?_).update hyd).update hxd
      exact hother₃ p (fun h ↦ hxd (h ▸ hp)) (fun h ↦ hyd (h ▸ hp)) (fun hb ↦ hbd p hb hp)
        (hdisj p (.inr (.inr (.inr (.inr hp)))))
  · simp only [hs₃, mem_addrs_plug, mem_addrs_branch, not_or]
    exact ⟨⟨hsy, ⟨hsx, hsa, hsb⟩, hsd⟩, hspath⟩
  · simp only [hs₃]
    rw [Heap.cell_update_of_ne _ _ hsx, Heap.cell_update_of_ne _ _ hsy,
      hother₃ s hsx hsy hsb hspath, hscratch]
  · rw [haddrs]
    exact hframe.live ▸ h.room

end Zbaselib.Rbtree
