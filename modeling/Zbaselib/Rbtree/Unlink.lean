import Zbaselib.Rbtree.Walk
import Zbaselib.Rbtree.Fixup

/-!
# Taking a node out of its place

The node that leaves has at most one child, which moves up into the gap; a node
with two children is replaced by its successor.  When nothing moves up, the gap
is the sentinel, and its parent field is the place the fix-up loop starts from.
-/

namespace Zbaselib.Rbtree

open Program Memory RedBlack

variable {m : State} {top scratch up : Ptr}

/-! ## The gap -/

/-- The tree with `t` in the hole, except that the parent field of `t` is `up`. -/
structure Loose (m : State) (top scratch up : Ptr) (path : Path Entry) (t : RBTree Entry) :
    Prop where
  root : m.vars.root = ptr m.vars.sentinel (path.plug t)
  pathAt : PathAt m.heap m.vars.sentinel top path (ptr m.vars.sentinel t)
  treeAt : TreeAt m.heap m.vars.sentinel up t
  nodup : (addrs (path.plug t)).Nodup
  fresh : m.vars.sentinel ∉ addrs (path.plug t)
  sentinel : m.heap.cell m.vars.sentinel = some { parent := scratch }
  room : (addrs (path.plug t)).length < m.heap.live

theorem Loose.holds {path : Path Entry} {t : RBTree Entry}
    (h : Loose m top scratch (parentOf top path) path t) : Holds m top scratch (path.plug t) :=
  ⟨h.root, (treeAt_plug ..).2 ⟨h.pathAt, h.treeAt⟩, h.nodup, h.fresh, h.sentinel, h.room⟩

/-- The two branches of the code assign the child pointer that led to `subst`. -/
theorem wp_bypass {f : Frame Entry} {rest : Path Entry} {t : RBTree Entry} {subst temp : Ptr}
    {post : Unit → State → Prop} (h : Holds m top scratch (Path.plug (f :: rest) t))
    (ht : t ≠ .leaf) (hsubst : subst = ptr m.vars.sentinel t)
    (hpost : post () { m with heap := m.heap.update f.value.addr (·.setChild f.side temp) }) :
    wp (bypass subst temp) post m := by
  subst hsubst
  have hcell := Holds.cell (q := rest) h
  have hset : wp (setChild f.side f.value.addr temp) post m :=
    (wp_setChild ..).2 ⟨⟨_, hcell⟩, hpost⟩
  simp only [bypass, wp_bind, h.wp_parent ht, parentOf, h.wp_child_left, wp_ite]
  exact (ite_side f.side (fun side ↦ wp (setChild side f.value.addr temp) post m)
    (h.ptr_ne_sibling ht)).2 hset

/-- A node with at most one child, here `t`, leaves the tree. -/
theorem Holds.bypass {f : Frame Entry} {rest : Path Entry} {side : Side} {c : Color}
    {e : Entry} {t : RBTree Entry}
    (h : Holds m top scratch (Path.plug (f :: rest) (.branch side c .leaf e t))) :
    Loose { m with
      heap := m.heap.update f.value.addr (·.setChild f.side (ptr m.vars.sentinel t)) }
        top scratch e.addr (f :: rest) t := by
  have hnodup := h.nodup
  have hfresh := h.fresh
  rw [nodup_addrs_plug, nodup_addrs_branch] at hnodup
  simp only [mem_addrs_plug, mem_addrs_branch, not_or] at hfresh
  obtain ⟨⟨-, het, -, htn, -⟩, hpathn, hdisj⟩ := hnodup
  have hft : f.value.addr ∉ addrs t := fun hmem ↦
    hdisj _ (mem_addrs_branch.2 (.inr (.inr hmem))) (mem_pathAddrs_cons.2 (.inl rfl))
  have hfs : m.vars.sentinel ≠ f.value.addr := fun heq ↦
    hfresh.2 (mem_pathAddrs_cons.2 (.inl heq))
  obtain ⟨hcell, hleaf, htree⟩ := (treeAt_branch ..).1 h.hole
  refine ⟨h.root.trans (ptr_plug_congr nofun), h.path.setHole hpathn, htree.update hft,
    nodup_addrs_plug.2 ⟨htn, hpathn, fun a ha ↦ hdisj a (mem_addrs_branch.2 (.inr (.inr ha)))⟩,
    ?_, ?_, ?_⟩
  · rw [mem_addrs_plug, not_or]
    exact ⟨hfresh.1.2.2, hfresh.2⟩
  · exact (Heap.cell_update_of_ne _ _ hfs).trans h.sentinel
  · have hroom := h.room
    rw [length_addrs_plug, length_addrs_branch] at hroom
    rw [length_addrs_plug]
    simp only [Heap.live_update]
    omega

/-- The parent field of what moved up is assigned; the sentinel has one too. -/
theorem Loose.wp_setParent {path : Path Entry} {t : RBTree Entry} {q : Ptr}
    {post : Unit → State → Prop} (h : Loose m top scratch up path t)
    (hpost : ∀ m', SameFrame m m' →
      Loose m' top (if t = .leaf then q else scratch) q path t →
        (∀ a, a ≠ m.vars.sentinel → a ∉ addrs t → m'.heap.cell a = m.heap.cell a) → post () m') :
    wp (setParent (ptr m.vars.sentinel t) q) post m := by
  have hnodup := h.nodup
  have hfresh := h.fresh
  rw [nodup_addrs_plug] at hnodup
  rw [mem_addrs_plug, not_or] at hfresh
  obtain ⟨hroot, hpath, htree, hn, hs, hsent, hroom⟩ := h
  by_cases ht : t = .leaf
  · subst ht
    rw [ptr_leaf] at hpath ⊢
    refine (Rbtree.wp_setParent ..).2 ⟨⟨_, hsent⟩, hpost _ ((SameFrame.refl m).update _ _) ?_ ?_⟩
    · refine ⟨hroot, hpath.update hfresh.2, trivial, hn, hs, ?_, hroom⟩
      rw [if_pos rfl]
      simp [hsent, Node.setParent]
    · exact fun a ha _ ↦ Heap.cell_update_of_ne _ _ ha
  · have hmem := ptr_mem_addrs (s := m.vars.sentinel) ht
    obtain ⟨n, hcell⟩ := Option.isSome_iff_exists.1 (htree.isSome hmem)
    refine (Rbtree.wp_setParent ..).2 ⟨⟨_, hcell⟩, hpost _ ((SameFrame.refl m).update _ _) ?_ ?_⟩
    · refine ⟨hroot, hpath.update (hnodup.2.2 _ hmem), htree.reparent hnodup.1, hn, hs, ?_, hroom⟩
      have hne : m.vars.sentinel ≠ ptr m.vars.sentinel t := fun heq ↦ hfresh.1 (heq.symm ▸ hmem)
      rw [if_neg ht, Heap.cell_update_of_ne _ _ hne, hsent]
    · exact fun a _ ha ↦ Heap.cell_update_of_ne _ _ fun heq ↦ ha (heq ▸ hmem)

/-! ## The successor takes the place of the node -/

/-- The tree after the successor `e'` of `e` was unlinked; the parent field of the right
subtree of `e` may be wrong. -/
structure Detached (m : State) (top scratch up : Ptr) (path : Path Entry) (c : Color)
    (left : RBTree Entry) (e e' : Entry) (right : RBTree Entry) : Prop where
  root : m.vars.root = ptr m.vars.sentinel (path.plug (.branch .left c left e right))
  pathAt : PathAt m.heap m.vars.sentinel top path e.addr
  cell : m.heap.cell e.addr = some ⟨e.key, ptr m.vars.sentinel left, ptr m.vars.sentinel right,
    parentOf top path, c⟩
  leftAt : TreeAt m.heap m.vars.sentinel e.addr left
  rightAt : TreeAt m.heap m.vars.sentinel up right
  subst : ∃ n, m.heap.cell e'.addr = some n ∧ n.key = e'.key
  nodup : (addrs (path.plug (.branch .left c left e right))).Nodup
  fresh : m.vars.sentinel ∉ addrs (path.plug (.branch .left c left e right))
  substFresh : e'.addr ∉ addrs (path.plug (.branch .left c left e right))
  substSentinel : m.vars.sentinel ≠ e'.addr
  sentinel : m.heap.cell m.vars.sentinel = some { parent := scratch }
  room : (addrs (path.plug (.branch .left c left e right))).length < m.heap.live

theorem wp_copyLinks {p q : Ptr} {n n' : Node} (hp : m.heap.cell p = some n)
    (hq : m.heap.cell q = some n') (hne : q ≠ p) :
    wp (copyLinks p q) (fun _ m' ↦ SameFrame m m' ∧ m'.vars = m.vars ∧
      m'.heap.cell p = some { n' with key := n.key } ∧
        ∀ a, a ≠ p → m'.heap.cell a = m.heap.cell a) m := by
  simp only [copyLinks, wp_bind, wp_child, wp_parent, wp_color, wp_setChild, wp_setParent,
    wp_setColor, hp, hq, Heap.cell_update_self, Heap.cell_update_of_ne _ _ hne, Option.map_some,
    Option.some.injEq, exists_eq_left', exists_eq', true_and]
  refine ⟨((((SameFrame.refl m).update _ _).update _ _).update _ _).update _ _, rfl, fun a ha ↦ ?_⟩
  simp only [Heap.cell_update_of_ne _ _ ha]

theorem wp_takePlace {path : Path Entry} {c : Color} {left right : RBTree Entry} {e e' : Entry}
    (h : Detached m top scratch up path c left e e' right) :
    wp (takePlace e'.addr e.addr) (fun _ m' ↦ SameFrame m m' ∧
      Holds m' top scratch (path.plug (.branch .left c left e' right))) m := by
  obtain ⟨hroot, hpath, hcell, hleft, hright, ⟨n, hn, hkey⟩, hnodup, hfresh, hsub, hsubs, hsent,
    hroom⟩ := h
  rw [nodup_addrs_plug, nodup_addrs_branch] at hnodup
  simp only [mem_addrs_plug, mem_addrs_branch, not_or] at hfresh hsub
  obtain ⟨⟨hel, her, hl, hr, hlr⟩, hpathn, hdisj⟩ := hnodup
  obtain ⟨⟨hse, hsl, hsr⟩, hspath⟩ := hfresh
  obtain ⟨⟨hee, hel', her'⟩, hepath'⟩ := hsub
  have hepath : e.addr ∉ pathAddrs path := hdisj _ (mem_addrs_branch.2 (.inl rfl))
  obtain ⟨heap, root, s, size⟩ := m
  rw [takePlace, wp_bind]
  refine wp_mono (wp_copyLinks hn hcell (Ne.symm hee)) ?_
  rintro - ⟨heap₁, vars₁⟩ ⟨hf₁, hvars₁, hcell₁, hother₁⟩
  cases hvars₁
  simp only at hroot hpath hleft hright hsubs hsent hse hsl hsr hspath hroom hcell₁ hother₁
  rw [wp_bind]
  have hpath₁ : PathAt heap₁ s top path e.addr := hpath.congr fun a ha ↦
    hother₁ a fun heq ↦ hepath' (heq ▸ ha)
  refine wp_mono (wp_replaceChild .left ((hother₁ _ (Ne.symm hee)).trans hcell) rfl hpath₁ hpathn
    hepath (Ne.symm hse) ?_) ?_
  · split
    case isTrue hnil => simpa [hnil] using hroot
    case isFalse hnil => exact hroot ▸ ptr_plug_mem hnil _
  rintro - ⟨heap₂, vars₂⟩ ⟨hf₂, hpath₂, hother₂, hroot₂⟩
  have hs₂ : vars₂.sentinel = s := hf₂.sentinel
  have hcell₂ : heap₂.cell e'.addr =
      some ⟨e'.key, ptr s left, ptr s right, parentOf top path, c⟩ := by
    rw [← hkey]
    exact (hother₂ _ hepath').trans hcell₁
  have hleft₂ : TreeAt heap₂ s e.addr left := hleft.congr fun a ha ↦
    (hother₂ a (hdisj a (mem_addrs_branch.2 (.inr (.inl ha))))).trans
      (hother₁ a fun heq ↦ hel' (heq ▸ ha))
  have hright₂ : TreeAt heap₂ s up right := hright.congr fun a ha ↦
    (hother₂ a (hdisj a (mem_addrs_branch.2 (.inr (.inr ha))))).trans
      (hother₁ a fun heq ↦ her' (heq ▸ ha))
  subst hs₂
  simp only [wp_bind, wp_child, hcell₂, Option.some.injEq, exists_eq_left', Node.child]
  refine wp_mono (wp_adopt (m := ⟨heap₂, vars₂⟩) hleft₂ hl hsl) ?_
  rintro - ⟨heap₃, vars₃⟩ ⟨hf₃, hvars₃, hleft₃, hother₃⟩
  cases hvars₃
  simp only at hleft₃ hother₃
  have hcell₃ := (hother₃ _ hel').trans hcell₂
  simp only [hcell₃, Option.some.injEq, exists_eq_left']
  refine wp_mono (wp_adopt (m := ⟨heap₃, vars₂⟩)
    (hright₂.congr fun a ha ↦ hother₃ a fun hal ↦ hlr a hal ha) hr hsr) ?_
  rintro - ⟨heap₄, vars₄⟩ ⟨hf₄, hvars₄, hright₄, hother₄⟩
  cases hvars₄
  simp only at hright₄ hother₄
  have hf := ((hf₁.trans hf₂).trans hf₃).trans hf₄
  have hpath₄ : PathAt heap₄ vars₂.sentinel top path e'.addr := hpath₂.congr fun a ha ↦
    (hother₄ a fun har ↦ hdisj a (mem_addrs_branch.2 (.inr (.inr har))) ha).trans
      (hother₃ a fun hal ↦ hdisj a (mem_addrs_branch.2 (.inr (.inl hal))) ha)
  refine ⟨hf, ?_, (treeAt_plug ..).2 ⟨?_, (treeAt_branch ..).2 ⟨?_, ?_, hright₄⟩⟩, ?_, ?_, ?_, ?_⟩
  · refine hroot₂.trans ?_
    split
    case isTrue hnil => simp [hnil, ptr, RBTree.branch]
    case isFalse hnil => exact hroot.trans (ptr_plug_congr fun h ↦ absurd h hnil)
  · rwa [ptr_branch]
  · exact (hother₄ _ her').trans hcell₃
  · exact hleft₃.congr fun a ha ↦ hother₄ a fun har ↦ hlr a ha har
  · rw [nodup_addrs_plug, nodup_addrs_branch]
    refine ⟨⟨hel', her', hl, hr, hlr⟩, hpathn, fun a ha ↦ ?_⟩
    rcases mem_addrs_branch.1 ha with rfl | ha
    · exact hepath'
    · exact hdisj a (mem_addrs_branch.2 (.inr ha))
  · simp only [mem_addrs_plug, mem_addrs_branch, not_or]
    exact ⟨⟨hsubs, hsl, hsr⟩, hspath⟩
  · rw [hother₄ _ hsr, hother₃ _ hsl, hother₂ _ hspath, hother₁ _ hsubs]
    exact hsent
  · rw [length_addrs_plug, length_addrs_branch] at hroom ⊢
    exact hf.live ▸ hroom

end Zbaselib.Rbtree
