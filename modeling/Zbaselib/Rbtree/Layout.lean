import Zbaselib.Rbtree.Model

/-!
# Trees laid out in the heap

`TreeAt` and `PathAt` say which records hold a tree and a path around a hole.
The records of a tree have pairwise different addresses, none of them the
sentinel's, so that an assignment to one record leaves every other part alone.
-/

namespace Zbaselib.Rbtree

open Program Memory RedBlack

/-- A node of the abstract tree: where it lies, and its key. -/
structure Entry where
  addr : Ptr
  key : Ptr
  deriving DecidableEq, Repr

namespace Node

/-- A record given by its children on one side and on the other. -/
def branch (side : Side) (key near far parent : Ptr) (color : Color) : Node :=
  match side with
  | .left => ⟨key, near, far, parent, color⟩
  | .right => ⟨key, far, near, parent, color⟩

section Branch

variable (side : Side) (key near far up p : Ptr) (c c' : Color)

@[simp]
theorem key_branch : (branch side key near far up c).key = key := by cases side <;> rfl

@[simp]
theorem parent_branch : (branch side key near far up c).parent = up := by cases side <;> rfl

@[simp]
theorem color_branch : (branch side key near far up c).color = c := by cases side <;> rfl

@[simp]
theorem child_branch : (branch side key near far up c).child side = near := by
  cases side <;> rfl

@[simp]
theorem child_other_branch : (branch side key near far up c).child side.other = far := by
  cases side <;> rfl

@[simp]
theorem setChild_branch :
    (branch side key near far up c).setChild side p = branch side key p far up c := by
  cases side <;> rfl

@[simp]
theorem setChild_other_branch :
    (branch side key near far up c).setChild side.other p = branch side key near p up c := by
  cases side <;> rfl

@[simp]
theorem setParent_branch :
    (branch side key near far up c).setParent p = branch side key near far p c := by
  cases side <;> rfl

@[simp]
theorem setColor_branch :
    (branch side key near far up c).setColor c' = branch side key near far up c' := by
  cases side <;> rfl

theorem branch_other :
    branch side.other key near far up c = branch side key far near up c := by
  cases side <;> rfl

end Branch

end Node

/-! ## Layout -/

variable {h : Heap Node} {s top : Ptr}

/-- The pointer to a tree; the pointer to a leaf is the sentinel. -/
def ptr (s : Ptr) : RBTree Entry → Ptr
  | .leaf => s
  | .node _ _ e _ => e.addr

/-- The parent field of what is in the hole; `top` is what the root's parent field holds. -/
def parentOf (top : Ptr) : Path Entry → Ptr
  | [] => top
  | f :: _ => f.value.addr

def addrs (t : RBTree Entry) : List Ptr := t.toList.map Entry.addr

def pathAddrs (path : Path Entry) : List Ptr :=
  (Path.before path ++ Path.after path).map Entry.addr

def TreeAt (h : Heap Node) (s : Ptr) : Ptr → RBTree Entry → Prop
  | _, .leaf => True
  | up, .node c left e right =>
      h.cell e.addr = some ⟨e.key, ptr s left, ptr s right, up, c⟩ ∧
        TreeAt h s e.addr left ∧ TreeAt h s e.addr right

def PathAt (h : Heap Node) (s top : Ptr) : Path Entry → Ptr → Prop
  | [], _ => True
  | f :: rest, hole =>
      h.cell f.value.addr = some
          (.branch f.side f.value.key hole (ptr s f.sibling) (parentOf top rest) f.color) ∧
        TreeAt h s f.value.addr f.sibling ∧ PathAt h s top rest f.value.addr

@[simp]
theorem ptr_leaf : ptr s .leaf = s := rfl

@[simp]
theorem ptr_branch (side : Side) (c : Color) (near far : RBTree Entry) (e : Entry) :
    ptr s (.branch side c near e far) = e.addr := by
  cases side <;> rfl

@[simp]
theorem ptr_paint (t : RBTree Entry) (c : Color) : ptr s (t.paint c) = ptr s t := by
  cases t <;> rfl

@[simp]
theorem ptr_fill (f : Frame Entry) (t : RBTree Entry) : ptr s (f.fill t) = f.value.addr :=
  ptr_branch ..

@[simp]
theorem treeAt_leaf (up : Ptr) : TreeAt h s up .leaf := trivial

@[simp]
theorem treeAt_branch (up : Ptr) (side : Side) (c : Color) (near far : RBTree Entry) (e : Entry) :
    TreeAt h s up (.branch side c near e far) ↔
      h.cell e.addr = some (.branch side e.key (ptr s near) (ptr s far) up c) ∧
        TreeAt h s e.addr near ∧ TreeAt h s e.addr far := by
  cases side with
  | left => rfl
  | right => simp only [RBTree.branch, TreeAt, Node.branch, and_comm (a := TreeAt h s _ far)]

theorem treeAt_plug (path : Path Entry) (t : RBTree Entry) :
    TreeAt h s top (path.plug t) ↔
      PathAt h s top path (ptr s t) ∧ TreeAt h s (parentOf top path) t := by
  induction path generalizing t with
  | nil => simp [PathAt, parentOf]
  | cons f rest ih =>
    simp only [Path.plug_cons, ih, PathAt, Frame.fill, ptr_branch, treeAt_branch, parentOf]
    grind

/-! ## Addresses -/

@[simp]
theorem addrs_leaf : addrs .leaf = [] := rfl

theorem mem_addrs_branch {side : Side} {c : Color} {near far : RBTree Entry} {e : Entry} {a : Ptr} :
    a ∈ addrs (.branch side c near e far) ↔ a = e.addr ∨ a ∈ addrs near ∨ a ∈ addrs far := by
  cases side <;> simp only [addrs, RBTree.branch, RBTree.toList_node, List.map_append,
    List.map_cons, List.mem_append, List.mem_cons] <;> grind

theorem length_addrs_branch (side : Side) (c : Color) (near far : RBTree Entry) (e : Entry) :
    (addrs (.branch side c near e far)).length =
      (addrs near).length + (addrs far).length + 1 := by
  cases side <;> simp [addrs, RBTree.branch] <;> omega

theorem ptr_mem_addrs {t : RBTree Entry} (ht : t ≠ .leaf) : ptr s t ∈ addrs t := by
  cases t with
  | leaf => exact absurd rfl ht
  | node c left e right => simp [addrs, ptr]

theorem ptr_eq_sentinel_iff {t : RBTree Entry} (hs : s ∉ addrs t) : ptr s t = s ↔ t = .leaf := by
  refine ⟨fun h ↦ ?_, fun h ↦ by rw [h, ptr_leaf]⟩
  by_contra ht
  exact hs (h ▸ ptr_mem_addrs ht)

@[simp]
theorem addrs_paint (t : RBTree Entry) (c : Color) : addrs (t.paint c) = addrs t := by
  simp [addrs]

theorem mem_pathAddrs_cons {f : Frame Entry} {rest : Path Entry} {a : Ptr} :
    a ∈ pathAddrs (f :: rest) ↔
      a = f.value.addr ∨ a ∈ addrs f.sibling ∨ a ∈ pathAddrs rest := by
  rcases f with ⟨_ | _, c, e, sib⟩ <;>
    simp only [pathAddrs, addrs, Path.before, Path.after, Frame.before, Frame.after,
      List.map_append, List.map_cons, List.mem_append, List.mem_cons, List.map_nil] <;>
    grind

theorem mem_pathAddrs_append {inner path : Path Entry} {a : Ptr} :
    a ∈ pathAddrs (inner ++ path) ↔ a ∈ pathAddrs inner ∨ a ∈ pathAddrs path := by
  induction inner with
  | nil => simp [pathAddrs, Path.before, Path.after]
  | cons f rest ih => simp only [List.cons_append, mem_pathAddrs_cons, ih, or_assoc]

/-- Every node of a tree is in the hole of a path. -/
theorem exists_branch_of_mem (side : Side) {t : RBTree Entry} {a : Ptr} (h : a ∈ addrs t) :
    ∃ path near c e far, a = e.addr ∧ t = Path.plug path (.branch side c near e far) := by
  suffices hpath : ∀ path : Path Entry, ∃ path' near c e far, a = e.addr ∧
      Path.plug path t = Path.plug path' (.branch side c near e far) from hpath []
  induction t with
  | leaf => cases h
  | node c left e right ihl ihr =>
    intro path
    rcases (mem_addrs_branch (e := e)).1 (show a ∈ addrs (.branch .left c left e right) from h)
      with rfl | hl | hr
    · obtain ⟨c', near, e', far, hbranch⟩ := RBTree.exists_branch side
        (RBTree.branch_ne_leaf .left c left right e)
      refine ⟨path, near, c', e', far, ?_, by rw [← hbranch]; rfl⟩
      have hptr := congrArg (ptr NULL) hbranch
      rwa [ptr_branch, ptr_branch] at hptr
    · exact ihl hl (⟨.left, c, e, right⟩ :: path)
    · exact ihr hr (⟨.right, c, e, left⟩ :: path)

theorem nodup_addrs_branch {side : Side} {c : Color} {near far : RBTree Entry} {e : Entry} :
    (addrs (.branch side c near e far)).Nodup ↔
      e.addr ∉ addrs near ∧ e.addr ∉ addrs far ∧ (addrs near).Nodup ∧ (addrs far).Nodup ∧
        ∀ a ∈ addrs near, a ∉ addrs far := by
  cases side <;>
    simp only [addrs, RBTree.branch, RBTree.toList_node, List.map_append, List.map_cons,
      List.nodup_append, List.nodup_cons, List.mem_cons, List.mem_map] <;>
    grind

theorem nodup_addrs_plug {path : Path Entry} {t : RBTree Entry} :
    (addrs (path.plug t)).Nodup ↔
      (addrs t).Nodup ∧ (pathAddrs path).Nodup ∧ ∀ a ∈ addrs t, a ∉ pathAddrs path := by
  rw [addrs, Path.toList_plug, pathAddrs, addrs]
  simp only [List.map_append, List.nodup_append, List.mem_append]
  grind

theorem addrs_plug_congr (path : Path Entry) {t t' : RBTree Entry} (h : t.toList = t'.toList) :
    addrs (path.plug t) = addrs (path.plug t') :=
  congrArg (List.map Entry.addr) (Path.toList_plug_congr path h)

theorem mem_addrs_plug {path : Path Entry} {t : RBTree Entry} {a : Ptr} :
    a ∈ addrs (path.plug t) ↔ a ∈ addrs t ∨ a ∈ pathAddrs path := by
  simp only [addrs, Path.toList_plug, pathAddrs, List.map_append, List.mem_append]
  grind

theorem nodup_pathAddrs_cons {f : Frame Entry} {rest : Path Entry} :
    (pathAddrs (f :: rest)).Nodup ↔
      f.value.addr ∉ addrs f.sibling ∧ f.value.addr ∉ pathAddrs rest ∧ (addrs f.sibling).Nodup ∧
        (pathAddrs rest).Nodup ∧ ∀ a ∈ addrs f.sibling, a ∉ pathAddrs rest := by
  have hleaf : pathAddrs (f :: rest) = addrs (Path.plug (f :: rest) .leaf) := by
    rw [pathAddrs, addrs, Path.toList_plug]
    simp
  rw [hleaf, Path.plug_cons, nodup_addrs_plug, Frame.fill, nodup_addrs_branch]
  simp only [mem_addrs_branch, addrs_leaf]
  grind

theorem length_le_addrs_plug (path : Path Entry) (t : RBTree Entry) :
    path.length + (addrs t).length ≤ (addrs (path.plug t)).length := by
  induction path generalizing t with
  | nil => simp
  | cons f rest ih =>
    have hfill : 1 + (addrs t).length ≤ (addrs (f.fill t)).length := by
      simp only [addrs, Frame.toList_fill]
      rcases f with ⟨_ | _, _, _, _⟩ <;> simp [Frame.before, Frame.after] <;> omega
    have := ih (f.fill t)
    simp only [List.length_cons, Path.plug_cons]
    omega

theorem length_addrs_plug (path : Path Entry) (t : RBTree Entry) :
    (addrs (path.plug t)).length = (addrs t).length + (pathAddrs path).length := by
  simp only [addrs, pathAddrs, Path.toList_plug, List.length_map, List.length_append]
  omega

/-! ## Assignments -/

theorem TreeAt.congr {h' : Heap Node} {up : Ptr} {t : RBTree Entry} (ht : TreeAt h s up t)
    (hsame : ∀ a ∈ addrs t, h'.cell a = h.cell a) : TreeAt h' s up t := by
  induction t generalizing up with
  | leaf => trivial
  | node c left e right ihl ihr =>
    obtain ⟨hcell, hleft, hright⟩ := ht
    refine ⟨?_, ihl hleft fun a ha ↦ hsame a ?_, ihr hright fun a ha ↦ hsame a ?_⟩
    · rw [hsame e.addr (by simp [addrs]), hcell]
    · simp only [addrs, RBTree.toList_node, List.map_append, List.mem_append] at ha ⊢
      exact .inl ha
    · simp only [addrs, RBTree.toList_node, List.map_append, List.mem_append, List.map_cons,
        List.mem_cons] at ha ⊢
      exact .inr (.inr ha)

theorem PathAt.congr {h' : Heap Node} {hole : Ptr} {path : Path Entry}
    (hpath : PathAt h s top path hole) (hsame : ∀ a ∈ pathAddrs path, h'.cell a = h.cell a) :
    PathAt h' s top path hole := by
  induction path generalizing hole with
  | nil => trivial
  | cons f rest ih =>
    obtain ⟨hcell, hsib, hrest⟩ := hpath
    refine ⟨?_, hsib.congr fun a ha ↦ hsame a ?_, ih hrest fun a ha ↦ hsame a ?_⟩
    · rw [hsame _ (mem_pathAddrs_cons.2 (.inl rfl)), hcell]
    · exact mem_pathAddrs_cons.2 (.inr (.inl ha))
    · exact mem_pathAddrs_cons.2 (.inr (.inr ha))

theorem TreeAt.update {up a : Ptr} {t : RBTree Entry} {g : Node → Node} (ht : TreeAt h s up t)
    (ha : a ∉ addrs t) : TreeAt (h.update a g) s up t :=
  ht.congr fun _ hb ↦ h.cell_update_of_ne g fun hba ↦ ha (hba ▸ hb)

theorem PathAt.update {hole a : Ptr} {path : Path Entry} {g : Node → Node}
    (hpath : PathAt h s top path hole) (ha : a ∉ pathAddrs path) :
    PathAt (h.update a g) s top path hole :=
  hpath.congr fun _ hb ↦ h.cell_update_of_ne g fun hba ↦ ha (hba ▸ hb)

/-- Assigning the parent field of the root of a tree. -/
theorem TreeAt.reparent {up up' : Ptr} {t : RBTree Entry} (ht : TreeAt h s up t)
    (hnodup : (addrs t).Nodup) :
    TreeAt (h.update (ptr s t) (·.setParent up')) s up' t := by
  by_cases hleaf : t = .leaf
  · subst hleaf; trivial
  obtain ⟨c, left, e, right, rfl⟩ := RBTree.exists_branch .left hleaf
  obtain ⟨hcell, hleft, hright⟩ := (treeAt_branch ..).1 ht
  obtain ⟨hel, her, -⟩ := nodup_addrs_branch.1 hnodup
  rw [ptr_branch]
  refine (treeAt_branch ..).2 ⟨?_, hleft.update hel, hright.update her⟩
  rw [h.cell_update_self, hcell]
  simp

/-- Assigning the child pointer above the hole. -/
theorem PathAt.setHole {f : Frame Entry} {rest : Path Entry} {hole q : Ptr}
    (hpath : PathAt h s top (f :: rest) hole) (hnodup : (pathAddrs (f :: rest)).Nodup) :
    PathAt (h.update f.value.addr (·.setChild f.side q)) s top (f :: rest) q := by
  obtain ⟨hcell, hsib, hrest⟩ := hpath
  obtain ⟨hfsib, hfrest, -⟩ := nodup_pathAddrs_cons.1 hnodup
  refine ⟨?_, hsib.update hfsib, hrest.update hfrest⟩
  rw [h.cell_update_self, hcell, Option.map_some, Node.setChild_branch]

/-- Every node of a laid-out tree is live. -/
theorem TreeAt.isSome {up a : Ptr} {t : RBTree Entry} (ht : TreeAt h s up t) (ha : a ∈ addrs t) :
    (h.cell a).isSome := by
  induction t generalizing up with
  | leaf => cases ha
  | node c left e right ihl ihr =>
    obtain ⟨hcell, hleft, hright⟩ := ht
    rcases mem_addrs_branch.1 (show a ∈ addrs (.branch .left c left e right) from ha)
      with rfl | ha | ha
    · rw [hcell, Option.isSome_some]
    · exact ihl hleft ha
    · exact ihr hright ha

end Zbaselib.Rbtree
