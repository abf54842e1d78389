import Zbaselib.Lib.RedBlack.Tree

/-!
# Deletion from a red-black tree

A node with two children is replaced by its successor, so that the node that
leaves the tree has at most one child.  When the removed node was black,
`deleteFix` climbs with a subtree that is one black node short: a red sibling is
rotated out of the way, a black sibling with black children is reddened and the
deficit moves up, and otherwise the sibling lends a node.
-/

namespace Zbaselib.RedBlack

variable {α : Type}

open Zbaselib.RedBlack.RBTree

/-- The leftmost node below a node with the given parts: path, colour, value and right child. -/
def minOf (c : Color) : RBTree α → α → RBTree α → Path α → Path α × Color × α × RBTree α
  | leaf, value, right, path => (path, c, value, right)
  | node c' left' value' right', value, right, path =>
      minOf c' left' value' right' (⟨.left, c, value, right⟩ :: path)

/-- Take a node out: the hole it leaves, what fills the hole, and the colour that is lost. -/
def splice (path : Path α) (c : Color) (left : RBTree α) (_value : α) (right : RBTree α) :
    Path α × RBTree α × Color :=
  match left, right with
  | leaf, right => (path, right, c)
  | left, leaf => (path, left, c)
  | left, node c' left' value' right' =>
      let (inner, lost, value, rest) := minOf c' left' value' right' []
      (inner ++ ⟨.right, c, value, left⟩ :: path, rest, lost)

/-- Rotate a black sibling whose outer child is black, so that its outer child is red. -/
def outward (side : Side) (w : RBTree α) : RBTree α :=
  match w with
  | leaf => leaf
  | node _ left value right =>
      if ((node .black left value right).child side.other).color = .black then
        match (node .black left value right).child side with
        | leaf => w
        | node _ left' value' right' =>
            branch side .black ((node .red left' value' right').child side) value'
              (branch side .red ((node .red left' value' right').child side.other) value
                ((node .black left value right).child side.other))
      else w

/-- The sibling lends a node to the short side. -/
def borrow (f : Frame α) (t : RBTree α) : RBTree α :=
  match outward f.side f.sibling with
  | leaf => f.fill t
  | node c left value right =>
      branch f.side f.color
        (branch f.side .black t f.value ((node c left value right).child f.side))
        value (((node c left value right).child f.side.other).paint .black)

/-- One round with a black sibling: the deficit moves up (`inl`) or is settled (`inr`). -/
def settle (f : Frame α) (t : RBTree α) : RBTree α ⊕ RBTree α :=
  match f.sibling with
  | leaf => .inl (f.fill t)
  | node _ left value right =>
      if left.color = .black ∧ right.color = .black then
        .inl (branch f.side f.color t f.value (node .red left value right))
      else .inr (borrow f t)

/-- A red sibling goes up: the two frames that replace the innermost one. -/
def demote (f : Frame α) : Frame α × Frame α :=
  match f.sibling with
  | leaf => (f, f)
  | node c left value right =>
      (⟨f.side, .red, f.value, (node c left value right).child f.side⟩,
        ⟨f.side, .black, value, (node c left value right).child f.side.other⟩)

/-- Climb with a subtree that is one black node short. -/
def deleteFix : Path α → RBTree α → RBTree α
  | [], t => t.paint .black
  | f :: rest, t =>
      if t.color = .red then Path.plug (f :: rest) (t.paint .black)
      else if f.sibling.color = .red then
        match settle (demote f).1 t with
        | .inl t' => Path.plug ((demote f).2 :: rest) (t'.paint .black)
        | .inr t' => (Path.plug ((demote f).2 :: rest) t').paint .black
      else
        match settle f t with
        | .inl t' => deleteFix rest t'
        | .inr t' => (Path.plug rest t').paint .black

/-- What becomes of a gap that `t` filled when a node of colour `lost` left. -/
def repair (lost : Color) : Path α → RBTree α → RBTree α
  | [], t => t.paint .black
  | f :: rest, t =>
      match lost with
      | .red => Path.plug (f :: rest) t
      | .black => deleteFix (f :: rest) t

/-- The tree without the node at the hole of `path`. -/
def deleteNode (path : Path α) (c : Color) (left : RBTree α) (value : α) (right : RBTree α) :
    RBTree α :=
  let (gap, t, lost) := splice path c left value right
  repair lost gap t

/-! ## The removed node -/

theorem minOf_eq (c : Color) (left right : RBTree α) (value : α) (path : Path α) :
    ∃ inner, (minOf c left value right path).1 = inner ++ path ∧
      Path.plug inner (node (minOf c left value right path).2.1 leaf
        (minOf c left value right path).2.2.1 (minOf c left value right path).2.2.2) =
          node c left value right := by
  induction left generalizing c value right path with
  | leaf => exact ⟨[], rfl, rfl⟩
  | node c' left' value' right' ihl _ =>
    obtain ⟨inner, hpath, hplug⟩ := ihl c' right' value' (⟨.left, c, value, right⟩ :: path)
    refine ⟨inner ++ [⟨.left, c, value, right⟩], ?_, ?_⟩
    · simp [minOf, hpath]
    · rw [Path.plug_append, minOf, hplug]
      rfl

/-- The successor of a node: the leftmost node on its right. -/
theorem plug_minOf (c : Color) (left right : RBTree α) (value : α) :
    Path.plug (minOf c left value right []).1 (node (minOf c left value right []).2.1 leaf
      (minOf c left value right []).2.2.1 (minOf c left value right []).2.2.2) =
        node c left value right := by
  obtain ⟨inner, hpath, hplug⟩ := minOf_eq c left right value []
  rw [hpath, List.append_nil, hplug]

/-- The search for the minimum follows any path that goes left. -/
theorem minOf_plug {inner : Path α} {c c' : Color} {left right left' right' : RBTree α}
    {value value' : α} (hleft : ∀ f ∈ inner, f.side = .left) (path : Path α)
    (h : Path.plug inner (node c' left' value' right') = node c left value right) :
    minOf c left value right path = minOf c' left' value' right' (inner ++ path) := by
  induction inner generalizing c' left' value' right' with
  | nil => cases h; rfl
  | cons f rest ih =>
    obtain ⟨hf, hrest⟩ := List.forall_mem_cons.1 hleft
    obtain ⟨side, fc, fv, sib⟩ := f
    subst hf
    exact ih hrest h

theorem before_minOf (c : Color) (left right : RBTree α) (value : α) (path : Path α) :
    Path.before (minOf c left value right path).1 = Path.before path := by
  induction left generalizing c value right path with
  | leaf => rfl
  | node c' left' value' right' ihl _ => simp [minOf, ihl, Path.before, Frame.before]

@[simp]
theorem before_minOf_nil (c : Color) (left right : RBTree α) (value : α) :
    Path.before (minOf c left value right []).1 = [] :=
  before_minOf c left right value []

theorem toList_splice (path : Path α) (c : Color) (left right : RBTree α) (value : α) :
    (Path.plug (splice path c left value right).1 (splice path c left value right).2.1).toList =
      Path.before path ++ left.toList ++ right.toList ++ Path.after path := by
  match left, right with
  | leaf, right => simp [splice, Path.toList_plug]
  | node .., leaf => simp [splice, Path.toList_plug]
  | node cl ll vl rl, node c' left' value' right' =>
    have hmin := congrArg toList (plug_minOf c' left' right' value')
    rw [Path.toList_plug, before_minOf_nil] at hmin
    simp only [splice, Path.plug_append, Path.plug_cons, Path.toList_plug, Frame.toList_fill,
      Frame.before, Frame.after, before_minOf_nil]
    rw [← hmin]
    simp

/-- Path conditions do not look at the value of a frame. -/
theorem height_append_frame (inner : Path α) (f : Frame α) (value : α) (rest : Path α) (n : ℕ) :
    Path.BlackHeight (inner ++ { f with value } :: rest) n ↔
      Path.BlackHeight (inner ++ f :: rest) n := by
  induction inner generalizing n with
  | nil => rfl
  | cons g inner ih => simp [Path.BlackHeight, ih]

theorem outerColor_append_frame (inner : Path α) (f : Frame α) (value : α) (rest : Path α) :
    Path.outerColor (inner ++ { f with value } :: rest) =
      Path.outerColor (inner ++ f :: rest) := by
  cases inner <;> rfl

theorem noRedRed_append_frame (inner : Path α) (f : Frame α) (value : α) (rest : Path α) :
    Path.NoRedRed (inner ++ { f with value } :: rest) ↔ Path.NoRedRed (inner ++ f :: rest) := by
  induction inner with
  | nil => rfl
  | cons g inner ih =>
    simp [Path.NoRedRed, ih, outerColor_append_frame]

/-- What is left of a valid tree at the hole of the removed node. -/
structure SpliceInv (path : Path α) (t : RBTree α) (lost : Color) : Prop where
  noRedRed : t.NoRedRed
  pathNoRedRed : Path.NoRedRed path
  height : ∃ n, t.BlackHeight n ∧ Path.BlackHeight path (n + lost.weight)
  lostRed : lost = .red → t.color = .black

/-- Removing a node with one child from a valid tree. -/
theorem spliceInv_of_valid {path : Path α} {c : Color} {t : RBTree α} {left right : RBTree α}
    {value : α} (h : Valid (Path.plug path (node c left value right)))
    (ht : left = leaf ∧ t = right ∨ right = leaf ∧ t = left) : SpliceInv path t c := by
  obtain ⟨m, ⟨k, rfl, hl, hr⟩, hpath, ⟨hred, hlno, hrno⟩, hpathno, -⟩ :=
    Path.valid_of_plug path h
  rcases ht with ⟨-, rfl⟩ | ⟨-, rfl⟩
  · exact ⟨hrno, hpathno, ⟨k, hr, hpath⟩, fun hc ↦ (hred hc).2⟩
  · exact ⟨hlno, hpathno, ⟨k, hl, hpath⟩, fun hc ↦ (hred hc).1⟩

theorem spliceInv_splice {path : Path α} {c : Color} {left right : RBTree α} {value : α}
    (h : Valid (Path.plug path (node c left value right))) :
    SpliceInv (splice path c left value right).1 (splice path c left value right).2.1
      (splice path c left value right).2.2 := by
  match left, right with
  | leaf, right => exact spliceInv_of_valid h (.inl ⟨rfl, rfl⟩)
  | node .., leaf => exact spliceInv_of_valid h (.inr ⟨rfl, rfl⟩)
  | node cl ll vl rl, node c' left' value' right' =>
    have hwhole : Path.plug ((minOf c' left' value' right' []).1 ++
        ⟨.right, c, value, node cl ll vl rl⟩ :: path)
        (node (minOf c' left' value' right' []).2.1 leaf (minOf c' left' value' right' []).2.2.1
          (minOf c' left' value' right' []).2.2.2) =
        Path.plug path (node c (node cl ll vl rl) value (node c' left' value' right')) := by
      rw [Path.plug_append, plug_minOf]
      rfl
    rw [← hwhole] at h
    obtain ⟨hno', hpathno, ⟨m, hm, hpath⟩, hlost⟩ :=
      spliceInv_of_valid h (.inl ⟨rfl, rfl⟩)
    exact ⟨hno', (noRedRed_append_frame _ ⟨.right, c, value, node cl ll vl rl⟩ _ _).2 hpathno,
      ⟨m, hm, (height_append_frame _ ⟨.right, c, value, node cl ll vl rl⟩ _ _ _).2 hpath⟩, hlost⟩

/-! ## One round of the climb -/

theorem outward_of_red {side : Side} {c : Color} {near far : RBTree α} {value : α}
    (hfar : far.color = .red) :
    outward side (branch side c near value far) = branch side c near value far := by
  cases side <;> simp [outward, branch, child, Side.other, hfar]

theorem outward_of_black {side : Side} {c c' : Color} {a b far : RBTree α} {x value : α}
    (hfar : far.color = .black) :
    outward side (branch side c (branch side c' a x b) value far) =
      branch side .black a x (branch side .red b value far) := by
  cases side <;> simp [outward, branch, child, Side.other, hfar]

theorem borrow_eq {f : Frame α} {t : RBTree α} {c : Color} {near far : RBTree α} {value : α}
    (h : outward f.side f.sibling = branch f.side c near value far) :
    borrow f t =
      branch f.side f.color (branch f.side .black t f.value near) value (far.paint .black) := by
  rw [borrow, h]
  rcases f with ⟨_ | _, _, _, _⟩ <;> rfl

theorem borrow_ne_leaf (f : Frame α) (t : RBTree α) : borrow f t ≠ leaf := by
  by_cases h : outward f.side f.sibling = leaf
  · rw [borrow, h]
    exact branch_ne_leaf _ _ _ _ _
  · obtain ⟨c, near, value, far, hbranch⟩ := exists_branch f.side h
    rw [borrow_eq hbranch]
    exact branch_ne_leaf _ _ _ _ _

/-- A black sibling with black children is reddened. -/
theorem settle_of_black {f : Frame α} {t : RBTree α} {c : Color} {near far : RBTree α} {value : α}
    (h : f.sibling = branch f.side c near value far) (hnear : near.color = .black)
    (hfar : far.color = .black) :
    settle f t = .inl (branch f.side f.color t f.value (f.sibling.paint .red)) := by
  rcases f with ⟨_ | _, _, _, _⟩ <;> simp_all [settle, branch]

theorem settle_of_red {f : Frame α} {t : RBTree α} {c : Color} {near far : RBTree α} {value : α}
    (h : f.sibling = branch f.side c near value far)
    (hred : ¬(near.color = .black ∧ far.color = .black)) : settle f t = .inr (borrow f t) := by
  rcases f with ⟨_ | _, _, _, _⟩ <;> (simp_all [settle, branch]; try tauto)

theorem demote_eq {f : Frame α} {c : Color} {near far : RBTree α} {value : α}
    (h : f.sibling = branch f.side c near value far) :
    demote f = (⟨f.side, .red, f.value, near⟩, ⟨f.side, .black, value, far⟩) := by
  rcases f with ⟨_ | _, _, _, _⟩ <;> simp_all [demote, branch, child, Side.other]

@[simp]
theorem side_demote (f : Frame α) : (demote f).1.side = f.side := by
  by_cases h : f.sibling = leaf
  · simp [demote, h]
  · obtain ⟨c, near, value, far, hbranch⟩ := exists_branch f.side h
    rw [demote_eq hbranch]

/-- A sibling with a red child can be rotated so that its outer child is red. -/
theorem exists_outward {side : Side} {c : Color} {near far : RBTree α} {value : α}
    (hred : ¬(near.color = .black ∧ far.color = .black)) :
    ∃ c' a x b, outward side (branch side c near value far) = branch side c' a x b ∧
      b.color = .red := by
  by_cases hfar : far.color = .red
  · exact ⟨c, near, value, far, outward_of_red hfar, hfar⟩
  · have hfar' := Color.eq_black_of_ne_red hfar
    have hnear : near ≠ leaf := fun h ↦ hred ⟨by simp [h], hfar'⟩
    obtain ⟨c', a, x, b, rfl⟩ := exists_branch side hnear
    rw [outward_of_black hfar']
    exact ⟨_, _, _, _, rfl, color_branch ..⟩

theorem toList_outward (side : Side) (w : RBTree α) : (outward side w).toList = w.toList := by
  by_cases hw : w = leaf
  · rw [hw]; rfl
  obtain ⟨c, near, value, far, rfl⟩ := exists_branch side hw
  by_cases hfar : far.color = .red
  · rw [outward_of_red hfar]
  have hfar' := Color.eq_black_of_ne_red hfar
  by_cases hnear : near = leaf
  · rw [hnear]
    cases side <;> simp [outward, branch, child, Side.other, hfar']
  · obtain ⟨c', a, x, b, rfl⟩ := exists_branch side hnear
    rw [outward_of_black hfar']
    exact (toList_rotate ..).symm

theorem toList_borrow (f : Frame α) (t : RBTree α) : (borrow f t).toList = (f.fill t).toList := by
  by_cases hw : outward f.side f.sibling = leaf
  · rw [borrow, hw]
  obtain ⟨c, near, value, far, hbranch⟩ := exists_branch f.side hw
  rw [borrow_eq hbranch, Frame.fill]
  calc
    _ = (branch f.side f.color t f.value (branch f.side c near value far)).toList := by
      rw [← toList_rotate f.side f.color .black f.color c]
      exact toList_branch_congr _ _ _ _ rfl (toList_paint _ _)
    _ = _ := by
      rw [← hbranch]
      exact toList_branch_congr _ _ _ _ rfl (toList_outward _ _)

theorem toList_settle {f : Frame α} {t t' : RBTree α}
    (h : settle f t = .inl t' ∨ settle f t = .inr t') : t'.toList = (f.fill t).toList := by
  by_cases hw : f.sibling = leaf
  · simp only [settle, hw, Sum.inl.injEq, reduceCtorEq, or_false] at h
    rw [h]
  obtain ⟨c, near, value, far, hbranch⟩ := exists_branch f.side hw
  by_cases hblack : near.color = .black ∧ far.color = .black
  · rw [settle_of_black hbranch hblack.1 hblack.2] at h
    simp only [Sum.inl.injEq, reduceCtorEq, or_false] at h
    rw [← h]
    exact toList_branch_congr _ _ _ _ rfl (toList_paint _ _)
  · rw [settle_of_red hbranch hblack] at h
    simp only [Sum.inr.injEq, reduceCtorEq, false_or] at h
    rw [← h, toList_borrow]

theorem toList_demote (f : Frame α) (t : RBTree α) (h : f.sibling ≠ leaf) :
    ((demote f).2.fill ((demote f).1.fill t)).toList = (f.fill t).toList := by
  obtain ⟨c, near, value, far, hbranch⟩ := exists_branch f.side h
  rw [demote_eq hbranch, Frame.fill, Frame.fill, Frame.fill, hbranch]
  exact toList_rotate ..

/-- Repairing the black height keeps the in-order sequence. -/
theorem toList_deleteFix (path : Path α) (t : RBTree α) :
    (deleteFix path t).toList = (Path.plug path t).toList := by
  fun_induction deleteFix path t with
  | case1 t => simp
  | case2 f rest t ht => exact Path.toList_plug_congr (f :: rest) (toList_paint _ _)
  | case3 f rest t ht hw t' hs =>
    rw [Path.plug_cons, Path.plug_cons, ← Path.toList_plug_congr rest
      (toList_demote f t (ne_leaf_of_color_red hw))]
    refine Path.toList_plug_congr rest (toList_branch_congr _ _ _ _ ?_ rfl)
    rw [toList_paint, toList_settle (.inl hs)]
  | case4 f rest t ht hw t' hs =>
    rw [toList_paint, Path.plug_cons, Path.plug_cons, ← Path.toList_plug_congr rest
      (toList_demote f t (ne_leaf_of_color_red hw))]
    exact Path.toList_plug_congr rest (toList_branch_congr _ _ _ _ (toList_settle (.inr hs)) rfl)
  | case5 f rest t ht hw t' hs ih =>
    rw [ih]
    exact Path.toList_plug_congr rest (toList_settle (.inl hs))
  | case6 f rest t ht hw t' hs =>
    rw [toList_paint]
    exact Path.toList_plug_congr rest (toList_settle (.inr hs))

theorem toList_repair (lost : Color) (gap : Path α) (t : RBTree α) :
    (repair lost gap t).toList = (Path.plug gap t).toList := by
  cases gap with
  | nil => exact toList_paint _ _
  | cons f rest =>
    cases lost with
    | red => rfl
    | black => exact toList_deleteFix _ _

theorem toList_deleteNode (path : Path α) (c : Color) (left right : RBTree α) (value : α) :
    (deleteNode path c left value right).toList =
      Path.before path ++ left.toList ++ right.toList ++ Path.after path := by
  rw [deleteNode, toList_repair, toList_splice]

/-! ## Balance -/

/-- What holds at each round of the climb: the focus is one black node short, and may be red. -/
structure DeleteInv (path : Path α) (t : RBTree α) : Prop where
  noRedRed : (t.paint .black).NoRedRed
  pathNoRedRed : Path.NoRedRed path
  height : ∃ n, t.BlackHeight n ∧ Path.BlackHeight path (n + 1)

theorem DeleteInv.of_splice {path : Path α} {t : RBTree α} (h : SpliceInv path t .black) :
    DeleteInv path t :=
  ⟨h.noRedRed.paint_black, h.pathNoRedRed, h.height⟩

theorem DeleteInv.sibling_ne_leaf {f : Frame α} {rest : Path α} {t : RBTree α}
    (h : DeleteInv (f :: rest) t) : f.sibling ≠ leaf := by
  obtain ⟨n, -, hsib, -⟩ := h.height
  exact hsib.ne_leaf

/-- A black sibling of the right height settles the deficit or raises it. -/
theorem valid_settle {f : Frame α} {t t' : RBTree α} {n : ℕ} (ht : t.BlackHeight n)
    (htno : t.NoRedRed) (hw : f.sibling.BlackHeight (n + 1))
    (hwno : f.sibling.NoRedRed) (hwc : f.sibling.color = .black) :
    (settle f t = .inl t' → t'.color = f.color ∧ t'.BlackHeight (n + f.color.weight) ∧
      (t'.paint .black).NoRedRed) ∧
    (settle f t = .inr t' → t'.color = f.color ∧ t'.BlackHeight (n + 1 + f.color.weight) ∧
      t'.NoRedRed) := by
  obtain ⟨c, near, value, far, hbranch⟩ := exists_branch f.side hw.ne_leaf
  rw [hbranch, color_branch] at hwc
  subst hwc
  have hsib := hbranch ▸ hw
  obtain ⟨hnear, hfar⟩ := (blackHeight_branch_black ..).1 hsib
  obtain ⟨-, hnearno, hfarno⟩ := (noRedRed_branch ..).1 (hbranch ▸ hwno)
  by_cases hblack : near.color = .black ∧ far.color = .black
  · rw [settle_of_black hbranch hblack.1 hblack.2]
    refine ⟨?_, by simp⟩
    rintro ⟨⟩
    rw [hbranch, paint_branch, paint_branch]
    refine ⟨color_branch .., (blackHeight_branch ..).2 ⟨n, rfl, ht, ?_⟩, ?_⟩
    · exact (blackHeight_branch_red ..).2 ⟨hnear, hfar⟩
    · exact (noRedRed_branch ..).2 ⟨by simp, htno, (noRedRed_branch ..).2
        ⟨fun _ ↦ hblack, hnearno, hfarno⟩⟩
  · rw [settle_of_red hbranch hblack]
    refine ⟨by simp, ?_⟩
    rintro ⟨⟩
    by_cases hfarc : far.color = .red
    · have hout : outward f.side f.sibling = branch f.side .black near value far := by
        rw [hbranch, outward_of_red hfarc]
      rw [borrow_eq hout]
      refine ⟨color_branch .., (blackHeight_branch ..).2 ⟨n + 1, rfl,
        (blackHeight_branch_black ..).2 ⟨ht, hnear⟩, hfar.paint_black_of_red hfarc⟩, ?_⟩
      exact (noRedRed_branch ..).2 ⟨fun _ ↦ ⟨color_branch .., color_paint_black _⟩,
        (noRedRed_branch ..).2 ⟨by simp, htno, hnearno⟩, hfarno.paint_black⟩
    · have hfarc' := Color.eq_black_of_ne_red hfarc
      have hnearc := Color.eq_red_of_ne_black fun h ↦ hblack ⟨h, hfarc'⟩
      obtain ⟨c, a, x, b, rfl⟩ := exists_branch f.side (ne_leaf_of_color_red hnearc)
      rw [color_branch] at hnearc
      subst hnearc
      obtain ⟨ha, hb⟩ := (blackHeight_branch_red ..).1 hnear
      obtain ⟨-, hano, hbno⟩ := (noRedRed_branch ..).1 hnearno
      have hout : outward f.side f.sibling =
          branch f.side .black a x (branch f.side .red b value far) := by
        rw [hbranch, outward_of_black hfarc']
      rw [borrow_eq hout, paint_branch]
      refine ⟨color_branch .., (blackHeight_branch ..).2 ⟨n + 1, rfl,
        (blackHeight_branch_black ..).2 ⟨ht, ha⟩, (blackHeight_branch_black ..).2 ⟨hb, hfar⟩⟩, ?_⟩
      exact (noRedRed_branch ..).2 ⟨fun _ ↦ ⟨color_branch .., color_branch ..⟩,
        (noRedRed_branch ..).2 ⟨by simp, htno, hano⟩,
        (noRedRed_branch ..).2 ⟨by simp, hbno, hfarno⟩⟩

/-- The two frames of a red sibling that was rotated up. -/
theorem valid_demote {f : Frame α} {n : ℕ} (hw : f.sibling.BlackHeight n)
    (hwno : f.sibling.NoRedRed) (hwc : f.sibling.color = .red) :
    (demote f).1.color = .red ∧ (demote f).2.color = .black ∧
      (demote f).1.sibling.color = .black ∧ (demote f).1.sibling.BlackHeight n ∧
      (demote f).1.sibling.NoRedRed ∧ (demote f).2.sibling.BlackHeight n ∧
      (demote f).2.sibling.NoRedRed := by
  obtain ⟨c, near, value, far, hbranch⟩ := exists_branch f.side (ne_leaf_of_color_red hwc)
  rw [hbranch, color_branch] at hwc
  subst hwc
  obtain ⟨hnear, hfar⟩ := (blackHeight_branch_red ..).1 (hbranch ▸ hw)
  obtain ⟨hblack, hnearno, hfarno⟩ := (noRedRed_branch ..).1 (hbranch ▸ hwno)
  rw [demote_eq hbranch]
  exact ⟨rfl, rfl, (hblack rfl).1, hnear, hnearno, hfar, hfarno⟩

theorem Valid.paint {t : RBTree α} (h : Valid t) : Valid (t.paint .black) := by
  rwa [paint_eq_self h.root]

/-- A black sibling: the deficit is gone or moves to a path that is still balanced. -/
theorem DeleteInv.settle {f : Frame α} {rest : Path α} {t : RBTree α}
    (h : DeleteInv (f :: rest) t) (ht : t.color = .black) (hw : f.sibling.color = .black) :
    (∀ t', settle f t = .inl t' → DeleteInv rest t' ∧ t'.color = f.color) ∧
      ∀ t', settle f t = .inr t' → Valid (Path.plug rest t') := by
  obtain ⟨htno, ⟨hsibno, hred, hrestno⟩, n, htn, hsibn, hrestn⟩ := h
  rw [paint_eq_self ht] at htno
  refine ⟨fun t' hs ↦ ?_, fun t' hs ↦ ?_⟩
  · obtain ⟨hc, hn, hno⟩ := (valid_settle htn htno hsibn hsibno hw).1 hs
    exact ⟨⟨hno, hrestno, _, hn, by rwa [Nat.add_right_comm]⟩, hc⟩
  · obtain ⟨hc, hn, hno⟩ := (valid_settle htn htno hsibn hsibno hw).2 hs
    exact Path.valid_plug rest hrestn hrestno hn hno fun h ↦ (hred (hc ▸ h)).2

/-- A red sibling: after the rotation the same deficit has a black sibling and a red parent. -/
theorem DeleteInv.demote {f : Frame α} {rest : Path α} {t : RBTree α}
    (h : DeleteInv (f :: rest) t) (hw : f.sibling.color = .red) :
    DeleteInv ((demote f).1 :: (demote f).2 :: rest) t ∧
      (RedBlack.demote f).1.color = .red ∧ (RedBlack.demote f).1.sibling.color = .black := by
  obtain ⟨htno, ⟨hsibno, hred, hrestno⟩, n, htn, hsibn, hrestn⟩ := h
  obtain ⟨hc1, hc2, hs1, hb1, hn1, hb2, hn2⟩ := valid_demote hsibn hsibno hw
  have hfc : f.color = .black := Color.eq_black_of_ne_red fun hc ↦ by simp [(hred hc).1] at hw
  rw [hfc] at hrestn
  refine ⟨⟨htno, ⟨hn1, fun _ ↦ ⟨hs1, hc2⟩, hn2, ?_, hrestno⟩, n, htn, hb1, ?_, ?_⟩, hc1, hs1⟩
  · simp [hc2]
  · rw [hc1]; exact hb2
  · rw [hc1, hc2]; exact hrestn

/-- A red focus that is short is blackened. -/
theorem DeleteInv.valid_paint {path : Path α} {t : RBTree α} (h : DeleteInv path t)
    (hend : path = [] ∨ t.color = .red) : Valid (Path.plug path (t.paint .black)) := by
  obtain ⟨htno, hpathno, n, htn, hpath⟩ := h
  rcases hend with rfl | hred
  · exact ⟨htn.exists_paint_black, htno, color_paint_black t⟩
  · exact Path.valid_plug path hpath hpathno (htn.paint_black_of_red hred) htno (by simp)

/-- **Deletion keeps the balance.** -/
theorem valid_deleteFix {path : Path α} {t : RBTree α} (h : DeleteInv path t) :
    Valid (deleteFix path t) := by
  fun_induction deleteFix path t with
  | case1 t => exact h.valid_paint (.inl rfl)
  | case2 f rest t ht => exact h.valid_paint (.inr ht)
  | case3 f rest t ht hw t' hs =>
    obtain ⟨hinv, hc, hsib⟩ := h.demote hw
    obtain ⟨hinv', hc'⟩ := (hinv.settle (Color.eq_black_of_ne_red ht) hsib).1 t' hs
    exact hinv'.valid_paint (.inr (hc'.trans hc))
  | case4 f rest t ht hw t' hs =>
    obtain ⟨hinv, -, hsib⟩ := h.demote hw
    exact ((hinv.settle (Color.eq_black_of_ne_red ht) hsib).2 t' hs).paint
  | case5 f rest t ht hw t' hs ih =>
    exact ih ((h.settle (Color.eq_black_of_ne_red ht) (Color.eq_black_of_ne_red hw)).1 t' hs).1
  | case6 f rest t ht hw t' hs =>
    exact ((h.settle (Color.eq_black_of_ne_red ht)
      (Color.eq_black_of_ne_red hw)).2 t' hs).paint

theorem valid_repair {gap : Path α} {t : RBTree α} {lost : Color} (h : SpliceInv gap t lost) :
    Valid (repair lost gap t) := by
  cases gap with
  | nil =>
    obtain ⟨htno, -, ⟨m, htm, -⟩, -⟩ := h
    exact ⟨htm.exists_paint_black, htno.paint_black, color_paint_black t⟩
  | cons f rest =>
    cases lost with
    | red =>
      obtain ⟨htno, hpathno, ⟨m, htm, hpath⟩, hlost⟩ := h
      exact Path.valid_plug (f :: rest) hpath hpathno htm htno fun hc ↦ by simp [hlost rfl] at hc
    | black => exact valid_deleteFix (.of_splice h)

theorem valid_deleteNode {path : Path α} {c : Color} {left right : RBTree α} {value : α}
    (h : Valid (Path.plug path (node c left value right))) :
    Valid (deleteNode path c left value right) :=
  valid_repair (spliceInv_splice h)

end Zbaselib.RedBlack
