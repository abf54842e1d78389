import Zbaselib.Lib.RedBlack.Tree

/-!
# Insertion into a red-black tree

`insertPath` walks down to the leaf where a value belongs.  The new node is red,
and `insertFix` climbs the path while the red node has a red parent: a red uncle
pushes the conflict two levels up, a black uncle ends it with one or two
rotations.
-/

namespace Zbaselib.RedBlack

variable {α : Type}

open Zbaselib.RedBlack.RBTree

/-- The path to the leaf that is reached by going left exactly at the values in `goLeft`. -/
def insertPath (goLeft : α → Bool) : RBTree α → Path α → Path α
  | leaf, path => path
  | node c left value right, path =>
      if goLeft value then insertPath goLeft left (⟨.left, c, value, right⟩ :: path)
      else insertPath goLeft right (⟨.right, c, value, left⟩ :: path)

/-- Bring the focus to the outer side of its grandparent: the new parent frame and focus. -/
def straighten (p g : Frame α) (t : RBTree α) : Frame α × RBTree α :=
  match t with
  | leaf => (p, t)
  | node c left value right =>
      if p.side = g.side then (p, t)
      else (⟨g.side, c, value, (node c left value right).child g.side.other⟩,
        branch g.side p.color p.sibling p.value ((node c left value right).child g.side))

/-- Rotate the grandparent below the parent. -/
def raise (p g : Frame α) (t : RBTree α) : RBTree α :=
  branch g.side .black t p.value (branch g.side .red p.sibling g.value g.sibling)

/-- The grandparent after its red child and its red sibling were blackened. -/
def recolor (p g : Frame α) (t : RBTree α) : RBTree α :=
  branch g.side .red (branch p.side .black t p.value p.sibling) g.value (g.sibling.paint .black)

/-- Climb from a red focus until it has a black parent or is the root. -/
def insertFix : Path α → RBTree α → RBTree α
  | p :: g :: rest, t =>
      if p.color = .black then Path.plug (p :: g :: rest) t
      else if g.sibling.color = .red then insertFix rest (recolor p g t)
      else
        let (p', t') := straighten p g t
        Path.plug rest (raise p' g t')
  | path, t => Path.plug path t

/-! ## In-order sequence -/

@[simp]
theorem plug_insertPath (goLeft : α → Bool) (t : RBTree α) (path : Path α) :
    Path.plug (insertPath goLeft t path) leaf = Path.plug path t := by
  induction t generalizing path with
  | leaf => rfl
  | node c left value right ihl ihr =>
    rw [insertPath]
    split
    · exact ihl _
    · exact ihr _

/-- In a sequence that `goLeft` cuts into two parts, the leaf lies at the cut. -/
theorem split_insertPath (goLeft : α → Bool) (t : RBTree α) (path : Path α)
    (hmono : t.toList.Pairwise fun a b ↦ goLeft a → goLeft b) :
    Path.before (insertPath goLeft t path) =
        Path.before path ++ t.toList.filter (fun a ↦ !goLeft a) ∧
      Path.after (insertPath goLeft t path) = t.toList.filter goLeft ++ Path.after path := by
  induction t generalizing path with
  | leaf => simp [insertPath]
  | node c left value right ihl ihr =>
    rw [toList_node, List.pairwise_append, List.pairwise_cons] at hmono
    obtain ⟨hl, ⟨hvr, hr⟩, hlr⟩ := hmono
    rw [insertPath]
    split
    case isTrue hv =>
      have hright : ∀ a ∈ right.toList, goLeft a = true := fun a ha ↦ hvr a ha hv
      obtain ⟨hbefore, hafter⟩ := ihl (⟨.left, c, value, right⟩ :: path) hl
      simp [hbefore, hafter, Path.before, Path.after, Frame.before, Frame.after, hv,
        List.filter_eq_self.2 hright, List.filter_eq_nil_iff.2 (fun a ha ↦ by simp [hright a ha] :
          ∀ a ∈ right.toList, ¬(!goLeft a) = true)]
    case isFalse hv =>
      have hleft : ∀ a ∈ left.toList, goLeft a = false := by
        intro a ha
        by_contra hga
        exact hv (hlr a ha value (by simp) (by simpa using hga))
      obtain ⟨hbefore, hafter⟩ := ihr (⟨.right, c, value, left⟩ :: path) hr
      simp [hbefore, hafter, Path.before, Path.after, Frame.before, Frame.after, hv,
        List.filter_eq_nil_iff.2 (fun a ha ↦ by simp [hleft a ha] :
          ∀ a ∈ left.toList, ¬goLeft a = true),
        List.filter_eq_self.2 (fun a ha ↦ by simp [hleft a ha] :
          ∀ a ∈ left.toList, (!goLeft a) = true)]

theorem straighten_of_eq {p g : Frame α} (t : RBTree α) (h : p.side = g.side) :
    straighten p g t = (p, t) := by
  cases t <;> simp [straighten, h]

theorem straighten_branch {p g : Frame α} (c : Color) (near far : RBTree α) (value : α)
    (h : p.side ≠ g.side) :
    straighten p g (branch g.side c near value far) =
      (⟨g.side, c, value, far⟩, branch g.side p.color p.sibling p.value near) := by
  rcases g with ⟨_ | _, _, _, _⟩ <;> simp [straighten, branch, h, child, Side.other]

/-- The rotations of the black-uncle case keep the in-order sequence. -/
theorem toList_raise_straighten (p g : Frame α) {t : RBTree α} (ht : t ≠ leaf) :
    (raise (straighten p g t).1 g (straighten p g t).2).toList =
      (g.fill (p.fill t)).toList := by
  by_cases h : p.side = g.side
  · rw [straighten_of_eq t h, Frame.fill, Frame.fill, h]
    exact (toList_rotate ..).symm
  · obtain ⟨c, near, value, far, rfl⟩ := exists_branch g.side ht
    rw [straighten_branch _ _ _ _ h, Frame.fill, Frame.fill, Side.eq_other_of_ne h, branch_other]
    calc
      _ = (branch g.side .black (branch g.side .red
            (branch g.side p.color p.sibling p.value near) value far)
              g.value g.sibling).toList := (toList_rotate ..).symm
      _ = _ := toList_branch_congr _ _ _ _ (toList_rotate ..) rfl

theorem toList_recolor (p g : Frame α) (t : RBTree α) :
    (recolor p g t).toList = (g.fill (p.fill t)).toList := by
  refine toList_branch_congr _ _ _ _ ?_ (toList_paint _ _)
  exact toList_branch_congr _ _ _ _ rfl rfl

theorem recolor_ne_leaf (p g : Frame α) (t : RBTree α) : recolor p g t ≠ leaf :=
  branch_ne_leaf _ _ _ _ _

/-- Repairing the colours keeps the in-order sequence. -/
theorem toList_insertFix (path : Path α) {t : RBTree α} (ht : t ≠ leaf) :
    (insertFix path t).toList = (Path.plug path t).toList := by
  fun_induction insertFix path t with
  | case1 => rfl
  | case2 p g rest t hp hg ih =>
    rw [ih (recolor_ne_leaf p g t)]
    exact Path.toList_plug_congr rest (toList_recolor p g t)
  | case3 p g rest t hp hg p' t' hst =>
    have hraise := toList_raise_straighten p g ht
    rw [hst] at hraise
    exact Path.toList_plug_congr rest hraise
  | case4 => rfl

/-! ## Balance -/

/-- What holds when the climb reaches a path and a focus: only the edge above the red focus
may join two red nodes. -/
structure InsertInv (path : Path α) (t : RBTree α) : Prop where
  red : t.color = .red
  noRedRed : t.NoRedRed
  pathNoRedRed : Path.NoRedRed path
  height : ∃ n, t.BlackHeight n ∧ Path.BlackHeight path n

/-- A red uncle moves the conflict up. -/
theorem InsertInv.recolor {p g : Frame α} {rest : Path α} {t : RBTree α}
    (h : InsertInv (p :: g :: rest) t) (hp : p.color = .red) (hg : g.sibling.color = .red) :
    InsertInv rest (recolor p g t) := by
  obtain ⟨hred, ht, ⟨hpsib, hpred, hgsib, -, hrest⟩, n, htn, hpn, hgn, hrestn⟩ := h
  have hgc : g.color = .black := (hpred hp).2
  rw [hp] at hgn hrestn
  rw [hgc] at hrestn
  refine ⟨color_branch .., ?_, hrest, n + 1, ?_, hrestn⟩
  · exact (noRedRed_branch ..).2 ⟨fun _ ↦ ⟨color_branch .., color_paint_black _⟩,
      (noRedRed_branch ..).2 ⟨by simp, ht, hpsib⟩, hgsib.paint_black⟩
  · refine (blackHeight_branch_red ..).2 ⟨(blackHeight_branch_black ..).2 ⟨htn, hpn⟩, ?_⟩
    exact hgn.paint_black_of_red hg

/-- The rotated grandparent is balanced and its root is black. -/
theorem InsertInv.valid_raise {p g : Frame α} {rest : Path α} {t : RBTree α}
    (h : InsertInv (p :: g :: rest) t) (hp : p.color = .red) (hg : g.sibling.color = .black) :
    ∃ n, (raise (straighten p g t).1 g (straighten p g t).2).BlackHeight n ∧
      Path.BlackHeight rest n ∧
      (raise (straighten p g t).1 g (straighten p g t).2).NoRedRed ∧ Path.NoRedRed rest := by
  obtain ⟨hred, ht, ⟨hpsib, hpred, hgsib, -, hrest⟩, n, htn, hpn, hgn, hrestn⟩ := h
  have hpsibc : p.sibling.color = .black := (hpred hp).1
  have hgc : g.color = .black := (hpred hp).2
  rw [hp] at hgn hrestn
  rw [hgc] at hrestn
  refine ⟨n + 1, ?_, hrestn, ?_, hrest⟩
  all_goals by_cases hside : p.side = g.side
  · rw [straighten_of_eq t hside]
    exact (blackHeight_branch_black ..).2 ⟨htn, (blackHeight_branch_red ..).2 ⟨hpn, hgn⟩⟩
  · obtain ⟨c, near, value, far, rfl⟩ := exists_branch g.side (ne_leaf_of_color_red hred)
    rw [color_branch] at hred
    rw [hred, blackHeight_branch_red] at htn
    rw [straighten_branch _ _ _ _ hside, hp]
    exact (blackHeight_branch_black ..).2 ⟨(blackHeight_branch_red ..).2 ⟨hpn, htn.1⟩,
      (blackHeight_branch_red ..).2 ⟨htn.2, hgn⟩⟩
  · rw [straighten_of_eq t hside]
    exact (noRedRed_branch ..).2 ⟨by simp, ht, (noRedRed_branch ..).2
      ⟨fun _ ↦ ⟨hpsibc, hg⟩, hpsib, hgsib⟩⟩
  · obtain ⟨c, near, value, far, rfl⟩ := exists_branch g.side (ne_leaf_of_color_red hred)
    rw [color_branch] at hred
    obtain ⟨hblack, hnear, hfar⟩ := (noRedRed_branch ..).1 ht
    rw [straighten_branch _ _ _ _ hside, hp, hred]
    exact (noRedRed_branch ..).2 ⟨by simp,
      (noRedRed_branch ..).2 ⟨fun _ ↦ ⟨hpsibc, (hblack hred).1⟩, hpsib, hnear⟩,
      (noRedRed_branch ..).2 ⟨fun _ ↦ ⟨(hblack hred).2, hg⟩, hfar, hgsib⟩⟩

/-- **Insertion keeps the balance**, up to the colour of the root. -/
theorem valid_insertFix {path : Path α} {t : RBTree α} (h : InsertInv path t) :
    (∃ n, ((insertFix path t).paint .black).BlackHeight n) ∧
      ((insertFix path t).paint .black).NoRedRed := by
  fun_induction insertFix path t with
  | case1 p g rest t hp =>
    obtain ⟨hred, ht, hpath, n, htn, hpathn⟩ := h
    obtain ⟨⟨m, hm⟩, hno, -⟩ := Path.valid_plug (p :: g :: rest) hpathn hpath htn ht fun _ ↦ hp
    exact ⟨hm.exists_paint_black, hno.paint_black⟩
  | case2 p g rest t hp hg ih => exact ih (h.recolor (Color.eq_red_of_ne_black hp) hg)
  | case3 p g rest t hp hg p' t' hst =>
    have hvalid := h.valid_raise (Color.eq_red_of_ne_black hp) (Color.eq_black_of_ne_red hg)
    rw [hst] at hvalid
    obtain ⟨n, htn, hrestn, ht, hrest⟩ := hvalid
    obtain ⟨⟨m, hm⟩, hno, -⟩ := Path.valid_plug rest hrestn hrest htn ht (by simp [raise])
    exact ⟨hm.exists_paint_black, hno.paint_black⟩
  | case4 path t hshort =>
    obtain ⟨hred, ht, hpath, n, htn, hpathn⟩ := h
    match path, hshort with
    | [], _ => exact ⟨htn.exists_paint_black, ht.paint_black⟩
    | [p], _ =>
      have hp : p.color = .black :=
        Color.eq_black_of_ne_red fun hp ↦ by simpa [Path.outerColor] using (hpath.2.1 hp).2
      obtain ⟨⟨m, hm⟩, hno, -⟩ := Path.valid_plug [p] hpathn hpath htn ht fun _ ↦ hp
      exact ⟨hm.exists_paint_black, hno.paint_black⟩
    | p :: g :: rest, hshort => exact absurd rfl (hshort p g rest)

/-! ## The whole insertion -/

def insertTree (goLeft : α → Bool) (t : RBTree α) (value : α) : RBTree α :=
  match t with
  | leaf => node .black leaf value leaf
  | t => (insertFix (insertPath goLeft t []) (node .red leaf value leaf)).paint .black

theorem insertTree_of_ne_leaf {goLeft : α → Bool} {t : RBTree α} {value : α} (ht : t ≠ leaf) :
    insertTree goLeft t value =
      (insertFix (insertPath goLeft t []) (node .red leaf value leaf)).paint .black := by
  cases t with
  | leaf => exact absurd rfl ht
  | node => rfl

/-- The value goes behind everything that is not to its right. -/
theorem toList_insertTree {goLeft : α → Bool} {t : RBTree α} {value : α}
    (hmono : t.toList.Pairwise fun a b ↦ goLeft a → goLeft b) :
    (insertTree goLeft t value).toList =
      t.toList.filter (fun a ↦ !goLeft a) ++ value :: t.toList.filter goLeft := by
  by_cases ht : t = leaf
  · subst ht; rfl
  obtain ⟨hbefore, hafter⟩ := split_insertPath goLeft t [] hmono
  rw [insertTree_of_ne_leaf ht, toList_paint, toList_insertFix _ (by simp), Path.toList_plug,
    hbefore, hafter]
  simp [Path.before, Path.after]

/-- A monotone predicate splits a list in two. -/
theorem filter_append_filter {l : List α} {p : α → Bool} (h : l.Pairwise fun a b ↦ p a → p b) :
    l.filter (fun a ↦ !p a) ++ l.filter p = l := by
  induction l with
  | nil => rfl
  | cons a l ih =>
    obtain ⟨ha, hl⟩ := List.pairwise_cons.1 h
    by_cases hp : p a = true
    · have hall : ∀ b ∈ l, p b = true := fun b hb ↦ ha b hb hp
      have hnone : l.filter (fun b ↦ !p b) = [] := List.filter_eq_nil_iff.2 (by simpa using hall)
      simp [hp, hnone, List.filter_eq_self.2 hall]
    · simp [hp, ih hl]

theorem perm_insertTree (goLeft : α → Bool) (t : RBTree α) (value : α) :
    (insertTree goLeft t value).toList.Perm (value :: t.toList) := by
  by_cases ht : t = leaf
  · subst ht
    exact List.Perm.refl _
  have hhole := congrArg toList (plug_insertPath goLeft t [])
  simp only [Path.toList_plug, Path.plug_nil, toList_leaf, List.append_nil] at hhole
  rw [insertTree_of_ne_leaf ht, toList_paint, toList_insertFix _ (by simp), Path.toList_plug,
    ← hhole]
  simp only [toList_node, toList_leaf, List.nil_append, List.append_assoc, List.singleton_append]
  exact List.perm_middle

theorem length_insertTree (goLeft : α → Bool) (t : RBTree α) (value : α) :
    (insertTree goLeft t value).toList.length = t.toList.length + 1 :=
  (perm_insertTree goLeft t value).length_eq

/-- A new red leaf starts the climb. -/
theorem insertInv_insertPath {goLeft : α → Bool} {t : RBTree α} {value : α} (h : Valid t) :
    InsertInv (insertPath goLeft t []) (node .red leaf value leaf) := by
  rw [← Path.plug_nil t, ← plug_insertPath goLeft t []] at h
  obtain ⟨k, hk, hpath, -, hpathno, -⟩ := Path.valid_of_plug _ h
  rw [blackHeight_leaf] at hk
  subst hk
  exact ⟨rfl, ⟨by simp, trivial, trivial⟩, hpathno, 0, ⟨0, rfl, rfl, rfl⟩, hpath⟩

theorem valid_insertTree {goLeft : α → Bool} {t : RBTree α} {value : α} (h : Valid t) :
    Valid (insertTree goLeft t value) := by
  by_cases ht : t = leaf
  · subst ht
    exact ⟨⟨1, 0, rfl, rfl, rfl⟩, ⟨by simp, trivial, trivial⟩, rfl⟩
  have hinv : InsertInv (insertPath goLeft t []) (node .red leaf value leaf) :=
    insertInv_insertPath h
  obtain ⟨hheight, hno⟩ := valid_insertFix hinv
  rw [insertTree_of_ne_leaf ht]
  exact ⟨hheight, hno, color_paint_black _⟩

end Zbaselib.RedBlack
