import Mathlib

/-!
# Red-black trees and their zippers

A tree carries colours and values.  A zipper is the path from a subtree up to
the root, innermost frame first; the left and the right case of an algorithm
are one case read from either side.  The balance conditions are stated for a
tree and for a path separately, and `plug` puts the two together.
-/

namespace Zbaselib.RedBlack

inductive Color
  | black
  | red
  deriving DecidableEq, Repr

/-- What a node adds to the black height. -/
def Color.weight : Color → ℕ
  | black => 1
  | red => 0

theorem Color.eq_black_of_ne_red {c : Color} (h : c ≠ .red) : c = .black := by
  cases c <;> simp_all

theorem Color.eq_red_of_ne_black {c : Color} (h : c ≠ .black) : c = .red := by
  cases c <;> simp_all

inductive Side
  | left
  | right
  deriving DecidableEq, Repr

namespace Side

def other : Side → Side
  | left => right
  | right => left

@[simp]
theorem other_other (side : Side) : side.other.other = side := by cases side <;> rfl

@[simp]
theorem other_ne (side : Side) : side.other ≠ side := by cases side <;> simp [other]

@[simp]
theorem ne_other (side : Side) : side ≠ side.other := by cases side <;> simp [other]

theorem eq_other_of_ne {side side' : Side} (h : side' ≠ side) : side' = side.other := by
  cases side <;> cases side' <;> simp_all [other]

end Side

inductive RBTree (α : Type)
  | leaf
  | node (color : Color) (left : RBTree α) (value : α) (right : RBTree α)
  deriving DecidableEq, Repr

variable {α : Type}

namespace RBTree

/-- The node whose child on the given side is `near`. -/
def branch (side : Side) (color : Color) (near : RBTree α) (value : α) (far : RBTree α) :
    RBTree α :=
  match side with
  | .left => node color near value far
  | .right => node color far value near

def toList : RBTree α → List α
  | leaf => []
  | node _ left value right => left.toList ++ value :: right.toList

/-- Leaves count as black. -/
def color : RBTree α → Color
  | leaf => .black
  | node c _ _ _ => c

def paint (c : Color) : RBTree α → RBTree α
  | leaf => leaf
  | node _ left value right => node c left value right

def child (side : Side) : RBTree α → RBTree α
  | leaf => leaf
  | node _ left _ right =>
      match side with
      | .left => left
      | .right => right

/-- Every path to a leaf has the same number of black nodes. -/
def BlackHeight : RBTree α → ℕ → Prop
  | leaf, n => n = 0
  | node c left _ right, n => ∃ m, n = m + c.weight ∧ left.BlackHeight m ∧ right.BlackHeight m

/-- No red node has a red child. -/
def NoRedRed : RBTree α → Prop
  | leaf => True
  | node c left _ right =>
      (c = .red → left.color = .black ∧ right.color = .black) ∧ left.NoRedRed ∧ right.NoRedRed

@[simp]
theorem toList_leaf : (leaf : RBTree α).toList = [] := rfl

@[simp]
theorem toList_node (c : Color) (left right : RBTree α) (value : α) :
    (node c left value right).toList = left.toList ++ value :: right.toList := rfl

@[simp]
theorem color_leaf : (leaf : RBTree α).color = .black := rfl

@[simp]
theorem color_node (c : Color) (left right : RBTree α) (value : α) :
    (node c left value right).color = c := rfl

@[simp]
theorem paint_leaf (c : Color) : (leaf : RBTree α).paint c = leaf := rfl

@[simp]
theorem paint_node (c c' : Color) (left right : RBTree α) (value : α) :
    (node c left value right).paint c' = node c' left value right := rfl

@[simp]
theorem toList_paint (c : Color) (t : RBTree α) : (t.paint c).toList = t.toList := by
  cases t <;> rfl

theorem paint_eq_self {t : RBTree α} {c : Color} (h : t.color = c) : t.paint c = t := by
  subst h
  cases t <;> rfl

@[simp]
theorem paint_paint (t : RBTree α) (c c' : Color) : (t.paint c).paint c' = t.paint c' := by
  cases t <;> rfl

@[simp]
theorem color_paint_black (t : RBTree α) : (t.paint .black).color = .black := by
  cases t <;> rfl

/-! ## Branches -/

@[simp]
theorem color_branch (side : Side) (c : Color) (near far : RBTree α) (value : α) :
    (branch side c near value far).color = c := by
  cases side <;> rfl

@[simp]
theorem paint_branch (side : Side) (c c' : Color) (near far : RBTree α) (value : α) :
    (branch side c near value far).paint c' = branch side c' near value far := by
  cases side <;> rfl

@[simp]
theorem child_branch (side : Side) (c : Color) (near far : RBTree α) (value : α) :
    (branch side c near value far).child side = near := by
  cases side <;> rfl

@[simp]
theorem child_other_branch (side : Side) (c : Color) (near far : RBTree α) (value : α) :
    (branch side c near value far).child side.other = far := by
  cases side <;> rfl

theorem branch_other (side : Side) (c : Color) (near far : RBTree α) (value : α) :
    branch side.other c near value far = branch side c far value near := by
  cases side <;> rfl

theorem branch_ne_leaf (side : Side) (c : Color) (near far : RBTree α) (value : α) :
    branch side c near value far ≠ leaf := by
  cases side <;> simp [branch]

/-- Every node is a branch, seen from either side. -/
theorem exists_branch (side : Side) {t : RBTree α} (h : t ≠ leaf) :
    ∃ c near value far, t = branch side c near value far := by
  match side, t with
  | _, leaf => exact absurd rfl h
  | .left, node c left value right => exact ⟨c, left, value, right, rfl⟩
  | .right, node c left value right => exact ⟨c, right, value, left, rfl⟩

theorem ne_leaf_of_color_red {t : RBTree α} (h : t.color = .red) : t ≠ leaf := by
  rintro rfl
  simp at h

/-- A rotation keeps the in-order sequence. -/
theorem toList_rotate (side : Side) (c₁ c₂ c₃ c₄ : Color) (a b d : RBTree α) (x y : α) :
    (branch side c₁ (branch side c₂ a x b) y d).toList =
      (branch side c₃ a x (branch side c₄ b y d)).toList := by
  cases side <;> simp [branch]

/-- The in-order sequence of a branch depends on the sequences of its children only. -/
theorem toList_branch_congr (side : Side) (c c' : Color) {a a' b b' : RBTree α} (x : α)
    (ha : a.toList = a'.toList) (hb : b.toList = b'.toList) :
    (branch side c a x b).toList = (branch side c' a' x b').toList := by
  cases side <;> simp [branch, ha, hb]

@[simp]
theorem blackHeight_leaf (n : ℕ) : (leaf : RBTree α).BlackHeight n ↔ n = 0 := Iff.rfl

theorem blackHeight_branch (side : Side) (c : Color) (near far : RBTree α) (value : α) (n : ℕ) :
    (branch side c near value far).BlackHeight n ↔
      ∃ m, n = m + c.weight ∧ near.BlackHeight m ∧ far.BlackHeight m := by
  cases side with
  | left => rfl
  | right => simp only [branch, BlackHeight, and_comm (a := far.BlackHeight _)]

@[simp]
theorem blackHeight_branch_red (side : Side) (near far : RBTree α) (value : α) (n : ℕ) :
    (branch side .red near value far).BlackHeight n ↔ near.BlackHeight n ∧ far.BlackHeight n := by
  simp [blackHeight_branch, Color.weight]

@[simp]
theorem blackHeight_branch_black (side : Side) (near far : RBTree α) (value : α) (n : ℕ) :
    (branch side .black near value far).BlackHeight (n + 1) ↔
      near.BlackHeight n ∧ far.BlackHeight n := by
  simp [blackHeight_branch, Color.weight]

@[simp]
theorem noRedRed_leaf : (leaf : RBTree α).NoRedRed := trivial

@[simp]
theorem noRedRed_branch (side : Side) (c : Color) (near far : RBTree α) (value : α) :
    (branch side c near value far).NoRedRed ↔
      (c = .red → near.color = .black ∧ far.color = .black) ∧ near.NoRedRed ∧ far.NoRedRed := by
  cases side with
  | left => rfl
  | right =>
    simp only [branch, NoRedRed, and_comm (a := far.color = _), and_comm (a := far.NoRedRed)]

theorem NoRedRed.paint_black {t : RBTree α} (h : t.NoRedRed) : (t.paint .black).NoRedRed := by
  cases t with
  | leaf => trivial
  | node c left value right => exact ⟨by simp, h.2⟩

/-- Blackening the root raises the black height by what the root did not count. -/
theorem BlackHeight.paint_black_of_red {t : RBTree α} {n : ℕ} (h : t.BlackHeight n)
    (hred : t.color = .red) : (t.paint .black).BlackHeight (n + 1) := by
  cases t with
  | leaf => simp at hred
  | node c left value right =>
    rw [color_node] at hred
    subst hred
    obtain ⟨m, hm, hleft, hright⟩ := h
    exact ⟨m, by simpa [Color.weight] using hm, hleft, hright⟩

theorem BlackHeight.exists_paint_black {t : RBTree α} {n : ℕ} (h : t.BlackHeight n) :
    ∃ m, (t.paint .black).BlackHeight m := by
  cases hc : t.color with
  | red => exact ⟨_, h.paint_black_of_red hc⟩
  | black => exact ⟨n, by rwa [paint_eq_self hc]⟩

/-- A tree that is missing a black node has a sibling that is not a leaf. -/
theorem BlackHeight.ne_leaf {t : RBTree α} {n : ℕ} (h : t.BlackHeight (n + 1)) : t ≠ leaf := by
  rintro rfl
  simp at h

end RBTree

/-- A balanced tree with a black root. -/
structure Valid (t : RBTree α) : Prop where
  height : ∃ n, t.BlackHeight n
  noRedRed : t.NoRedRed
  root : t.color = .black

/-! ## Zippers -/

/-- One step of a path: the hole is the child of `value` on `side`. -/
structure Frame (α : Type) where
  side : Side
  color : Color
  value : α
  sibling : RBTree α

/-- A path from a hole up to the root. -/
abbrev Path (α : Type) := List (Frame α)

namespace Frame

def fill (f : Frame α) (t : RBTree α) : RBTree α := t.branch f.side f.color f.value f.sibling

def before (f : Frame α) : List α :=
  match f.side with
  | .left => []
  | .right => f.sibling.toList ++ [f.value]

def after (f : Frame α) : List α :=
  match f.side with
  | .left => f.value :: f.sibling.toList
  | .right => []

theorem toList_fill (f : Frame α) (t : RBTree α) :
    (f.fill t).toList = f.before ++ t.toList ++ f.after := by
  rcases f with ⟨side, color, value, sibling⟩
  cases side <;> simp [fill, before, after, RBTree.branch]

end Frame

namespace Path

def plug : Path α → RBTree α → RBTree α
  | [], t => t
  | f :: rest, t => plug rest (f.fill t)

/-- The values left of the hole. -/
def before : Path α → List α
  | [] => []
  | f :: rest => before rest ++ f.before

/-- The values right of the hole. -/
def after : Path α → List α
  | [] => []
  | f :: rest => f.after ++ after rest

/-- The colour of the node above the hole.  What is above the root counts as red, so that a
path with no red-red edge has a black root. -/
def outerColor : Path α → Color
  | [] => .red
  | f :: _ => f.color

/-- Every leaf off the path is at the right black depth for a hole of black height `n`. -/
def BlackHeight : Path α → ℕ → Prop
  | [], _ => True
  | f :: rest, n => f.sibling.BlackHeight n ∧ BlackHeight rest (n + f.color.weight)

/-- No red-red edge off the hole, and a black root. -/
def NoRedRed : Path α → Prop
  | [] => True
  | f :: rest =>
      f.sibling.NoRedRed ∧
        (f.color = .red → f.sibling.color = .black ∧ outerColor rest = .black) ∧ NoRedRed rest

@[simp]
theorem plug_nil (t : RBTree α) : plug [] t = t := rfl

@[simp]
theorem plug_cons (f : Frame α) (rest : Path α) (t : RBTree α) :
    plug (f :: rest) t = plug rest (f.fill t) := rfl

theorem plug_append (inner outer : Path α) (t : RBTree α) :
    plug (inner ++ outer) t = plug outer (plug inner t) := by
  induction inner generalizing t with
  | nil => rfl
  | cons f rest ih => exact ih _

theorem toList_plug (path : Path α) (t : RBTree α) :
    (plug path t).toList = before path ++ t.toList ++ after path := by
  induction path generalizing t with
  | nil => simp [before, after]
  | cons f rest ih => simp [ih, before, after, Frame.toList_fill]

/-- Nothing is left of a hole that was reached by going left. -/
theorem before_of_left {path : Path α} (h : ∀ f ∈ path, f.side = .left) : before path = [] := by
  induction path with
  | nil => rfl
  | cons f rest ih =>
    obtain ⟨hf, hrest⟩ := List.forall_mem_cons.1 h
    simp [before, Frame.before, hf, ih hrest]

theorem after_of_right {path : Path α} (h : ∀ f ∈ path, f.side = .right) : after path = [] := by
  induction path with
  | nil => rfl
  | cons f rest ih =>
    obtain ⟨hf, hrest⟩ := List.forall_mem_cons.1 h
    simp [after, Frame.after, hf, ih hrest]

theorem toList_plug_congr (path : Path α) {t t' : RBTree α} (h : t.toList = t'.toList) :
    (plug path t).toList = (plug path t').toList := by
  simp [toList_plug, h]

theorem plug_ne_leaf (path : Path α) {t : RBTree α} (h : t ≠ .leaf) : plug path t ≠ .leaf := by
  induction path generalizing t with
  | nil => exact h
  | cons f rest ih => exact ih (RBTree.branch_ne_leaf _ _ _ _ _)

/-- A tree of the height and colour that the path expects completes it. -/
theorem valid_plug (path : Path α) {t : RBTree α} {n : ℕ} (hpath : BlackHeight path n)
    (hno : NoRedRed path) (ht : t.BlackHeight n) (htno : t.NoRedRed)
    (hedge : t.color = .red → outerColor path = .black) : Valid (plug path t) := by
  induction path generalizing t n with
  | nil =>
    refine ⟨⟨n, ht⟩, htno, ?_⟩
    by_contra hc
    exact absurd (hedge (Color.eq_red_of_ne_black hc)) (by simp [outerColor])
  | cons f rest ih =>
    obtain ⟨hsib, hrest⟩ := hpath
    obtain ⟨hsibno, hred, hrestno⟩ := hno
    refine ih hrest hrestno ((RBTree.blackHeight_branch ..).2 ⟨n, rfl, ht, hsib⟩) ?_ ?_
    · refine (RBTree.noRedRed_branch ..).2 ⟨fun hc ↦ ⟨?_, (hred hc).1⟩, htno, hsibno⟩
      refine Color.eq_black_of_ne_red fun htred ↦ ?_
      have houter := hedge htred
      simp [outerColor, hc] at houter
    · intro hc
      rw [Frame.fill, RBTree.color_branch] at hc
      exact (hred hc).2

/-- Splitting a valid tree at a hole. -/
theorem valid_of_plug (path : Path α) {t : RBTree α} (h : Valid (plug path t)) :
    ∃ m, t.BlackHeight m ∧ BlackHeight path m ∧ t.NoRedRed ∧ NoRedRed path ∧
      (t.color = .red → outerColor path = .black) := by
  induction path generalizing t with
  | nil =>
    obtain ⟨⟨n, hn⟩, hno, hroot⟩ := h
    exact ⟨n, hn, trivial, hno, trivial, fun hred ↦ by simp_all⟩
  | cons f rest ih =>
    obtain ⟨m, hfill, hrest, hfillno, hrestno, hedge⟩ := ih h
    obtain ⟨k, rfl, ht, hsib⟩ := (RBTree.blackHeight_branch ..).1 hfill
    obtain ⟨hred, htno, hsibno⟩ := (RBTree.noRedRed_branch ..).1 hfillno
    rw [Frame.fill, RBTree.color_branch] at hedge
    refine ⟨k, ht, ⟨hsib, hrest⟩, htno,
      ⟨hsibno, fun hc ↦ ⟨(hred hc).2, hedge hc⟩, hrestno⟩, fun htred ↦ ?_⟩
    refine Color.eq_black_of_ne_red fun hc ↦ ?_
    rw [(hred hc).1] at htred
    cases htred

end Path

end Zbaselib.RedBlack
