import Zbaselib.Lib.Memory
import Zbaselib.Lib.RedBlack.Tree

/-!
# The red-black tree of `zbaselib_rbtree.c`

The left and the right branches of the rebalancing loops and the two rotations
are mirror images, written once over a `Side`.  Keys are `void *`, and the
comparator is a callback that may be undefined on some pointers.
-/

namespace Zbaselib.Rbtree

open Program Memory RedBlack

/-- `struct _zbaselib_rbtree_node`; `calloc` makes all fields zero and the colour black. -/
structure Node where
  key : Ptr := NULL
  left : Ptr := NULL
  right : Ptr := NULL
  parent : Ptr := NULL
  color : Color := .black
  deriving DecidableEq, Repr

/-- `struct _zbaselib_rbtree`, without the comparator; `size` is an `int`. -/
structure Header where
  root : Ptr
  sentinel : Ptr
  size : ℤ
  deriving DecidableEq, Repr

abbrev State := Mem Node Header

abbrev TreeCmd := HeapCmd Node Header

abbrev CompareFunc := Ptr → Ptr → Option ℤ

namespace Node

def child (side : Side) (n : Node) : Ptr :=
  match side with
  | .left => n.left
  | .right => n.right

def setChild (side : Side) (p : Ptr) (n : Node) : Node :=
  match side with
  | .left => { n with left := p }
  | .right => { n with right := p }

def setParent (p : Ptr) (n : Node) : Node := { n with parent := p }

def setColor (c : Color) (n : Node) : Node := { n with color := c }

end Node

/-! ## Field access -/

def child (side : Side) (p : Ptr) : TreeCmd Ptr := return (← load p).child side

def parent (p : Ptr) : TreeCmd Ptr := return (← load p).parent

def color (p : Ptr) : TreeCmd Color := return (← load p).color

def setChild (side : Side) (p q : Ptr) : TreeCmd Unit := update p (·.setChild side q)

def setParent (p q : Ptr) : TreeCmd Unit := update p (·.setParent q)

def setColor (p : Ptr) (c : Color) : TreeCmd Unit := update p (·.setColor c)

def root : TreeCmd Ptr := return (← getVars).root

def sentinel : TreeCmd Ptr := return (← getVars).sentinel

def setRoot (p : Ptr) : TreeCmd Unit := modifyVars fun t ↦ { t with root := p }

/-- `++` and `--` on the `int` in the header, whose overflow is undefined. -/
def addSize (n : ℤ) : TreeCmd Unit := do
  let t ← getVars
  require (-2 ^ 31 ≤ t.size + n ∧ t.size + n < 2 ^ 31)
  modifyVars fun t ↦ { t with size := t.size + n }

def compare (cmp : CompareFunc) (a b : Ptr) : TreeCmd ℤ :=
  match cmp a b with
  | some result => return result
  | none => failure

/-- `if (p != sentinel) p->parent = q;` -/
def adopt (p q : Ptr) : TreeCmd Unit := do
  if p ≠ (← sentinel) then
    setParent p q

/-! ## Rotations -/

/-- Put `temp` where the parent of `node`, or the root pointer, points at `node`. -/
def replaceChild (side : Side) (node temp : Ptr) : TreeCmd Unit := do
  if node = (← root) then
    setRoot temp
  else if node = (← child side (← parent node)) then
    setChild side (← parent node) temp
  else
    setChild side.other (← parent node) temp

def rotate (side : Side) (node : Ptr) : TreeCmd Unit := do
  let temp ← child side.other node
  setChild side.other node (← child side temp)
  adopt (← child side temp) node
  setParent temp (← parent node)
  replaceChild side node temp
  setChild side temp node
  setParent node temp

def leftRotate (node : Ptr) : TreeCmd Unit := rotate .left node

def rightRotate (node : Ptr) : TreeCmd Unit := rotate .right node

/-! ## Insertion -/

/-- One round of the descent to the place of a new node. -/
def insertRound (cmp : CompareFunc) (node temp : Ptr) : TreeCmd (Ptr ⊕ Ptr × Side) := do
  let result ← compare cmp (← load node).key (← load temp).key
  let side := if result < 0 then Side.left else Side.right
  let next ← child side temp
  if next = (← sentinel) then return .inr (temp, side)
  else return .inl next

/-- The new node becomes a red child of `temp`. -/
def linkBelow (side : Side) (temp node : Ptr) : TreeCmd Unit := do
  setChild side temp node
  setParent node temp
  setChild .left node (← sentinel)
  setChild .right node (← sentinel)
  setColor node .red

def insertValue (cmp : CompareFunc) (temp node : Ptr) : TreeCmd Unit := do
  let (temp, side) ← heapLoop (insertRound cmp node) temp
  linkBelow side temp node

/-- A node on the inner side trades places with its parent. -/
def pushStraighten (side : Side) (node : Ptr) : TreeCmd Ptr := do
  if node = (← child side.other (← parent node)) then
    let node ← parent node
    rotate side node
    return node
  else
    return node

def pushRaise (side : Side) (node : Ptr) : TreeCmd Unit := do
  setColor (← parent node) .black
  setColor (← parent (← parent node)) .red
  rotate side.other (← parent (← parent node))

/-- The body of the re-balancing loop when the parent is the `side` child of the grandparent. -/
def pushStep (side : Side) (node : Ptr) : TreeCmd Ptr := do
  let temp ← child side.other (← parent (← parent node))
  if (← color temp) = .red then
    setColor (← parent node) .black
    setColor temp .black
    setColor (← parent (← parent node)) .red
    parent (← parent node)
  else
    let node ← pushStraighten side node
    pushRaise side node
    return node

def rebalance (node : Ptr) : TreeCmd Unit :=
  heapLoop (fun node ↦ do
    if node = (← root) then return .inr ()
    if (← color (← parent node)) = .black then return .inr ()
    if (← parent node) = (← child .left (← parent (← parent node))) then
      return .inl (← pushStep .left node)
    else
      return .inl (← pushStep .right node)) node

/-- The new node is the root of an empty tree, or put in its place by `insert`. -/
def attach (insert : Ptr → Ptr → TreeCmd Unit) (addr key : Ptr) : TreeCmd Unit := do
  let node ← calloc addr {}
  update node fun n ↦ { n with key }
  if (← root) = (← sentinel) then
    setParent node NULL
    setChild .left node (← sentinel)
    setChild .right node (← sentinel)
    setColor node .black
    setRoot node
  else
    insert (← root) node
    rebalance node
    setColor (← root) .black

/-- `addr` is the address that `calloc` returns for the new node; `++tree->size` is the last
statement of both branches. -/
def push (cmp : CompareFunc) (addr key : Ptr) : TreeCmd Unit := do
  attach (insertValue cmp) addr key
  addSize 1

/-! ## Deletion -/

/-- Follow one child pointer to the last node before the sentinel. -/
def walk (side : Side) (node : Ptr) : TreeCmd Ptr :=
  heapLoop (fun node ↦ do
    let next ← child side node
    if next ≠ (← sentinel) then return .inl next
    else return .inr node) node

def minIntenal (node : Ptr) : TreeCmd Ptr := walk .left node

/-- The node that leaves its place, and the subtree that moves up into it. -/
def chooseSubst (node : Ptr) : TreeCmd (Ptr × Ptr) := do
  if (← child .left node) = (← sentinel) then
    return (node, ← child .right node)
  else if (← child .right node) = (← sentinel) then
    return (node, ← child .left node)
  else
    let subst ← minIntenal (← child .right node)
    if (← child .left subst) ≠ (← sentinel) then
      return (subst, ← child .left subst)
    else
      return (subst, ← child .right subst)

/-- The child pointer that led to `subst` leads to `temp`. -/
def bypass (subst temp : Ptr) : TreeCmd Unit := do
  if subst = (← child .left (← parent subst)) then
    setChild .left (← parent subst) temp
  else
    setChild .right (← parent subst) temp

def copyLinks (subst node : Ptr) : TreeCmd Unit := do
  setChild .left subst (← child .left node)
  setChild .right subst (← child .right node)
  setParent subst (← parent node)
  setColor subst (← color node)

/-- `subst` takes the links and the colour of `node`, and is linked in its place. -/
def takePlace (subst node : Ptr) : TreeCmd Unit := do
  copyLinks subst node
  replaceChild .left node subst
  adopt (← child .left subst) subst
  adopt (← child .right subst) subst

def fillGap (subst temp node : Ptr) : TreeCmd Unit := do
  if subst = node then
    setParent temp (← parent subst)
  else
    if (← parent subst) = node then
      setParent temp subst
    else
      setParent temp (← parent subst)
    takePlace subst node

/-- The `DEBUG stuff` of the source. -/
def clearNode (node : Ptr) : TreeCmd Unit :=
  update node fun n ↦ { n with left := NULL, right := NULL, parent := NULL, key := NULL }

/-- A red sibling `w` is rotated above the parent; the new sibling. -/
def deleteDemote (side : Side) (temp w : Ptr) : TreeCmd Ptr := do
  if (← color w) = .red then
    setColor w .black
    setColor (← parent temp) .red
    rotate side (← parent temp)
    child side.other (← parent temp)
  else
    return w

/-- A sibling `w` whose outer child is black trades places with its inner child. -/
def deleteOutward (side : Side) (temp w : Ptr) : TreeCmd Ptr := do
  if (← color (← child side.other w)) = .black then
    setColor (← child side w) .black
    setColor w .red
    rotate side.other w
    child side.other (← parent temp)
  else
    return w

def deleteBorrow (side : Side) (temp w : Ptr) : TreeCmd Ptr := do
  let w ← deleteOutward side temp w
  setColor w (← color (← parent temp))
  setColor (← parent temp) .black
  setColor (← child side.other w) .black
  rotate side (← parent temp)
  root

def deleteSettle (side : Side) (temp w : Ptr) : TreeCmd Ptr := do
  if (← color (← child .left w)) = .black ∧ (← color (← child .right w)) = .black then
    setColor w .red
    parent temp
  else
    deleteBorrow side temp w

/-- The body of the fix-up loop when `temp` is the `side` child of its parent. -/
def deleteStep (side : Side) (temp : Ptr) : TreeCmd Ptr := do
  let w ← child side.other (← parent temp)
  let w ← deleteDemote side temp w
  deleteSettle side temp w

def deleteFixup (temp : Ptr) : TreeCmd Unit := do
  let temp ← heapLoop (fun temp ↦ do
    if temp = (← root) then return .inr temp
    if (← color temp) = .red then return .inr temp
    if temp = (← child .left (← parent temp)) then
      return .inl (← deleteStep .left temp)
    else
      return .inl (← deleteStep .right temp)) temp
  setColor temp .black

def unlink (subst temp node : Ptr) : TreeCmd Unit := do
  if subst = (← root) then
    setRoot temp
    setColor temp .black
    clearNode node
    addSize (-1)
  else
    let isRed ← color subst
    bypass subst temp
    fillGap subst temp node
    clearNode node
    if isRed = .red then
      addSize (-1)
    else
      deleteFixup temp
      addSize (-1)

def delete (node : Ptr) : TreeCmd Unit := do
  let (subst, temp) ← chooseSubst node
  unlink subst temp node

/-! ## The interface -/

/-- `addr` is the address that `calloc` returns for the sentinel. -/
def init (addr : Ptr) : TreeCmd Unit := do
  let s ← calloc addr {}
  setColor s .black
  modifyVars fun _ ↦ { root := s, sentinel := s, size := 0 }

def empty : TreeCmd Bool := return (← getVars).size = 0

def size : TreeCmd ℤ := return (← getVars).size

def popmin : TreeCmd Ptr := do
  if (← getVars).size = 0 then return NULL
  let node ← walk .left (← root)
  let key := (← load node).key
  delete node
  free node
  return key

/-- The header, which is freed last, is not a record of the heap. -/
def deinit : TreeCmd Unit := do
  heapLoop (fun _ ↦ do
    if ← empty then return .inr ()
    let _ ← popmin
    return .inl ()) ()
  free (← sentinel)

/-- The key of the last node on one side. -/
def endKey (side : Side) : TreeCmd Ptr := do
  if (← getVars).size = 0 then return NULL
  return (← load (← walk side (← root))).key

def getmin : TreeCmd Ptr := endKey .left

def getmax : TreeCmd Ptr := endKey .right

/-- One round of the search, which ends at a `NULL` child, not at the sentinel. -/
def findRound (cmp : CompareFunc) (key node : Ptr) : TreeCmd (Ptr ⊕ Ptr) := do
  if node = NULL then return .inr NULL
  let ret ← compare cmp (← load node).key key
  if ret = 0 then return .inr node
  else if ret > 0 then return .inl (← child .left node)
  else return .inl (← child .right node)

def find (cmp : CompareFunc) (key : Ptr) : TreeCmd Ptr := do
  heapLoop (findRound cmp key) (← root)

def delnode (cmp : CompareFunc) (key : Ptr) : TreeCmd ℤ := do
  let node ← find cmp key
  if node = NULL ∨ key = NULL then return -1
  delete node
  free node
  return 0

end Zbaselib.Rbtree
