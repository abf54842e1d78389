import Zbaselib.Lib.Memory

/-!
# The linked list of `zbaselib_list.c`

A ring of nodes with a sentinel that holds no data.  What a list holds are
pointers, here numbers that are never followed.  The address of a new node is
an argument of the operation that makes it.  The calls of the destroy function
and of the comparison function are recorded in order.
-/

namespace Zbaselib.Zlist

open Program Memory

/-- `struct _zbaselib_list_node` -/
structure Node where
  prev : Ptr
  next : Ptr
  data : Ptr
  deriving DecidableEq

/-- `struct _zbaselib_list` -/
structure Handle where
  head : Ptr
  ddfunc : Ptr
  deriving DecidableEq

/-- The client's list pointer, the calls of destroy functions with their arguments, and the data
that comparison functions were applied to. -/
structure Vars where
  list : Option Handle
  calls : List (Ptr × Ptr)
  compared : List Ptr
  deriving DecidableEq

abbrev ZlistCmd := HeapCmd Node Vars

/-- A call through a function pointer. -/
def call (ddfunc data : Ptr) : ZlistCmd Unit := do
  require (ddfunc ≠ NULL)
  modifyVars fun v ↦ { v with calls := v.calls ++ [(ddfunc, data)] }

def compare (cmp : Ptr → Bool) (data : Ptr) : ZlistCmd Bool := do
  modifyVars fun v ↦ { v with compared := v.compared ++ [data] }
  return cmp data

/-- `++` on an `int`, whose overflow is undefined. -/
def increment (n : ℤ) : ZlistCmd ℤ := do
  require (n + 1 < 2 ^ 31)
  return n + 1

/-! ## Nodes -/

def createNode (addr data : Ptr) : ZlistCmd Ptr := do
  let node ← calloc addr ⟨NULL, NULL, NULL⟩
  update node fun n ↦ { n with data }
  return node

def destroyNode (node ddfunc : Ptr) : ZlistCmd Unit := do
  if node = NULL then
    return
  update node fun n ↦ { n with prev := NULL }
  update node fun n ↦ { n with next := NULL }
  let data := (← load node).data
  if data ≠ NULL then
    if ddfunc ≠ NULL then
      call ddfunc data
    update node fun n ↦ { n with data := NULL }
  free node

def addNode (newNode prev next : Ptr) : ZlistCmd Unit := do
  if newNode = NULL ∨ prev = NULL ∨ next = NULL then
    return
  update prev fun n ↦ { n with next := newNode }
  update newNode fun n ↦ { n with prev }
  update newNode fun n ↦ { n with next }
  update next fun n ↦ { n with prev := newNode }

def delNode (prev next : Ptr) : ZlistCmd Unit := do
  if prev = NULL ∨ next = NULL then
    return
  update prev fun n ↦ { n with next }
  update next fun n ↦ { n with prev }

/-- The node at `index`, `NULL` if there is none. -/
def getNode (thiz : Handle) (index : ℤ) : ZlistCmd Ptr := do
  if index < 0 then
    return NULL
  if (← load thiz.head).next = thiz.head then
    return NULL
  heapLoop (fun (cursor, index) ↦ do
    let next := (← load cursor).next
    if next ≠ thiz.head ∧ index ≥ 0 then
      return .inl (next, index - 1)
    else
      return .inr (if index < 0 then cursor else NULL)) (thiz.head, index)

def create (handle : Bool) (addr ddfunc : Ptr) : ZlistCmd Unit := do
  require handle
  let head ← createNode addr NULL
  update head fun n ↦ { n with next := head }
  update head fun n ↦ { n with prev := head }
  modifyVars fun v ↦ { v with list := some ⟨head, ddfunc⟩ }

/-! ## Reading -/

def empty (thiz : Option Handle) : ZlistCmd Bool := do
  match thiz with
  | some thiz => return (← load thiz.head).next = thiz.head
  | none => return true

def size (thiz : Option Handle) : ZlistCmd ℤ := do
  match thiz with
  | some thiz =>
    heapLoop (fun (cursor, size) ↦ do
      let next := (← load cursor).next
      if next ≠ thiz.head then
        return .inl (next, ← increment size)
      else
        return .inr size) (thiz.head, 0)
  | none => return -1

def gethead (thiz : Option Handle) : ZlistCmd Ptr := do
  match thiz with
  | some thiz =>
    if ← empty thiz then
      return NULL
    return (← load (← load thiz.head).next).data
  | none => return NULL

def gettail (thiz : Option Handle) : ZlistCmd Ptr := do
  match thiz with
  | some thiz =>
    if ← empty thiz then
      return NULL
    return (← load (← load thiz.head).prev).data
  | none => return NULL

def get (thiz : Option Handle) (index : ℤ) : ZlistCmd Ptr := do
  match thiz with
  | some thiz =>
    if ← empty thiz then
      return NULL
    let node ← getNode thiz index
    if node = NULL then
      return NULL
    return (← load node).data
  | none => return NULL

def find (thiz : Option Handle) (cmp : Ptr → Bool) : ZlistCmd ℤ := do
  match thiz with
  | some thiz =>
    if ← empty thiz then
      return -1
    heapLoop (fun (cursor, index) ↦ do
      let next := (← load cursor).next
      if next ≠ thiz.head then
        if ← compare cmp (← load next).data then
          return .inr index
        return .inl (next, ← increment index)
      else
        return .inr (-1)) (thiz.head, 0)
  | none => return -1

def foreach (thiz : Option Handle) (visit : Ptr → ZlistCmd Unit) : ZlistCmd ℤ := do
  match thiz with
  | some thiz =>
    if ← empty thiz then
      return -1
    heapLoop (fun (cursor, _) ↦ do
      let next := (← load cursor).next
      if next ≠ thiz.head then
        visit (← load next).data
        return .inl (next, ())
      else
        return .inr 0) (thiz.head, ())
  | none => return -1

/-! ## Inserting -/

def addhead (thiz : Option Handle) (addr data : Ptr) : ZlistCmd Unit := do
  match thiz with
  | some thiz =>
    let node ← createNode addr data
    addNode node thiz.head (← load thiz.head).next
  | none => return

def addtail (thiz : Option Handle) (addr data : Ptr) : ZlistCmd Unit := do
  match thiz with
  | some thiz =>
    let node ← createNode addr data
    addNode node (← load thiz.head).prev thiz.head
  | none => return

def add (thiz : Option Handle) (addr data : Ptr) (index : ℤ) : ZlistCmd ℤ := do
  match thiz with
  | some thiz =>
    if index < 0 then
      return -1
    if (← empty thiz) ∧ index = 0 then
      addhead thiz addr data
      return 0
    if index = (← size thiz) then
      addtail thiz addr data
      return 0
    let node ← getNode thiz index
    if node = NULL then
      return -1
    let newNode ← createNode addr data
    addNode newNode (← load node).prev node
    return 0
  | none => return -1

/-! ## Deleting -/

/-- A node leaves the ring and is destroyed. -/
def remove (thiz : Handle) (node : Ptr) : ZlistCmd Unit := do
  let n ← load node
  delNode n.prev n.next
  destroyNode node thiz.ddfunc

def delhead (thiz : Option Handle) : ZlistCmd Unit := do
  match thiz with
  | some thiz =>
    if ← empty thiz then
      return
    remove thiz (← load thiz.head).next
  | none => return

def deltail (thiz : Option Handle) : ZlistCmd Unit := do
  match thiz with
  | some thiz =>
    if ← empty thiz then
      return
    remove thiz (← load thiz.head).prev
  | none => return

def del (thiz : Option Handle) (index : ℤ) : ZlistCmd ℤ := do
  match thiz with
  | some thiz =>
    if (← empty thiz) ∨ index < 0 then
      return -1
    let node ← getNode thiz index
    if node = NULL then
      return -1
    remove thiz node
    return 0
  | none => return -1

def delUseCond (thiz : Option Handle) (cmp : Ptr → Bool) : ZlistCmd ℤ := do
  match thiz with
  | some thiz =>
    if ← empty thiz then
      return -1
    heapLoop (fun (cursor, delNum) ↦ do
      let next := (← load cursor).next
      if next ≠ thiz.head then
        let n ← load next
        if ← compare cmp n.data then
          remove thiz next
          return .inl (n.prev, ← increment delNum)
        else
          return .inl (next, delNum)
      else
        return .inr delNum) (thiz.head, 0)
  | none => return -1

def clear (thiz : Option Handle) : ZlistCmd Unit := do
  match thiz with
  | some thiz =>
    if ← empty thiz then
      return
    heapLoop (fun (cursor : Ptr) ↦ do
      if (← load cursor).next ≠ thiz.head then
        deltail thiz
        return .inl cursor
      else
        return .inr ()) thiz.head
  | none => return

/-- The client's pointer becomes `NULL`. -/
def destroy : ZlistCmd Unit := do
  match (← getVars).list with
  | some thiz =>
    clear thiz
    destroyNode thiz.head thiz.ddfunc
    modifyVars fun v ↦ { v with list := none }
  | none => return

/-! ## Replacing -/

/-- The set family calls the destroy function itself and overwrites the slot. -/
def replace (thiz : Handle) (node data : Ptr) : ZlistCmd Unit := do
  let old := (← load node).data
  if old ≠ NULL then
    call thiz.ddfunc old
    update node fun n ↦ { n with data := NULL }
  update node fun n ↦ { n with data }

def sethead (thiz : Option Handle) (data : Ptr) : ZlistCmd Unit := do
  match thiz with
  | some thiz =>
    if ← empty thiz then
      return
    replace thiz (← load thiz.head).next data
  | none => return

def settail (thiz : Option Handle) (data : Ptr) : ZlistCmd Unit := do
  match thiz with
  | some thiz =>
    if ← empty thiz then
      return
    replace thiz (← load thiz.head).prev data
  | none => return

def set (thiz : Option Handle) (data : Ptr) (index : ℤ) : ZlistCmd ℤ := do
  match thiz with
  | some thiz =>
    if index < 0 then
      return -1
    let node ← getNode thiz index
    if node = NULL then
      return -1
    replace thiz node data
    return 0
  | none => return -1

end Zbaselib.Zlist
