import Zbaselib.Zlist.Model

/-!
# The queue and the stack of `zbaselib_queue.c` and `zbaselib_stack.c`

Both own one block whose only field is a list; they differ in the end of the
list at which an item is pushed.  The memory of the list is that of the list
model, whose client is here the field of the block.
-/

namespace Zbaselib.Container

open Program Memory Zlist

/-- Where the container pointer leads. -/
inductive Block
  | null
  | live
  | freed
  deriving DecidableEq

/-- The variable `list` of `mem` is the field of the block. -/
structure State where
  mem : Mem Node Vars
  thiz : Block

abbrev ContainerCmd := Cmd State

variable {α : Type}

/-- A call of a list function on `thiz->list`. -/
def onList (command : ZlistCmd α) : ContainerCmd α := fun s ↦ do
  let (result, mem) ← command.run s.mem
  return (result, { s with mem })

def setBlock (thiz : Block) : ContainerCmd Unit := modify fun s ↦ { s with thiz }

/-- `thiz->list`, which is undefined when the block was freed. -/
def list : ContainerCmd (Option Handle) := do
  let s ← get
  require (s.thiz = .live)
  return s.mem.vars.list

/-- The test of the macros `QUEUE_RETURN_VAL_IF_NULL` and `STACK_RETURN_VAL_IF_NULL`. -/
def isNull : ContainerCmd Bool := do
  if (← get).thiz = .null then
    return true
  return (← list).isNone

/-! ## What the two have in common -/

/-- `block` and `handle` say whether the allocators of the two blocks had memory. -/
def create (block handle : Bool) (addr ddfunc : Ptr) : ContainerCmd Unit := do
  if block then
    setBlock .live
    onList (Zlist.create handle addr ddfunc)
    if (← list).isNone then
      setBlock .null
  else
    setBlock .null

/-- The container pointer dangles afterwards. -/
def destroy : ContainerCmd Unit := do
  if (← get).thiz ≠ .null then
    if (← list).isSome then
      onList Zlist.destroy
    setBlock .freed

def destroy1 (ddfunc : Ptr) : ContainerCmd Unit := do
  if (← get).thiz ≠ .null then
    let list ← list
    if list.isSome then
      let _ ← onList (Zlist.foreach list (call ddfunc))
      onList Zlist.destroy
    setBlock .freed

/-- `insert` is the list function that adds at one of the ends. -/
def push (insert : Option Handle → Ptr → Ptr → ZlistCmd Unit) (addr data : Ptr) :
    ContainerCmd ℤ := do
  if ← isNull then
    return -1
  onList (insert (← list) addr data)
  return 0

def pop : ContainerCmd ℤ := do
  if ← isNull then
    return -1
  onList (Zlist.delhead (← list))
  return 0

def pop1 : ContainerCmd Ptr := do
  if ← isNull then
    return NULL
  let data ← onList (Zlist.gethead (← list))
  onList (Zlist.delhead (← list))
  return data

def peek : ContainerCmd Ptr := do
  if ← isNull then
    return NULL
  onList (Zlist.gethead (← list))

def size : ContainerCmd ℤ := do
  if ← isNull then
    return 0
  onList (Zlist.size (← list))

end Zbaselib.Container

/-! ## The queue -/

namespace Zbaselib.Queue

open Memory Container

def create := Container.create
def destroy := Container.destroy
def destroy1 := Container.destroy1
def push : Ptr → Ptr → ContainerCmd ℤ := Container.push Zlist.addtail
def pop := Container.pop
def pop1 := Container.pop1
def peek := Container.peek
def size := Container.size

end Zbaselib.Queue

/-! ## The stack -/

namespace Zbaselib.Stack

open Memory Container

def create := Container.create
def destroy := Container.destroy
def destroy1 := Container.destroy1
def push : Ptr → Ptr → ContainerCmd ℤ := Container.push Zlist.addhead
def pop := Container.pop
def pop1 := Container.pop1
def peek := Container.peek
def size := Container.size

end Zbaselib.Stack
