import Zbaselib.Lib.Block

/-!
# The dynamic array of `zbaselib_array.c`

Elements are `elemSize` bytes each in one block.  All sizes are `int`, whose
arithmetic wraps; the allocator answers from outside.  The arithmetic of a
function is its last argument, `int`, which is `wrap` unless it is given.
-/

namespace Zbaselib.Array

open Program Block

/-- What the `data` pointer points to.  `realloc` with size 0 may free a block that the array
still points to. -/
inductive Storage
  | null
  | live (block : List UInt8)
  | freed
  deriving DecidableEq

/-- `struct _zbasebib_array` -/
structure State where
  elemSize : ℤ
  size : ℤ
  capacity : ℤ
  data : Storage
  deriving DecidableEq

abbrev ArrayCmd := Cmd State

/-- The result of `int` arithmetic. -/
def wrap (n : ℤ) : ℤ := (n + 2 ^ 31) % 2 ^ 32 - 2 ^ 31

/-- Conversion of an `int` to `size_t`. -/
def sizeT (n : ℤ) : ℕ := (n % 2 ^ 64).toNat

def ZBASELIB_ARRAY_MIN_NUM : ℤ := 10

/-- The bytes at an offset that is an `int`. -/
def copy (block : List UInt8) (offset : ℤ) (src : List UInt8) (srcOffset size : ℤ) :
    ArrayCmd (List UInt8) := do
  require (0 ≤ offset ∧ 0 ≤ srcOffset)
  memcpy block offset.toNat src srcOffset.toNat (sizeT size)

/-- `handle` says whether there is memory for the array itself. -/
def create (handle : Bool) (fresh : Option (ℕ → UInt8)) (elemSize elemNum : ℤ)
    (int : ℤ → ℤ := wrap) : Option State :=
  if handle then
    let capacity := if elemNum < ZBASELIB_ARRAY_MIN_NUM then ZBASELIB_ARRAY_MIN_NUM else elemNum
    (realloc [] (sizeT (int (elemSize * capacity))) fresh).map fun block ↦
      ⟨elemSize, 0, capacity, .live block⟩
  else
    none

/-- The `realloc` of `expand` and `reduce`: without memory everything stays, but a block that was
to have no bytes is freed. -/
def resize (capacity : ℤ) (fresh : Option (ℕ → UInt8)) (int : ℤ → ℤ := wrap) :
    ArrayCmd Unit := do
  let thiz ← get
  match thiz.data with
  | .live block =>
    let size := sizeT (int (thiz.elemSize * capacity))
    match realloc block size fresh with
    | some block => set { thiz with data := .live block, capacity }
    | none =>
      if size = 0 then
        set { thiz with data := .freed }
  | _ => failure

def expand (need : ℤ) (fresh : Option (ℕ → UInt8)) (int : ℤ → ℤ := wrap) : ArrayCmd ℤ := do
  let thiz ← get
  if thiz.data = .null then
    return -1
  if int (thiz.size + need) > thiz.capacity then
    resize (int (int (thiz.capacity + thiz.capacity / 2) + ZBASELIB_ARRAY_MIN_NUM)) fresh int
  let thiz ← get
  return if int (thiz.size + need) ≤ thiz.capacity then 1 else 0

def reduce (fresh : Option (ℕ → UInt8)) (int : ℤ → ℤ := wrap) : ArrayCmd ℤ := do
  let thiz ← get
  if thiz.data = .null then
    return -1
  if thiz.size < thiz.capacity / 2 ∧ thiz.capacity > ZBASELIB_ARRAY_MIN_NUM then
    resize (int (thiz.size + thiz.size / 2)) fresh int
  return 0

/-- `for(i = size; i > index; i--)` -/
def shiftUp (elemSize size index : ℤ) (block : List UInt8) (int : ℤ → ℤ := wrap) :
    ArrayCmd (List UInt8) :=
  loop (fun (i, block) ↦ do
    if i > index then
      let block ← copy block (int (i * elemSize)) block (int (int (i - 1) * elemSize)) elemSize
      return .inl (int (i - 1), block)
    else
      return .inr block) ((size - index).toNat + 1) (size, block)

/-- `for(i = index; (i+1) < size; i++)` -/
def shiftDown (elemSize size index : ℤ) (block : List UInt8) (int : ℤ → ℤ := wrap) :
    ArrayCmd (List UInt8) :=
  loop (fun (i, block) ↦ do
    if int (i + 1) < size then
      let block ← copy block (int (i * elemSize)) block (int (int (i + 1) * elemSize)) elemSize
      return .inl (int (i + 1), block)
    else
      return .inr block) ((size - index).toNat + 1) (index, block)

def insert (elem : Option (List UInt8)) (index : ℤ) (fresh : Option (ℕ → UInt8))
    (int : ℤ → ℤ := wrap) : ArrayCmd ℤ := do
  let thiz ← get
  if thiz.data = .null then
    return -1
  match elem with
  | some elem =>
    if index > thiz.size ∨ index < 0 then
      return -1
    if (← expand 1 fresh int) ≠ 0 then
      let thiz ← get
      match thiz.data with
      | .live block =>
        let block ← shiftUp thiz.elemSize thiz.size index block int
        let block ← copy block (int (index * thiz.elemSize)) elem 0 thiz.elemSize
        set { thiz with data := .live block, size := int (thiz.size + 1) }
      | _ => failure
    return 0
  | none => return -1

def prepend (elem : Option (List UInt8)) (fresh : Option (ℕ → UInt8)) (int : ℤ → ℤ := wrap) :
    ArrayCmd ℤ :=
  insert elem 0 fresh int

def size : ArrayCmd ℤ := do
  let thiz ← get
  return if thiz.data = .null then -1 else thiz.size

def append (elem : Option (List UInt8)) (fresh : Option (ℕ → UInt8)) (int : ℤ → ℤ := wrap) :
    ArrayCmd ℤ := do
  insert elem (← size) fresh int

def delete (index : ℤ) (fresh : Option (ℕ → UInt8)) (int : ℤ → ℤ := wrap) : ArrayCmd ℤ := do
  let thiz ← get
  if thiz.data = .null then
    return -1
  if index ≥ thiz.size ∨ index < 0 then
    return -1
  match thiz.data with
  | .live block =>
    let block ← shiftDown thiz.elemSize thiz.size index block int
    set { thiz with data := .live block, size := int (thiz.size - 1) }
    let _ ← reduce fresh int
    return 0
  | _ => failure

/-- The offset of the element, `none` for `NULL`. -/
def get (index : ℤ) (int : ℤ → ℤ := wrap) : ArrayCmd (Option ℤ) := do
  let thiz ← MonadState.get
  if thiz.data = .null then
    return none
  if index ≥ thiz.size ∨ index < 0 then
    return none
  return some (int (index * thiz.elemSize))

def set (elem : List UInt8) (index : ℤ) (int : ℤ → ℤ := wrap) : ArrayCmd ℤ := do
  let thiz ← MonadState.get
  if thiz.data = .null then
    return -1
  if index ≥ thiz.size ∨ index < 0 then
    return -1
  match thiz.data with
  | .live block =>
    let block ← copy block (int (index * thiz.elemSize)) elem 0 thiz.elemSize
    modify fun thiz ↦ { thiz with data := .live block }
    return 0
  | _ => failure

/-- What a pointer into the array points to. -/
def deref (offset : ℤ) : ArrayCmd (List UInt8) := do
  let thiz ← MonadState.get
  match thiz.data with
  | .live block => copy (List.replicate (sizeT thiz.elemSize) 0) 0 block offset thiz.elemSize
  | _ => failure

/-- `cmp` is the comparison of an element with the caller's context. -/
def find (cmp : List UInt8 → ℤ) (int : ℤ → ℤ := wrap) : ArrayCmd ℤ := do
  let thiz ← MonadState.get
  if thiz.data = .null then
    return -1
  let i ← loop (fun i ↦ do
    if i < thiz.size then
      if cmp (← deref (int (i * thiz.elemSize))) = 0 then
        return .inr i
      return .inl (int (i + 1))
    else
      return .inr i) (thiz.size.toNat + 1) 0
  return if i = thiz.size then -1 else i

end Zbaselib.Array
