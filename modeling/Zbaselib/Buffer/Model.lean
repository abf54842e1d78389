import Zbaselib.Lib.Ring

/-!
# The ring buffer of `zbaselib_buffer.c`

All positions and counts are `unsigned int`.  The mutex only serializes the
calls and is left out here.  A caller's buffer is a block, and `none` is `NULL`.
-/

namespace Zbaselib.Buffer

open Program Block Zbaselib.Ring

/-- `struct _zbaselib_buffer` -/
structure State where
  buffer : Option (List UInt8)
  bufferSize : UInt32
  wpos : UInt32
  rpos : UInt32
  busyNum : UInt32
  deriving DecidableEq, Repr

abbrev BufferCmd := Cmd State

/-- The flags say which of the two allocations succeed. -/
def create (handle block : Bool) (bufferSize : UInt32) : Option State :=
  if handle && block then
    some ⟨some (List.replicate bufferSize.toNat 0), bufferSize, 0, 0, 0⟩
  else
    none

/-- The bytes that are in the buffer, oldest first. -/
def content (b : State) : List UInt8 :=
  window (b.buffer.getD []) b.rpos.toNat b.busyNum.toNat

def write (wdata : Option (List UInt8)) (dataLen : UInt32) : BufferCmd ℤ := do
  let thiz ← get
  match thiz.buffer, wdata with
  | some buffer, some wdata =>
    if dataLen ≤ 0 then return -1
    let left := thiz.bufferSize - thiz.busyNum
    if dataLen > left then return -2
    if thiz.wpos + dataLen ≤ thiz.bufferSize then
      let buffer ← memcpy buffer thiz.wpos.toNat wdata 0 dataLen.toNat
      let wpos := thiz.wpos + dataLen
      set { thiz with
        buffer := some buffer
        wpos := if wpos ≥ thiz.bufferSize then 0 else wpos
        busyNum := thiz.busyNum + dataLen }
    else
      let first := thiz.bufferSize - thiz.wpos
      let rest := dataLen + thiz.wpos - thiz.bufferSize
      let buffer ← memcpy buffer thiz.wpos.toNat wdata 0 first.toNat
      let buffer ← memcpy buffer 0 wdata first.toNat rest.toNat
      set { thiz with buffer := some buffer, wpos := rest, busyNum := thiz.busyNum + dataLen }
    return 0
  | _, _ => return -1

/-- The copy that `read` and `get` make. -/
def copyOut (thiz : State) (buffer rdata : List UInt8) (dataLen : UInt32) :
    BufferCmd (List UInt8) := do
  if thiz.rpos + dataLen ≤ thiz.bufferSize then
    memcpy rdata 0 buffer thiz.rpos.toNat dataLen.toNat
  else
    let first := thiz.bufferSize - thiz.rpos
    let rest := dataLen + thiz.rpos - thiz.bufferSize
    let rdata ← memcpy rdata 0 buffer thiz.rpos.toNat first.toNat
    memcpy rdata first.toNat buffer 0 rest.toNat

/-- How `read` and `skip` move the read position. -/
def advance (dataLen : UInt32) (thiz : State) : State :=
  let rpos :=
    if thiz.rpos + dataLen ≤ thiz.bufferSize then
      let rpos := thiz.rpos + dataLen
      if rpos = thiz.bufferSize then 0 else rpos
    else dataLen + thiz.rpos - thiz.bufferSize
  { thiz with rpos, busyNum := thiz.busyNum - dataLen }

/-- Checks and copy; `after` is what becomes of the buffer.  The second component of the result
is the caller's buffer after the call. -/
def fetch (after : State → State) (rdata : Option (List UInt8)) (dataLen : UInt32) :
    BufferCmd (ℤ × Option (List UInt8)) := do
  let thiz ← get
  match thiz.buffer, rdata with
  | some buffer, some dst =>
    if dataLen ≤ 0 then return (-1, rdata)
    if thiz.busyNum < dataLen then return (-2, rdata)
    let dst ← copyOut thiz buffer dst dataLen
    set (after thiz)
    return (0, some dst)
  | _, _ => return (-1, rdata)

def read (rdata : Option (List UInt8)) (dataLen : UInt32) :
    BufferCmd (ℤ × Option (List UInt8)) :=
  fetch (advance dataLen) rdata dataLen

def skip (dataLen : UInt32) : BufferCmd ℤ := do
  let thiz ← get
  if thiz.buffer = none ∨ dataLen ≤ 0 then return -1
  if thiz.busyNum < dataLen then return -2
  set (advance dataLen thiz)
  return 0

def clear : BufferCmd Unit := do
  let thiz ← get
  if thiz.buffer ≠ none then
    set { thiz with wpos := 0, rpos := 0, busyNum := 0 }

/-- An error is `-1` as an `unsigned int`. -/
def busynum : BufferCmd UInt32 := do
  let thiz ← MonadState.get
  return if thiz.buffer = none then -1 else thiz.busyNum

def isempty : BufferCmd ℤ := do
  let thiz ← MonadState.get
  return if thiz.buffer ≠ none ∧ thiz.busyNum = 0 then 1 else 0

def isfull : BufferCmd ℤ := do
  let thiz ← MonadState.get
  return if thiz.buffer ≠ none ∧ thiz.busyNum = thiz.bufferSize then 1 else 0

/-- As `read`, without moving the read position. -/
def get (rdata : Option (List UInt8)) (dataLen : UInt32) :
    BufferCmd (ℤ × Option (List UInt8)) :=
  fetch id rdata dataLen

end Zbaselib.Buffer
