import Zbaselib.Lib.Block

/-!
# The socket buffer of `zbaselib_socket.c`

Sizes are `unsigned int`, but the new size of a buffer that grows and the
window that `recv` is offered go through `int`.  The kernel answers from
outside: each call takes what the kernel does as an argument.  The optional
mutex only serializes the calls and is left out.
-/

namespace Zbaselib.Socket

open Program Block

/-- `struct _zbaselib_skbuffer` -/
structure State where
  sock : ℤ
  buf : Option (List UInt8)
  bufSize : UInt32
  bufMaxSize : UInt32
  dataSize : UInt32
  rpos : UInt32
  wpos : UInt32
  sockSndBufSize : ℤ
  deriving DecidableEq

abbrev SkCmd := Cmd State

/-- The value that a number below `2 ^ 32` has as an `int`. -/
def asInt (n : ℕ) : ℤ := if n < 2 ^ 31 then n else n - 2 ^ 32

def toInt (n : UInt32) : ℤ := asInt n.toNat

/-- Conversion of an `int` to `size_t`. -/
def sizeT (n : ℤ) : ℕ := (n % 2 ^ 64).toNat

def ZBASELIB_SKBUFFER_MIN_NUM : UInt32 := 64

/-- The flags say which of the two allocations succeed, `sndBuf` is the value of the socket's
`OPT_SNDBUF` if it can be read. -/
def create (handle block : Bool) (sndBuf : Option ℤ) (bufSize bufMaxSize : UInt32) (sock : ℤ) :
    Option State :=
  if handle then
    let bufSize := if bufSize = 0 then 128 else bufSize
    some {
      sock
      buf := if block then some (List.replicate bufSize.toNat 0) else none
      bufSize
      bufMaxSize := if bufMaxSize > bufSize then bufMaxSize else bufSize <<< 2
      dataSize := 0
      rpos := 0
      wpos := 0
      sockSndBufSize := sndBuf.getD 4096 }
  else
    none

/-- The buffered bytes, oldest first. -/
def content (b : State) : List UInt8 :=
  ((b.buf.getD []).take b.wpos.toNat).drop b.rpos.toNat

/-- The bytes move to the front of the block. -/
def compact : SkCmd Unit := do
  let thiz ← get
  match thiz.buf with
  | some buf =>
    let buf ← memcpy buf 0 buf thiz.rpos.toNat thiz.dataSize.toNat
    set { thiz with buf := some buf, wpos := thiz.wpos - thiz.rpos, rpos := 0 }
  | none => failure

/-- A block of one and a half times the size and `extra` more bytes. -/
def grow (extra : UInt32) (fresh : Option (ℕ → UInt8)) : SkCmd Unit := do
  let thiz ← get
  match thiz.buf with
  | some buf =>
    let bufSize := toInt (thiz.bufSize + (thiz.bufSize >>> 1) + extra)
    set { thiz with
      buf := realloc buf (sizeT bufSize) fresh
      bufSize := UInt32.ofInt bufSize }
  | none => failure

/-- `size` bytes arrive at the write position. -/
def append (src : List UInt8) (size : UInt32) : SkCmd Unit := do
  let thiz ← get
  match thiz.buf with
  | some buf =>
    let buf ← memcpy buf thiz.wpos.toNat src 0 size.toNat
    set { thiz with
      buf := some buf
      wpos := thiz.wpos + size
      dataSize := thiz.dataSize + size }
  | none => failure

/-- Compaction when `size` more bytes would run over the end. -/
def compactFor (size : UInt32) : SkCmd Unit := do
  let thiz ← get
  if thiz.wpos + size > thiz.bufSize ∧ thiz.rpos > 0 then
    compact

def write (data : Option (List UInt8)) (size : UInt32) (fresh : Option (ℕ → UInt8)) :
    SkCmd ℤ := do
  let thiz ← get
  match thiz.buf, data with
  | some _, some data =>
    compactFor size
    let thiz ← get
    if thiz.wpos + size > thiz.bufSize then
      if thiz.bufSize > thiz.bufMaxSize then
        return -2
      else
        grow size fresh
    append data size
    return 0
  | _, _ => return -1

/-! ## Receiving -/

/-- What `recv` answers: bytes (none at the end of the stream), or a negative number with an
`errno`. -/
inductive Received
  | data (bytes : List UInt8)
  | wouldBlock
  | error
  deriving DecidableEq

def Received.bytes : Received → List UInt8
  | .data bytes => bytes
  | .wouldBlock | .error => []

/-- How the kernel answers a window of each size.  It never fills more than the window. -/
structure Kernel where
  answer : ℕ → Received
  fits : ∀ window, (answer window).bytes.length ≤ window

/-- Room at the write position; `false` when there is none and the buffer may not grow. -/
def reserve (fresh : Option (ℕ → UInt8)) : SkCmd Bool := do
  let thiz ← get
  if thiz.wpos ≥ thiz.bufSize then
    if thiz.rpos > 0 then
      compact
      return true
    else if thiz.bufSize > thiz.bufMaxSize then
      return false
    else
      grow ZBASELIB_SKBUFFER_MIN_NUM fresh
      return true
  else
    return true

/-- One system call.  Bytes that would go to a null buffer become an `EFAULT`. -/
def receive (kernel : Kernel) : SkCmd Received := do
  let thiz ← get
  let writableSize := toInt (thiz.bufSize - thiz.wpos)
  let answer := kernel.answer (sizeT writableSize)
  if answer.bytes = [] then
    return answer
  else if thiz.buf = none then
    return .error
  else
    append answer.bytes (UInt32.ofNat answer.bytes.length)
    return answer

def recv (kernel : Kernel) (fresh : Option (ℕ → UInt8)) : SkCmd ℤ := do
  let thiz ← get
  if thiz.buf = none ∨ thiz.sock < 0 then
    return -2
  let room ← reserve fresh
  if room then
    match ← receive kernel with
    | .data bytes => return if bytes = [] then -1 else 0
    | .wouldBlock => return 0
    | .error => return -1
  else
    return -3

/-- What the kernel and the allocator answer in a round of `udp_recv`. -/
abbrev Round := Kernel × Option (ℕ → UInt8)

/-- What an answer returns from the loop of `udp_recv`; with `none` the loop goes on. -/
def Received.ends : Received → Option ℤ
  | .data bytes => if bytes = [] then some (-1) else none
  | .wouldBlock => some 0
  | .error => some (-1)

/-- A round of `udp_recv`. -/
def udpRound (round : Round) : SkCmd (Option ℤ) := do
  let room ← reserve round.2
  if room then
    return (← receive round.1).ends
  else
    return some (-3)

/-- The `do … while` loop of `udp_recv`.  There is no outcome when the answers run out. -/
def udpRecvLoop : List Round → SkCmd ℤ
  | [] => failure
  | round :: rest => do
    match ← udpRound round with
    | some ret => return ret
    | none => udpRecvLoop rest

/-- How `recvfrom` answers with a null pointer for the length of the sender's address.  When there
is an `addr` to fill in, it takes the datagram and then answers with an `EFAULT`; the bytes stay
behind the write position, where nothing reads them. -/
def recvfrom (addr : Bool) (kernel : Kernel) : Kernel where
  answer window :=
    match addr, kernel.answer window with
    | true, .data _ => .error
    | _, answer => answer
  fits window := by
    split
    · exact Nat.zero_le window
    · exact kernel.fits window

/-- The rounds of a call that gets this `addr`. -/
def asked (addr : Bool) (rounds : List Round) : List Round :=
  rounds.map fun (kernel, fresh) ↦ (recvfrom addr kernel, fresh)

/-- `addr` says whether the caller's pointer is not null. -/
def udpRecv (addr : Bool) (rounds : List Round) : SkCmd ℤ := do
  let thiz ← get
  if thiz.buf = none ∨ thiz.sock < 0 then
    return -2
  udpRecvLoop (asked addr rounds)

/-! ## Taking bytes out -/

/-- How `read`, `skip` and `send` take bytes off the front. -/
def consume (size : UInt32) (thiz : State) : State :=
  let rpos := thiz.rpos + size
  let dataSize := thiz.dataSize - size
  if dataSize = 0 ∧ rpos = thiz.wpos then
    { thiz with dataSize, rpos := 0, wpos := 0 }
  else
    { thiz with dataSize, rpos }

/-- The copy that `read` and `get` make; `after` is what becomes of the buffer.  The second
component of the result is the caller's buffer after the call. -/
def fetch (after : UInt32 → State → State) (data : Option (List UInt8)) (size : UInt32) :
    SkCmd (ℤ × Option (List UInt8)) := do
  let thiz ← get
  match thiz.buf, data with
  | some buf, some dst =>
    let size := if size < thiz.dataSize then size else thiz.dataSize
    if size = 0 then
      return (0, data)
    else
      let dst ← memcpy dst 0 buf thiz.rpos.toNat size.toNat
      set (after size thiz)
      return (toInt size, some dst)
  | _, _ => return (-1, data)

def read (data : Option (List UInt8)) (size : UInt32) : SkCmd (ℤ × Option (List UInt8)) :=
  fetch consume data size

/-- As `read`, without moving the read position. -/
def get (data : Option (List UInt8)) (size : UInt32) : SkCmd (ℤ × Option (List UInt8)) :=
  fetch (fun _ thiz ↦ thiz) data size

def skip (size : UInt32) : SkCmd ℤ := do
  let thiz ← MonadState.get
  if thiz.buf = none then
    return -1
  let size := if size < thiz.dataSize then size else thiz.dataSize
  if size = 0 then
    return 0
  set (consume size thiz)
  return toInt size

def clear : SkCmd Unit := do
  let thiz ← MonadState.get
  if thiz.buf ≠ none then
    set { thiz with rpos := 0, wpos := 0, dataSize := 0 }

/-! ## Sending -/

/-- What `send` answers: a count, or a negative number with an `errno`. -/
inductive Sent
  | accepted (count : ℕ)
  | wouldBlock
  | error
  deriving DecidableEq

/-- The return value, the bytes that the kernel took, and the answers that were not asked for. -/
structure Sending where
  ret : ℤ
  accepted : List UInt8
  rest : List Sent
  deriving DecidableEq

/-- The `while` loop of `sendn`.  There is no outcome when the answers run out, or when the kernel
takes bytes it was not offered. -/
def sendnLoop (size : UInt32) (ptr : List UInt8) (nleft : ℤ) : List Sent → Option Sending
  | [] => if nleft > 0 then none else some ⟨toInt size, [], []⟩
  | answer :: rest =>
    if nleft > 0 then
      match answer with
      | .accepted nwritten =>
        if 0 < nwritten ∧ (nwritten : ℤ) ≤ nleft ∧ nwritten ≤ ptr.length then
          (sendnLoop size (ptr.drop nwritten) (nleft - nwritten) rest).map fun sending ↦
            { sending with accepted := ptr.take nwritten ++ sending.accepted }
        else
          none
      | .wouldBlock => sendnLoop size ptr nleft rest
      | .error => some ⟨-1, [], rest⟩
    else
      some ⟨toInt size, [], answer :: rest⟩

def sendn (buf : List UInt8) (size : UInt32) (answers : List Sent) : Option Sending :=
  sendnLoop size buf (toInt size) answers

def send (answers : List Sent) : SkCmd Sending := do
  let thiz ← MonadState.get
  match thiz.buf with
  | some buf =>
    if thiz.sock < 0 then
      return ⟨-2, [], answers⟩
    else if thiz.dataSize = 0 then
      return ⟨0, [], answers⟩
    else
      let sndBufSize := UInt32.ofInt thiz.sockSndBufSize
      let sendSize := if thiz.dataSize < sndBufSize then thiz.dataSize else sndBufSize
      match sendn (buf.drop thiz.rpos.toNat) sendSize answers with
      | none => failure
      | some sending =>
        if sending.ret > 0 then
          set (consume (UInt32.ofInt sending.ret) thiz)
          return { sending with ret := 0 }
        else
          return { sending with ret := -1 }
  | none => return ⟨-2, [], answers⟩

end Zbaselib.Socket
