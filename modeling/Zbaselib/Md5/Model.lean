import Zbaselib.Lib.Block

/-!
# The MD5 of `zbaselib_md5.c`

A pointer to data is the list of the bytes that can be read from it on.  Words
are read as the code does on the machines it is built for, which are
little-endian and tolerate unaligned accesses.
-/

namespace Zbaselib.Md5

open Program Block

/-- The four words that are carried from block to block. -/
structure Regs where
  a : UInt32
  b : UInt32
  c : UInt32
  d : UInt32
  deriving DecidableEq

/-- `zbaselib_md5_t` -/
structure Ctx extends Regs where
  bytes : UInt64
  buffer : List UInt8
  length_buffer : buffer.length = 64
  deriving DecidableEq

/-! ## The basic functions -/

def F (x y z : UInt32) : UInt32 := z ^^^ (x &&& (y ^^^ z))

def G (x y z : UInt32) : UInt32 := y ^^^ (z &&& (x ^^^ y))

def H (x y z : UInt32) : UInt32 := x ^^^ y ^^^ z

def I (x y z : UInt32) : UInt32 := y ^^^ (x ||| ~~~z)

/-- The name of a basic function. -/
inductive Fn
  | F
  | G
  | H
  | I
  deriving DecidableEq

def Fn.eval : Fn → UInt32 → UInt32 → UInt32 → UInt32
  | F => Md5.F
  | G => Md5.G
  | H => Md5.H
  | I => Md5.I

/-- The name of a local variable. -/
inductive Reg
  | a
  | b
  | c
  | d
  deriving DecidableEq

def Regs.get (r : Regs) : Reg → UInt32
  | .a => r.a
  | .b => r.b
  | .c => r.c
  | .d => r.d

def Regs.set (r : Regs) (x : UInt32) : Reg → Regs
  | .a => { r with a := x }
  | .b => { r with b := x }
  | .c => { r with c := x }
  | .d => { r with d := x }

/-- The arguments of `STEP(f, a, b, c, d, SET(n), t, s)`. -/
structure Step where
  f : Fn
  a : Reg
  b : Reg
  c : Reg
  d : Reg
  n : ℕ
  t : UInt32
  s : UInt32
  deriving DecidableEq

/-- `SET(n)` and `GET(n)` -/
def word (p : List UInt8) (n : ℕ) : UInt32 :=
  (p.getD (n * 4) 0).toUInt32 ||| (p.getD (n * 4 + 1) 0).toUInt32 <<< 8 |||
    (p.getD (n * 4 + 2) 0).toUInt32 <<< 16 ||| (p.getD (n * 4 + 3) 0).toUInt32 <<< 24

/-- `STEP` -/
def Step.run (p : List UInt8) (r : Regs) (i : Step) : Regs :=
  let sum := r.get i.a + (i.f.eval (r.get i.b) (r.get i.c) (r.get i.d) + word p i.n + i.t)
  let rotated := sum <<< i.s ||| (sum &&& 0xffffffff) >>> (32 - i.s)
  r.set (rotated + r.get i.b) i.a

/-! ## The rounds -/

def round1 : List Step :=
  [⟨.F, .a, .b, .c, .d, 0, 0xd76aa478, 7⟩,
    ⟨.F, .d, .a, .b, .c, 1, 0xe8c7b756, 12⟩,
    ⟨.F, .c, .d, .a, .b, 2, 0x242070db, 17⟩,
    ⟨.F, .b, .c, .d, .a, 3, 0xc1bdceee, 22⟩,
    ⟨.F, .a, .b, .c, .d, 4, 0xf57c0faf, 7⟩,
    ⟨.F, .d, .a, .b, .c, 5, 0x4787c62a, 12⟩,
    ⟨.F, .c, .d, .a, .b, 6, 0xa8304613, 17⟩,
    ⟨.F, .b, .c, .d, .a, 7, 0xfd469501, 22⟩,
    ⟨.F, .a, .b, .c, .d, 8, 0x698098d8, 7⟩,
    ⟨.F, .d, .a, .b, .c, 9, 0x8b44f7af, 12⟩,
    ⟨.F, .c, .d, .a, .b, 10, 0xffff5bb1, 17⟩,
    ⟨.F, .b, .c, .d, .a, 11, 0x895cd7be, 22⟩,
    ⟨.F, .a, .b, .c, .d, 12, 0x6b901122, 7⟩,
    ⟨.F, .d, .a, .b, .c, 13, 0xfd987193, 12⟩,
    ⟨.F, .c, .d, .a, .b, 14, 0xa679438e, 17⟩,
    ⟨.F, .b, .c, .d, .a, 15, 0x49b40821, 22⟩]

def round2 : List Step :=
  [⟨.G, .a, .b, .c, .d, 1, 0xf61e2562, 5⟩,
    ⟨.G, .d, .a, .b, .c, 6, 0xc040b340, 9⟩,
    ⟨.G, .c, .d, .a, .b, 11, 0x265e5a51, 14⟩,
    ⟨.G, .b, .c, .d, .a, 0, 0xe9b6c7aa, 20⟩,
    ⟨.G, .a, .b, .c, .d, 5, 0xd62f105d, 5⟩,
    ⟨.G, .d, .a, .b, .c, 10, 0x02441453, 9⟩,
    ⟨.G, .c, .d, .a, .b, 15, 0xd8a1e681, 14⟩,
    ⟨.G, .b, .c, .d, .a, 4, 0xe7d3fbc8, 20⟩,
    ⟨.G, .a, .b, .c, .d, 9, 0x21e1cde6, 5⟩,
    ⟨.G, .d, .a, .b, .c, 14, 0xc33707d6, 9⟩,
    ⟨.G, .c, .d, .a, .b, 3, 0xf4d50d87, 14⟩,
    ⟨.G, .b, .c, .d, .a, 8, 0x455a14ed, 20⟩,
    ⟨.G, .a, .b, .c, .d, 13, 0xa9e3e905, 5⟩,
    ⟨.G, .d, .a, .b, .c, 2, 0xfcefa3f8, 9⟩,
    ⟨.G, .c, .d, .a, .b, 7, 0x676f02d9, 14⟩,
    ⟨.G, .b, .c, .d, .a, 12, 0x8d2a4c8a, 20⟩]

def round3 : List Step :=
  [⟨.H, .a, .b, .c, .d, 5, 0xfffa3942, 4⟩,
    ⟨.H, .d, .a, .b, .c, 8, 0x8771f681, 11⟩,
    ⟨.H, .c, .d, .a, .b, 11, 0x6d9d6122, 16⟩,
    ⟨.H, .b, .c, .d, .a, 14, 0xfde5380c, 23⟩,
    ⟨.H, .a, .b, .c, .d, 1, 0xa4beea44, 4⟩,
    ⟨.H, .d, .a, .b, .c, 4, 0x4bdecfa9, 11⟩,
    ⟨.H, .c, .d, .a, .b, 7, 0xf6bb4b60, 16⟩,
    ⟨.H, .b, .c, .d, .a, 10, 0xbebfbc70, 23⟩,
    ⟨.H, .a, .b, .c, .d, 13, 0x289b7ec6, 4⟩,
    ⟨.H, .d, .a, .b, .c, 0, 0xeaa127fa, 11⟩,
    ⟨.H, .c, .d, .a, .b, 3, 0xd4ef3085, 16⟩,
    ⟨.H, .b, .c, .d, .a, 6, 0x04881d05, 23⟩,
    ⟨.H, .a, .b, .c, .d, 9, 0xd9d4d039, 4⟩,
    ⟨.H, .d, .a, .b, .c, 12, 0xe6db99e5, 11⟩,
    ⟨.H, .c, .d, .a, .b, 15, 0x1fa27cf8, 16⟩,
    ⟨.H, .b, .c, .d, .a, 2, 0xc4ac5665, 23⟩]

def round4 : List Step :=
  [⟨.I, .a, .b, .c, .d, 0, 0xf4292244, 6⟩,
    ⟨.I, .d, .a, .b, .c, 7, 0x432aff97, 10⟩,
    ⟨.I, .c, .d, .a, .b, 14, 0xab9423a7, 15⟩,
    ⟨.I, .b, .c, .d, .a, 5, 0xfc93a039, 21⟩,
    ⟨.I, .a, .b, .c, .d, 12, 0x655b59c3, 6⟩,
    ⟨.I, .d, .a, .b, .c, 3, 0x8f0ccc92, 10⟩,
    ⟨.I, .c, .d, .a, .b, 10, 0xffeff47d, 15⟩,
    ⟨.I, .b, .c, .d, .a, 1, 0x85845dd1, 21⟩,
    ⟨.I, .a, .b, .c, .d, 8, 0x6fa87e4f, 6⟩,
    ⟨.I, .d, .a, .b, .c, 15, 0xfe2ce6e0, 10⟩,
    ⟨.I, .c, .d, .a, .b, 6, 0xa3014314, 15⟩,
    ⟨.I, .b, .c, .d, .a, 13, 0x4e0811a1, 21⟩,
    ⟨.I, .a, .b, .c, .d, 4, 0xf7537e82, 6⟩,
    ⟨.I, .d, .a, .b, .c, 11, 0xbd3af235, 10⟩,
    ⟨.I, .c, .d, .a, .b, 2, 0x2ad7d2bb, 15⟩,
    ⟨.I, .b, .c, .d, .a, 9, 0xeb86d391, 21⟩]

/-- What `zbaselib_md5_body` does with one block. -/
def transform (saved : Regs) (p : List UInt8) : Regs :=
  let r := (round1 ++ round2 ++ round3 ++ round4).foldl (Step.run p) saved
  ⟨r.a + saved.a, r.b + saved.b, r.c + saved.c, r.d + saved.d⟩

/-- An iteration over the local variables, `p` and `size`.  Round 1 reads every word of the
block. -/
def bodyStep : Regs × List UInt8 × UInt64 →
    Cmd Ctx (Regs × List UInt8 × UInt64 ⊕ Regs × List UInt8)
  | (r, p, size) => do
    require (64 ≤ p.length)
    let r := transform r p
    let p := p.drop 64
    let size := size - 64
    if size ≠ 0 then
      return .inl (r, p, size)
    else
      return .inr (r, p)

/-- `zbaselib_md5_body`.  An iteration reads a block of `data`, so there are not more iterations
than `data` has blocks. -/
def body (data : List UInt8) (size : UInt64) : Cmd Ctx (List UInt8) := do
  let ctx ← get
  let (r, p) ← loop bodyStep (data.length / 64 + 1) (ctx.toRegs, data, size)
  modify fun ctx ↦ { ctx with toRegs := r }
  return p

/-! ## The interface -/

/-- `zbaselib_md5_init` -/
def init : Cmd Ctx Unit := do
  modify fun ctx ↦
    { ctx with a := 0x67452301, b := 0xefcdab89, c := 0x98badcfe, d := 0x10325476, bytes := 0 }

/-- The context after bytes were written into its block. -/
def Ctx.write (ctx : Ctx) (i : ℕ) (xs : List UInt8) (h : i + xs.length ≤ 64) : Ctx where
  toRegs := ctx.toRegs
  bytes := ctx.bytes
  buffer := splice ctx.buffer i xs
  length_buffer := by rw [length_splice (by rwa [ctx.length_buffer]), ctx.length_buffer]

/-- `ngx_memcpy(&ctx->buffer[i], data, n)` -/
def copyBuffer (i : UInt64) (data : List UInt8) (n : UInt64) : Cmd Ctx Unit := do
  if h : i.toNat + (data.take n.toNat).length ≤ 64 ∧ n.toNat ≤ data.length then
    modify fun ctx ↦ ctx.write i.toNat (data.take n.toNat) h.1
  else
    failure

/-- `ngx_cpymem(&ctx->buffer[i], data, n)`: the answer points behind what was written, not behind
what was read. -/
def cpymem (i : UInt64) (data : List UInt8) (n : UInt64) : Cmd Ctx (List UInt8) := do
  copyBuffer i data n
  return (← get).buffer.drop (i.toNat + n.toNat)

/-- `ngx_memzero(&ctx->buffer[i], n)` -/
def zeroBuffer (i n : UInt64) : Cmd Ctx Unit :=
  copyBuffer i (List.replicate n.toNat 0) n

/-- `ctx->buffer[i] = x` -/
def setBuffer (i : UInt64) (x : UInt8) : Cmd Ctx Unit :=
  copyBuffer i [x] 1

/-- `zbaselib_md5_update` from where no block is begun: the whole blocks, and the rest. -/
def updateBlocks (data : List UInt8) (size : UInt64) : Cmd Ctx Unit := do
  if 64 ≤ size then
    let data ← body data (size &&& ~~~0x3f)
    copyBuffer 0 data (size &&& 0x3f)
  else
    copyBuffer 0 data size

/-- `zbaselib_md5_update` with enough data to fill the block that was begun. -/
def updateBegun (used : UInt64) (data : List UInt8) (size : UInt64) : Cmd Ctx Unit := do
  let free := 64 - used
  let data ← cpymem used data free
  let size := size - free
  let _ ← body (← get).buffer 64
  updateBlocks data size

/-- `zbaselib_md5_update` -/
def update (data : List UInt8) (size : UInt64) : Cmd Ctx Unit := do
  let used := (← get).bytes &&& 0x3f
  modify fun ctx ↦ { ctx with bytes := ctx.bytes + size }
  if used ≠ 0 then
    if size < 64 - used then
      copyBuffer used data size
    else
      updateBegun used data size
  else
    updateBlocks data size

/-- The context that `final` leaves. -/
def Ctx.zero : Ctx := ⟨⟨0, 0, 0, 0⟩, 0, List.replicate 64 0, by rw [List.length_replicate]⟩

/-- The bytes of a word, the lowest first. -/
def wordBytes (x : UInt32) : List UInt8 :=
  [x.toUInt8, (x >>> 8).toUInt8, (x >>> 16).toUInt8, (x >>> 24).toUInt8]

/-- Make room for the length, with a block that has none when it does not fit.  The answer is the
new `used` and `free`. -/
def makeRoom (used free : UInt64) : Cmd Ctx (UInt64 × UInt64) := do
  if free < 8 then
    zeroBuffer used free
    let _ ← body (← get).buffer 64
    return (0, 64)
  else
    return (used, free)

/-- `result` -/
def Regs.result (r : Regs) : List UInt8 :=
  wordBytes r.a ++ wordBytes r.b ++ wordBytes r.c ++ wordBytes r.d

/-- The length of the message in bits, at the end of the last block. -/
def setLength (bytes : UInt64) : Cmd Ctx Unit := do
  setBuffer 56 bytes.toUInt8
  setBuffer 57 (bytes >>> 8).toUInt8
  setBuffer 58 (bytes >>> 16).toUInt8
  setBuffer 59 (bytes >>> 24).toUInt8
  setBuffer 60 (bytes >>> 32).toUInt8
  setBuffer 61 (bytes >>> 40).toUInt8
  setBuffer 62 (bytes >>> 48).toUInt8
  setBuffer 63 (bytes >>> 56).toUInt8

/-- The last block, where all but the length is in its place. -/
def finish : Cmd Ctx (List UInt8) := do
  modify fun ctx ↦ { ctx with bytes := ctx.bytes <<< 3 }
  setLength (← get).bytes
  let _ ← body (← get).buffer 64
  let ctx ← get
  set Ctx.zero
  return ctx.toRegs.result

/-- `zbaselib_md5_final`.  The answer is `result`. -/
def final : Cmd Ctx (List UInt8) := do
  let used := (← get).bytes &&& 0x3f
  setBuffer used 0x80
  let used := used + 1
  let (used, free) ← makeRoom used (64 - used)
  zeroBuffer used (free - 8)
  finish

end Zbaselib.Md5
