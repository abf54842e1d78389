import Zbaselib.Lib.Block
import Zbaselib.Lib.Decision
import Zbaselib.Lib.Numeral

/-!
# The address conversions of `zbaselib_socket.c`

A string is the memory from its first character on, and reading past the end of
the memory is undefined.  Of an uninitialised local array the model keeps the
cells that were written.
-/

namespace Zbaselib.Inet

open Program Block Decision

def AF_INET : ℤ := 2

def AF_INET6 : ℤ := 10

def UV_INET_ADDRSTRLEN : ℕ := 16

def UV_INET6_ADDRSTRLEN : ℕ := 46

def colon : UInt8 := Char.toUInt8 ':'

def dot : UInt8 := Char.toUInt8 '.'

def percent : UInt8 := Char.toUInt8 '%'

def digits : List UInt8 :=
  [ '0', '1', '2', '3', '4', '5', '6', '7', '8', '9'].map Char.toUInt8

def xdigitsL : List UInt8 :=
  digits ++ [ 'a', 'b', 'c', 'd', 'e', 'f'].map Char.toUInt8

def xdigitsU : List UInt8 :=
  digits ++ [ 'A', 'B', 'C', 'D', 'E', 'F'].map Char.toUInt8

/-- `%u` -/
def decimal (byte : UInt8) : List UInt8 := Numeral.text 10 byte.toNat

/-- `%x` -/
def hex (word : ℕ) : List UInt8 := Numeral.text 16 word

/-- Writes `xs` to a block from index `i` on. -/
def store (block : List UInt8) (i : ℕ) (xs : List UInt8) : Option (List UInt8) :=
  if i + xs.length ≤ block.length then some (splice block i xs) else none

/-- `strchr`, as an offset; the inner `none` is `NULL`. -/
def strchr : List UInt8 → UInt8 → Option (Option ℕ)
  | [], _ => none
  | c :: src, ch =>
    if c = ch then some (some 0)
    else if c = 0 then some none
    else (strchr src ch).map fun p ↦ p.map (· + 1)

def strlen (src : List UInt8) : Option ℕ := src.idxOf? 0

/-- `memcpy(dst, tmp, n); return 0;` unless the code before has left the function. -/
def copyOut (dst n : ℕ) (code : Code (List UInt8)) : Cmd (List UInt8) ℤ := do
  match ← code.run with
  | .error ret => return ret
  | .ok tmp =>
    set (← memcpy (← get) dst tmp 0 n)
    return 0

/-! ## `inet_pton4` -/

/-- The local variables; `tmp` are the cells before `tp`, and `last` is `*tp`. -/
structure Pton4 where
  sawDigit : Bool
  octets : ℕ
  tmp : List UInt8
  last : UInt8

def inetPton4Loop : List UInt8 → Pton4 → Code Pton4
  | [], _ => undefined
  | ch :: src, l =>
    if ch = 0 then pure l else
    match digits.idxOf? ch with
    | some pch =>
      let nw := l.last.toNat * 10 + pch
      if l.sawDigit ∧ l.last = 0 then refuse
      else if nw > 255 then refuse
      else if l.sawDigit then inetPton4Loop src { l with last := .ofNat nw }
      else if l.octets + 1 > 4 then refuse
      else inetPton4Loop src { l with last := .ofNat nw, octets := l.octets + 1, sawDigit := true }
    | none =>
      if ch = dot ∧ l.sawDigit then
        if l.octets = 4 then refuse
        else if l.tmp.length + 1 < 4 then
          inetPton4Loop src { l with tmp := l.tmp ++ [l.last], last := 0, sawDigit := false }
        else undefined
      else refuse

/-- What is in `tmp` when it is copied to `dst`. -/
def inetPton4Tmp (src : List UInt8) : Code (List UInt8) := do
  let l ← inetPton4Loop src ⟨false, 0, [], 0⟩
  if l.octets < 4 then refuse else pure (l.tmp ++ [l.last])

/-- `dst` is an offset in the block that is the state. -/
def inetPton4 (src : List UInt8) (dst : ℕ) : Cmd (List UInt8) ℤ :=
  copyOut dst 4 (inetPton4Tmp src)

/-! ## `inet_pton6` -/

/-- The local variables; `tp` and `colonp` are offsets in `tmp`, and `endp` is 16. -/
structure Pton6 where
  tmp : List UInt8
  tp : ℕ
  colonp : Option ℕ
  curtok : List UInt8
  seenXdigits : ℕ
  val : ℕ

/-- Leading `::` requires some special handling. -/
def skipColon (src : List UInt8) : Code (List UInt8) := do
  let ch ← src.head?
  if ch = colon then
    let next ← src.tail.head?
    if next = colon then pure src.tail else refuse
  else pure src

/-- Appends `val`, high byte first. -/
def pushVal (l : Pton6) : Code Pton6 :=
  if l.tp + 2 > 16 then refuse
  else do
    let tmp ← store l.tmp l.tp [.ofNat (l.val >>> 8), .ofNat l.val]
    pure { l with tmp, tp := l.tp + 2 }

def inetPton6Loop : List UInt8 → Pton6 → Code Pton6
  | [], _ => undefined
  | ch :: src, l =>
    if ch = 0 then pure l else
    match xdigitsL.idxOf? ch <|> xdigitsU.idxOf? ch with
    | some pch =>
      if l.seenXdigits + 1 > 4 then refuse
      else
        inetPton6Loop src
          { l with val := l.val <<< 4 ||| pch, seenXdigits := l.seenXdigits + 1 }
    | none =>
      if ch = colon then
        if l.seenXdigits = 0 then
          if l.colonp.isSome then refuse
          else inetPton6Loop src { l with curtok := src, colonp := some l.tp }
        else do
          let next ← src.head?
          if next = 0 then refuse
          else
            let l ← pushVal l
            inetPton6Loop src { l with curtok := src, seenXdigits := 0, val := 0 }
      else if ch = dot ∧ l.tp + 4 ≤ 16 then do
        let (err, tmp) ← (inetPton4 l.curtok l.tp).run l.tmp
        if err = 0 then pure { l with tmp, tp := l.tp + 4, seenXdigits := 0 }
        else refuse
      else refuse

/-- `endp[-i] = colonp[n - i]; colonp[n - i] = 0;` -/
def shiftByte (colonp n : ℕ) (tmp : List UInt8) (i : ℕ) : Option (List UInt8) := do
  let byte ← tmp[colonp + (n - i)]?
  let tmp ← store tmp (16 - i) [byte]
  store tmp (colonp + (n - i)) [0]

/-- The `for` loop that moves the `n` bytes from `colonp` on to the end. -/
def shift (tmp : List UInt8) (colonp n : ℕ) : Option (List UInt8) :=
  (List.range n).foldlM (fun tmp k ↦ shiftByte colonp n tmp (k + 1)) tmp

/-- The end of `inet_pton6`, where a `::` is filled up. -/
def fill (l : Pton6) : Code (List UInt8) := do
  match l.colonp with
  | some colonp =>
    if l.tp = 16 then refuse
    else shift l.tmp colonp (l.tp - colonp)
  | none => if l.tp = 16 then pure l.tmp else refuse

/-- What follows the `while` loop. -/
def finish (l : Pton6) : Code (List UInt8) := do
  let l ← if l.seenXdigits ≠ 0 then pushVal l else pure l
  fill l

def inetPton6Tmp (src : List UInt8) : Code (List UInt8) := do
  let src ← skipColon src
  let l ← inetPton6Loop src ⟨List.replicate 16 0, 0, none, src, 0, 0⟩
  finish l

def inetPton6 (src : List UInt8) (dst : ℕ) : Cmd (List UInt8) ℤ :=
  copyOut dst 16 (inetPton6Tmp src)

/-! ## `zbaselib_inet_pton` -/

/-- The string that `inet_pton6` gets: `src`, or a copy of what is before the `%` in it.  The
offset of the `%` is converted to `int`. -/
def cutZone (src : List UInt8) : Code (List UInt8) := do
  let p ← strchr src percent
  match p with
  | none => pure src
  | some p =>
    let len := (p : ℤ).bmod (2 ^ 32)
    if len > UV_INET6_ADDRSTRLEN - 1 then refuse
    else
      let n := (len % 2 ^ 64).toNat
      if n + 1 ≤ UV_INET6_ADDRSTRLEN ∧ n ≤ src.length then pure (src.take n ++ [0])
      else undefined

/-- The state is what `dst` points to; `none` is `NULL`. -/
def inetPton (af : ℤ) (src : Option (List UInt8)) : Cmd (Option (List UInt8)) ℤ := do
  let dst ← get
  match src, dst with
  | some src, some dst =>
    if af = AF_INET then
      let (ret, dst) ← (inetPton4 src 0).run dst
      set (some dst)
      return ret
    else if af = AF_INET6 then
      match ← (cutZone src).run with
      | .error ret => return ret
      | .ok s =>
        let (ret, dst) ← (inetPton6 s 0).run dst
        set (some dst)
        return ret
    else return -1
  | _, _ => return -1

/-! ## `inet_ntop4` -/

/-- `"%u.%u.%u.%u"` -/
def dotted (a b c d : UInt8) : List UInt8 :=
  decimal a ++ dot :: (decimal b ++ dot :: (decimal c ++ dot :: decimal d))

/-- The cells that `strncpy(dst, tmp, size)` writes. -/
def strncpy (tmp : List UInt8) (size : ℕ) : List UInt8 :=
  ((tmp.takeWhile (· ≠ 0)).take size).rightpad size 0

/-- The four bytes are read from offset `i` of `src`; `dst` is an offset in the block that is the
state. -/
def inetNtop4 (src : List UInt8) (i dst : ℕ) (size : UInt32) : Cmd (List UInt8) ℤ := do
  let a ← src[i]?
  let b ← src[i + 1]?
  let c ← src[i + 2]?
  let d ← src[i + 3]?
  let l : ℤ := (dotted a b c d).length
  let tmp := (dotted a b c d).take (UV_INET_ADDRSTRLEN - 1) ++ [0]
  if l ≤ 0 ∨ l ≥ size.toNat then return -1
  let cells ← store (← get) dst (strncpy tmp size.toNat)
  let cells ← store cells (dst + (size.toNat - 1)) [0]
  set cells
  return 0

/-! ## `inet_ntop6` -/

/-- `struct { int base, len; }` -/
structure Run where
  base : ℤ
  len : ℤ

/-- The loop that copies the bytes into words. -/
def packWords (src : List UInt8) : Option (List ℕ) :=
  (List.range 16).foldlM
    (fun words i ↦ do
      let byte ← src[i]?
      return words.modify (i / 2) (· ||| byte.toNat <<< ((1 - i % 2) <<< 3)))
    (List.replicate 8 0)

/-- `best` after the run `cur` has come to its end. -/
def better (best cur : Run) : Run :=
  if best.base = -1 ∨ cur.len > best.len then cur else best

/-- The run `cur` has come to its end, if there was one. -/
def endRun (best cur : Run) : Run := if cur.base ≠ -1 then better best cur else best

/-- The loop that finds runs of zero words; the results are `best` and `cur`. -/
def scanRuns : List ℕ → ℤ → Run → Run → Run × Run
  | [], _, best, cur => (best, cur)
  | word :: words, i, best, cur =>
    if word = 0 then
      if cur.base = -1 then scanRuns words (i + 1) best ⟨i, 1⟩
      else scanRuns words (i + 1) best { cur with len := cur.len + 1 }
    else if cur.base ≠ -1 then scanRuns words (i + 1) (better best cur) { cur with base := -1 }
    else scanRuns words (i + 1) best cur

/-- A run of one word is written as it is. -/
def dropShort (best : Run) : Run :=
  if best.base ≠ -1 ∧ best.len < 2 then { best with base := -1 } else best

def bestRun (words : List ℕ) : Run :=
  let runs := scanRuns words 0 ⟨-1, 0⟩ ⟨-1, 0⟩
  dropShort (endRun runs.1 runs.2)

/-- Appends to the cells of `tmp` that were written. -/
def emit (tmp xs : List UInt8) : Option (List UInt8) :=
  if tmp.length + xs.length ≤ UV_INET6_ADDRSTRLEN then some (tmp ++ xs) else none

/-- `sprintf(tp, "%x", word)`, which also writes a terminator. -/
def sprintf (tmp : List UInt8) (word : ℕ) : Option (List UInt8) :=
  if tmp.length + (hex word).length + 1 ≤ UV_INET6_ADDRSTRLEN then some (tmp ++ hex word) else none

/-- Is this address an encapsulated IPv4? -/
def Encapsulated (words : List ℕ) (best : Run) : Prop :=
  best.base = 0 ∧ (best.len = 6 ∨ best.len = 7 ∧ words[7]? ≠ some 1 ∨
    best.len = 5 ∧ words[5]? = some 0xffff)

instance (words : List ℕ) (best : Run) : Decidable (Encapsulated words best) := by
  unfold Encapsulated
  infer_instance

/-- `inet_ntop4(src + 12, tp, sizeof tmp - (tp - tmp))`, and `tp += strlen(tp)` after it. -/
def appendDotted (src tmp : List UInt8) : Code (List UInt8) := do
  let room := UV_INET6_ADDRSTRLEN - tmp.length
  -- every cell of the rest of `tmp` is written before it is read
  let (err, cells) ← (inetNtop4 src 12 0 (.ofNat room)).run (List.replicate room 0)
  if err ≠ 0 then throw err
  else
    let n ← strlen cells
    pure (tmp ++ cells.take n)

/-- The loop over the words from index `i` on. -/
def formatLoop (src : List UInt8) (words : List ℕ) (best : Run) :
    List ℕ → ℕ → List UInt8 → Code (List UInt8)
  | [], _, tmp => pure tmp
  | word :: rest, i, tmp =>
    if best.base ≠ -1 ∧ i ≥ best.base ∧ i < best.base + best.len then
      if i = best.base then do
        let tmp ← emit tmp [colon]
        formatLoop src words best rest (i + 1) tmp
      else formatLoop src words best rest (i + 1) tmp
    else do
      let tmp ← if i ≠ 0 then emit tmp [colon] else pure tmp
      if i = 6 ∧ Encapsulated words best then appendDotted src tmp
      else
        let tmp ← sprintf tmp word
        formatLoop src words best rest (i + 1) tmp

/-- What is in `tmp` when its length is compared with `size`. -/
def inetNtop6Tmp (src : List UInt8) : Code (List UInt8) := do
  let words ← packWords src
  let best := bestRun words
  let tmp ← formatLoop src words best words 0 []
  let tmp ← if best.base ≠ -1 ∧ best.base + best.len = 8 then emit tmp [colon] else pure tmp
  let tmp ← emit tmp [0]
  pure tmp

def inetNtop6 (src : List UInt8) (size : UInt32) : Cmd (List UInt8) ℤ := do
  match ← (inetNtop6Tmp src).run with
  | .error ret => return ret
  | .ok tmp =>
    if tmp.length > size.toNat then return -1
    let n ← strlen tmp
    set (← memcpy (← get) 0 tmp 0 (n + 1))
    return 0

/-- The state is the block that `dst` points to. -/
def inetNtop (af : ℤ) (src : List UInt8) (size : UInt32) : Cmd (List UInt8) ℤ :=
  if af = AF_INET then inetNtop4 src 0 0 size
  else if af = AF_INET6 then inetNtop6 src size
  else return -1

end Zbaselib.Inet
