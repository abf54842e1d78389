import Zbaselib.Lib.Block
import Zbaselib.Lib.CString
import Zbaselib.Lib.Memory

/-!
# Paths and directories on Windows

`opendir`, `readdir` and `closedir` of POSIX over `FindFirstFileW`,
`FindNextFileW` and `FindClose`.  The path goes through a buffer of `MAX_PATH`
characters, in which the separators are unified in place.  The buffer starts
out with arbitrary contents and an access outside of it has no outcome.
-/

namespace Zbaselib.Win32Dir

open Program Block CString Memory

/-! ## Paths -/

def MAX_PATH : ℕ := 260

def slash : UInt8 := Char.toUInt8 '/'

def backslash : UInt8 := Char.toUInt8 '\\'

def colon : UInt8 := Char.toUInt8 ':'

/-- The array `path`. -/
abbrev PathCmd := Cmd (List UInt8)

/-- `path[i]` -/
def loadAt (i : ℤ) : PathCmd UInt8 := do
  require (0 ≤ i)
  let c ← (← get)[i.toNat]?
  return c

/-- `path[i] = c` -/
def storeAt (i : ℤ) (c : UInt8) : PathCmd Unit := do
  let _ ← loadAt i
  modify fun path ↦ path.set i.toNat c

/-- `strlen(path + i)` -/
def strlen (i : ℕ) : PathCmd ℕ := do
  let s ← cstring ((← get).drop i)
  return s.length

/-- `memmove(path + dst, path + src, n)` -/
def memmove (dst src n : ℕ) : PathCmd Unit := do
  let path ← get
  set (← memcpy path dst path src n)

/-- One iteration of the inner loop, which removes a separator behind the one at `i`. -/
def closeUpBody (i : ℕ) : PathCmd (Unit ⊕ Unit) := do
  let c ← loadAt (i + 1)
  if c = backslash ∨ c = slash then
    memmove (i + 1) (i + 2) (← strlen (i + 1))
    return .inl ()
  else
    return .inr ()

/-- `if (path[i] == '/') path[i] = '\\'` -/
def unify (i : ℕ) : PathCmd Unit := do
  if (← loadAt i) = slash then
    storeAt i backslash

/-- The inner loop.  Two separators at the beginning stay, as in `\\server\file.txt`. -/
def closeUp (fuel i : ℕ) : PathCmd Unit := do
  if (← loadAt i) = backslash ∧ i > 0 then
    loop (fun _ ↦ closeUpBody i) fuel ()

/-- One iteration of the outer loop. -/
def fixBody (fuel i : ℕ) : PathCmd (ℕ ⊕ Unit) := do
  if (← loadAt i) = 0 then
    return .inr ()
  else
    unify i
    closeUp fuel i
    return .inl (i + 1)

def fixDirectorySeparators : PathCmd Unit := do
  let fuel := (← get).length + 1
  loop (fixBody fuel) fuel 0

/-- One iteration of the loop that trims backslashes off the end. -/
def trimBody (p : ℤ) : PathCmd (ℤ ⊕ ℤ) := do
  if p > 0 then
    if (← loadAt p) = backslash then
      if (← loadAt (p - 1)) ≠ colon then
        storeAt p 0
        return .inl (p - 1)
      else
        return .inr p
    else
      return .inr p
  else
    return .inr p

/-- A space, a dot, a plus or a character outside of ASCII. -/
def suspicious (c : UInt8) : Prop := c = 0x20 ∨ c = 0x2e ∨ c = 0x2b ∨ c &&& ~~~0x7f ≠ 0

instance (c : UInt8) : Decidable (suspicious c) := inferInstanceAs (Decidable (_ ∨ _ ∨ _ ∨ _))

/-- `if (*p == 0x20 || …) buf[0] = '\0'` -/
def reject (p : ℤ) : PathCmd Unit := do
  if suspicious (← loadAt p) then
    storeAt 0 0

/-- `to_unicode` up to the conversion: the text that it passes to `MultiByteToWideChar`. -/
def toUnicode (path : List UInt8) : PathCmd (List UInt8) := do
  -- `strncpy(buf, path, sizeof(buf))`
  set (path.take MAX_PATH ++ List.replicate (MAX_PATH - path.length) 0)
  fixDirectorySeparators
  let n ← strlen 0
  let p ← loop trimBody (n + 1) ((n : ℤ) - 1)
  reject p
  let text ← cstring (← get)
  return text

/-! ## Directories -/

/-- The name of a file, in UTF-16. -/
abbrev Name := List UInt16

/-- `DIR`.  Without a handle it is `INVALID_HANDLE_VALUE`, and `info` is what the search found last
if it found anything. -/
structure DIR where
  handle : Option Ptr
  info : Option Name
  deriving DecidableEq

/-- The conversions that the code calls.  `WideCharToMultiByte` may find no room in `d_name`. -/
structure Windows where
  multiByteToWideChar : List UInt8 → Name
  wideCharToMultiByte : Name → Option (List UInt8)

/-- The `DIR`s on the heap, and the searches that are open with what they have yet to find. -/
abbrev DirCmd := HeapCmd DIR (Heap (List Name))

/-- `FindFirstFileW`, with the handle for a search that finds something and all that it finds. -/
def findFirstFileW (h : Ptr) (found : List Name) : DirCmd DIR := do
  match found with
  | [] => return ⟨none, none⟩
  | name :: rest =>
    require (h ≠ NULL ∧ (← getVars).cell h = none)
    modifyVars (Heap.insert · h rest)
    return ⟨some h, some name⟩

/-- `FindClose`, with its answer.  A search that it does not close stays open. -/
def findClose (h : Ptr) (closed : Bool) : DirCmd Bool := do
  require ((← getVars).cell h ≠ none)
  modifyVars fun searches ↦ if closed then searches.erase h else searches
  return closed

/-- `FindNextFileW`, with what it puts into `info`. -/
def findNextFileW (h : Ptr) : DirCmd (Option Name) := do
  match (← getVars).cell h with
  | some (name :: rest) =>
    modifyVars (Heap.update · h fun _ ↦ rest)
    return some name
  | some [] => return none
  | none => failure

/-- `opendir`, with the answers of `malloc`, of `GetFileAttributesW` and of the search. -/
def opendir (w : Windows) (name : Option (List UInt8)) (p : Ptr) (isDirectory : Bool) (h : Ptr)
    (found : List Name) : DirCmd Ptr := do
  match name with
  | none => return NULL
  | some name =>
    let dir ← calloc p ⟨none, none⟩
    if dir = NULL then
      return NULL
    else
      match (toUnicode name).run [] with
      | some (text, _) =>
        if isDirectory then
          -- `wcscat(wpath, L"\\*")`
          require ((w.multiByteToWideChar text).length + 3 ≤ MAX_PATH)
          let record ← findFirstFileW h found
          update dir fun _ ↦ record
          return dir
        else
          free dir
          return NULL
      | none => failure

/-- `readdir`, with the answer of `FindClose`: `d_name` of the entry it returns. -/
def readdir (w : Windows) (dir : Ptr) (closed : Bool) : DirCmd (Option (Option (List UInt8))) := do
  if dir = NULL then
    return none
  else
    let thiz ← load dir
    match thiz.handle, thiz.info with
    | some h, some info =>
      match ← findNextFileW h with
      | some next => update dir fun thiz ↦ { thiz with info := some next }
      | none =>
        let _ ← findClose h closed
        update dir fun thiz ↦ { thiz with handle := none }
      return some (w.wideCharToMultiByte info)
    | some _, none => failure
    | none, _ => return none

/-- `closedir`, with the answer of `FindClose`. -/
def closedir (dir : Ptr) (closed : Bool) : DirCmd ℤ := do
  if dir = NULL then
    return -1
  else
    let thiz ← load dir
    let result ← match thiz.handle with
      | some h =>
        if ← findClose h closed then
          pure 0
        else
          pure (-1)
      | none => pure 0
    free dir
    return result

end Zbaselib.Win32Dir
