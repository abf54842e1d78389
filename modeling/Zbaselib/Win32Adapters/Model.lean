import Zbaselib.Lib.Memory
import Zbaselib.Lib.Block

/-!
# The network adapters of Windows, as `zbaselib_socket.c` lists them

`uv_interface_addresses` walks the adapters twice: first it counts what to
report, then it fills one block, in which the names stand behind the array of
the addresses and the addresses point at them.  What Windows and the allocator
answer are arguments.  Counts and sizes do not wrap.
-/

namespace Zbaselib.Win32Adapters

open Program Memory Block

variable {α : Type}

def AF_INET6 : ℕ := 23

def INT_MAX : ℕ := 2 ^ 31 - 1

/-- `struct sockaddr`; what stands behind the family is only copied. -/
structure SockAddr (α : Type) where
  family : ℕ
  payload : α

/-- `IP_ADAPTER_ADDRESSES`, with the lists that hang on it. -/
structure Adapter (α : Type) where
  operStatusUp : Bool
  friendlyName : List UInt16
  unicast : List (SockAddr α)
  prefixLengths : List UInt32
  physicalAddress : List UInt8
  softwareLoopback : Bool

/-- The bytes of the mask in memory. -/
inductive Netmask
  | netmask4 (bytes : List UInt8)
  | netmask6 (bytes : List UInt8)

/-- `uv_interface_address_t`; the name is an offset into the names of the block. -/
structure Entry (α : Type) where
  name : ℕ
  physAddr : List UInt8
  isInternal : Bool
  address : SockAddr α
  netmask : Netmask

/-- What `malloc` hands out here: the buffer of Windows, or the array with the names behind it.  An
element of the array that was not written yet is `none`. -/
inductive Chunk (α : Type)
  | adapters
  | addresses (entries : List (Option (Entry α))) (names : List UInt8)

abbrev AdapterCmd (α : Type) := HeapCmd (Chunk α) Unit

/-- The conversion to UTF-8, without the terminator; an `int` holds the size. -/
structure Utf8 where
  convert : List UInt16 → Option (List UInt8)
  nul : ∀ name text, convert name = some text → 0 ∉ text
  fits : ∀ name text, convert name = some text → text.length + 1 ≤ INT_MAX

/-- `WideCharToMultiByte(CP_UTF8, 0, name, -1, dst, room, NULL, FALSE)`: the size, and the bytes
that were written.  Without room it only answers the size, with too little room it fails. -/
def wideCharToMultiByte (utf8 : Utf8) (name : List UInt16) (room : ℕ) :
    Option (ℕ × List UInt8) :=
  (utf8.convert name).bind fun text ↦
    if room = 0 then some (text.length + 1, [])
    else if text.length + 1 ≤ room then some (text.length + 1, text ++ [0])
    else none

/-- What `GetAdaptersAddresses` answers, with the address that `malloc` answers in return. -/
inductive Answer (α : Type)
  | success (adapters : List (Adapter α))
  | bufferOverflow (p : Ptr)
  | noData (p : Ptr)
  | error

/-- The return value, and the array and its length where they are handed out. -/
structure Result where
  ret : ℤ
  out : Option (Ptr × ℕ)
  deriving DecidableEq

/-- The loop that asks Windows with a larger buffer each time.  There is no outcome when the answers
run out. -/
def getAdapters (fresh : ℕ → UInt8) (winAddressBuf : Ptr) :
    List (Answer α) → AdapterCmd α (Ptr × List (Adapter α) ⊕ Result)
  | [] => failure
  | .success adapters :: _ => return .inl (winAddressBuf, adapters)
  | .bufferOverflow p :: answers => do
    free winAddressBuf
    let winAddressBuf ← calloc p .adapters
    if winAddressBuf = NULL then return .inr ⟨-1, none⟩
    else getAdapters fresh winAddressBuf answers
  | .noData p :: _ => do
    free winAddressBuf
    let uvAddressBuf ← calloc p (.addresses [] [fresh 0])
    if uvAddressBuf = NULL then return .inr ⟨-1, none⟩
    else return .inr ⟨0, some (uvAddressBuf, 0)⟩
  | .error :: _ => do
    free winAddressBuf
    return .inr ⟨-1, none⟩

/-- Adapters that are up and have an address are reported. -/
def Adapter.reported (a : Adapter α) : Bool := a.operStatusUp && !a.unicast.isEmpty

/-- The first walk: the number of addresses and the bytes of the names. -/
def countAdapters (utf8 : Utf8) (count size : ℕ) : List (Adapter α) → Option (ℕ × ℕ)
  | [] => some (count, size)
  | winAddress :: rest =>
    if winAddress.reported then
      match wideCharToMultiByte utf8 winAddress.friendlyName 0 with
      | none => none
      | some (nameSize, _) =>
        countAdapters utf8 (count + winAddress.unicast.length) (size + nameSize) rest
    else
      countAdapters utf8 count size rest

/-! ## Masks -/

/-- The bytes of `s_addr`, which is in network byte order. -/
def htonl (v : UInt32) : List UInt8 :=
  [(v >>> 24).toUInt8, (v >>> 16).toUInt8, (v >>> 8).toUInt8, v.toUInt8]

def netmask4 (prefixLen : UInt32) : AdapterCmd α Netmask := do
  require (32 - prefixLen < 32)
  return .netmask4 (htonl (0xffffffff <<< (32 - prefixLen)))

def netmask6 (prefixLen : UInt32) : AdapterCmd α Netmask := do
  let i := (prefixLen >>> 3).toNat
  require (i ≤ 16)
  let bytes := splice (List.replicate 16 0) 0 (List.replicate i 0xff)
  require (i < 16)
  return .netmask6 (bytes.set i (UInt8.ofNat (0xff <<< (8 - prefixLen % 8).toNat)))

/-- The mask in the kind of address that it belongs to. -/
def netmaskFor (sa : SockAddr α) (prefixLen : UInt32) : AdapterCmd α Netmask :=
  if sa.family = AF_INET6 then netmask6 prefixLen else netmask4 prefixLen

/-! ## The second walk -/

def storeEntry (p : Ptr) (i : ℕ) (entry : Entry α) : AdapterCmd α Unit := do
  match ← load p with
  | .addresses entries names =>
    require (i < entries.length)
    update p fun _ ↦ .addresses (entries.set i (some entry)) names
  | .adapters => failure

/-- The addresses of one adapter, with the prefixes in tandem. -/
def fillAddresses (uvAddressBuf : Ptr) (winAddress : Adapter α) (nameBuf uvAddress : ℕ) :
    List (SockAddr α) → List UInt32 → AdapterCmd α ℕ
  | sa :: unicast, prefixLen :: prefixLengths => do
    let netmask ← netmaskFor sa prefixLen
    storeEntry uvAddressBuf uvAddress {
      name := nameBuf
      physAddr := if winAddress.physicalAddress.length = 6 then winAddress.physicalAddress
        else List.replicate 6 0
      isInternal := winAddress.softwareLoopback
      address := sa
      netmask }
    fillAddresses uvAddressBuf winAddress nameBuf (uvAddress + 1) unicast prefixLengths
  | _, _ => return uvAddress

/-- The name goes behind the names that are there; `none` when it cannot be converted. -/
def storeName (utf8 : Utf8) (p : Ptr) (name : List UInt16) (nameBuf : ℕ) :
    AdapterCmd α (Option ℕ) := do
  match ← load p with
  | .addresses entries names =>
    match wideCharToMultiByte utf8 name (min (names.length - nameBuf) INT_MAX) with
    | none => return none
    | some (nameSize, bytes) =>
      let names ← memcpy names nameBuf bytes 0 bytes.length
      update p fun _ ↦ .addresses entries names
      return some nameSize
  | .adapters => failure

def fillAdapters (utf8 : Utf8) (uvAddressBuf : Ptr) (nameBuf uvAddress : ℕ) :
    List (Adapter α) → AdapterCmd α Bool
  | [] => return true
  | winAddress :: rest =>
    if winAddress.reported then do
      match ← storeName utf8 uvAddressBuf winAddress.friendlyName nameBuf with
      | none => return false
      | some nameSize =>
        let uvAddress ← fillAddresses uvAddressBuf winAddress nameBuf uvAddress
          winAddress.unicast winAddress.prefixLengths
        fillAdapters utf8 uvAddressBuf (nameBuf + nameSize) uvAddress rest
    else
      fillAdapters utf8 uvAddressBuf nameBuf uvAddress rest

/-- What is done with the list of the adapters; `p` is the address that `malloc` answers, `fresh`
what stands in the new block. -/
def reportAdapters (utf8 : Utf8) (p : Ptr) (fresh : ℕ → UInt8) (winAddressBuf : Ptr)
    (adapters : List (Adapter α)) : AdapterCmd α Result := do
  match countAdapters utf8 0 0 adapters with
  | none =>
    free winAddressBuf
    return ⟨-1, none⟩
  | some (count, size) =>
    let uvAddressBuf ← calloc p
      (.addresses (List.replicate count none) ((List.range size).map fresh))
    if uvAddressBuf = NULL then
      free winAddressBuf
      return ⟨-1, none⟩
    else
      let filled ← fillAdapters utf8 uvAddressBuf 0 0 adapters
      free winAddressBuf
      if filled then
        return ⟨0, some (uvAddressBuf, count)⟩
      else
        free uvAddressBuf
        return ⟨-1, none⟩

def uvInterfaceAddresses (utf8 : Utf8) (answers : List (Answer α)) (p : Ptr) (fresh : ℕ → UInt8) :
    AdapterCmd α Result := do
  match ← getAdapters fresh NULL answers with
  | .inl (winAddressBuf, adapters) => reportAdapters utf8 p fresh winAddressBuf adapters
  | .inr result => return result

def uvFreeInterfaceAddresses (addresses : Ptr) : AdapterCmd α Unit := free addresses

end Zbaselib.Win32Adapters
