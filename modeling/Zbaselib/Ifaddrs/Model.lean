import Zbaselib.Lib.Program

/-!
# The interfaces of Linux, as `zbaselib_socket.c` lists them

`uv_interface_addresses` walks the list of `getifaddrs` three times: to count,
to fill an array, and to put the hardware addresses beside the names that they
belong to.  What `getifaddrs`, `malloc` and `strdup` answer are arguments.  The
count does not wrap.
-/

namespace Zbaselib.Ifaddrs

open Program

def AF_INET6 : ℕ := 10

def PF_PACKET : ℕ := 17

/-- `struct sockaddr`, with the bytes behind the family. -/
structure SockAddr where
  family : ℕ
  bytes : List UInt8
  deriving DecidableEq

/-- As much as a `struct sockaddr_in6` or a `struct sockaddr_in` holds. -/
def SockAddr.copy (sa : SockAddr) : SockAddr :=
  { sa with bytes := sa.bytes.take (if sa.family = AF_INET6 then 26 else 14) }

/-- The first six bytes of `sll_addr`. -/
def SockAddr.sllAddr (sa : SockAddr) : List UInt8 := (sa.bytes.drop 10).take 6

/-- `struct ifaddrs`, with the flags that are tested. -/
structure Ifaddr where
  name : List UInt8
  up : Bool
  running : Bool
  loopback : Bool
  addr : Option SockAddr
  netmask : Option SockAddr

/-- `uv_interface_address_t`.  The name is `none` when `strdup` failed, the hardware address when it
was not written. -/
structure Entry where
  name : Option (List UInt8)
  physAddr : Option (List UInt8)
  isInternal : Bool
  address : SockAddr
  netmask : SockAddr
  deriving DecidableEq

/-- `*addresses` with what was written of it, `*count`, and whether the list of `getifaddrs` is
allocated. -/
structure State where
  addresses : Option (List (Option Entry))
  count : ℕ
  listed : Bool
  deriving DecidableEq

abbrev IfaddrCmd := Cmd State

/-- The address of an interface that is up, of a family that satisfies `p`. -/
def Ifaddr.addrIf (p : ℕ → Bool) (ent : Ifaddr) : Option SockAddr :=
  if ent.up && ent.running then ent.addr.filter fun sa ↦ p sa.family else none

def Ifaddr.reported : Ifaddr → Option SockAddr := Ifaddr.addrIf fun family ↦ family ≠ PF_PACKET

def Ifaddr.packet : Ifaddr → Option SockAddr := Ifaddr.addrIf fun family ↦ family = PF_PACKET

def countInterfaces : List Ifaddr → IfaddrCmd Unit
  | [] => return ()
  | ent :: rest => do
    modify fun s ↦ if ent.reported.isSome then { s with count := s.count + 1 } else s
    countInterfaces rest

def storeEntry (i : ℕ) (entry : Entry) : IfaddrCmd Unit := do
  let entries ← (← get).addresses
  require (i < entries.length)
  modify fun s ↦ { s with addresses := some (entries.set i (some entry)) }

/-- `duplicate` says which calls of `strdup` have memory. -/
def fillInterfaces (duplicate : ℕ → Bool) (address : ℕ) : List Ifaddr → IfaddrCmd Unit
  | [] => return ()
  | ent :: rest =>
    match ent.reported with
    | none => fillInterfaces duplicate address rest
    | some addr => do
      -- `ent->ifa_netmask->sa_family`
      let netmask ← ent.netmask
      storeEntry address {
        name := if duplicate address then some ent.name else none
        physAddr := none
        isInternal := ent.loopback
        address := addr.copy
        netmask := netmask.copy }
      fillInterfaces duplicate (address + 1) rest

/-- `strcmp(address->name, ent->ifa_name)`, and what follows when they are equal. -/
def fillMatching (name hw : List UInt8) (i : ℕ) : IfaddrCmd Unit := do
  let entries ← (← get).addresses
  let entry ← (entries[i]?).join
  let text ← entry.name
  if text = name then
    storeEntry i { entry with physAddr := some hw }

def fillPhysical (name hw : List UInt8) (i : ℕ) : ℕ → IfaddrCmd Unit
  | 0 => return ()
  | n + 1 => do
    fillMatching name hw i
    fillPhysical name hw (i + 1) n

def fillPackets : List Ifaddr → IfaddrCmd Unit
  | [] => return ()
  | ent :: rest =>
    match ent.packet with
    | none => fillPackets rest
    | some sll => do
      fillPhysical ent.name sll.sllAddr 0 (← get).count
      fillPackets rest

/-- `memory` says whether `malloc` succeeds. -/
def uvInterfaceAddresses (getifaddrs : Option (List Ifaddr)) (memory : Bool)
    (duplicate : ℕ → Bool) : IfaddrCmd ℤ :=
  match getifaddrs with
  | none => return -1
  | some addrs => do
    modify fun s ↦ { s with count := 0, listed := true }
    countInterfaces addrs
    if memory then
      modify fun s ↦ { s with addresses := some (List.replicate s.count none) }
      fillInterfaces duplicate 0 addrs
      fillPackets addrs
      -- `freeifaddrs(addrs)`
      modify fun s ↦ { s with listed := false }
      return 0
    else
      modify fun s ↦ { s with addresses := none }
      return -1

end Zbaselib.Ifaddrs
