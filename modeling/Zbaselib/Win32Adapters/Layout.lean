import Zbaselib.Win32Adapters.Model
import Zbaselib.Lib.CString

/-!
# The block that the adapters are listed in

Both walks agree on the adapters and on the sizes of their names, so that the
second one stays inside the block that the first one measured.  It pairs the
addresses of an adapter with its prefixes: the block has room for all addresses,
and the entries behind the last pair are never written.
-/

namespace Zbaselib.Win32Adapters

open Program Memory Block

variable {α : Type}

/-! ## What is to be listed -/

/-- The mask of this length stays inside its address, and all its shifts inside their words. -/
def MaskDefined (sa : SockAddr α) (len : UInt32) : Prop :=
  if sa.family = AF_INET6 then len.toNat < 128 else 1 ≤ len.toNat ∧ len.toNat ≤ 32

instance (sa : SockAddr α) (len : UInt32) : Decidable (MaskDefined sa len) :=
  inferInstanceAs (Decidable (ite _ _ _))

/-- An adapter with one of its addresses, and the prefix that stands beside the address. -/
structure Pair (α : Type) where
  adapter : Adapter α
  sa : SockAddr α
  len : UInt32

def Pair.Defined (x : Pair α) : Prop := MaskDefined x.sa x.len

instance (x : Pair α) : Decidable x.Defined := inferInstanceAs (Decidable (MaskDefined _ _))

def Adapter.pairs (a : Adapter α) : List (Pair α) :=
  List.zipWith (Pair.mk a) a.unicast a.prefixLengths

def pairs (adapters : List (Adapter α)) : List (Pair α) :=
  (adapters.filter Adapter.reported).flatMap Adapter.pairs

/-- The number of elements that the array gets. -/
def addressCount (adapters : List (Adapter α)) : ℕ :=
  ((adapters.filter Adapter.reported).map fun a ↦ a.unicast.length).sum

/-- The names of the adapters that are reported can be converted. -/
def Convertible (utf8 : Utf8) (adapters : List (Adapter α)) : Prop :=
  ∀ a ∈ adapters, a.reported → (utf8.convert a.friendlyName).isSome

/-! ## What is written -/

def nameText (utf8 : Utf8) (a : Adapter α) : List UInt8 := (utf8.convert a.friendlyName).getD []

/-- The names behind the array. -/
def nameBytes (utf8 : Utf8) (adapters : List (Adapter α)) : List UInt8 :=
  (adapters.filter Adapter.reported).flatMap fun a ↦ nameText utf8 a ++ [0]

def maskBytes6 (len : UInt32) : List UInt8 :=
  (List.replicate (len.toNat / 8) (0xff : UInt8) ++ List.replicate (16 - len.toNat / 8) 0).set
    (len.toNat / 8) (UInt8.ofNat (0xff <<< (8 - len.toNat % 8)))

def maskOf (sa : SockAddr α) (len : UInt32) : Netmask :=
  if sa.family = AF_INET6 then .netmask6 (maskBytes6 len)
  else .netmask4 (htonl (0xffffffff <<< (32 - len)))

/-- The six bytes of a hardware address, zeros when it has another length. -/
def Adapter.physAddr (a : Adapter α) : List UInt8 :=
  if a.physicalAddress.length = 6 then a.physicalAddress else List.replicate 6 0

def Pair.entry (x : Pair α) (nameBuf : ℕ) : Entry α where
  name := nameBuf
  physAddr := x.adapter.physAddr
  isInternal := x.adapter.softwareLoopback
  address := x.sa
  netmask := maskOf x.sa x.len

/-- The entries, when the first name is put at this offset. -/
def entriesFrom (utf8 : Utf8) (nameBuf : ℕ) : List (Adapter α) → List (Entry α)
  | [] => []
  | a :: rest =>
    if a.reported then
      a.pairs.map (fun x ↦ x.entry nameBuf) ++
        entriesFrom utf8 (nameBuf + (nameText utf8 a ++ [0]).length) rest
    else
      entriesFrom utf8 nameBuf rest

section

variable {utf8 : Utf8} {a : Adapter α} {adapters : List (Adapter α)}

theorem pairs_cons_of_pos (h : a.reported = true) :
    pairs (a :: adapters) = a.pairs ++ pairs adapters := by
  unfold pairs
  rw [List.filter_cons_of_pos h, List.flatMap_cons]

theorem pairs_cons_of_neg (h : ¬a.reported = true) : pairs (a :: adapters) = pairs adapters := by
  unfold pairs
  rw [List.filter_cons_of_neg h]

theorem addressCount_cons_of_pos (h : a.reported = true) :
    addressCount (a :: adapters) = a.unicast.length + addressCount adapters := by
  unfold addressCount
  rw [List.filter_cons_of_pos h, List.map_cons, List.sum_cons]

theorem addressCount_cons_of_neg (h : ¬a.reported = true) :
    addressCount (a :: adapters) = addressCount adapters := by
  unfold addressCount
  rw [List.filter_cons_of_neg h]

theorem nameBytes_cons_of_pos (h : a.reported = true) :
    nameBytes utf8 (a :: adapters) = (nameText utf8 a ++ [0]) ++ nameBytes utf8 adapters := by
  unfold nameBytes
  rw [List.filter_cons_of_pos h, List.flatMap_cons]

theorem nameBytes_cons_of_neg (h : ¬a.reported = true) :
    nameBytes utf8 (a :: adapters) = nameBytes utf8 adapters := by
  unfold nameBytes
  rw [List.filter_cons_of_neg h]

theorem entriesFrom_cons_of_pos (h : a.reported = true) (nameBuf : ℕ) :
    entriesFrom utf8 nameBuf (a :: adapters) = a.pairs.map (fun x ↦ x.entry nameBuf) ++
      entriesFrom utf8 (nameBuf + (nameText utf8 a ++ [0]).length) adapters := if_pos h

theorem entriesFrom_cons_of_neg (h : ¬a.reported = true) (nameBuf : ℕ) :
    entriesFrom utf8 nameBuf (a :: adapters) = entriesFrom utf8 nameBuf adapters := if_neg h

theorem convertible_cons :
    Convertible utf8 (a :: adapters) ↔
      (a.reported → (utf8.convert a.friendlyName).isSome) ∧ Convertible utf8 adapters := by
  unfold Convertible
  rw [List.forall_mem_cons]

theorem length_pairs_le : (pairs adapters).length ≤ addressCount adapters := by
  induction adapters with
  | nil => exact le_rfl
  | cons a adapters ih =>
    by_cases ha : a.reported = true
    · rw [pairs_cons_of_pos ha, addressCount_cons_of_pos ha, List.length_append]
      have hle : a.pairs.length ≤ a.unicast.length := by
        unfold Adapter.pairs
        rw [List.length_zipWith]
        exact min_le_left _ _
      omega
    · rw [pairs_cons_of_neg ha, addressCount_cons_of_neg ha]
      exact ih

end

/-! ## The first walk -/

theorem convert_eq_nameText {utf8 : Utf8} {a : Adapter α}
    (h : (utf8.convert a.friendlyName).isSome) :
    utf8.convert a.friendlyName = some (nameText utf8 a) := by
  obtain ⟨text, htext⟩ := Option.isSome_iff_exists.1 h
  unfold nameText
  rw [htext, Option.getD_some]

theorem countAdapters_of_convertible {utf8 : Utf8} {adapters : List (Adapter α)}
    (h : Convertible utf8 adapters) (count size : ℕ) :
    countAdapters utf8 count size adapters =
      some (count + addressCount adapters, size + (nameBytes utf8 adapters).length) := by
  induction adapters generalizing count size with
  | nil => rfl
  | cons a adapters ih =>
    obtain ⟨hname, hrest⟩ := convertible_cons.1 h
    unfold countAdapters
    by_cases ha : a.reported = true
    · rw [if_pos ha, wideCharToMultiByte, convert_eq_nameText (hname ha)]
      simp only [Option.bind_some, if_true]
      rw [ih hrest, addressCount_cons_of_pos ha, nameBytes_cons_of_pos ha]
      simp only [List.length_append, List.length_singleton, Option.some.injEq, Prod.mk.injEq]
      omega
    · rw [if_neg ha, ih hrest, addressCount_cons_of_neg ha, nameBytes_cons_of_neg ha]

theorem countAdapters_of_not_convertible {utf8 : Utf8} {adapters : List (Adapter α)}
    (h : ¬Convertible utf8 adapters) (count size : ℕ) :
    countAdapters utf8 count size adapters = none := by
  induction adapters generalizing count size with
  | nil => exact absurd (by simp [Convertible]) h
  | cons a adapters ih =>
    unfold countAdapters
    by_cases ha : a.reported = true
    · rw [if_pos ha, wideCharToMultiByte]
      cases hname : utf8.convert a.friendlyName with
      | none => rfl
      | some text =>
        simp only [Option.bind_some, if_true]
        refine ih (fun hrest ↦ h (convertible_cons.2 ⟨fun _ ↦ ?_, hrest⟩)) _ _
        rw [hname, Option.isSome_some]
    · rw [if_neg ha]
      exact ih (fun hrest ↦ h (convertible_cons.2 ⟨fun hup ↦ absurd hup ha, hrest⟩)) _ _

/-! ## Masks -/

theorem wp_netmask4 {len : UInt32} {post : Netmask → Mem (Chunk α) Unit → Prop}
    {m : Mem (Chunk α) Unit} :
    wp (netmask4 len) post m ↔ (1 ≤ len.toNat ∧ len.toNat ≤ 32) ∧
      post (.netmask4 (htonl (0xffffffff <<< (32 - len)))) m := by
  unfold netmask4
  rw [wp_bind, wp_require, wp_pure]
  refine and_congr_left fun _ ↦ ?_
  rw [UInt32.lt_iff_toNat_lt, UInt32.toNat_sub]
  have hlen := len.toNat_lt
  have h32 : (32 : UInt32).toNat = 32 := rfl
  rw [h32]
  omega

theorem wp_netmask6 {len : UInt32} {post : Netmask → Mem (Chunk α) Unit → Prop}
    {m : Mem (Chunk α) Unit} :
    wp (netmask6 len) post m ↔ len.toNat < 128 ∧ post (.netmask6 (maskBytes6 len)) m := by
  have hshift : (len >>> 3).toNat = len.toNat / 8 := by
    rw [UInt32.toNat_shiftRight, Nat.shiftRight_eq_div_pow]
    rfl
  have hmod : (len % 8).toNat = len.toNat % 8 := by
    rw [UInt32.toNat_mod]
    rfl
  have hsub : (8 - len % 8).toNat = 8 - len.toNat % 8 := by
    rw [UInt32.toNat_sub_of_le, hmod]
    · rfl
    · rw [UInt32.le_iff_toNat_le, hmod]
      exact (Nat.mod_lt _ (by decide)).le
  unfold netmask6
  simp only [wp_bind, wp_require, wp_pure, hshift, hsub]
  rw [splice_zero, List.length_replicate, List.drop_replicate]
  constructor
  · rintro ⟨-, hlt, hpost⟩
    exact ⟨by omega, hpost⟩
  · rintro ⟨hlt, hpost⟩
    exact ⟨by omega, by omega, hpost⟩

theorem wp_netmaskFor {sa : SockAddr α} {len : UInt32} {post : Netmask → Mem (Chunk α) Unit → Prop}
    {m : Mem (Chunk α) Unit} :
    wp (netmaskFor sa len) post m ↔ MaskDefined sa len ∧ post (maskOf sa len) m := by
  unfold netmaskFor MaskDefined maskOf
  by_cases hfamily : sa.family = AF_INET6
  · simp only [if_pos hfamily, wp_netmask6]
  · simp only [if_neg hfamily, wp_netmask4]

/-! ## The second walk -/

section

variable {base : Heap (Chunk α)} {p : Ptr}

/-- The memory with the block that is filled. -/
def filling (base : Heap (Chunk α)) (p : Ptr) (entries : List (Option (Entry α)))
    (names : List UInt8) : Mem (Chunk α) Unit :=
  ⟨base.insert p (.addresses entries names), ()⟩

theorem wp_load_filling (hp : p ≠ NULL) {entries : List (Option (Entry α))} {names : List UInt8}
    {post : Chunk α → Mem (Chunk α) Unit → Prop} :
    wp (load p) post (filling base p entries names) ↔
      post (.addresses entries names) (filling base p entries names) := by
  rw [wp_load, filling, Heap.cell_insert_self _ _ hp]
  simp only [Option.some.injEq, exists_eq_left']

theorem wp_update_filling (hp : p ≠ NULL) {entries entries' : List (Option (Entry α))}
    {names names' : List UInt8} {post : Unit → Mem (Chunk α) Unit → Prop} :
    wp (update p fun _ ↦ .addresses entries' names') post (filling base p entries names) ↔
      post () (filling base p entries' names') := by
  rw [wp_update, filling, Heap.cell_insert_self _ _ hp]
  dsimp only
  rw [Heap.update_insert]
  exact ⟨fun h ↦ h.2, fun h ↦ ⟨⟨_, rfl⟩, h⟩⟩

theorem wp_storeEntry (hp : p ≠ NULL) {entries : List (Option (Entry α))} {names : List UInt8}
    {i : ℕ} {entry : Entry α} {post : Unit → Mem (Chunk α) Unit → Prop} :
    wp (storeEntry p i entry) post (filling base p entries names) ↔
      i < entries.length ∧ post () (filling base p (entries.set i (some entry)) names) := by
  unfold storeEntry
  rw [wp_bind, wp_load_filling hp]
  dsimp only
  rw [wp_bind, wp_require, wp_update_filling hp]

/-- The next entry behind those that are there. -/
theorem set_written (written : List (Entry α)) (k : ℕ) (entry : Entry α) :
    (written.map some ++ List.replicate (k + 1) none).set written.length (some entry) =
      (written ++ [entry]).map some ++ List.replicate k none := by
  rw [List.set_append_right _ _ (by rw [List.length_map]), List.length_map, Nat.sub_self,
    List.replicate_succ, List.set_cons_zero, List.map_append, List.append_assoc]
  rfl

theorem wp_fillAddresses (hp : p ≠ NULL) {a : Adapter α} {nameBuf : ℕ} {names : List UInt8}
    {unicast : List (SockAddr α)} {lens : List UInt32} (written : List (Entry α)) (k : ℕ)
    (hroom : (List.zipWith (Pair.mk a) unicast lens).length ≤ k)
    {post : ℕ → Mem (Chunk α) Unit → Prop} :
    wp (fillAddresses p a nameBuf written.length unicast lens) post
        (filling base p (written.map some ++ List.replicate k none) names) ↔
      (∀ x ∈ List.zipWith (Pair.mk a) unicast lens, x.Defined) ∧
        post (written.length + (List.zipWith (Pair.mk a) unicast lens).length)
          (filling base p
            ((written ++ (List.zipWith (Pair.mk a) unicast lens).map
              fun x ↦ x.entry nameBuf).map some ++
              List.replicate (k - (List.zipWith (Pair.mk a) unicast lens).length) none) names) := by
  induction unicast generalizing lens written k with
  | nil => simp [fillAddresses]
  | cons sa unicast ih =>
    cases lens with
    | nil => simp [fillAddresses]
    | cons len lens =>
      rw [List.zipWith_cons_cons, List.length_cons] at hroom ⊢
      obtain ⟨k, rfl⟩ : ∃ k', k = k' + 1 := ⟨k - 1, by omega⟩
      have hroom' : (List.zipWith (Pair.mk a) unicast lens).length ≤ k := by omega
      have hstep := ih (written ++ [(Pair.mk a sa len).entry nameBuf]) k hroom'
      rw [List.length_append, List.length_singleton] at hstep
      unfold fillAddresses
      rw [wp_bind, wp_netmaskFor, wp_bind, wp_storeEntry hp, set_written,
        List.forall_mem_cons, and_assoc]
      refine and_congr_right fun _ ↦ ?_
      refine (and_iff_right ?_).trans (hstep.trans ?_)
      · simp only [List.length_append, List.length_map, List.length_replicate]
        omega
      rw [List.append_assoc, List.singleton_append, Nat.add_sub_add_right, List.map_cons,
        Nat.add_assoc, Nat.add_comm 1]

/-- The names that are there, and the room behind them. -/
theorem wp_storeName (hp : p ≠ NULL) {utf8 : Utf8} {a : Adapter α}
    (hname : (utf8.convert a.friendlyName).isSome) {entries : List (Option (Entry α))}
    {names room room' : List UInt8} (hroom : room.length = (nameText utf8 a ++ [0]).length)
    {post : Option ℕ → Mem (Chunk α) Unit → Prop} :
    wp (storeName utf8 p a.friendlyName names.length) post
        (filling base p entries (names ++ room ++ room')) ↔
      post (some (nameText utf8 a ++ [0]).length)
        (filling base p entries (names ++ (nameText utf8 a ++ [0]) ++ room')) := by
  have hconvert := convert_eq_nameText hname
  have hfits := utf8.fits a.friendlyName _ hconvert
  have hcall : wideCharToMultiByte utf8 a.friendlyName
      (min ((names ++ room ++ room').length - names.length) INT_MAX) =
        some ((nameText utf8 a ++ [0]).length, nameText utf8 a ++ [0]) := by
    rw [List.length_append, List.length_singleton] at hroom
    unfold wideCharToMultiByte
    rw [hconvert, Option.bind_some, List.length_append, List.length_append, if_neg (by omega),
      if_pos (by omega), List.length_append, List.length_singleton]
  unfold storeName
  rw [wp_bind, wp_load_filling hp]
  dsimp only
  rw [hcall]
  dsimp only
  rw [wp_bind, wp_memcpy, List.drop_zero, List.take_length, splice_append rfl hroom.symm, wp_bind,
    wp_update_filling hp, wp_pure]
  refine and_iff_right ⟨?_, by omega⟩
  simp only [List.length_append] at hroom ⊢
  omega

theorem wp_fillAdapters (hp : p ≠ NULL) {utf8 : Utf8} {adapters : List (Adapter α)}
    (hnames : Convertible utf8 adapters) (written : List (Entry α)) (k : ℕ)
    (names room : List UInt8) (hk : (pairs adapters).length ≤ k)
    (hroom : room.length = (nameBytes utf8 adapters).length)
    {post : Bool → Mem (Chunk α) Unit → Prop} :
    wp (fillAdapters utf8 p names.length written.length adapters) post
        (filling base p (written.map some ++ List.replicate k none) (names ++ room)) ↔
      (∀ x ∈ pairs adapters, x.Defined) ∧ post true (filling base p
        ((written ++ entriesFrom utf8 names.length adapters).map some ++
          List.replicate (k - (pairs adapters).length) none)
        (names ++ nameBytes utf8 adapters)) := by
  induction adapters generalizing written k names room with
  | nil =>
    obtain rfl : room = [] := List.length_eq_zero_iff.1 hroom
    simp [fillAdapters, pairs, entriesFrom, nameBytes]
  | cons a adapters ih =>
    obtain ⟨hname, hrest⟩ := convertible_cons.1 hnames
    unfold fillAdapters
    by_cases ha : a.reported = true
    · rw [pairs_cons_of_pos ha, List.length_append] at hk
      rw [nameBytes_cons_of_pos ha, List.length_append] at hroom
      -- the room for this name, and for the names of the adapters behind it
      have htake : (room.take (nameText utf8 a ++ [0]).length).length =
          (nameText utf8 a ++ [0]).length := by
        rw [List.length_take]
        omega
      have hdrop : (room.drop (nameText utf8 a ++ [0]).length).length =
          (nameBytes utf8 adapters).length := by
        rw [List.length_drop]
        omega
      have hstep := ih hrest (written ++ a.pairs.map fun x ↦ x.entry names.length)
        (k - a.pairs.length) (names ++ (nameText utf8 a ++ [0])) _ (by omega) hdrop
      rw [if_pos ha, wp_bind, ← List.take_append_drop (nameText utf8 a ++ [0]).length room,
        ← List.append_assoc, wp_storeName hp (hname ha) htake]
      dsimp only
      rw [wp_bind, wp_fillAddresses hp written k (Nat.le_of_add_right_le hk)]
      rw [← Adapter.pairs, pairs_cons_of_pos ha, List.forall_mem_append, and_assoc]
      refine and_congr_right fun _ ↦ ?_
      have hoffset : (names ++ (nameText utf8 a ++ [0])).length =
          names.length + (nameText utf8 a ++ [0]).length := List.length_append
      have hindex : (written ++ a.pairs.map fun x ↦ x.entry names.length).length =
          written.length + a.pairs.length := by rw [List.length_append, List.length_map]
      have hleft : k - (a.pairs ++ pairs adapters).length =
          k - a.pairs.length - (pairs adapters).length := by rw [List.length_append, Nat.sub_sub]
      rw [hoffset, hindex] at hstep
      rw [hstep, entriesFrom_cons_of_pos ha, nameBytes_cons_of_pos ha, hleft,
        List.append_assoc written, List.append_assoc names]
    · rw [if_neg ha, pairs_cons_of_neg ha, entriesFrom_cons_of_neg ha, nameBytes_cons_of_neg ha]
      rw [pairs_cons_of_neg ha] at hk
      rw [nameBytes_cons_of_neg ha] at hroom
      exact ih hrest written k names room hk hroom

end

end Zbaselib.Win32Adapters
