import Zbaselib.Ifaddrs.Model

/-!
# What the caller of `uv_interface_addresses` gets on Linux

One element for every address that is reported, with the hardware address that
was listed last under its name.  An interface without a mask is dereferenced,
and so is a name that could not be copied, once a hardware address is compared
with it.
-/

namespace Zbaselib.Ifaddrs

open Program

/-! ## What is to be listed -/

def reportedOf (addrs : List Ifaddr) : List Ifaddr :=
  addrs.filter fun ent ↦ ent.reported.isSome

def packetsOf (addrs : List Ifaddr) : List Ifaddr := addrs.filter fun ent ↦ ent.packet.isSome

/-- The hardware address that is listed last under this name. -/
def lastPhysical (addrs : List Ifaddr) (name : List UInt8) : Option (List UInt8) :=
  (addrs.filterMap fun ent ↦
    if ent.name = name then ent.packet.map SockAddr.sllAddr else none).getLast?

/-- Every address that is reported has a mask. -/
def Masked (addrs : List Ifaddr) : Prop := ∀ ent ∈ reportedOf addrs, ent.netmask.isSome

instance (addrs : List Ifaddr) : Decidable (Masked addrs) :=
  inferInstanceAs (Decidable (∀ ent ∈ reportedOf addrs, ent.netmask.isSome = true))

/-! ## What is written -/

def Ifaddr.entry (ent : Ifaddr) (copied : Bool) (addr netmask : SockAddr) : Entry where
  name := if copied then some ent.name else none
  physAddr := none
  isInternal := ent.loopback
  address := addr.copy
  netmask := netmask.copy

/-- The elements of the second walk. -/
def filled (duplicate : ℕ → Bool) (address : ℕ) : List Ifaddr → List Entry
  | [] => []
  | ent :: rest =>
    match ent.reported, ent.netmask with
    | some addr, some netmask =>
      ent.entry (duplicate address) addr netmask :: filled duplicate (address + 1) rest
    | _, _ => filled duplicate address rest

/-- A hardware address beside an element of its name. -/
def Entry.matched (name hw : List UInt8) (entry : Entry) : Entry :=
  if entry.name = some name then { entry with physAddr := some hw } else entry

def Entry.withPackets (addrs : List Ifaddr) (entry : Entry) : Entry :=
  addrs.foldl (fun entry ent ↦
    match ent.packet with
    | none => entry
    | some sll => entry.matched ent.name sll.sllAddr) entry

section

variable {s : State} {post : Unit → State → Prop}

theorem reportedOf_cons_of_none {ent : Ifaddr} {addrs : List Ifaddr} (h : ent.reported = none) :
    reportedOf (ent :: addrs) = reportedOf addrs := by
  unfold reportedOf
  rw [List.filter_cons_of_neg (by simp [h])]

theorem reportedOf_cons_of_some {ent : Ifaddr} {addr : SockAddr} {addrs : List Ifaddr}
    (h : ent.reported = some addr) : reportedOf (ent :: addrs) = ent :: reportedOf addrs := by
  unfold reportedOf
  rw [List.filter_cons_of_pos (by simp [h])]

theorem wp_countInterfaces {addrs : List Ifaddr} :
    wp (countInterfaces addrs) post s ↔
      post () { s with count := s.count + (reportedOf addrs).length } := by
  induction addrs generalizing s with
  | nil => exact wp_pure _ _ _
  | cons ent addrs ih =>
    rw [countInterfaces, wp_bind, wp_modify, ih]
    cases h : ent.reported with
    | none => rw [reportedOf_cons_of_none h]; rfl
    | some addr =>
      have hsum : s.count + 1 + (reportedOf addrs).length =
          s.count + ((reportedOf addrs).length + 1) := by omega
      rw [reportedOf_cons_of_some h, List.length_cons, ← hsum]
      rfl

/-- The state when these are the elements of the array. -/
def State.holding (s : State) (entries : List (Option Entry)) : State :=
  { s with addresses := some entries }

theorem wp_storeEntry {i : ℕ} {entry : Entry} {entries : List (Option Entry)} :
    wp (storeEntry i entry) post (s.holding entries) ↔
      i < entries.length ∧ post () (s.holding (entries.set i (some entry))) := by
  unfold storeEntry State.holding
  simp only [wp_bind, wp_get, wp_lift, Option.some.injEq, exists_eq_left', wp_require, wp_modify]

/-! ## The second walk -/

theorem wp_fillInterfaces {duplicate : ℕ → Bool} {addrs : List Ifaddr} (written : List Entry) :
    wp (fillInterfaces duplicate written.length addrs) post
        (s.holding (written.map some ++ List.replicate (reportedOf addrs).length none)) ↔
      Masked addrs ∧
        post () (s.holding ((written ++ filled duplicate written.length addrs).map some)) := by
  induction addrs generalizing written with
  | nil =>
    rw [fillInterfaces, wp_pure, filled, List.append_nil]
    change post () (s.holding (written.map some ++ [])) ↔ _
    rw [List.append_nil]
    exact (and_iff_right fun ent hent ↦ absurd hent (by simp [reportedOf])).symm
  | cons ent addrs ih =>
    unfold fillInterfaces filled Masked
    cases haddr : ent.reported with
    | none =>
      rw [reportedOf_cons_of_none haddr]
      exact ih written
    | some addr =>
      rw [reportedOf_cons_of_some haddr]
      dsimp only
      rw [wp_bind, wp_lift, List.forall_mem_cons]
      cases hmask : ent.netmask with
      | none => simp
      | some netmask =>
        have hset : (written.map some ++
            List.replicate ((reportedOf addrs).length + 1) none).set written.length
              (some (ent.entry (duplicate written.length) addr netmask)) =
            (written ++ [ent.entry (duplicate written.length) addr netmask]).map some ++
              List.replicate (reportedOf addrs).length none := by
          rw [List.set_append_right _ _ (by rw [List.length_map]), List.length_map, Nat.sub_self,
            List.replicate_succ, List.set_cons_zero, List.map_append, List.append_assoc]
          rfl
        have hroom : written.length < (written.map some ++
            List.replicate ((reportedOf addrs).length + 1) (none : Option Entry)).length := by
          rw [List.length_append, List.length_map, List.length_replicate]
          omega
        have hnext := ih (written ++ [ent.entry (duplicate written.length) addr netmask])
        rw [List.length_append, List.length_singleton, List.append_assoc, ← hset] at hnext
        simp only [Option.some.injEq, exists_eq_left', Option.isSome_some, true_and]
        rw [wp_bind, List.length_cons, wp_storeEntry]
        exact (and_iff_right hroom).trans hnext

/-! ## The hardware addresses -/

theorem wp_fillMatching {name hw : List UInt8} {entries : List Entry} {i : ℕ} {entry : Entry}
    (hi : entries[i]? = some entry) :
    wp (fillMatching name hw i) post (s.holding (entries.map some)) ↔
      entry.name.isSome ∧
        post () (s.holding ((entries.set i (entry.matched name hw)).map some)) := by
  obtain ⟨hlt, hentry⟩ := List.getElem?_eq_some_iff.1 hi
  have hget : ((entries.map some)[i]?).join = some entry := by
    rw [List.getElem?_map, hi]
    rfl
  have haddresses : (s.holding (entries.map some)).addresses = some (entries.map some) := rfl
  unfold fillMatching
  simp only [wp_bind, wp_get, wp_lift, haddresses, Option.some.injEq, exists_eq_left', hget]
  cases hname : entry.name with
  | none => simp
  | some text =>
    simp only [Option.some.injEq, exists_eq_left', Option.isSome_some, true_and, wp_ite]
    unfold Entry.matched
    rw [hname]
    by_cases heq : text = name
    · rw [if_pos heq, if_pos (congrArg some heq), wp_storeEntry, List.map_set, List.length_map]
      exact and_iff_right hlt
    · have hne : ¬some text = some name := fun hsome ↦ heq (Option.some.inj hsome)
      have hsame : entries.set i entry = entries := by
        rw [← hentry, List.set_getElem_self]
      rw [if_neg heq, if_neg hne, hsame, wp_pure]

@[simp]
theorem Entry.name_matched (name hw : List UInt8) (entry : Entry) :
    (entry.matched name hw).name = entry.name := by
  unfold Entry.matched
  split <;> rfl

theorem wp_fillPhysical {name hw : List UInt8} (before after : List Entry) :
    wp (fillPhysical name hw before.length after.length) post
        (s.holding ((before ++ after).map some)) ↔
      (∀ entry ∈ after, entry.name.isSome) ∧
        post () (s.holding ((before ++ after.map (Entry.matched name hw)).map some)) := by
  induction after generalizing before with
  | nil =>
    rw [List.length_nil, fillPhysical, wp_pure]
    exact (and_iff_right fun entry hentry ↦ absurd hentry List.not_mem_nil).symm
  | cons entry after ih =>
    have hi : (before ++ entry :: after)[before.length]? = some entry := by
      rw [List.getElem?_append_right le_rfl, Nat.sub_self, List.getElem?_cons_zero]
    have hset : (before ++ entry :: after).set before.length (entry.matched name hw) =
        (before ++ [entry.matched name hw]) ++ after := by
      rw [List.set_append_right _ _ le_rfl, Nat.sub_self, List.set_cons_zero, List.append_assoc]
      rfl
    have hnext := ih (before ++ [entry.matched name hw])
    rw [List.length_append, List.length_singleton, List.append_assoc _ _ (after.map _)] at hnext
    rw [List.length_cons, fillPhysical, wp_bind, wp_fillMatching hi, hset, List.forall_mem_cons,
      and_assoc, hnext]
    rfl

theorem packetsOf_cons_of_none {ent : Ifaddr} {addrs : List Ifaddr} (h : ent.packet = none) :
    packetsOf (ent :: addrs) = packetsOf addrs := by
  unfold packetsOf
  rw [List.filter_cons_of_neg (by simp [h])]

theorem packetsOf_cons_of_some {ent : Ifaddr} {sll : SockAddr} {addrs : List Ifaddr}
    (h : ent.packet = some sll) : packetsOf (ent :: addrs) = ent :: packetsOf addrs := by
  unfold packetsOf
  rw [List.filter_cons_of_pos (by simp [h])]

/-- The third walk compares every name, as soon as there is a hardware address. -/
theorem wp_fillPackets {addrs : List Ifaddr} {entries : List Entry}
    (hcount : s.count = entries.length) :
    wp (fillPackets addrs) post (s.holding (entries.map some)) ↔
      (packetsOf addrs ≠ [] → ∀ entry ∈ entries, entry.name.isSome) ∧
        post () (s.holding ((entries.map (Entry.withPackets addrs)).map some)) := by
  induction addrs generalizing entries with
  | nil =>
    rw [fillPackets, wp_pure]
    have hsame : entries.map (Entry.withPackets []) = entries := List.map_id _
    rw [hsame]
    exact (and_iff_right fun hne ↦ absurd rfl hne).symm
  | cons ent addrs ih =>
    unfold fillPackets
    cases hpacket : ent.packet with
    | none =>
      have hsame : Entry.withPackets (ent :: addrs) = Entry.withPackets addrs := by
        funext entry
        rw [Entry.withPackets, List.foldl_cons, hpacket]
        rfl
      rw [packetsOf_cons_of_none hpacket, hsame]
      exact ih hcount
    | some sll =>
      have hfirst : entries.map (Entry.withPackets (ent :: addrs)) =
          (entries.map (Entry.matched ent.name sll.sllAddr)).map (Entry.withPackets addrs) := by
        rw [List.map_map]
        refine List.map_congr_left fun entry _ ↦ ?_
        rw [Entry.withPackets, List.foldl_cons, hpacket]
        rfl
      have hheld : (s.holding (entries.map some)).count = entries.length := hcount
      have hnames : (∀ entry ∈ entries.map (Entry.matched ent.name sll.sllAddr),
          entry.name.isSome) ↔ ∀ entry ∈ entries, entry.name.isSome := by
        rw [List.forall_mem_map]
        simp only [Entry.name_matched]
      have hlength : s.count = (entries.map (Entry.matched ent.name sll.sllAddr)).length :=
        hcount.trans (List.length_map _).symm
      have hrest := ih hlength
      dsimp only
      rw [wp_bind, wp_get, wp_bind, hheld]
      refine (wp_fillPhysical [] entries).trans ?_
      rw [List.nil_append, hrest, hnames, packetsOf_cons_of_some hpacket, hfirst]
      constructor
      · rintro ⟨hall, -, hpost⟩
        exact ⟨fun _ ↦ hall, hpost⟩
      · rintro ⟨hall, hpost⟩
        exact ⟨hall (List.cons_ne_nil _ _), fun _ ↦ hall (List.cons_ne_nil _ _), hpost⟩

end

section

variable {addrs : List Ifaddr}

theorem lastPhysical_cons (ent : Ifaddr) (name : List UInt8) :
    lastPhysical (ent :: addrs) name = (lastPhysical addrs name).or
      (if ent.name = name then ent.packet.map SockAddr.sllAddr else none) := by
  unfold lastPhysical
  rw [List.filterMap_cons]
  cases (if ent.name = name then ent.packet.map SockAddr.sllAddr else none) with
  | none => rw [Option.or_none]
  | some hw =>
    dsimp only
    rw [List.getLast?_cons]
    cases (addrs.filterMap fun ent ↦
      if ent.name = name then ent.packet.map SockAddr.sllAddr else none).getLast? <;> rfl

theorem packet_eq_none (h : packetsOf addrs = []) : ∀ ent ∈ addrs, ent.packet = none := by
  intro ent hent
  have hnone := List.filter_eq_nil_iff.1 h ent hent
  rw [Option.not_isSome_iff_eq_none] at hnone
  exact hnone

theorem withPackets_of_nil (h : packetsOf addrs = []) (entry : Entry) :
    entry.withPackets addrs = entry := by
  induction addrs with
  | nil => rfl
  | cons ent addrs ih =>
    have hpacket := packet_eq_none h ent List.mem_cons_self
    rw [packetsOf_cons_of_none hpacket] at h
    rw [Entry.withPackets, List.foldl_cons, hpacket]
    exact ih h

theorem lastPhysical_of_nil (h : packetsOf addrs = []) (name : List UInt8) :
    lastPhysical addrs name = none := by
  have hall : (addrs.filterMap fun ent ↦
      if ent.name = name then ent.packet.map SockAddr.sllAddr else none) = [] := by
    rw [List.filterMap_eq_nil_iff]
    intro ent hent
    rw [packet_eq_none h ent hent, Option.map_none, ite_self]
  rw [lastPhysical, hall, List.getLast?_nil]

/-- Of the hardware addresses of one name the last one stays. -/
theorem withPackets_of_name {entry : Entry} {name : List UInt8} (h : entry.name = some name) :
    entry.withPackets addrs =
      { entry with physAddr := (lastPhysical addrs name).or entry.physAddr } := by
  induction addrs generalizing entry with
  | nil => rfl
  | cons ent addrs ih =>
    rw [lastPhysical_cons, Entry.withPackets, List.foldl_cons]
    change Entry.withPackets addrs _ = _
    cases hpacket : ent.packet with
    | none =>
      rw [Option.map_none, ite_self, Option.or_none]
      exact ih h
    | some sll =>
      rw [ih ((entry.name_matched _ _).trans h), Option.map_some]
      unfold Entry.matched
      rw [h]
      by_cases hname : ent.name = name
      · rw [if_pos hname, if_pos (by rw [hname])]
        cases lastPhysical addrs name <;> rfl
      · have hne : ¬some name = some ent.name := fun hsome ↦ hname (Option.some.inj hsome).symm
        rw [if_neg hname, if_neg hne, Option.or_none, h]

theorem getElem?_filled (duplicate : ℕ → Bool) (hmasked : Masked addrs) (k : ℕ) {i : ℕ}
    {ent : Ifaddr} (hi : (reportedOf addrs)[i]? = some ent) :
    ∃ addr netmask, ent.reported = some addr ∧ ent.netmask = some netmask ∧
      (filled duplicate k addrs)[i]? = some (ent.entry (duplicate (k + i)) addr netmask) := by
  induction addrs generalizing k i with
  | nil => exact absurd hi (by simp [reportedOf])
  | cons first addrs ih =>
    unfold Masked at hmasked
    unfold filled
    cases haddr : first.reported with
    | none =>
      rw [reportedOf_cons_of_none haddr] at hi hmasked
      exact ih hmasked k hi
    | some addr =>
      rw [reportedOf_cons_of_some haddr] at hi hmasked
      obtain ⟨hmask, hrest⟩ := List.forall_mem_cons.1 hmasked
      obtain ⟨netmask, hnetmask⟩ := Option.isSome_iff_exists.1 hmask
      rw [hnetmask]
      dsimp only
      cases i with
      | zero =>
        rw [List.getElem?_cons_zero, Option.some.injEq] at hi
        subst hi
        exact ⟨addr, netmask, haddr, hnetmask, rfl⟩
      | succ i =>
        rw [List.getElem?_cons_succ] at hi
        obtain ⟨addr', netmask', haddr', hnetmask', hget⟩ := ih hrest (k + 1) hi
        refine ⟨addr', netmask', haddr', hnetmask', ?_⟩
        rw [List.getElem?_cons_succ, hget, Nat.add_assoc, Nat.add_comm 1]

theorem length_filled (duplicate : ℕ → Bool) (hmasked : Masked addrs) (k : ℕ) :
    (filled duplicate k addrs).length = (reportedOf addrs).length := by
  induction addrs generalizing k with
  | nil => rfl
  | cons first addrs ih =>
    unfold Masked at hmasked
    unfold filled
    cases haddr : first.reported with
    | none =>
      rw [reportedOf_cons_of_none haddr] at hmasked ⊢
      exact ih hmasked k
    | some addr =>
      rw [reportedOf_cons_of_some haddr] at hmasked ⊢
      obtain ⟨hmask, hrest⟩ := List.forall_mem_cons.1 hmasked
      obtain ⟨netmask, hnetmask⟩ := Option.isSome_iff_exists.1 hmask
      rw [hnetmask]
      exact congrArg (· + 1) (ih hrest (k + 1))

/-- A name is there where `strdup` had memory. -/
theorem forall_filled_iff (duplicate : ℕ → Bool) (hmasked : Masked addrs) :
    (∀ entry ∈ filled duplicate 0 addrs, entry.name.isSome) ↔
      ∀ i < (reportedOf addrs).length, duplicate i = true := by
  have hname (ent : Ifaddr) (copied : Bool) (addr netmask : SockAddr) :
      (ent.entry copied addr netmask).name.isSome ↔ copied = true := by
    cases copied <;> simp [Ifaddr.entry]
  constructor
  · intro h i hi
    obtain ⟨addr, netmask, -, -, hget⟩ := getElem?_filled duplicate hmasked 0
      (List.getElem?_eq_getElem hi)
    rw [Nat.zero_add] at hget
    exact (hname _ _ _ _).1 (h _ (List.mem_of_getElem? hget))
  · intro h entry hentry
    obtain ⟨i, hi, rfl⟩ := List.mem_iff_getElem.1 hentry
    have hlt : i < (reportedOf addrs).length := by
      rw [← length_filled duplicate hmasked 0]
      exact hi
    obtain ⟨addr, netmask, -, -, hget⟩ := getElem?_filled duplicate hmasked 0
      (List.getElem?_eq_getElem hlt)
    rw [List.getElem?_eq_getElem hi, Option.some.injEq, Nat.zero_add] at hget
    rw [hget]
    exact (hname _ _ _ _).2 (h i hlt)

end

/-! ## Whole calls -/

/-- No mask is missing, and no name that a hardware address is compared with. -/
def Defined (duplicate : ℕ → Bool) (addrs : List Ifaddr) : Prop :=
  Masked addrs ∧
    (packetsOf addrs ≠ [] → ∀ i < (reportedOf addrs).length, duplicate i = true)

/-- The array when the call succeeds. -/
structure Listed (duplicate : ℕ → Bool) (addrs : List Ifaddr) (entries : List Entry) : Prop where
  length : entries.length = (reportedOf addrs).length
  element : ∀ (i : ℕ) (ent : Ifaddr), (reportedOf addrs)[i]? = some ent → ∃ addr netmask : SockAddr,
    ent.reported = some addr ∧ ent.netmask = some netmask ∧ entries[i]? = some {
      name := if duplicate i then some ent.name else none
      physAddr := lastPhysical addrs ent.name
      isInternal := ent.loopback
      address := addr.copy
      netmask := netmask.copy }

/-- What the call may answer.  Without memory the list of `getifaddrs` is left behind. -/
structure Outcome (duplicate : ℕ → Bool) (addrs : List Ifaddr) (memory : Bool) (ret : ℤ)
    (after : State) : Prop where
  count : after.count = (reportedOf addrs).length
  listed : memory = true → ret = 0 ∧ after.listed = false ∧ ∃ entries : List Entry,
    after.addresses = some (entries.map some) ∧ Listed duplicate addrs entries
  refused : memory = false → ret = -1 ∧ after.listed = true ∧ after.addresses = none

theorem listed_withPackets {addrs : List Ifaddr} {duplicate : ℕ → Bool}
    (h : Defined duplicate addrs) :
    Listed duplicate addrs ((filled duplicate 0 addrs).map (Entry.withPackets addrs)) := by
  obtain ⟨hmasked, hnames⟩ := h
  refine ⟨by rw [List.length_map, length_filled duplicate hmasked], fun i ent hi ↦ ?_⟩
  obtain ⟨addr, netmask, haddr, hnetmask, hget⟩ := getElem?_filled duplicate hmasked 0 hi
  refine ⟨addr, netmask, haddr, hnetmask, ?_⟩
  rw [List.getElem?_map, hget, Nat.zero_add, Option.map_some, Option.some.injEq]
  cases hduplicate : duplicate i with
  | true =>
    have hname : (ent.entry true addr netmask).name = some ent.name := rfl
    rw [withPackets_of_name hname]
    cases lastPhysical addrs ent.name <;> rfl
  | false =>
    have hnil : packetsOf addrs = [] := by
      by_contra hne
      have htrue := hnames hne i (List.getElem?_eq_some_iff.1 hi).1
      rw [hduplicate] at htrue
      cases htrue
    rw [withPackets_of_nil hnil, lastPhysical_of_nil hnil]
    rfl

theorem wp_uvInterfaceAddresses {addrs : List Ifaddr} {duplicate : ℕ → Bool} {s : State}
    {post : ℤ → State → Prop} :
    wp (uvInterfaceAddresses (some addrs) true duplicate) post s ↔
      Defined duplicate addrs ∧ post 0 ⟨some
        (((filled duplicate 0 addrs).map (Entry.withPackets addrs)).map some),
          (reportedOf addrs).length, false⟩ := by
  unfold uvInterfaceAddresses
  dsimp only
  rw [wp_bind, wp_modify, wp_bind, wp_countInterfaces, wp_ite, if_pos rfl, wp_bind, wp_modify,
    wp_bind]
  dsimp only
  rw [Nat.zero_add]
  refine (wp_fillInterfaces (s := ⟨s.addresses, (reportedOf addrs).length, true⟩) []).trans ?_
  unfold Defined
  rw [and_assoc]
  refine and_congr_right fun hmasked ↦ ?_
  have hcount : (⟨s.addresses, (reportedOf addrs).length, true⟩ : State).count =
      (filled duplicate 0 addrs).length := (length_filled duplicate hmasked 0).symm
  rw [wp_bind, List.nil_append, List.length_nil, wp_fillPackets hcount,
    forall_filled_iff duplicate hmasked]
  refine and_congr_right fun _ ↦ ?_
  rw [wp_bind, wp_modify, wp_pure]
  rfl

theorem wp_uvInterfaceAddresses_refused {addrs : List Ifaddr} {duplicate : ℕ → Bool} {s : State}
    {post : ℤ → State → Prop} :
    wp (uvInterfaceAddresses (some addrs) false duplicate) post s ↔
      post (-1) ⟨none, (reportedOf addrs).length, true⟩ := by
  unfold uvInterfaceAddresses
  dsimp only
  rw [wp_bind, wp_modify, wp_bind, wp_countInterfaces, wp_ite, if_neg Bool.false_ne_true, wp_bind,
    wp_modify, wp_pure]
  dsimp only
  rw [Nat.zero_add]

/-- **The interfaces are listed if and only if no pointer is missing that is followed.** -/
theorem interfaces_iff {addrs : List Ifaddr} {memory : Bool} {duplicate : ℕ → Bool} {s : State} :
    ((∃ outcome, (uvInterfaceAddresses (some addrs) memory duplicate).run s = some outcome) ↔
      (memory = true → Defined duplicate addrs)) ∧
    ∀ ret after, (uvInterfaceAddresses (some addrs) memory duplicate).run s = some (ret, after) →
      Outcome duplicate addrs memory ret after := by
  cases memory with
  | true =>
    constructor
    · constructor
      · rintro ⟨⟨ret, after⟩, hrun⟩ -
        have hwp : wp (uvInterfaceAddresses (some addrs) true duplicate) (fun _ _ ↦ True) s :=
          ⟨ret, after, hrun, trivial⟩
        exact (wp_uvInterfaceAddresses.1 hwp).1
      · intro hdefined
        have hwp : wp (uvInterfaceAddresses (some addrs) true duplicate) (fun _ _ ↦ True) s :=
          wp_uvInterfaceAddresses.2 ⟨hdefined rfl, trivial⟩
        obtain ⟨ret, after, hrun, -⟩ := hwp
        exact ⟨_, hrun⟩
    · intro ret after hrun
      have hwp : wp (uvInterfaceAddresses (some addrs) true duplicate)
          (fun r a ↦ r = ret ∧ a = after) s := ⟨ret, after, hrun, rfl, rfl⟩
      obtain ⟨hdefined, rfl, rfl⟩ := wp_uvInterfaceAddresses.1 hwp
      exact ⟨rfl, fun _ ↦ ⟨rfl, rfl, _, rfl, listed_withPackets hdefined⟩, nofun⟩
  | false =>
    constructor
    · refine iff_of_true ?_ nofun
      have hwp : wp (uvInterfaceAddresses (some addrs) false duplicate) (fun _ _ ↦ True) s :=
        wp_uvInterfaceAddresses_refused.2 trivial
      obtain ⟨ret, after, hrun, -⟩ := hwp
      exact ⟨_, hrun⟩
    · intro ret after hrun
      have hwp : wp (uvInterfaceAddresses (some addrs) false duplicate)
          (fun r a ↦ r = ret ∧ a = after) s := ⟨ret, after, hrun, rfl, rfl⟩
      obtain ⟨rfl, rfl⟩ := wp_uvInterfaceAddresses_refused.1 hwp
      exact ⟨rfl, nofun, fun _ ↦ ⟨rfl, rfl, rfl⟩⟩

/-- `eth0` with an IPv4 address, and its hardware address. -/
def eth0 : List Ifaddr :=
  [⟨[101, 116, 104, 48], true, true, false, some ⟨PF_PACKET, List.replicate 18 1⟩, none⟩,
    ⟨[101, 116, 104, 48], true, true, false, some ⟨2, List.replicate 14 7⟩,
      some ⟨2, List.replicate 14 255⟩⟩]

theorem interfaces_iff_eth0 : ∃ outcome,
    (uvInterfaceAddresses (some eth0) true fun _ ↦ true).run ⟨none, 0, false⟩ = some outcome :=
  interfaces_iff.1.2 fun _ ↦ ⟨by decide, fun _ _ _ ↦ rfl⟩

end Zbaselib.Ifaddrs
