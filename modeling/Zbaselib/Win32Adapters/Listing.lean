import Zbaselib.Win32Adapters.Layout

/-!
# What the caller of `uv_interface_addresses` gets

One element for every pair of an address and a prefix, and one block that
`uv_free_interface_addresses` gives back.  The buffer of Windows is freed on
every path.
-/

namespace Zbaselib.Win32Adapters

open Program Memory Block

variable {α : Type}

/-! ## Masks as bits -/

/-- The bits of a byte, the highest one first. -/
def byteBits (b : UInt8) : List Bool := (List.range 8).map fun i ↦ b.toNat.testBit (7 - i)

def Netmask.bits : Netmask → List Bool
  | .netmask4 bytes => bytes.flatMap byteBits
  | .netmask6 bytes => bytes.flatMap byteBits

/-- The bits of an address of this family. -/
def SockAddr.width (sa : SockAddr α) : ℕ := if sa.family = AF_INET6 then 128 else 32

/-- Ones, and zeros behind them. -/
def leadingOnes (width n : ℕ) : List Bool :=
  List.replicate n true ++ List.replicate (width - n) false

theorem flatMap_byteBits_replicate {b : UInt8} {bit : Bool} (h : byteBits b = List.replicate 8 bit)
    (n : ℕ) : (List.replicate n b).flatMap byteBits = List.replicate (n * 8) bit := by
  rw [List.flatMap_replicate, h, List.flatten_replicate_replicate]

theorem byteBits_shifted :
    ∀ r < 8, byteBits (UInt8.ofNat (0xff <<< (8 - r))) = leadingOnes 8 r := by
  decide

theorem bits_maskBytes6 {len : UInt32} (hlen : len.toNat < 128) :
    (maskBytes6 len).flatMap byteBits = leadingOnes 128 len.toNat := by
  have hfirst : byteBits 0xff = List.replicate 8 true := by decide
  have hlast : byteBits 0 = List.replicate 8 false := by decide
  obtain ⟨k, hk⟩ : ∃ k, 16 - len.toNat / 8 = k + 1 := ⟨15 - len.toNat / 8, by omega⟩
  have hzeros : 8 - len.toNat % 8 + k * 8 = 128 - len.toNat := by omega
  unfold maskBytes6
  rw [hk, List.set_append_right _ _ (by rw [List.length_replicate]), List.length_replicate,
    Nat.sub_self, List.replicate_succ, List.set_cons_zero, List.flatMap_append, List.flatMap_cons,
    flatMap_byteBits_replicate hfirst, flatMap_byteBits_replicate hlast,
    byteBits_shifted _ (Nat.mod_lt _ (by decide)), leadingOnes, List.append_assoc,
    ← List.append_assoc, List.replicate_append_replicate, List.replicate_append_replicate, hzeros,
    Nat.div_add_mod']
  rfl

theorem bits_htonl : ∀ n < 32,
    (htonl (0xffffffff <<< (32 - UInt32.ofNat (n + 1)))).flatMap byteBits =
      leadingOnes 32 (n + 1) := by
  decide

theorem bits_maskOf {sa : SockAddr α} {len : UInt32} (h : MaskDefined sa len) :
    (maskOf sa len).bits = leadingOnes sa.width len.toNat := by
  unfold MaskDefined at h
  unfold maskOf SockAddr.width
  by_cases hfamily : sa.family = AF_INET6
  · rw [if_pos hfamily] at h ⊢
    rw [if_pos hfamily]
    exact bits_maskBytes6 h
  · rw [if_neg hfamily] at h ⊢
    rw [if_neg hfamily]
    have hbits := bits_htonl (len.toNat - 1) (by omega)
    rw [Nat.sub_add_cancel h.1, UInt32.ofNat_toNat] at hbits
    exact hbits

/-! ## The elements -/

/-- What the caller reads in an element: the name of the adapter, behind its offset and up to the
NUL, and an address of it with the mask that its prefix says. -/
structure Describes (utf8 : Utf8) (names : List UInt8) (x : Pair α) (entry : Entry α) : Prop where
  name : CString.cstring (names.drop entry.name) = utf8.convert x.adapter.friendlyName
  physAddr : entry.physAddr = x.adapter.physAddr
  isInternal : entry.isInternal = x.adapter.softwareLoopback
  address : entry.address = x.sa
  netmask : entry.netmask.bits = leadingOnes x.sa.width x.len.toNat

theorem adapter_of_mem_pairs {a : Adapter α} {x : Pair α} (hx : x ∈ a.pairs) : x.adapter = a := by
  unfold Adapter.pairs at hx
  obtain ⟨i, hi, rfl⟩ := List.mem_iff_getElem.1 hx
  rw [List.getElem_zipWith]

theorem describes_entriesFrom {utf8 : Utf8} {adapters : List (Adapter α)}
    (hnames : Convertible utf8 adapters) (hdefined : ∀ x ∈ pairs adapters, x.Defined)
    (before : List UInt8) :
    List.Forall₂ (Describes utf8 (before ++ nameBytes utf8 adapters)) (pairs adapters)
      (entriesFrom utf8 before.length adapters) := by
  induction adapters generalizing before with
  | nil => exact .nil
  | cons a adapters ih =>
    obtain ⟨hname, hrest⟩ := convertible_cons.1 hnames
    by_cases ha : a.reported = true
    · rw [pairs_cons_of_pos ha, List.forall_mem_append] at hdefined
      have htext := convert_eq_nameText (hname ha)
      have hself : ∀ x ∈ a.pairs, Describes utf8
          (before ++ ((nameText utf8 a ++ [0]) ++ nameBytes utf8 adapters)) x
          (x.entry before.length) := by
        intro x hx
        refine ⟨?_, rfl, rfl, rfl, bits_maskOf (hdefined.1 x hx)⟩
        unfold Pair.entry
        dsimp only
        rw [List.drop_left, adapter_of_mem_pairs hx, htext, List.append_assoc,
          List.singleton_append, CString.cstring_append (utf8.nul _ _ htext)]
      have hothers := ih hrest hdefined.2 (before ++ (nameText utf8 a ++ [0]))
      rw [List.append_assoc, List.length_append] at hothers
      rw [pairs_cons_of_pos ha, entriesFrom_cons_of_pos ha, nameBytes_cons_of_pos ha]
      refine List.rel_append ?_ hothers
      rw [List.forall₂_map_right_iff, List.forall₂_same]
      exact hself
    · rw [pairs_cons_of_neg ha] at hdefined ⊢
      rw [entriesFrom_cons_of_neg ha, nameBytes_cons_of_neg ha]
      exact ih hrest hdefined before

/-- An element was left out where an adapter has fewer prefixes than addresses. -/
theorem length_pairs_eq_iff {adapters : List (Adapter α)} :
    (pairs adapters).length = addressCount adapters ↔
      ∀ a ∈ adapters, a.reported → a.unicast.length ≤ a.prefixLengths.length := by
  induction adapters with
  | nil => simp [pairs, addressCount]
  | cons a adapters ih =>
    have hle : (pairs adapters).length ≤ addressCount adapters := length_pairs_le
    rw [List.forall_mem_cons, ← ih]
    by_cases ha : a.reported = true
    · rw [pairs_cons_of_pos ha, addressCount_cons_of_pos ha, List.length_append, Adapter.pairs,
        List.length_zipWith]
      constructor
      · intro h
        exact ⟨fun _ ↦ by omega, by omega⟩
      · rintro ⟨hself, hothers⟩
        have := hself ha
        omega
    · rw [pairs_cons_of_neg ha, addressCount_cons_of_neg ha]
      exact ⟨fun h ↦ ⟨fun hup ↦ absurd hup ha, h⟩, fun h ↦ h.2⟩

/-! ## The buffer of Windows -/

section

variable {base : Heap (Chunk α)} {w p : Ptr} {m : Mem (Chunk α) Unit}

/-- Nothing is allocated besides, or the buffer at `w`. -/
def Holds (base : Heap (Chunk α)) (w : Ptr) (m : Mem (Chunk α) Unit) : Prop :=
  (w = NULL ∧ m.heap = base) ∨
    (w ≠ NULL ∧ base.cell w = none ∧ m.heap = base.insert w .adapters)

theorem wp_free_of_holds (h : Holds base w m) {post : Unit → Mem (Chunk α) Unit → Prop} :
    wp (free w) post m ↔ post () ⟨base, ()⟩ := by
  obtain ⟨heap, vars⟩ := m
  obtain ⟨rfl, rfl⟩ | ⟨hw, hcell, rfl⟩ := h
  · rw [wp_free, if_pos rfl]
  · rw [wp_free, if_neg hw]
    dsimp only
    rw [Heap.cell_insert_self _ _ hw, Heap.erase_insert _ hcell]
    exact ⟨fun h ↦ h.2, fun h ↦ ⟨⟨_, rfl⟩, h⟩⟩

theorem Holds.cell_base (h : Holds base w m) (hp : m.heap.cell p = none) : base.cell p = none := by
  obtain ⟨-, rfl⟩ | ⟨hw, -, hheap⟩ := h
  · exact hp
  · have hne : p ≠ w := by
      rintro rfl
      rw [hheap, Heap.cell_insert_self _ _ hw] at hp
      cases hp
    rw [hheap, Heap.cell_insert_of_ne _ _ hne] at hp
    exact hp

theorem wp_free_filling (h : Holds base w m) (hp : m.heap.cell p = none)
    {entries : List (Option (Entry α))} {names : List UInt8}
    {post : Unit → Mem (Chunk α) Unit → Prop} :
    wp (free w) post (filling m.heap p entries names) ↔ post () (filling base p entries names) := by
  obtain ⟨heap, vars⟩ := m
  obtain ⟨rfl, rfl⟩ | ⟨hw, hcell, rfl⟩ := h
  · rw [wp_free, if_pos rfl]
  · have hne : w ≠ p := by
      rintro rfl
      rw [Heap.cell_insert_self _ _ hw] at hp
      cases hp
    rw [wp_free, if_neg hw]
    unfold filling
    dsimp only
    rw [Heap.cell_insert_of_ne _ _ hne, Heap.cell_insert_self _ _ hw,
      Heap.erase_insert_insert _ _ hcell hne]
    exact ⟨fun h ↦ h.2, fun h ↦ ⟨⟨_, rfl⟩, h⟩⟩

/-! ## Whole calls -/

/-- What the array is in the end. -/
def listed (utf8 : Utf8) (adapters : List (Adapter α)) : List (Option (Entry α)) :=
  (entriesFrom utf8 0 adapters).map some ++
    List.replicate (addressCount adapters - (pairs adapters).length) none

theorem wp_reportAdapters (h : Holds base w m) {utf8 : Utf8} {fresh : ℕ → UInt8}
    {adapters : List (Adapter α)} (hnames : Convertible utf8 adapters) (hp : p ≠ NULL)
    {post : Result → Mem (Chunk α) Unit → Prop} :
    wp (reportAdapters utf8 p fresh w adapters) post m ↔
      m.heap.cell p = none ∧ (∀ x ∈ pairs adapters, x.Defined) ∧
        post ⟨0, some (p, addressCount adapters)⟩
          (filling base p (listed utf8 adapters) (nameBytes utf8 adapters)) := by
  unfold reportAdapters
  rw [countAdapters_of_convertible hnames, Nat.zero_add, Nat.zero_add]
  dsimp only
  rw [wp_bind, wp_calloc, if_neg hp]
  refine and_congr_right fun hcell ↦ ?_
  rw [wp_ite, if_neg hp, wp_bind]
  have hroom : ((List.range (nameBytes utf8 adapters).length).map fresh).length =
      (nameBytes utf8 adapters).length := by rw [List.length_map, List.length_range]
  refine (wp_fillAdapters hp hnames [] _ [] _ length_pairs_le hroom).trans ?_
  refine and_congr_right fun _ ↦ ?_
  rw [wp_bind, wp_free_filling h hcell, wp_ite, if_pos rfl, wp_pure]
  rfl

theorem wp_reportAdapters_failed (h : Holds base w m) {utf8 : Utf8} {fresh : ℕ → UInt8}
    {adapters : List (Adapter α)} (hfailed : ¬(Convertible utf8 adapters ∧ p ≠ NULL))
    {post : Result → Mem (Chunk α) Unit → Prop} :
    wp (reportAdapters utf8 p fresh w adapters) post m ↔ post ⟨-1, none⟩ ⟨base, ()⟩ := by
  unfold reportAdapters
  by_cases hnames : Convertible utf8 adapters
  · have hp : p = NULL := by
      by_contra hp
      exact hfailed ⟨hnames, hp⟩
    rw [countAdapters_of_convertible hnames]
    dsimp only
    rw [wp_bind, wp_calloc, if_pos hp, wp_ite, if_pos rfl, wp_bind, wp_free_of_holds h, wp_pure]
  · rw [countAdapters_of_not_convertible hnames]
    dsimp only
    rw [wp_bind, wp_free_of_holds h, wp_pure]

/-- Asking Windows with one larger buffer after another. -/
theorem wp_getAdapters_append {fresh : ℕ → UInt8} {qs : List Ptr} {answers : List (Answer α)}
    (h : Holds base w m) (hqs : ∀ q ∈ qs, q ≠ NULL ∧ base.cell q = none) :
    ∃ m', Holds base (qs.getLastD w) m' ∧ ∀ post,
      wp (getAdapters fresh w (qs.map .bufferOverflow ++ answers)) post m ↔
        wp (getAdapters fresh (qs.getLastD w) answers) post m' := by
  induction qs generalizing w m with
  | nil => exact ⟨m, h, fun _ ↦ Iff.rfl⟩
  | cons q qs ih =>
    obtain ⟨⟨hq, hcell⟩, hrest⟩ := List.forall_mem_cons.1 hqs
    have hnext : Holds base q ⟨base.insert q .adapters, ()⟩ := Or.inr ⟨hq, hcell, rfl⟩
    obtain ⟨m', hholds, hiff⟩ := ih hnext hrest
    rw [List.getLastD_cons]
    refine ⟨m', hholds, fun post ↦ Iff.trans ?_ (hiff post)⟩
    rw [List.map_cons, List.cons_append, getAdapters, wp_bind, wp_free_of_holds h, wp_bind,
      wp_calloc, if_neg hq, wp_ite, if_neg hq]
    exact and_iff_right hcell

theorem wp_uvInterfaceAddresses {utf8 : Utf8} {adapters : List (Adapter α)} {qs : List Ptr}
    {rest : List (Answer α)} {fresh : ℕ → UInt8}
    (hqs : ∀ q ∈ qs, q ≠ NULL ∧ m.heap.cell q = none) :
    ∃ m', Holds m.heap (qs.getLastD NULL) m' ∧ ∀ post,
      wp (uvInterfaceAddresses utf8 (qs.map .bufferOverflow ++ .success adapters :: rest) p fresh)
          post m ↔
        wp (reportAdapters utf8 p fresh (qs.getLastD NULL) adapters) post m' := by
  have hstart : Holds m.heap NULL m := Or.inl ⟨rfl, rfl⟩
  obtain ⟨m', hholds, hiff⟩ := wp_getAdapters_append hstart hqs
  refine ⟨m', hholds, fun post ↦ ?_⟩
  rw [uvInterfaceAddresses, wp_bind, hiff, getAdapters, wp_pure]

theorem Holds.cell_eq_none (h : Holds base w m) (hp : base.cell p = none) (hne : p ≠ w) :
    m.heap.cell p = none := by
  obtain ⟨-, rfl⟩ | ⟨-, -, hheap⟩ := h
  · exact hp
  · rw [hheap, Heap.cell_insert_of_ne _ _ hne, hp]

/-- The block that was handed out is given back. -/
theorem run_uvFreeInterfaceAddresses (hp : p ≠ NULL) (hcell : base.cell p = none)
    {entries : List (Option (Entry α))} {names : List UInt8} :
    (uvFreeInterfaceAddresses p).run (filling base p entries names) = some ((), ⟨base, ()⟩) := by
  have hwp : wp (uvFreeInterfaceAddresses p) (fun _ after ↦ after = ⟨base, ()⟩)
      (filling base p entries names) := by
    rw [uvFreeInterfaceAddresses, wp_free, if_neg hp, filling]
    dsimp only
    rw [Heap.cell_insert_self _ _ hp, Heap.erase_insert _ hcell]
    exact ⟨⟨_, rfl⟩, rfl⟩
  obtain ⟨_, _, hrun, rfl⟩ := hwp
  exact hrun

/-- Every way in which asking Windows can end. -/
theorem of_wp_getAdapters {fresh : ℕ → UInt8} {answers : List (Answer α)} (h : Holds base w m)
    {post : Ptr × List (Adapter α) ⊕ Result → Mem (Chunk α) Unit → Prop}
    (hwp : wp (getAdapters fresh w answers) post m) :
    (∃ w' adapters m', Holds base w' m' ∧ post (.inl (w', adapters)) m') ∨
      post (.inr ⟨-1, none⟩) ⟨base, ()⟩ ∨
      ∃ q, q ≠ NULL ∧ base.cell q = none ∧
        post (.inr ⟨0, some (q, 0)⟩) (filling base q [] [fresh 0]) := by
  induction answers generalizing w m with
  | nil => exact ((wp_failure _ _).1 hwp).elim
  | cons answer answers ih =>
    cases answer with
    | success adapters => exact Or.inl ⟨w, adapters, m, h, (wp_pure _ _ _).1 hwp⟩
    | error =>
      rw [getAdapters, wp_bind, wp_free_of_holds h, wp_pure] at hwp
      exact Or.inr (Or.inl hwp)
    | bufferOverflow q =>
      rw [getAdapters, wp_bind, wp_free_of_holds h, wp_bind, wp_calloc] at hwp
      by_cases hq : q = NULL
      · rw [if_pos hq, wp_ite, if_pos rfl, wp_pure] at hwp
        exact Or.inr (Or.inl hwp)
      · rw [if_neg hq, wp_ite, if_neg hq] at hwp
        exact ih (Or.inr ⟨hq, hwp.1, rfl⟩) hwp.2
    | noData q =>
      rw [getAdapters, wp_bind, wp_free_of_holds h, wp_bind, wp_calloc] at hwp
      by_cases hq : q = NULL
      · rw [if_pos hq, wp_ite, if_pos rfl, wp_pure] at hwp
        exact Or.inr (Or.inl hwp)
      · rw [if_neg hq, wp_ite, if_neg hq, wp_pure] at hwp
        exact Or.inr (Or.inr ⟨q, hq, hwp.1, hwp.2⟩)

end

/-- The block that is handed out, when the call succeeds. -/
structure Listed (utf8 : Utf8) (adapters : List (Adapter α)) (entries : List (Option (Entry α)))
    (names : List UInt8) : Prop where
  length : entries.length = addressCount adapters
  described : ∃ written, List.Forall₂ (Describes utf8 names) (pairs adapters) written ∧
    entries = written.map some ++
      List.replicate (addressCount adapters - (pairs adapters).length) none
  complete : none ∉ entries ↔
    ∀ a ∈ adapters, a.reported → a.unicast.length ≤ a.prefixLengths.length

theorem listed_listed {utf8 : Utf8} {adapters : List (Adapter α)}
    (hnames : Convertible utf8 adapters) (hdefined : ∀ x ∈ pairs adapters, x.Defined) :
    Listed utf8 adapters (listed utf8 adapters) (nameBytes utf8 adapters) := by
  have hdescribes := describes_entriesFrom hnames hdefined []
  have hlength : (entriesFrom utf8 0 adapters).length = (pairs adapters).length :=
    hdescribes.length_eq.symm
  have hle : (pairs adapters).length ≤ addressCount adapters := length_pairs_le
  refine ⟨?_, ⟨_, hdescribes, rfl⟩, ?_⟩
  · rw [listed, List.length_append, List.length_map, List.length_replicate, hlength]
    omega
  · rw [← length_pairs_eq_iff, listed, List.mem_append, List.mem_replicate]
    simp only [List.mem_map, reduceCtorEq, and_false, exists_false, false_or, and_true, not_not]
    omega

/-- What the call may answer. -/
structure Answers (utf8 : Utf8) (adapters : List (Adapter α)) (p : Ptr)
    (before : Mem (Chunk α) Unit) (result : Result) (after : Mem (Chunk α) Unit) : Prop where
  listed : Convertible utf8 adapters → p ≠ NULL →
    result = ⟨0, some (p, addressCount adapters)⟩ ∧ ∃ entries names,
      after = filling before.heap p entries names ∧ Listed utf8 adapters entries names
  failed : ¬(Convertible utf8 adapters ∧ p ≠ NULL) → result = ⟨-1, none⟩ ∧ after = before

/-- **The list has an outcome if and only if the shifts for its masks are defined.**  The allocator
hands out free addresses, `qs` for the buffers of Windows and `p` for the block. -/
theorem uvInterfaceAddresses_iff {utf8 : Utf8} {adapters : List (Adapter α)} {qs : List Ptr}
    {p : Ptr} {rest : List (Answer α)} {fresh : ℕ → UInt8} {m : Mem (Chunk α) Unit}
    (hqs : ∀ q ∈ qs, q ≠ NULL ∧ m.heap.cell q = none) (hp : m.heap.cell p = none)
    (hlast : p ≠ NULL → p ≠ qs.getLastD NULL) :
    ((∃ outcome, (uvInterfaceAddresses utf8 (qs.map .bufferOverflow ++ .success adapters :: rest)
        p fresh).run m = some outcome) ↔
      (Convertible utf8 adapters → p ≠ NULL → ∀ x ∈ pairs adapters, x.Defined)) ∧
    ∀ result after, (uvInterfaceAddresses utf8
        (qs.map .bufferOverflow ++ .success adapters :: rest) p fresh).run m =
          some (result, after) →
      Answers utf8 adapters p m result after := by
  obtain ⟨m', hholds, hiff⟩ := wp_uvInterfaceAddresses hqs
  by_cases hok : Convertible utf8 adapters ∧ p ≠ NULL
  · obtain ⟨hnames, hnull⟩ := hok
    have hcell : m'.heap.cell p = none := hholds.cell_eq_none hp (hlast hnull)
    constructor
    · constructor
      · rintro ⟨⟨result, after⟩, hrun⟩ - -
        have hwp := (hiff fun _ _ ↦ True).1 ⟨result, after, hrun, trivial⟩
        exact ((wp_reportAdapters hholds hnames hnull).1 hwp).2.1
      · intro hdefined
        obtain ⟨result, after, hrun, -⟩ := (hiff fun _ _ ↦ True).2
          ((wp_reportAdapters hholds hnames hnull).2 ⟨hcell, hdefined hnames hnull, trivial⟩)
        exact ⟨_, hrun⟩
    · intro result after hrun
      have hwp := (hiff fun r a ↦ r = result ∧ a = after).1 ⟨result, after, hrun, rfl, rfl⟩
      obtain ⟨-, hdefined, rfl, rfl⟩ := (wp_reportAdapters hholds hnames hnull).1 hwp
      exact ⟨fun _ _ ↦ ⟨rfl, _, _, rfl, listed_listed hnames hdefined⟩,
        fun hfailed ↦ absurd ⟨hnames, hnull⟩ hfailed⟩
  · constructor
    · refine iff_of_true ?_ fun hnames hnull ↦ absurd ⟨hnames, hnull⟩ hok
      obtain ⟨result, after, hrun, -⟩ := (hiff fun _ _ ↦ True).2
        ((wp_reportAdapters_failed hholds hok).2 trivial)
      exact ⟨_, hrun⟩
    · intro result after hrun
      have hwp := (hiff fun r a ↦ r = result ∧ a = after).1 ⟨result, after, hrun, rfl, rfl⟩
      obtain ⟨rfl, rfl⟩ := (wp_reportAdapters_failed hholds hok).1 hwp
      exact ⟨fun hnames hnull ↦ absurd ⟨hnames, hnull⟩ hok, fun _ ↦ ⟨rfl, rfl⟩⟩

/-- Names of ASCII characters, as Windows converts them. -/
def ascii : Utf8 where
  convert name :=
    if name.length < INT_MAX ∧ ∀ c ∈ name, 0 < c ∧ c < 128 then some (name.map UInt16.toUInt8)
    else none
  nul := by
    intro name text htext hzero
    obtain ⟨⟨-, hname⟩, heq⟩ := Option.ite_none_right_eq_some.1 htext
    rw [Option.some.injEq] at heq
    subst heq
    obtain ⟨c, hc, hc0⟩ := List.mem_map.1 hzero
    obtain ⟨hpos, hlt⟩ := hname c hc
    have hmod := congrArg UInt8.toNat hc0
    rw [UInt16.toNat_toUInt8] at hmod
    rw [UInt16.lt_iff_toNat_lt] at hpos hlt
    change 0 < c.toNat at hpos
    change c.toNat < 128 at hlt
    change c.toNat % 256 = 0 at hmod
    omega
  fits := by
    intro name text htext
    obtain ⟨⟨hlen, -⟩, heq⟩ := Option.ite_none_right_eq_some.1 htext
    rw [Option.some.injEq] at heq
    rw [← heq, List.length_map]
    exact hlen

/-- An adapter named `LAN` with an IPv4 and an IPv6 address. -/
def lan : Adapter ℕ where
  operStatusUp := true
  friendlyName := [0x4c, 0x41, 0x4e]
  unicast := [⟨2, 7⟩, ⟨AF_INET6, 8⟩]
  prefixLengths := [24, 64]
  physicalAddress := [0, 1, 2, 3, 4, 5]
  softwareLoopback := false

theorem lan_buffers : ∀ q ∈ [1, 2], q ≠ NULL ∧
    (⟨.empty, ()⟩ : Mem (Chunk ℕ) Unit).heap.cell q = none := by
  intro q hq
  refine ⟨?_, rfl⟩
  rintro rfl
  exact absurd hq (by decide)

theorem uvInterfaceAddresses_iff_lan : ∃ outcome, (uvInterfaceAddresses ascii
    ([1, 2].map .bufferOverflow ++ [.success [lan]]) 1 fun _ ↦ 0).run ⟨.empty, ()⟩ =
      some outcome := by
  refine (uvInterfaceAddresses_iff lan_buffers rfl ?_).1.2 fun _ _ ↦ ?_
  · decide
  · decide

/-- **Nothing leaks.**  Whatever Windows answers, a call that fails leaves the memory as it was, and
one that succeeds leaves one block besides, which `uv_free_interface_addresses` gives back. -/
theorem uvInterfaceAddresses_frame {utf8 : Utf8} {answers : List (Answer α)} {p : Ptr}
    {fresh : ℕ → UInt8} {m after : Mem (Chunk α) Unit} {result : Result}
    (hrun : (uvInterfaceAddresses utf8 answers p fresh).run m = some (result, after)) :
    (result = ⟨-1, none⟩ ∧ after = m) ∨
      ∃ q entries names, result = ⟨0, some (q, entries.length)⟩ ∧ m.heap.cell q = none ∧
        after = filling m.heap q entries names ∧
        (uvFreeInterfaceAddresses q).run after = some ((), m) := by
  have hwp : wp (uvInterfaceAddresses utf8 answers p fresh) (fun r a ↦ r = result ∧ a = after) m :=
    ⟨_, _, hrun, rfl, rfl⟩
  have hstart : Holds m.heap NULL m := Or.inl ⟨rfl, rfl⟩
  rw [uvInterfaceAddresses, wp_bind] at hwp
  obtain ⟨w, adapters, m', hholds, hreport⟩ | hfailed | ⟨q, hq, hcell, hempty⟩ :=
    of_wp_getAdapters hstart hwp
  · dsimp only at hreport
    by_cases hok : Convertible utf8 adapters ∧ p ≠ NULL
    · obtain ⟨hnames, hnull⟩ := hok
      obtain ⟨hcell', hdefined, rfl, rfl⟩ := (wp_reportAdapters hholds hnames hnull).1 hreport
      have hcell := hholds.cell_base hcell'
      exact Or.inr ⟨p, _, _, by rw [(listed_listed hnames hdefined).length], hcell, rfl,
        run_uvFreeInterfaceAddresses hnull hcell⟩
    · obtain ⟨rfl, rfl⟩ := (wp_reportAdapters_failed hholds hok).1 hreport
      exact Or.inl ⟨rfl, rfl⟩
  · obtain ⟨rfl, rfl⟩ := (wp_pure _ _ _).1 hfailed
    exact Or.inl ⟨rfl, rfl⟩
  · obtain ⟨rfl, rfl⟩ := (wp_pure _ _ _).1 hempty
    exact Or.inr ⟨q, [], _, rfl, hcell, rfl, run_uvFreeInterfaceAddresses hq hcell⟩

theorem lan_run : ∃ result after, (uvInterfaceAddresses ascii
    ([1, 2].map .bufferOverflow ++ [.success [lan]]) 1 fun _ ↦ 0).run ⟨.empty, ()⟩ =
      some (result, after) ∧ result.ret = 0 := by
  have hlength : lan.friendlyName.length < INT_MAX := by
    norm_num [lan, INT_MAX]
  have hchars : ∀ c ∈ lan.friendlyName, 0 < c ∧ c < 128 := by simp [lan]
  have hname : (ascii.convert lan.friendlyName).isSome := by
    unfold ascii
    dsimp only
    rw [if_pos ⟨hlength, hchars⟩, Option.isSome_some]
  have hnames : Convertible ascii [lan] := by
    intro a ha _
    rw [List.mem_singleton.1 ha]
    exact hname
  obtain ⟨m', hholds, hiff⟩ := wp_uvInterfaceAddresses lan_buffers
  exact (hiff fun result _ ↦ result.ret = 0).2 ((wp_reportAdapters hholds hnames (by decide)).2
    ⟨hholds.cell_eq_none rfl (by decide), by decide, rfl⟩)

theorem uvInterfaceAddresses_frame_lan : ∃ result after,
    (uvInterfaceAddresses ascii ([1, 2].map .bufferOverflow ++ [.success [lan]]) 1
      fun _ ↦ 0).run ⟨.empty, ()⟩ = some (result, after) ∧
    ∃ q entries names, result = ⟨0, some (q, entries.length)⟩ ∧
      (Heap.empty : Heap (Chunk ℕ)).cell q = none ∧ after = filling .empty q entries names ∧
      (uvFreeInterfaceAddresses q).run after = some ((), ⟨.empty, ()⟩) := by
  obtain ⟨result, after, hrun, hret⟩ := lan_run
  refine ⟨result, after, hrun, (uvInterfaceAddresses_frame hrun).resolve_left ?_⟩
  rintro ⟨rfl, -⟩
  cases hret

end Zbaselib.Win32Adapters
