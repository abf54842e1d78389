import Zbaselib.Inet.Groups
import Zbaselib.Lib.CString

/-!
# `zbaselib_inet_pton` and the text forms

The conversion is exact for every IPv4 string, and for every IPv6 string whose
`%` is where the `int` that takes its offset says it is.
-/

namespace Zbaselib.Inet

open Program Block Decision Grammar

variable {s t u z rest bytes dst : List UInt8} {af : ℤ}

/-- What is before the first `%`, or the whole string. -/
def zoneless (s : List UInt8) : List UInt8 := s.takeWhile (· ≠ percent)

/-- The string is a text form of the address family, and denotes the bytes. -/
def IsText (af : ℤ) (s bytes : List UInt8) : Prop :=
  af = AF_INET ∧ IPv4 s bytes ∨ af = AF_INET6 ∧ IPv6 (zoneless s) bytes

/-- The size of `struct in_addr` or `struct in6_addr`. -/
def addrSize (af : ℤ) : ℕ := if af = AF_INET then 4 else 16

/-- The call has an outcome, whatever is behind the string in memory: 0 with the bytes of the text
form at the beginning of `dst`, and -1 with `dst` unchanged if the string is none. -/
def Exact (af : ℤ) (s : List UInt8) : Prop :=
  ∀ rest dst, addrSize af ≤ dst.length →
    ∃ ret after, (inetPton af (some (s ++ 0 :: rest))).run (some dst) = some (ret, some after) ∧
      ((∃ bytes, (∀ other, IsText af s other ↔ other = bytes) ∧ ret = 0 ∧
        after = bytes ++ dst.drop bytes.length) ∨
      (∀ bytes, ¬IsText af s bytes) ∧ ret = -1 ∧ after = dst)

/-- The offset of the `%` as an `int`. -/
def zoneOffset (s : List UInt8) : ℤ := ((zoneless s).length : ℤ).bmod (2 ^ 32)

/-- The offset of a `%` is not negative, and if it is not the right one, it is too large as well or
the beginning of the string that it cuts off is not an address. -/
def ZoneFits (s : List UInt8) : Prop :=
  percent ∈ s → 0 ≤ zoneOffset s ∧
    (zoneOffset s = (zoneless s).length ∨ 45 < zoneOffset s ∨
      ∀ bytes, ¬IPv6 ((zoneless s).take (zoneOffset s).toNat) bytes)

/-! ## Lengths -/

theorem IsGroup.length_le_bytes (h : IsGroup t bytes) :
    2 * (t.length + 1) ≤ 5 * bytes.length := by
  have := h.length_le
  have := h.length_bytes
  omega

theorem Groups.length_le (h : Groups t bytes) : 2 * (t.length + 1) ≤ 5 * bytes.length + 12 := by
  refine Separated.length_le h (fun _ _ ht ↦ ht.length_le_bytes) fun t bytes ht ↦ ?_
  rcases ht with ht | ht
  · have := ht.length_le_bytes
    omega
  · have := ht.length_le
    have := ht.2
    omega

theorem Hextets.length_le (h : Hextets t bytes) : 2 * (t.length + 1) ≤ 5 * bytes.length + 0 :=
  Separated.length_le h (fun _ _ ht ↦ ht.length_le_bytes) fun _ _ ht ↦ ht.length_le_bytes

/-- Every text form fits in the 46 characters of `UV_INET6_ADDRSTRLEN`. -/
theorem IPv6.length_le (h : IPv6 t bytes) : t.length ≤ 45 := by
  cases h with
  | full h hlen =>
    have := h.length_le
    omega
  | @compressed left right lb rb bytes hleft hright hout =>
    have hbytes := hout.length_le
    have hl : 2 * (left.length + 1) ≤ 5 * lb.length + 2 := by
      rcases hleft with ⟨rfl, rfl⟩ | hleft
      · decide
      · have := hleft.length_le
        omega
    have hr : 2 * (right.length + 1) ≤ 5 * rb.length + 12 := by
      rcases hright with ⟨rfl, rfl⟩ | hright
      · decide
      · exact hright.length_le
    simp only [List.length_append, List.length_cons]
    omega

/-! ## The zone -/

theorem strchr_of_notMem (rest : List UInt8) (hs : 0 ∉ s) (hpercent : percent ∉ s) :
    strchr (s ++ 0 :: rest) percent = some none := by
  induction s with
  | nil =>
    rw [List.nil_append, strchr, if_neg (by decide), if_pos rfl]
  | cons c s ih =>
    rw [List.mem_cons, not_or] at hs hpercent
    rw [List.cons_append, strchr, if_neg (Ne.symm hpercent.1), if_neg (Ne.symm hs.1),
      ih hs.2 hpercent.2]
    rfl

theorem strchr_append (rest : List UInt8) (hz : 0 ∉ z) (hpercent : percent ∉ z) :
    strchr (z ++ percent :: rest) percent = some (some z.length) := by
  induction z with
  | nil => rw [List.nil_append, strchr, if_pos rfl, List.length_nil]
  | cons c z ih =>
    rw [List.mem_cons, not_or] at hz hpercent
    rw [List.cons_append, strchr, if_neg (Ne.symm hpercent.1), if_neg (Ne.symm hz.1),
      ih hz.2 hpercent.2]
    rfl

theorem zoneless_of_notMem (hpercent : percent ∉ s) : zoneless s = s :=
  CString.takeWhile_ne hpercent

theorem zoneless_append (hpercent : percent ∉ z) : zoneless (z ++ percent :: t) = z :=
  CString.takeWhile_ne_append_cons hpercent t

theorem cutZone_of_notMem (rest : List UInt8) (hs : 0 ∉ s) (hpercent : percent ∉ s) :
    cutZone (s ++ 0 :: rest) = pure (s ++ 0 :: rest) := by
  unfold cutZone
  rw [strchr_of_notMem rest hs hpercent, lift_some_bind]

theorem bmod_le_self (n : ℕ) : (n : ℤ).bmod (2 ^ 32) ≤ n := by
  rw [Int.bmod_eq_emod]
  split <;> omega

theorem cutZone_refuse {len : ℤ} (hz : 0 ∉ z) (hpercent : percent ∉ z)
    (hlen : len = (z.length : ℤ).bmod (2 ^ 32)) (hlarge : 45 < len) :
    cutZone (z ++ percent :: rest) = refuse := by
  unfold cutZone
  rw [strchr_append rest hz hpercent, lift_some_bind]
  simp only [← hlen, UV_INET6_ADDRSTRLEN]
  rw [if_pos (by omega)]

/-- A negative number of bytes is a huge one for `memcpy`. -/
theorem cutZone_undefined {len : ℤ} (hz : 0 ∉ z) (hpercent : percent ∉ z)
    (hlen : len = (z.length : ℤ).bmod (2 ^ 32)) (hneg : len < 0) :
    cutZone (z ++ percent :: rest) = undefined := by
  have hlow : -2 ^ 31 ≤ len := by
    rw [hlen]
    exact Int.le_bmod (by decide)
  unfold cutZone
  rw [strchr_append rest hz hpercent, lift_some_bind]
  simp only [← hlen, UV_INET6_ADDRSTRLEN]
  rw [if_neg (by omega), if_neg (by omega)]

theorem cutZone_pure {len : ℤ} (hz : 0 ∉ z) (hpercent : percent ∉ z)
    (hlen : len = (z.length : ℤ).bmod (2 ^ 32)) (hnonneg : 0 ≤ len) (hsmall : len ≤ 45) :
    cutZone (z ++ percent :: rest) = pure (z.take len.toNat ++ [0]) := by
  have hle : len ≤ z.length := by
    rw [hlen]
    exact bmod_le_self z.length
  have hsize : len % 2 ^ 64 = len := Int.emod_eq_of_lt hnonneg (by omega)
  unfold cutZone
  rw [strchr_append rest hz hpercent, lift_some_bind]
  simp only [← hlen, hsize, UV_INET6_ADDRSTRLEN, List.length_append]
  rw [if_neg (by omega), if_pos (by omega), List.take_append_of_le_length (by omega)]

/-! ## The call -/

/-- What `Exact` says of the outcome. -/
def Returned (P : List UInt8 → Prop) (dst : List UInt8) (ret : ℤ)
    (after : Option (List UInt8)) : Prop :=
  ∃ block, after = some block ∧ Written P dst 0 ret block

theorem exact_iff :
    Exact af s ↔ ∀ rest dst, addrSize af ≤ dst.length →
      wp (inetPton af (some (s ++ 0 :: rest))) (Returned (IsText af s) dst) (some dst) := by
  refine forall_congr' fun rest ↦ forall_congr' fun dst ↦ imp_congr_right fun _ ↦ ?_
  constructor
  · rintro ⟨ret, after, hrun, h⟩
    refine ⟨ret, some after, hrun, after, rfl, ?_⟩
    unfold Written
    simp only [splice_zero]
    exact h
  · rintro ⟨ret, after, hrun, block, rfl, h⟩
    unfold Written at h
    simp only [splice_zero] at h
    exact ⟨ret, block, hrun, h⟩

theorem wp_inetPton_inet {src : List UInt8} {P : List UInt8 → Prop}
    (h : wp (inetPton4 src 0) (Written P dst 0) dst) :
    wp (inetPton AF_INET (some src)) (Returned P dst) (some dst) := by
  obtain ⟨ret, after, hrun, hwritten⟩ := h
  unfold inetPton
  rw [wp_bind, wp_get]
  simp only [if_true, wp_bind, wp_lift]
  refine ⟨(ret, after), hrun, ?_⟩
  simp only [wp_set, wp_pure]
  exact ⟨after, rfl, hwritten⟩

theorem wp_inetPton_inet6 {src : List UInt8} {post : ℤ → Option (List UInt8) → Prop} :
    wp (inetPton AF_INET6 (some src)) post (some dst) ↔
      (∃ ret, (cutZone src).run = some (.error ret) ∧ post ret (some dst)) ∨
        ∃ s, (cutZone src).run = some (.ok s) ∧
          wp (inetPton6 s 0) (fun ret after ↦ post ret (some after)) dst := by
  unfold inetPton
  rw [wp_bind, wp_get]
  simp only [show AF_INET6 ≠ AF_INET by decide, if_false, if_true, wp_bind, wp_lift]
  constructor
  · rintro ⟨result, hrun, h⟩
    cases result with
    | error ret => exact Or.inl ⟨ret, hrun, by simpa using h⟩
    | ok s =>
      simp only [wp_bind, wp_lift] at h
      obtain ⟨⟨ret, after⟩, hcall, h⟩ := h
      simp only [wp_set, wp_pure] at h
      exact Or.inr ⟨s, hrun, ret, after, hcall, h⟩
  · rintro (⟨ret, hrun, h⟩ | ⟨s, hrun, ret, after, hcall, h⟩)
    · exact ⟨.error ret, hrun, by simpa using h⟩
    · refine ⟨.ok s, hrun, ?_⟩
      simp only [wp_bind, wp_lift]
      refine ⟨(ret, after), hcall, ?_⟩
      simp only [wp_set, wp_pure]
      exact h

theorem isText_inet : IsText AF_INET s = IPv4 s := by
  funext bytes
  have hne : AF_INET ≠ AF_INET6 := by decide
  simp [IsText, hne]

theorem isText_inet6 : IsText AF_INET6 s = IPv6 (zoneless s) := by
  funext bytes
  have hne : AF_INET6 ≠ AF_INET := by decide
  simp [IsText, hne]

theorem exact_inet (hs : 0 ∉ s) : Exact AF_INET s := by
  rw [exact_iff, isText_inet]
  intro rest dst hroom
  exact wp_inetPton_inet (wp_inetPton4 rest hs (by simpa [addrSize] using hroom))

/-- The call of `inet_pton6` with a string `t` is exact for `s` if both are text forms of the same
addresses. -/
theorem wp_inetPton_of_ok {src : List UInt8} {P : List UInt8 → Prop} (ht : 0 ∉ t)
    (hcut : (cutZone src).run = some (.ok (t ++ 0 :: rest))) (hroom : 16 ≤ dst.length)
    (hP : ∀ bytes, IPv6 t bytes ↔ P bytes) :
    wp (inetPton AF_INET6 (some src)) (Returned P dst) (some dst) := by
  have hP' : IPv6 t = P := funext fun bytes ↦ propext (hP bytes)
  rw [wp_inetPton_inet6]
  refine Or.inr ⟨_, hcut, ?_⟩
  refine wp_mono (wp_inetPton6 rest ht (by omega)) fun ret after h ↦ ?_
  rw [hP'] at h
  exact ⟨after, rfl, h⟩

/-- Text that is too long for an address. -/
theorem not_iPv6_of_length (h : 45 < t.length) : ¬IPv6 t bytes :=
  fun ht ↦ absurd ht.length_le (not_le.mpr h)

/-- With a `%` whose offset is not too large, the string is cut there or too early. -/
theorem exact_of_small {len : ℤ} (hz : 0 ∉ z) (hpercent : percent ∉ z)
    (hlen : len = (z.length : ℤ).bmod (2 ^ 32)) (hnonneg : 0 ≤ len) (hsmall : len ≤ 45) :
    Exact AF_INET6 (z ++ percent :: t) ↔
      len = z.length ∨ ∀ bytes, ¬IPv6 (z.take len.toNat) bytes := by
  have hcut : ∀ rest, (cutZone (z ++ percent :: (t ++ 0 :: rest))).run =
      some (.ok (z.take len.toNat ++ 0 :: [])) := by
    intro rest
    rw [cutZone_pure hz hpercent hlen hnonneg hsmall]
    rfl
  have htake : 0 ∉ z.take len.toNat := fun hmem ↦ hz (List.mem_of_mem_take hmem)
  rw [exact_iff, isText_inet6, zoneless_append hpercent]
  simp only [List.append_assoc, List.cons_append]
  by_cases heq : len = z.length
  · refine iff_of_true (fun rest dst hroom ↦ ?_) (Or.inl heq)
    refine wp_inetPton_of_ok htake (hcut rest) hroom fun bytes ↦ ?_
    rw [heq, Int.toNat_natCast, List.take_length]
  · have hlong : 45 < z.length := by
      by_contra hshort
      refine heq (hlen.trans (Int.bmod_eq_of_le ?_ ?_)) <;> omega
    rw [or_iff_right heq]
    constructor
    · intro hall bytes hbytes
      have hcall := hall [] (List.replicate 16 0) (by decide)
      rw [wp_inetPton_inet6, hcut] at hcall
      rcases hcall with ⟨ret, herror, -⟩ | ⟨s, hs, hcall⟩
      · exact error_ne_ok ret _ (Option.some.inj herror).symm
      · cases hs
        obtain ⟨ret, after, -, ⟨block, -, hreturned⟩, hwritten⟩ :=
          wp_and hcall (wp_inetPton6 [] htake (by decide))
        rcases hreturned with ⟨bytes', hbytes', -⟩ | ⟨-, hret, -⟩
        · exact not_iPv6_of_length hlong ((hbytes' bytes').mpr rfl)
        · rcases hwritten with ⟨-, -, hzero, -⟩ | ⟨hnone, -⟩
          · rw [hret] at hzero
            exact absurd hzero (by decide)
          · exact hnone bytes hbytes
    · intro hnone rest dst hroom
      exact wp_inetPton_of_ok htake (hcut rest) hroom fun bytes ↦
        iff_of_false (hnone bytes) (not_iPv6_of_length hlong)

/-- With a `%`, what matters is how its offset is converted. -/
theorem exact_append_percent {len : ℤ} (hz : 0 ∉ z) (hpercent : percent ∉ z)
    (hlen : len = (z.length : ℤ).bmod (2 ^ 32)) :
    Exact AF_INET6 (z ++ percent :: t) ↔
      0 ≤ len ∧ (len = z.length ∨ 45 < len ∨ ∀ bytes, ¬IPv6 (z.take len.toNat) bytes) := by
  rcases lt_or_ge len 0 with hneg | hnonneg
  · refine iff_of_false (fun hall ↦ ?_) fun h ↦ absurd h.1 (not_le.mpr hneg)
    have hcall := exact_iff.mp hall [] (List.replicate 16 0) (by decide)
    rw [List.append_assoc, List.cons_append, wp_inetPton_inet6,
      cutZone_undefined hz hpercent hlen hneg] at hcall
    rcases hcall with ⟨ret, hcut, -⟩ | ⟨s, hcut, -⟩
    · exact absurd hcut.symm (Option.some_ne_none _)
    · exact absurd hcut.symm (Option.some_ne_none _)
  rcases lt_or_ge 45 len with hlarge | hsmall
  · refine iff_of_true ?_ ⟨hnonneg, Or.inr (Or.inl hlarge)⟩
    have hlong : len ≤ z.length := by
      rw [hlen]
      exact bmod_le_self z.length
    rw [exact_iff, isText_inet6, zoneless_append hpercent]
    intro rest dst _
    rw [List.append_assoc, List.cons_append, wp_inetPton_inet6,
      cutZone_refuse hz hpercent hlen hlarge]
    exact Or.inl ⟨-1, rfl, dst, rfl, Or.inr ⟨fun bytes ↦ not_iPv6_of_length (by omega), rfl, rfl⟩⟩
  · rw [exact_of_small hz hpercent hlen hnonneg hsmall, and_iff_right hnonneg,
      or_iff_right (show ¬45 < len from not_lt.mpr hsmall)]

theorem exact_inet6_iff (hs : 0 ∉ s) : Exact AF_INET6 s ↔ ZoneFits s := by
  by_cases hpercent : percent ∈ s
  · obtain ⟨z, t, rfl, hz⟩ := List.eq_append_cons_of_mem hpercent
    have hzero : 0 ∉ z := fun hmem ↦ hs (List.mem_append_left _ hmem)
    have hzoneless := zoneless_append (t := t) hz
    unfold ZoneFits zoneOffset
    rw [hzoneless, imp_iff_right hpercent]
    exact exact_append_percent hzero hz rfl
  · refine iff_of_true (exact_iff.mpr fun rest dst hroom ↦ ?_) fun hmem ↦ absurd hmem hpercent
    have hcut : (cutZone (s ++ 0 :: rest)).run = some (.ok (s ++ 0 :: rest)) := by
      rw [cutZone_of_notMem rest hs hpercent]
      rfl
    rw [isText_inet6, zoneless_of_notMem hpercent]
    exact wp_inetPton_of_ok hs hcut hroom fun bytes ↦ Iff.rfl

/-- **Exactly which strings are converted as they should be.**  Every string for IPv4; for IPv6
those whose `%` is found again after its offset has become an `int`. -/
theorem pton_exact_iff (s : List UInt8) (hs : 0 ∉ s) :
    Exact AF_INET s ∧ (Exact AF_INET6 s ↔ ZoneFits s) :=
  ⟨exact_inet hs, exact_inet6_iff hs⟩

/-- `::%0` -/
theorem pton_exact_iff_unspecified :
    0 ∉ [colon, colon, percent, 48] ∧ Exact AF_INET [colon, colon, percent, 48] ∧
      (Exact AF_INET6 [colon, colon, percent, 48] ↔ ZoneFits [colon, colon, percent, 48]) :=
  ⟨by decide, pton_exact_iff _ (by decide)⟩

/-- After 2 ^ 31 characters the offset of the `%` is negative, and `memcpy` runs out of `tmp`. -/
theorem not_exact_far :
    0 ∉ List.replicate (2 ^ 31) (48 : UInt8) ++ [percent] ∧
      ¬Exact AF_INET6 (List.replicate (2 ^ 31) (48 : UInt8) ++ [percent]) := by
  have hz : 0 ∉ List.replicate (2 ^ 31) (48 : UInt8) := fun hmem ↦
    absurd (List.eq_of_mem_replicate hmem) (by decide)
  have hpercent : percent ∉ List.replicate (2 ^ 31) (48 : UInt8) := fun hmem ↦
    absurd (List.eq_of_mem_replicate hmem) (by decide)
  have hlen : (-2 ^ 31 : ℤ) =
      ((List.replicate (2 ^ 31) (48 : UInt8)).length : ℤ).bmod (2 ^ 32) := by
    rw [List.length_replicate]
    decide
  constructor
  · rw [List.mem_append, List.mem_singleton]
    rintro (hmem | hzero)
    · exact hz hmem
    · exact absurd hzero (by decide)
  · intro hall
    have hexact := (exact_append_percent hz hpercent hlen).mp hall
    exact absurd hexact.1 (by decide)

end Zbaselib.Inet
