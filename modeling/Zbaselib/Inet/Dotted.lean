import Zbaselib.Inet.Grammar

/-!
# `inet_pton4` accepts the dotted addresses

The loop is followed character by character: what it still accepts is what the
number that it is inside of becomes together with the rest of the string.
-/

namespace Zbaselib.Inet

open Program Block Decision Grammar Numeral

variable {w s rest bytes block after : List UInt8} {c : UInt8} {d n dst : ℕ} {l : Pton4} {ret : ℤ}

/-- The characters of the table have the values of the digits. -/
theorem idxOf?_digits (c : UInt8) : digits.idxOf? c = digit 10 c := by
  have h : ∀ n < 256, digits.idxOf? (UInt8.ofNat n) = digit 10 (UInt8.ofNat n) := by
    decide +kernel
  simpa using h c.toNat c.toNat_lt

/-- What became of the destination: the only bytes of `P` are in it, or there are none. -/
def Written (P : List UInt8 → Prop) (block : List UInt8) (dst : ℕ) (ret : ℤ)
    (after : List UInt8) : Prop :=
  (∃ bytes, (∀ other, P other ↔ other = bytes) ∧ ret = 0 ∧ after = splice block dst bytes) ∨
    (∀ bytes, ¬P bytes) ∧ ret = -1 ∧ after = block

theorem wp_copyOut {P : List UInt8 → Prop} {code : Code (List UInt8)} (h : Decides code P)
    (hlen : ∀ bytes, P bytes → bytes.length = n) (hroom : dst + n ≤ block.length) :
    wp (copyOut dst n code) (Written P block dst) block := by
  unfold copyOut
  rw [wp_bind, wp_lift]
  rcases h.cases with ⟨tmp, hrun, hP⟩ | ⟨hrun, hP⟩
  · have htmp : P tmp := (hP tmp).mpr rfl
    refine ⟨_, hrun, ?_⟩
    simp only [memcpy, wp_bind, wp_get, wp_require, wp_pure, wp_set]
    have hn := hlen tmp htmp
    refine ⟨⟨hroom, by omega⟩, Or.inl ⟨tmp, hP, rfl, ?_⟩⟩
    rw [List.drop_zero, ← hn, List.take_length]
  · refine ⟨_, hrun, ?_⟩
    rw [wp_pure]
    exact Or.inr ⟨hP, rfl, rfl⟩

/-! ## The loop -/

/-- Where the loop is: before a number, or inside the number `w`. -/
inductive Scanned : List UInt8 → Pton4 → Prop
  | fresh {tmp : List UInt8} : tmp.length < 4 → Scanned [] ⟨false, tmp.length, tmp, 0⟩
  | inside {w tmp : List UInt8} {last : UInt8} : Octet w last → tmp.length < 4 →
      Scanned w ⟨true, tmp.length + 1, tmp, last⟩

/-- The end of `inet_pton4`. -/
def closeTmp (l : Pton4) : Code (List UInt8) :=
  if l.octets < 4 then refuse else pure (l.tmp ++ [l.last])

/-- What is copied if the numbers after `tmp` are those of `t`. -/
def Completes (tmp t bytes : List UInt8) : Prop :=
  ∃ others, Octets t others ∧ bytes = tmp ++ others ∧ bytes.length = 4

theorem decides_closeTmp (h : Scanned w l) : Decides (closeTmp l) (Completes l.tmp w) := by
  unfold closeTmp
  cases h with
  | fresh hlen =>
    rw [if_pos hlen, decides_refuse]
    rintro bytes ⟨others, hothers, -⟩
    exact not_octets_nil hothers
  | inside hw hlen =>
    split
    case isTrue hfew =>
      rw [decides_refuse]
      rintro bytes ⟨others, hothers, rfl, hfour⟩
      rw [(octets_of_octet hw).mp hothers, List.length_append, List.length_singleton] at hfour
      exact absurd hfour (Nat.ne_of_lt hfew)
    case isFalse hfew =>
      rw [decides_pure]
      intro bytes
      constructor
      · rintro ⟨others, hothers, rfl, -⟩
        rw [(octets_of_octet hw).mp hothers]
      · rintro rfl
        refine ⟨_, (octets_of_octet hw).mpr rfl, rfl, ?_⟩
        rw [List.length_append, List.length_singleton]
        exact le_antisymm hlen (not_lt.mp hfew)

/-- Nothing begins with a number that cannot be one. -/
theorem not_completes_of_prefix {tmp : List UInt8} (hw : dot ∉ w)
    (h : ∀ u bytes, ¬IsOctet (w ++ u) bytes) : ¬Completes tmp (w ++ s) bytes := by
  rintro ⟨others, hothers, -⟩
  obtain ⟨u, first, hfirst⟩ := hothers.first hw
  exact h u first hfirst

theorem completes_append_dot {tmp : List UInt8} {v : UInt8} (hw : Octet w v) :
    Completes tmp (w ++ dot :: s) bytes ↔ Completes (tmp ++ [v]) s bytes := by
  unfold Completes
  simp only [octets_append_dot hw]
  constructor
  · rintro ⟨others, ⟨others', hothers', rfl⟩, rfl, hlen⟩
    exact ⟨others', hothers', by simp, hlen⟩
  · rintro ⟨others', hothers', rfl, hlen⟩
    exact ⟨v :: others', ⟨others', hothers', rfl⟩, by simp, hlen⟩

/-- From every place in the loop, what follows decides the string `s`; `text` is `s` with its
terminator. -/
def Decided (text s : List UInt8) : Prop :=
  ∀ w l, Scanned w l → Decides (inetPton4Loop text l >>= closeTmp) (Completes l.tmp (w ++ s))

variable {text : List UInt8}

theorem Decided.digit (h : Decided text s) (hzero : c ≠ 0) (hc : digit 10 c = some d) :
    Decided (c :: text) (c :: s) := by
  intro w l hl
  have hd := digit_lt hc
  rw [inetPton4Loop, if_neg hzero, idxOf?_digits, hc]
  cases hl with
  | fresh hlen =>
    simp only [UInt8.toNat_zero, Nat.zero_mul, Nat.zero_add, Bool.false_eq_true, false_and,
      if_false]
    rw [if_neg (by omega), if_neg (by omega)]
    exact h [c] _ (.inside (octet_digit hc) hlen)
  | @inside w tmp last hw hlen =>
    have htext : w ++ c :: s = w ++ [c] ++ s := by simp
    have hdot : dot ∉ w ++ [c] := by
      rw [List.mem_append, List.mem_singleton]
      rintro (hmem | rfl)
      · exact hw.dot_notMem hmem
      · rw [digit_dot] at hc
        exact Option.some_ne_none d hc.symm
    rw [htext]
    simp only [true_and, if_true]
    by_cases hlast : last = 0
    · subst hlast
      rw [if_pos rfl, refuse_bind, decides_refuse]
      refine fun bytes ↦ not_completes_of_prefix hdot fun u bytes hoctet ↦ ?_
      rw [List.append_assoc] at hoctet
      exact hw.not_isOctet_of_zero hoctet
    by_cases hlarge : last.toNat * 10 + d > 255
    · rw [if_neg hlast, if_pos hlarge, refuse_bind, decides_refuse]
      exact fun bytes ↦ not_completes_of_prefix hdot fun u bytes ↦
        not_isOctet_of_value (value_snoc hw.value_eq hc) hlarge
    · rw [if_neg hlast, if_neg hlarge]
      exact h (w ++ [c]) _ (.inside (hw.snoc hlast hc (by omega)) hlen)

theorem Decided.dot (h : Decided text s) : Decided (dot :: text) (dot :: s) := by
  intro w l hl
  rw [inetPton4Loop, if_neg (by decide), idxOf?_digits, digit_dot]
  cases hl with
  | fresh hlen =>
    simp only [Bool.false_eq_true, and_false, if_false, refuse_bind, decides_refuse]
    rintro bytes ⟨others, hothers, -⟩
    exact not_octets_dot hothers
  | @inside w tmp last hw hlen =>
    simp only [and_self, if_true]
    by_cases hfour : tmp.length + 1 = 4
    · rw [if_pos hfour, refuse_bind, decides_refuse]
      intro bytes hbytes
      obtain ⟨others, hothers, rfl, hlen'⟩ := (completes_append_dot hw).mp hbytes
      have hpos := hothers.length_pos
      rw [List.length_append, List.length_append, List.length_singleton] at hlen'
      omega
    · have hroom : tmp.length + 1 < 4 := by omega
      have hsnoc : (tmp ++ [last]).length = tmp.length + 1 := by simp
      have hnext := h [] ⟨false, tmp.length + 1, tmp ++ [last], 0⟩
      rw [← hsnoc] at hnext hroom
      rw [if_neg hfour, ← hsnoc, if_pos hroom]
      exact (hnext (.fresh hroom)).congr fun bytes ↦ (completes_append_dot hw).symm

/-- No other character occurs in a dotted address. -/
theorem decided_other (hzero : c ≠ 0) (hc : digit 10 c = none) (hdot : c ≠ dot) :
    Decided (c :: text) (c :: s) := by
  intro w l hl
  rw [inetPton4Loop, if_neg hzero, idxOf?_digits, hc]
  simp only [hdot, false_and, if_false, refuse_bind, decides_refuse]
  rintro bytes ⟨others, hothers, -⟩
  rcases hothers.digit_or_dot c (List.mem_append_right w List.mem_cons_self) with h | ⟨d, hd⟩
  · exact hdot h
  · rw [hc] at hd
    exact Option.some_ne_none d hd.symm

theorem decided_inetPton4Loop (rest : List UInt8) (hs : 0 ∉ s) : Decided (s ++ 0 :: rest) s := by
  induction s with
  | nil =>
    intro w l hl
    rw [List.nil_append, List.append_nil, inetPton4Loop, if_pos rfl, pure_bind]
    exact decides_closeTmp hl
  | cons c s ih =>
    rw [List.mem_cons, not_or] at hs
    have hzero := Ne.symm hs.1
    rw [List.cons_append]
    cases hc : digit 10 c with
    | some d => exact (ih hs.2).digit hzero hc
    | none =>
      by_cases hdot : c = dot
      · rw [hdot]
        exact (ih hs.2).dot
      · exact decided_other hzero hc hdot

theorem decides_inetPton4Tmp (rest : List UInt8) (hs : 0 ∉ s) :
    Decides (inetPton4Tmp (s ++ 0 :: rest)) (IPv4 s) := by
  have hstart : Scanned [] ⟨false, 0, [], 0⟩ :=
    @Scanned.fresh [] (by decide)
  refine (decided_inetPton4Loop rest hs [] _ hstart).congr fun bytes ↦ ?_
  constructor
  · rintro ⟨others, hothers, rfl, hlen⟩
    exact ⟨hothers, hlen⟩
  · rintro ⟨hothers, hlen⟩
    exact ⟨bytes, hothers, rfl, hlen⟩

/-- `inet_pton4` writes the bytes of a dotted address, and refuses everything else. -/
theorem wp_inetPton4 (rest : List UInt8) (hs : 0 ∉ s) (hroom : dst + 4 ≤ block.length) :
    wp (inetPton4 (s ++ 0 :: rest) dst) (Written (IPv4 s) block dst) block :=
  wp_copyOut (decides_inetPton4Tmp rest hs) (fun _ h ↦ h.2) hroom

end Zbaselib.Inet
