import Zbaselib.Inet.Dotted

/-!
# `inet_pton6` accepts the text forms of IPv6 addresses

As for the dotted addresses: what the loop still accepts depends on the bytes
that it has, on whether there was a `::`, and on the group it is inside of.
-/

namespace Zbaselib.Inet

open Program Block Decision Grammar Numeral

variable {w s rest done t left mid bytes out others lb rb : List UInt8} {c : UInt8} {d n gap k : ℕ}
  {colonp : Option ℕ} {l : Pton6}

theorem idxOf?_xdigits (c : UInt8) :
    (xdigitsL.idxOf? c <|> xdigitsU.idxOf? c) = digit 16 c := by
  have h : ∀ n < 256, (xdigitsL.idxOf? (UInt8.ofNat n) <|> xdigitsU.idxOf? (UInt8.ofNat n)) =
      digit 16 (UInt8.ofNat n) := by
    decide +kernel
  simpa using h c.toNat c.toNat_lt

/-! ## Filling up -/

theorem store_append (xs rest : List UInt8) {ys zs : List UInt8} (h : ys.length = zs.length) :
    store (xs ++ ys ++ rest) xs.length zs = some (xs ++ zs ++ rest) := by
  unfold store
  rw [splice_append rfl h.symm, if_pos]
  simp only [List.length_append]
  omega

theorem store_cell (xs rest : List UInt8) (old new : UInt8) :
    store (xs ++ old :: rest) xs.length [new] = some (xs ++ new :: rest) := by
  have hlen : [old].length = [new].length := rfl
  simpa using store_append xs rest hlen

/-- The last byte before a gap goes to the other end of it. -/
theorem shiftByte_eq {i : ℕ} (xs rest : List UInt8) (byte : UInt8) (hbyte : k + (n - i) = xs.length)
    (hend : 16 - i = xs.length + (gap + 1)) :
    shiftByte k n (xs ++ byte :: (List.replicate gap 0 ++ 0 :: rest)) i =
      some (xs ++ 0 :: (List.replicate gap 0 ++ byte :: rest)) := by
  have hcell : (xs ++ byte :: (List.replicate gap 0 ++ 0 :: rest))[xs.length]? = some byte := by
    simp
  have hlen : (xs ++ byte :: List.replicate gap 0).length = xs.length + (gap + 1) := by simp
  have hfirst := store_cell (xs ++ byte :: List.replicate gap 0) rest 0 byte
  rw [hlen, List.append_assoc, List.append_assoc, List.cons_append, List.cons_append] at hfirst
  have hsecond := store_cell xs (List.replicate gap 0 ++ byte :: rest) byte 0
  unfold shiftByte
  simp only [hbyte, hend, hcell, hfirst, hsecond, Option.bind_eq_bind, Option.bind_some]

/-- The bytes `t` are moved over the gap behind them, the last one first. -/
theorem foldlM_shiftByte (h : left.length + (mid.length + t.length) + (gap + 1) = 16)
    (hn : n = mid.length + t.length) :
    (List.range t.length).foldlM (fun tmp k ↦ shiftByte left.length n tmp (k + 1))
      (left ++ mid ++ t ++ List.replicate (gap + 1) 0) =
      some (left ++ mid ++ List.replicate (gap + 1) 0 ++ t) := by
  induction t generalizing mid with
  | nil => simp
  | cons byte t ih =>
    rw [List.length_cons] at h hn
    have hsnoc : (mid ++ [byte]).length = mid.length + 1 := by simp
    have hrest := @ih (mid ++ [byte]) (by omega) (by omega)
    have hbyte : left.length + (n - (t.length + 1)) = (left ++ mid).length := by
      rw [List.length_append]
      omega
    have hend : 16 - (t.length + 1) = (left ++ mid).length + (gap + 1) := by
      rw [List.length_append]
      omega
    have hstep := shiftByte_eq (left ++ mid) t byte hbyte hend
    have hbefore : left ++ (mid ++ [byte]) ++ List.replicate (gap + 1) 0 ++ t =
        left ++ mid ++ byte :: (List.replicate gap 0 ++ 0 :: t) := by
      simp [List.replicate_succ']
    have hafter : left ++ mid ++ List.replicate (gap + 1) 0 ++ byte :: t =
        left ++ mid ++ 0 :: (List.replicate gap 0 ++ byte :: t) := by
      simp [List.replicate_succ]
    have hstart : left ++ mid ++ byte :: t ++ List.replicate (gap + 1) 0 =
        left ++ (mid ++ [byte]) ++ t ++ List.replicate (gap + 1) 0 := by
      simp
    rw [List.length_cons, List.range_succ, List.foldlM_append, hstart, hrest, hbefore, hafter,
      Option.bind_eq_bind, Option.bind_some, List.foldlM_cons, hstep]
    rfl

theorem shift_eq (h : left.length + mid.length + gap = 16) (hgap : 0 < gap) :
    shift (left ++ mid ++ List.replicate gap 0) left.length mid.length =
      some (left ++ List.replicate gap 0 ++ mid) := by
  obtain ⟨gap, rfl⟩ := Nat.exists_eq_succ_of_ne_zero hgap.ne'
  have hall := @foldlM_shiftByte mid left [] mid.length gap (by simpa using h) (by simp)
  rw [List.append_nil] at hall
  exact hall

/-! ## What the parser still accepts -/

/-- What the bytes `done` become at the end of the string. -/
def Fills (colonp : Option ℕ) (done out : List UInt8) : Prop :=
  match colonp with
  | some k => Expands (done.take k) (done.drop k) out
  | none => out = done ∧ done.length = 16

/-- What they become if `t` is left of the string. -/
def Reads (colonp : Option ℕ) (done t out : List UInt8) : Prop :=
  match colonp with
  | some k => ∃ others, OrEmpty Groups t others ∧ Fills (some k) (done ++ others) out
  | none =>
    (∃ others, Groups t others ∧ Fills none (done ++ others) out) ∨
      ∃ lb rb, Open rb t lb ∧ Expands (done ++ lb) rb out

theorem Expands.length_le (h : Expands lb rb out) : lb.length + rb.length ≤ 14 := by
  obtain ⟨zeros, hzeros, hlen, -⟩ := h
  omega

theorem expands_iff (heven : 2 ∣ lb.length + rb.length) :
    Expands lb rb out ↔ lb.length + rb.length < 16 ∧
      out = lb ++ List.replicate (16 - (lb.length + rb.length)) 0 ++ rb := by
  constructor
  · rintro ⟨zeros, hzeros, hlen, rfl⟩
    have hgap : 16 - (lb.length + rb.length) = 2 * zeros := by omega
    exact ⟨by omega, by rw [hgap]⟩
  · rintro ⟨hlt, rfl⟩
    obtain ⟨k, hk⟩ := heven
    have hgap : 16 - (lb.length + rb.length) = 2 * (8 - k) := by omega
    exact ⟨8 - k, by omega, by omega, by rw [hgap]⟩

theorem length_take_add_drop (done : List UInt8) (k : ℕ) :
    (done.take k).length + (done.drop k).length = done.length := by
  rw [← List.length_append, List.take_append_drop]

theorem Fills.length_le (h : Fills colonp done out) : done.length ≤ 16 := by
  cases colonp with
  | none => exact h.2.le
  | some k =>
    have hlen := Expands.length_le h
    rw [length_take_add_drop] at hlen
    omega

theorem Reads.length_le (h : Reads colonp done t out) : done.length ≤ 16 := by
  cases colonp with
  | none =>
    rcases h with ⟨others, -, h⟩ | ⟨lb, rb, -, h⟩
    · have := h.length_le
      rw [List.length_append] at this
      omega
    · have := h.length_le
      rw [List.length_append] at this
      omega
  | some k =>
    obtain ⟨others, -, h⟩ := h
    have := h.length_le
    rw [List.length_append] at this
    omega

theorem Reads.isInetChar (h : Reads colonp done t out) : ∀ c ∈ t, IsInetChar c := by
  cases colonp with
  | none =>
    rcases h with ⟨others, h, -⟩ | ⟨lb, rb, h, -⟩
    · exact h.isInetChar
    · exact h.isInetChar
  | some k =>
    obtain ⟨others, h, -⟩ := h
    exact h.isInetChar

theorem orEmpty_groups_of_ne_nil (ht : t ≠ []) : OrEmpty Groups t bytes ↔ Groups t bytes := by
  unfold OrEmpty
  rw [or_iff_right]
  exact fun h ↦ ht h.1

theorem append_ne_nil_of_length (hw : 4 < w.length) : w ++ s ≠ [] := by
  refine List.append_ne_nil_of_left_ne_nil (fun hnil ↦ ?_) s
  rw [hnil] at hw
  exact absurd hw (by decide)

/-- More than four digits. -/
theorem not_reads_of_length (hw : value 16 w = some n) (hlen : 4 < w.length) :
    ¬Reads colonp done (w ++ s) out := by
  intro h
  cases colonp with
  | none =>
    rcases h with ⟨others, h, -⟩ | ⟨lb, rb, h, -⟩
    · exact absurd (h.length_le_four hw) (not_le.mpr hlen)
    · exact absurd (h.length_le_four hw) (not_le.mpr hlen)
  | some k =>
    obtain ⟨others, h, -⟩ := h
    rw [orEmpty_groups_of_ne_nil (append_ne_nil_of_length hlen)] at h
    exact absurd (h.length_le_four hw) (not_le.mpr hlen)

/-- The first colon after a group. -/
theorem reads_append_colon (h : Token w n) (hw : w ≠ []) (hs : s ≠ []) :
    Reads colonp done (w ++ colon :: s) out ↔ Reads colonp (done ++ pair n) s out := by
  have hne : w ++ colon :: s ≠ [] := List.append_ne_nil_of_left_ne_nil hw _
  cases colonp with
  | none =>
    simp only [Reads, groups_append_colon h, open_append_colon h hw]
    constructor
    · rintro (⟨others, ⟨-, others', hothers, rfl⟩, hout⟩ | ⟨lb, rb, ⟨others, hothers, rfl⟩, hout⟩)
      · exact Or.inl ⟨others', hothers, by rwa [List.append_assoc]⟩
      · exact Or.inr ⟨others, rb, hothers, by rwa [List.append_assoc]⟩
    · rintro (⟨others, hothers, hout⟩ | ⟨lb, rb, hopen, hout⟩)
      · rw [List.append_assoc] at hout
        exact Or.inl ⟨_, ⟨hw, others, hothers, rfl⟩, hout⟩
      · rw [List.append_assoc] at hout
        exact Or.inr ⟨_, rb, ⟨lb, hopen, rfl⟩, hout⟩
  | some k =>
    simp only [Reads, orEmpty_groups_of_ne_nil hne, orEmpty_groups_of_ne_nil hs,
      groups_append_colon h]
    constructor
    · rintro ⟨others, ⟨-, others', hothers, rfl⟩, hout⟩
      exact ⟨others', hothers, by rwa [List.append_assoc]⟩
    · rintro ⟨others, hothers, hout⟩
      rw [List.append_assoc] at hout
      exact ⟨_, ⟨hw, others, hothers, rfl⟩, hout⟩

/-- A single colon at the end. -/
theorem not_reads_append_colon (h : Token w n) (hw : w ≠ []) :
    ¬Reads colonp done (w ++ [colon]) out := by
  intro hreads
  have hnil : Token [] 0 := ⟨rfl, by decide⟩
  cases colonp with
  | none =>
    rcases hreads with ⟨others, hgroups, -⟩ | ⟨lb, rb, hopen, -⟩
    · obtain ⟨-, others', hothers, -⟩ := (groups_append_colon h).mp hgroups
      exact not_groups_nil hothers
    · obtain ⟨others, hothers, -⟩ := (open_append_colon h hw).mp hopen
      exact open_of_token hnil hothers
  | some k =>
    obtain ⟨others, hothers, -⟩ := hreads
    rw [orEmpty_groups_of_ne_nil (List.append_ne_nil_of_left_ne_nil hw _),
      groups_append_colon h] at hothers
    obtain ⟨-, others', hothers, -⟩ := hothers
    exact not_groups_nil hothers

theorem not_groups_colon : ¬Groups (colon :: s) bytes := by
  have hnil : Token [] 0 := ⟨rfl, by decide⟩
  intro h
  exact ((groups_append_colon hnil).mp h).1 rfl

/-- The second colon of a `::`. -/
theorem reads_colon : Reads none done (colon :: s) out ↔ Reads (some done.length) done s out := by
  simp only [Reads, not_groups_colon, false_and, exists_false, false_or, open_colon, Fills]
  constructor
  · rintro ⟨lb, rb, ⟨rfl, hrb⟩, hout⟩
    refine ⟨rb, hrb, ?_⟩
    rw [List.take_left, List.drop_left]
    rwa [List.append_nil] at hout
  · rintro ⟨rb, hrb, hout⟩
    refine ⟨[], rb, ⟨rfl, hrb⟩, ?_⟩
    rw [List.take_left, List.drop_left] at hout
    rwa [List.append_nil]

theorem not_reads_colon : ¬Reads (some k) done (colon :: s) out := by
  rintro ⟨others, hothers, -⟩
  rw [orEmpty_groups_of_ne_nil (List.cons_ne_nil _ _)] at hothers
  exact not_groups_colon hothers

/-- With a dot, only a dotted address is left. -/
theorem reads_append_dot (h : Token w n) :
    Reads colonp done (w ++ dot :: s) out ↔
      ∃ others, IPv4 (w ++ dot :: s) others ∧ Fills colonp (done ++ others) out := by
  have hne : w ++ dot :: s ≠ [] := List.append_ne_nil_of_right_ne_nil w (List.cons_ne_nil _ _)
  cases colonp with
  | none =>
    simp only [Reads, groups_append_dot h, open_append_dot h, false_and, exists_false, or_false]
  | some k => simp only [Reads, orEmpty_groups_of_ne_nil hne, groups_append_dot h]

/-- The end of the string, inside of a group. -/
theorem reads_of_token (h : Token w n) (hw : w ≠ []) :
    Reads colonp done w out ↔ Fills colonp (done ++ pair n) out := by
  cases colonp with
  | none =>
    simp only [Reads, groups_of_token h, open_of_token h, false_and, exists_false, or_false]
    constructor
    · rintro ⟨others, ⟨-, rfl⟩, hout⟩
      exact hout
    · exact fun hout ↦ ⟨_, ⟨hw, rfl⟩, hout⟩
  | some k =>
    simp only [Reads, orEmpty_groups_of_ne_nil hw, groups_of_token h]
    constructor
    · rintro ⟨others, ⟨-, rfl⟩, hout⟩
      exact hout
    · exact fun hout ↦ ⟨_, ⟨hw, rfl⟩, hout⟩

/-- The end of the string after a `::`. -/
theorem reads_nil (hdone : colonp = none → done.length < 16) :
    Reads colonp done [] out ↔ Fills colonp done out := by
  have hnil : Token [] 0 := ⟨rfl, by decide⟩
  cases colonp with
  | none =>
    simp only [Reads, not_groups_nil, open_of_token hnil, false_and, exists_false, or_false,
      Fills, false_iff, not_and]
    exact fun _ ↦ Nat.ne_of_lt (hdone rfl)
  | some k =>
    simp only [Reads, OrEmpty, not_groups_nil, or_false, true_and, exists_eq_left,
      List.append_nil]

/-! ## The parser -/

/-- The local variables after the bytes `done`. -/
structure Stored (done : List UInt8) (l : Pton6) : Prop where
  tmp_eq : l.tmp = done ++ List.replicate (16 - done.length) 0
  tp_eq : l.tp = done.length
  length_le : done.length ≤ 16
  two_dvd : 2 ∣ done.length
  colonp_le : ∀ k ∈ l.colonp, k ≤ done.length

/-- The local variables inside of the group `w`. -/
structure Inside (w : List UInt8) (l : Pton6) : Prop where
  token : Token w l.val
  seenXdigits_eq : l.seenXdigits = w.length

theorem decides_fill (h : Stored done l) : Decides (fill l) (Fills l.colonp done) := by
  obtain ⟨htmp, htp, hlen, htwo, hcolonp⟩ := h
  unfold fill
  rw [htp, htmp]
  cases hk : l.colonp with
  | none =>
    simp only
    split
    case isTrue hfull =>
      rw [decides_pure, hfull, Nat.sub_self, List.replicate_zero, List.append_nil]
      exact fun out ↦ and_iff_left hfull
    case isFalse hfull =>
      rw [decides_refuse]
      exact fun out h ↦ hfull h.2
  | some k =>
    have hle := hcolonp k hk
    have hsum := length_take_add_drop done k
    have htake : (done.take k).length = k := List.length_take_of_le hle
    simp only
    split
    case isTrue hfull =>
      rw [decides_refuse]
      intro out hout
      have := Expands.length_le hout
      omega
    case isFalse hfull =>
      have hroom : (done.take k).length + (done.drop k).length + (16 - done.length) = 16 := by
        omega
      have hshift := shift_eq hroom (by omega)
      rw [List.take_append_drop, List.length_drop, htake] at hshift
      rw [← hsum] at htwo
      rw [hshift, lift_some, decides_pure]
      intro out
      refine (expands_iff htwo).trans ?_
      rw [hsum, and_iff_right (by omega)]

theorem ofNat_mod (n : ℕ) : UInt8.ofNat (n % 256) = UInt8.ofNat n := by
  apply UInt8.toNat_inj.mp
  simp

/-- Bytes that are appended replace the zeros behind `tp`. -/
theorem Stored.splice_eq (h : Stored done l) (hroom : done.length + bytes.length ≤ 16) :
    splice l.tmp l.tp bytes =
      done ++ bytes ++ List.replicate (16 - (done.length + bytes.length)) 0 := by
  have hgap : 16 - done.length = bytes.length + (16 - (done.length + bytes.length)) := by omega
  have hlen : (List.replicate bytes.length (0 : UInt8)).length = bytes.length :=
    List.length_replicate
  rw [h.tmp_eq, h.tp_eq, hgap, List.replicate_add, ← List.append_assoc]
  exact splice_append rfl hlen.symm

theorem Stored.length_tmp (h : Stored done l) : l.tmp.length = 16 := by
  have hlen := h.length_le
  rw [h.tmp_eq, List.length_append, List.length_replicate]
  omega

theorem Stored.append (h : Stored done l) (bytes : List UInt8)
    (hroom : done.length + bytes.length ≤ 16) (htwo : 2 ∣ bytes.length) (curtok : List UInt8)
    (seenXdigits val : ℕ) :
    Stored (done ++ bytes) ⟨splice l.tmp l.tp bytes, l.tp + bytes.length, l.colonp, curtok,
      seenXdigits, val⟩ := by
  have hlen : (done ++ bytes).length = done.length + bytes.length := List.length_append
  refine ⟨?_, ?_, by omega, ?_, fun k hk ↦ ?_⟩
  · rw [hlen]
    exact h.splice_eq hroom
  · rw [hlen, h.tp_eq]
  · rw [hlen]
    exact Nat.dvd_add h.two_dvd htwo
  · exact (h.colonp_le k hk).trans (by omega)

theorem pushVal_eq (h : Stored done l) (hroom : done.length + 2 ≤ 16) :
    pushVal l = pure { l with tmp := splice l.tmp l.tp (pair l.val), tp := l.tp + 2 } := by
  have hbytes : pair l.val = [UInt8.ofNat (l.val >>> 8), UInt8.ofNat l.val] := by
    unfold pair
    rw [Nat.shiftRight_eq_div_pow, ofNat_mod]
  have hlen : (pair l.val).length = 2 := rfl
  have hfits : l.tp + (pair l.val).length ≤ l.tmp.length := by
    rw [h.length_tmp, h.tp_eq, hlen]
    exact hroom
  have htp := h.tp_eq
  unfold pushVal store
  rw [if_neg (by omega), ← hbytes, if_pos hfits, lift_some_bind]

theorem decides_finish (h : Stored done l) (hw : Inside w l)
    (hdone : l.colonp = none → w = [] → done.length < 16) :
    Decides (finish l) (Reads l.colonp done w) := by
  unfold finish
  rw [hw.seenXdigits_eq]
  by_cases hnil : w = []
  · subst hnil
    refine (decides_fill h).congr fun out ↦ ?_
    rw [reads_nil fun hcolonp ↦ hdone hcolonp rfl]
  · have hpos := List.length_pos_iff.mpr hnil
    rw [if_pos (by omega)]
    by_cases hroom : done.length + 2 ≤ 16
    · rw [pushVal_eq h hroom, pure_bind]
      have hfill := decides_fill
        (h.append (pair l.val) hroom (dvd_refl 2) l.curtok l.seenXdigits l.val)
      exact hfill.congr fun out ↦ (reads_of_token hw.token hnil).symm
    · unfold pushVal
      rw [h.tp_eq, if_pos (by omega), refuse_bind, decides_refuse]
      intro out hout
      rw [reads_of_token hw.token hnil] at hout
      have hlen := hout.length_le
      rw [List.length_append] at hlen
      exact hroom hlen

/-- From every place in the loop, what follows decides the string `s`; `text` is `s` with its
terminator.  Before a `::` the string does not end between groups. -/
def Followed (text s : List UInt8) : Prop :=
  ∀ w done l, Stored done l → Inside w l → l.curtok = w ++ text →
    (l.colonp = none → w ++ s = [] → done.length < 16) →
    Decides (inetPton6Loop text l >>= finish) (Reads l.colonp done (w ++ s))

variable {text : List UInt8}

theorem shiftLeft_or (hd : d < 16) (v : ℕ) : v <<< 4 ||| d = v * 16 + d := by
  have hor := Nat.shiftLeft_add_eq_or_of_lt (show d < 2 ^ 4 from hd) v
  rw [← hor, Nat.shiftLeft_eq]

theorem Followed.digit (h : Followed text s) (hzero : c ≠ 0) (hc : digit 16 c = some d) :
    Followed (c :: text) (c :: s) := by
  intro w done l hl hw hcurtok _
  have htext : w ++ c :: s = w ++ [c] ++ s := by simp
  have hlen : (w ++ [c]).length = w.length + 1 := by simp
  have hvalue := value_snoc hw.token.value_eq hc
  rw [inetPton6Loop, if_neg hzero, idxOf?_xdigits, hc, htext, hw.seenXdigits_eq]
  simp only [shiftLeft_or (digit_lt hc)]
  split
  case isTrue hlong =>
    rw [refuse_bind, decides_refuse]
    exact fun out ↦ not_reads_of_length hvalue (by omega)
  case isFalse hlong =>
    refine h (w ++ [c]) done _ ⟨hl.1, hl.2, hl.3, hl.4, hl.5⟩ ⟨⟨hvalue, by omega⟩, hlen.symm⟩ ?_ ?_
    · rw [List.append_assoc]
      exact hcurtok
    · intro _ hnil
      simp at hnil

theorem inside_nil (hval : l.val = 0) (hseen : l.seenXdigits = 0) : Inside [] l :=
  ⟨⟨by rw [hval]; rfl, by decide⟩, hseen⟩

theorem Inside.eq_nil (h : Inside w l) (hzero : l.seenXdigits = 0) : w = [] := by
  rw [h.seenXdigits_eq] at hzero
  exact List.length_eq_zero_iff.mp hzero

/-- A colon after a group, or the second one of a `::`. -/
theorem Followed.colon (h : Followed (s ++ 0 :: rest) s) (hs : 0 ∉ s) :
    Followed (colon :: (s ++ 0 :: rest)) (colon :: s) := by
  intro w done l hl hw _ _
  rw [inetPton6Loop, if_neg (by decide), idxOf?_xdigits, digit_sixteen_colon]
  simp only [if_true]
  by_cases hseen : l.seenXdigits = 0
  · rw [if_pos hseen, hw.eq_nil hseen, List.nil_append]
    cases hk : l.colonp with
    | some k =>
      rw [Option.isSome_some, if_pos rfl, refuse_bind, decides_refuse]
      exact fun out ↦ not_reads_colon
    | none =>
      rw [Option.isSome_none, if_neg Bool.false_ne_true]
      have hinside : Inside [] { l with curtok := s ++ 0 :: rest, colonp := some l.tp } := by
        refine ⟨?_, hseen⟩
        have htoken := hw.token
        rw [hw.eq_nil hseen] at htoken
        exact htoken
      have hstored : Stored done { l with curtok := s ++ 0 :: rest, colonp := some l.tp } := by
        refine ⟨hl.1, hl.2, hl.3, hl.4, fun k hk ↦ ?_⟩
        rw [← hl.tp_eq, ← Option.some.inj hk]
      refine (h [] done _ hstored hinside rfl ?_).congr fun out ↦ ?_
      · intro hnone
        exact absurd hnone (Option.some_ne_none _)
      · simp only [hl.tp_eq]
        exact reads_colon.symm
  · have hne : w ≠ [] := by
      rintro rfl
      exact hseen hw.seenXdigits_eq
    rw [if_neg hseen]
    cases s with
    | nil =>
      rw [List.nil_append, List.head?_cons, lift_some_bind, if_pos rfl, refuse_bind,
        decides_refuse]
      exact fun out ↦ not_reads_append_colon hw.token hne
    | cons c s =>
      rw [List.mem_cons, not_or] at hs
      rw [List.cons_append, List.head?_cons, lift_some_bind, if_neg (Ne.symm hs.1)]
      by_cases hroom : done.length + 2 ≤ 16
      · rw [pushVal_eq hl hroom, pure_bind]
        have hstored := hl.append (pair l.val) hroom (dvd_refl 2) (c :: s ++ 0 :: rest) 0 0
        refine (h [] _ _ hstored (inside_nil rfl rfl) rfl ?_).congr fun out ↦ ?_
        · exact fun _ hnil ↦ absurd hnil (List.cons_ne_nil c s)
        · exact (reads_append_colon hw.token hne (List.cons_ne_nil c s)).symm
      · unfold pushVal
        rw [hl.tp_eq, if_pos (by omega), refuse_bind, refuse_bind, decides_refuse]
        intro out hout
        rw [reads_append_colon hw.token hne (List.cons_ne_nil c s)] at hout
        have hlen := hout.length_le
        rw [List.length_append] at hlen
        exact hroom hlen

/-- A dot: the rest of the string has to be a dotted address. -/
theorem followed_dot (hs : 0 ∉ s) : Followed (dot :: (s ++ 0 :: rest)) (dot :: s) := by
  intro w done l hl hw hcurtok _
  rw [inetPton6Loop, if_neg (by decide), idxOf?_xdigits, digit_sixteen_dot]
  simp only [show dot ≠ colon by decide, if_false, true_and]
  by_cases hroom : done.length + 4 ≤ 16
  · have hterminated : 0 ∉ w ++ dot :: s := by
      rw [List.mem_append, List.mem_cons]
      rintro (hmem | hdot | hmem)
      · exact hw.token.notMem digit_zero hmem
      · exact absurd hdot (by decide)
      · exact hs hmem
    have hfits : l.tp + 4 ≤ l.tmp.length := by
      rw [hl.length_tmp, hl.tp_eq]
      exact hroom
    obtain ⟨ret, after, hrun, hwritten⟩ := wp_inetPton4 rest hterminated hfits
    rw [List.append_assoc, List.cons_append, ← hcurtok] at hrun
    have htp := hl.tp_eq
    rw [if_pos (by omega), hrun, lift_some_bind]
    rcases hwritten with ⟨bytes, hbytes, rfl, rfl⟩ | ⟨hnone, rfl, rfl⟩
    · have hlen : bytes.length = 4 := ((hbytes bytes).mpr rfl).2
      have hstored := hl.append bytes (by omega) (by omega) l.curtok 0 l.val
      rw [hlen] at hstored
      refine (decides_fill hstored).congr fun out ↦ ?_
      rw [reads_append_dot hw.token]
      simp only [hbytes, exists_eq_left]
    · rw [if_neg (show ¬(-1 : ℤ) = 0 by decide), refuse_bind, decides_refuse]
      intro out hout
      obtain ⟨others, hothers, -⟩ := (reads_append_dot hw.token).mp hout
      exact hnone others hothers
  · rw [hl.tp_eq, if_neg hroom, refuse_bind, decides_refuse]
    intro out hout
    obtain ⟨others, hothers, hfills⟩ := (reads_append_dot hw.token).mp hout
    have hlen := hfills.length_le
    rw [List.length_append, hothers.2] at hlen
    exact hroom hlen

/-- No other character occurs in an address. -/
theorem followed_other (hzero : c ≠ 0) (hc : digit 16 c = none) (hcolon : c ≠ colon)
    (hdot : c ≠ dot) : Followed (c :: text) (c :: s) := by
  intro w done l _ _ _ _
  rw [inetPton6Loop, if_neg hzero, idxOf?_xdigits, hc]
  simp only [hcolon, hdot, if_false, false_and, refuse_bind, decides_refuse]
  intro out hout
  rcases hout.isInetChar c (List.mem_append_right w List.mem_cons_self) with h | h | ⟨d, hd⟩
  · exact hcolon h
  · exact hdot h
  · rw [hc] at hd
    exact Option.some_ne_none d hd.symm

theorem followed_inetPton6Loop (rest : List UInt8) (hs : 0 ∉ s) : Followed (s ++ 0 :: rest) s := by
  induction s with
  | nil =>
    intro w done l hl hw _ hdone
    rw [List.append_nil] at hdone ⊢
    rw [List.nil_append, inetPton6Loop, if_pos rfl, pure_bind]
    exact decides_finish hl hw hdone
  | cons c s ih =>
    rw [List.mem_cons, not_or] at hs
    have hzero := Ne.symm hs.1
    rw [List.cons_append]
    cases hc : digit 16 c with
    | some d => exact (ih hs.2).digit hzero hc
    | none =>
      by_cases hcolon : c = colon
      · rw [hcolon]
        exact (ih hs.2).colon hs.2
      by_cases hdot : c = dot
      · rw [hdot]
        exact followed_dot hs.2
      · exact followed_other hzero hc hcolon hdot

/-! ## The whole string -/

theorem Hextets.head (h : Hextets t lb) : ∃ c u, t = c :: u ∧ c ≠ colon := by
  have hfirst : ∀ t bytes, IsGroup t bytes → ∃ c u, t = c :: u ∧ c ≠ colon := by
    intro t bytes ht
    obtain ⟨c, u, rfl⟩ := List.exists_cons_of_ne_nil ht.ne_nil
    refine ⟨c, u, rfl, ?_⟩
    rintro rfl
    exact ht.colon_notMem List.mem_cons_self
  cases h with
  | last h => exact hfirst _ _ h
  | cons h _ =>
    obtain ⟨c, u, rfl, hc⟩ := hfirst _ _ h
    exact ⟨c, _, rfl, hc⟩

theorem Hextets.isOpen (h : Hextets t lb) (hright : OrEmpty Groups s rb) :
    Open rb (t ++ colon :: colon :: s) lb := by
  induction h with
  | @last t lb h =>
    have hgap : Open rb (colon :: s) [] := open_colon.mpr ⟨rfl, hright⟩
    have hopen := Separated.cons h hgap
    rw [List.append_nil] at hopen
    exact hopen
  | cons hfirst _ ih =>
    rw [List.append_assoc]
    exact .cons hfirst ih

/-- The groups up to a `::` are all there, or the first colon of the `::` is gone. -/
theorem Open.cases (h : Open rb t lb) :
    (∃ right, t = colon :: right) ∨ ∃ left right, t = left ++ colon :: colon :: right ∧
      Hextets left lb ∧ OrEmpty Groups right rb := by
  induction h with
  | last h =>
    obtain ⟨-, right, rfl, -⟩ := h
    exact Or.inl ⟨right, rfl⟩
  | @cons t rest bytes lb hfirst hrest ih =>
    refine Or.inr ?_
    rcases ih with ⟨right, rfl⟩ | ⟨left, right, rfl, hleft, hright⟩
    · obtain ⟨rfl, hright⟩ := open_colon.mp hrest
      rw [List.append_nil]
      exact ⟨t, right, rfl, .last hfirst, hright⟩
    · exact ⟨t ++ colon :: left, right, by simp, .cons hfirst hleft, hright⟩

theorem iPv6_iff (ht : t.head? ≠ some colon) : IPv6 t out ↔ Reads none [] t out := by
  constructor
  · intro h
    cases h with
    | full h hlen => exact Or.inl ⟨out, h, rfl, hlen⟩
    | compressed hleft hright hout =>
      rcases hleft with ⟨rfl, -⟩ | hleft
      · exact absurd rfl ht
      · exact Or.inr ⟨_, _, hleft.isOpen hright, hout⟩
  · rintro (⟨others, hothers, rfl, hlen⟩ | ⟨lb, rb, hopen, hout⟩)
    · exact .full hothers hlen
    · rcases hopen.cases with ⟨right, rfl⟩ | ⟨left, right, rfl, hleft, hright⟩
      · exact absurd rfl ht
      · exact .compressed (Or.inr hleft) hright hout

/-- An address that begins with a colon begins with two. -/
theorem iPv6_colon : IPv6 (colon :: t) out ↔ t.head? = some colon ∧ Reads none [] t out := by
  constructor
  · intro h
    generalize htext : colon :: t = text at h
    cases h with
    | full h hlen =>
      rw [← htext] at h
      exact absurd h not_groups_colon
    | compressed hleft hright hout =>
      rcases hleft with ⟨rfl, rfl⟩ | hleft
      · rw [(List.cons.inj htext).2]
        exact ⟨rfl, Or.inr ⟨[], _, open_colon.mpr ⟨rfl, hright⟩, hout⟩⟩
      · obtain ⟨c, u, rfl, hc⟩ := hleft.head
        exact absurd (List.cons.inj htext).1 (Ne.symm hc)
  · rintro ⟨hhead, hreads⟩
    obtain ⟨u, rfl⟩ := List.head?_eq_some_iff.mp hhead
    rcases hreads with ⟨others, hothers, -⟩ | ⟨lb, rb, hopen, hout⟩
    · exact absurd hothers not_groups_colon
    · obtain ⟨rfl, hright⟩ := open_colon.mp hopen
      exact .compressed (Or.inl ⟨rfl, rfl⟩) hright hout

/-- The loop starts with an empty `tmp`. -/
theorem decides_start (rest : List UInt8) (ht : 0 ∉ t) :
    Decides (inetPton6Loop (t ++ 0 :: rest) ⟨List.replicate 16 0, 0, none, t ++ 0 :: rest, 0, 0⟩ >>=
      finish) (Reads none [] t) := by
  have hstored : Stored [] ⟨List.replicate 16 0, 0, none, t ++ 0 :: rest, 0, 0⟩ :=
    ⟨rfl, rfl, by decide, dvd_zero 2, fun k hk ↦ absurd hk.symm (Option.some_ne_none k)⟩
  exact followed_inetPton6Loop rest ht [] [] _ hstored (inside_nil rfl rfl) rfl
    fun _ _ ↦ Nat.zero_lt_succ 15

theorem decides_inetPton6Tmp (rest : List UInt8) (hs : 0 ∉ s) :
    Decides (inetPton6Tmp (s ++ 0 :: rest)) (IPv6 s) := by
  unfold inetPton6Tmp skipColon
  by_cases hhead : s.head? = some colon
  · obtain ⟨t, rfl⟩ := List.head?_eq_some_iff.mp hhead
    have ht : 0 ∉ t := fun hmem ↦ hs (List.mem_cons_of_mem colon hmem)
    rw [List.cons_append, List.head?_cons, lift_some_bind, if_pos rfl, List.tail_cons]
    cases t with
    | nil =>
      rw [List.nil_append, List.head?_cons, lift_some_bind, if_neg (by decide), refuse_bind,
        decides_refuse]
      intro out hout
      exact Option.some_ne_none colon (iPv6_colon.mp hout).1.symm
    | cons c u =>
      rw [List.cons_append, List.head?_cons, lift_some_bind]
      by_cases hc : c = colon
      · rw [if_pos hc, pure_bind, ← List.cons_append]
        refine (decides_start rest ht).congr fun out ↦ ?_
        rw [iPv6_colon, List.head?_cons, hc, and_iff_right rfl]
      · rw [if_neg hc, refuse_bind, decides_refuse]
        intro out hout
        exact hc (Option.some.inj (iPv6_colon.mp hout).1)
  · have hfirst : ∃ c, (s ++ 0 :: rest).head? = some c ∧ c ≠ colon := by
      cases s with
      | nil => exact ⟨0, rfl, by decide⟩
      | cons c u => exact ⟨c, rfl, fun hc ↦ hhead (by rw [hc]; rfl)⟩
    obtain ⟨c, hc, hne⟩ := hfirst
    rw [hc, lift_some_bind, if_neg hne, pure_bind]
    exact (decides_start rest hs).congr fun out ↦ (iPv6_iff hhead).symm

theorem IPv6.length_bytes (h : IPv6 t bytes) : bytes.length = 16 := by
  cases h with
  | full _ hlen => exact hlen
  | compressed _ _ hout =>
    obtain ⟨zeros, -, hlen, rfl⟩ := hout
    simp only [List.length_append, List.length_replicate]
    exact hlen

/-- `inet_pton6` writes the bytes of an IPv6 address, and refuses everything else. -/
theorem wp_inetPton6 {block : List UInt8} {dst : ℕ} (rest : List UInt8) (hs : 0 ∉ s)
    (hroom : dst + 16 ≤ block.length) :
    wp (inetPton6 (s ++ 0 :: rest) dst) (Written (IPv6 s) block dst) block :=
  wp_copyOut (decides_inetPton6Tmp rest hs) (fun _ h ↦ h.length_bytes) hroom

end Zbaselib.Inet
