import Zbaselib.Inet.Model
import Zbaselib.Lib.Separated

/-!
# The text forms of addresses

Each form is a relation between a text and the bytes that it denotes.
-/

namespace Zbaselib.Inet

open Grammar Numeral

/-- A number from 0 to 255 in decimal, without superfluous zeros. -/
structure Octet (t : List UInt8) (v : UInt8) : Prop where
  value_eq : value 10 t = some v.toNat
  ne_nil : t ≠ []
  length_of_zero : t.head? = some (Char.toUInt8 '0') → t.length = 1

def IsOctet (t bytes : List UInt8) : Prop := ∃ v, Octet t v ∧ bytes = [v]

/-- Numbers with a dot between them. -/
def Octets : List UInt8 → List UInt8 → Prop := Separated dot IsOctet IsOctet

def IPv4 (t bytes : List UInt8) : Prop := Octets t bytes ∧ bytes.length = 4

/-- One to four hexadecimal digits. -/
structure Group (t : List UInt8) (v : ℕ) : Prop where
  value_eq : value 16 t = some v
  length_pos : 0 < t.length
  length_le : t.length ≤ 4

def IsGroup (t bytes : List UInt8) : Prop :=
  ∃ v, Group t v ∧ bytes = [.ofNat (v / 256), .ofNat (v % 256)]

/-- Groups with a colon between them. -/
def Hextets : List UInt8 → List UInt8 → Prop := Separated colon IsGroup IsGroup

/-- The last two groups can be an IPv4 address. -/
def IsLast (t bytes : List UInt8) : Prop := IsGroup t bytes ∨ IPv4 t bytes

def Groups : List UInt8 → List UInt8 → Prop := Separated colon IsGroup IsLast

def OrEmpty (P : List UInt8 → List UInt8 → Prop) (t bytes : List UInt8) : Prop :=
  t = [] ∧ bytes = [] ∨ P t bytes

/-- One or more zero groups fill up the address. -/
def Expands (left right bytes : List UInt8) : Prop :=
  ∃ zeros, 0 < zeros ∧ left.length + 2 * zeros + right.length = 16 ∧
    bytes = left ++ List.replicate (2 * zeros) 0 ++ right

/-- Eight groups, or fewer with one `::`. -/
inductive IPv6 : List UInt8 → List UInt8 → Prop
  | full {t bytes : List UInt8} : Groups t bytes → bytes.length = 16 → IPv6 t bytes
  | compressed {left right lb rb bytes : List UInt8} : OrEmpty Hextets left lb →
      OrEmpty Groups right rb → Expands lb rb bytes →
      IPv6 (left ++ colon :: colon :: right) bytes

variable {t u w s bytes left right lb rb : List UInt8} {c v : UInt8} {d n : ℕ}

/-! ## Characters -/

@[simp]
theorem digit_dot : digit 10 dot = none := by decide

@[simp]
theorem digit_sixteen_dot : digit 16 dot = none := by decide

@[simp]
theorem digit_sixteen_colon : digit 16 colon = none := by decide

@[simp]
theorem digit_zero : digit 16 0 = none := by decide

theorem digit_sixteen (h : digit 10 c = some d) : digit 16 c = some d := by
  unfold digit at h ⊢
  rw [Option.filter_eq_some_iff] at h ⊢
  refine ⟨h.1, ?_⟩
  have := of_decide_eq_true h.2
  exact decide_eq_true (by omega)

/-- A character that is not a digit is not in a numeral. -/
theorem notMem_of_value {base : ℕ} (h : value base t = some n) (hc : digit base c = none) :
    c ∉ t := by
  intro hmem
  obtain ⟨d, hd⟩ := digit_of_mem h hmem
  rw [hc] at hd
  exact Option.some_ne_none d hd.symm

/-! ## Numbers of an IPv4 address -/

theorem Octet.dot_notMem (h : Octet t v) : dot ∉ t := notMem_of_value h.value_eq digit_dot

theorem IsOctet.dot_notMem (h : IsOctet t bytes) : dot ∉ t := by
  obtain ⟨v, hv, -⟩ := h
  exact hv.dot_notMem

theorem isOctet_iff (h : Octet t v) : IsOctet t bytes ↔ bytes = [v] := by
  constructor
  · rintro ⟨v', hv', rfl⟩
    have heq := h.value_eq.symm.trans hv'.value_eq
    rw [Option.some.injEq, UInt8.toNat_inj] at heq
    rw [heq]
  · rintro rfl
    exact ⟨v, h, rfl⟩

theorem toNat_ofNat (h : n ≤ 255) : (UInt8.ofNat n).toNat = n := by
  rw [UInt8.toNat_ofNat']
  exact Nat.mod_eq_of_lt (by omega)

theorem octet_digit (hc : digit 10 c = some d) : Octet [c] (.ofNat d) where
  value_eq := by
    have hd := digit_lt hc
    rw [toNat_ofNat (by omega)]
    simp [value, hc]
  ne_nil := by simp
  length_of_zero := by simp

/-- A number of which more digits can follow does not begin with a zero. -/
theorem Octet.head_ne_zero (h : Octet t v) (hv : v ≠ 0) :
    t.head? ≠ some (Char.toUInt8 '0') := by
  intro hhead
  obtain ⟨c, rfl⟩ := List.length_eq_one_iff.mp (h.length_of_zero hhead)
  rw [List.head?_cons, Option.some.injEq] at hhead
  have hvalue : some v.toNat = some 0 := by
    rw [← h.value_eq, hhead]
    decide
  rw [Option.some.injEq] at hvalue
  exact hv (UInt8.toNat_inj.mp hvalue)

theorem Octet.snoc (h : Octet t v) (hv : v ≠ 0) (hc : digit 10 c = some d)
    (hle : v.toNat * 10 + d ≤ 255) : Octet (t ++ [c]) (.ofNat (v.toNat * 10 + d)) where
  value_eq := by
    rw [toNat_ofNat hle]
    exact value_snoc h.value_eq hc
  ne_nil := by simp
  length_of_zero := by
    intro hhead
    rw [List.head?_append_of_ne_nil t h.ne_nil] at hhead
    exact absurd hhead (h.head_ne_zero hv)

theorem Octet.head_of_zero (h : Octet t 0) : t.head? = some (Char.toUInt8 '0') := by
  by_contra hhead
  refine h.ne_nil (eq_nil_of_value_zero (by decide) h.value_eq fun c hc hdigit ↦ hhead ?_)
  rw [Option.mem_def] at hc
  rw [hc, (digit_eq_zero (by decide)).mp hdigit]

/-- Nothing follows a zero. -/
theorem Octet.not_isOctet_of_zero (h : Octet t 0) : ¬IsOctet (t ++ c :: u) bytes := by
  rintro ⟨v, hv, -⟩
  have hhead : (t ++ c :: u).head? = some (Char.toUInt8 '0') := by
    rw [List.head?_append_of_ne_nil t h.ne_nil, h.head_of_zero]
  have hlen := hv.length_of_zero hhead
  have hpos := List.length_pos_iff.mpr h.ne_nil
  rw [List.length_append, List.length_cons] at hlen
  omega

theorem not_isOctet_of_value (h : value 10 t = some n) (hn : 255 < n) :
    ¬IsOctet (t ++ u) bytes := by
  rintro ⟨v, hv, -⟩
  have hle := le_of_value_append (by decide) h hv.value_eq
  have := v.toNat_lt
  omega

theorem Octet.length_le (h : Octet t v) : t.length ≤ 3 := by
  by_cases hv : v = 0
  · subst hv
    rw [h.length_of_zero h.head_of_zero]
    decide
  · by_contra hlen
    obtain ⟨c, u, rfl⟩ := List.exists_cons_of_ne_nil h.ne_nil
    have hvalue := h.value_eq
    unfold value at hvalue
    rw [readFrom_cons, Option.bind_eq_some_iff] at hvalue
    obtain ⟨d, hd, hrest⟩ := hvalue
    rw [Nat.zero_mul, Nat.zero_add] at hrest
    have hpos : 0 < d := by
      rw [Nat.pos_iff_ne_zero]
      rintro rfl
      have hne := h.head_ne_zero hv
      rw [(digit_eq_zero (by decide)).mp hd] at hne
      exact hne rfl
    have hpow : 10 ^ 3 ≤ 10 ^ u.length := by
      refine Nat.pow_le_pow_right (by decide) ?_
      rw [List.length_cons] at hlen
      omega
    have hle := mul_pow_le_of_readFrom hrest
    have hone := Nat.le_mul_of_pos_left (10 ^ u.length) hpos
    have := v.toNat_lt
    omega

theorem IsOctet.length_le (h : IsOctet t bytes) : t.length ≤ 3 := by
  obtain ⟨v, hv, -⟩ := h
  exact hv.length_le

theorem not_isOctet_nil : ¬IsOctet [] bytes := by
  rintro ⟨v, hv, -⟩
  exact hv.ne_nil rfl

theorem IsOctet.length_bytes (h : IsOctet t bytes) : bytes.length = 1 := by
  obtain ⟨v, -, rfl⟩ := h
  rfl

/-! ## Dotted addresses -/

theorem octets_of_octet (h : Octet w v) : Octets w bytes ↔ bytes = [v] := by
  unfold Octets
  rw [separated_of_notMem h.dot_notMem, isOctet_iff h]

theorem octets_append_dot (h : Octet w v) :
    Octets (w ++ dot :: s) bytes ↔ ∃ others, Octets s others ∧ bytes = v :: others := by
  unfold Octets
  rw [separated_append_cons h.dot_notMem fun _ _ ht ↦ ht.dot_notMem]
  constructor
  · rintro (hlast | ⟨first, others, hfirst, hothers, rfl⟩)
    · exact absurd (List.mem_append_right w List.mem_cons_self) hlast.dot_notMem
    · rw [isOctet_iff h] at hfirst
      exact ⟨others, hothers, by rw [hfirst]; rfl⟩
  · rintro ⟨others, hothers, rfl⟩
    exact Or.inr ⟨[v], others, (isOctet_iff h).mpr rfl, hothers, rfl⟩

/-- A beginning without a dot is the beginning of a number. -/
theorem Octets.first (h : Octets (w ++ s) bytes) (hw : dot ∉ w) :
    ∃ u first, IsOctet (w ++ u) first := by
  rcases Separated.first h hw with hlast | hfirst
  · exact ⟨s, bytes, hlast⟩
  · exact hfirst

theorem not_octets_nil : ¬Octets [] bytes := by
  unfold Octets
  rw [separated_of_notMem List.not_mem_nil]
  exact not_isOctet_nil

theorem not_octets_dot : ¬Octets (dot :: s) bytes := by
  have hnil : dot ∉ ([] : List UInt8) := List.not_mem_nil
  intro h
  rcases (separated_append_cons hnil fun _ _ ht ↦ ht.dot_notMem).mp h with
    hlast | ⟨first, others, hfirst, -⟩
  · exact hlast.dot_notMem List.mem_cons_self
  · exact not_isOctet_nil hfirst

/-- The characters of a dotted address. -/
theorem Octets.digit_or_dot (h : Octets t bytes) : ∀ c ∈ t, c = dot ∨ ∃ d, digit 10 c = some d := by
  have hoctet : ∀ t bytes, IsOctet t bytes → ∀ c ∈ t, c = dot ∨ ∃ d, digit 10 c = some d := by
    rintro t bytes ⟨v, hv, -⟩ c hc
    exact Or.inr (digit_of_mem hv.value_eq hc)
  exact Separated.forall_mem h (Or.inl rfl) hoctet hoctet

theorem Octets.length_pos (h : Octets t bytes) : 0 < bytes.length := by
  cases h with
  | last h => rw [h.length_bytes]; decide
  | cons h _ => rw [List.length_append, h.length_bytes]; omega

theorem IPv4.length_le (h : IPv4 t bytes) : t.length ≤ 15 := by
  have hoctet : ∀ t bytes, IsOctet t bytes → 1 * (t.length + 1) ≤ 4 * bytes.length + 0 := by
    intro t bytes ht
    have := ht.length_le
    have := ht.length_bytes
    omega
  have hle := Separated.length_le h.1 hoctet hoctet
  have := h.2
  omega

theorem IPv4.notMem (h : IPv4 t bytes) (hc : digit 10 c = none) (hdot : c ≠ dot) : c ∉ t := by
  intro hmem
  rcases h.1.digit_or_dot c hmem with rfl | ⟨d, hd⟩
  · exact hdot rfl
  · rw [hc] at hd
    exact Option.some_ne_none d hd.symm

/-! ## Groups -/

/-- Up to four hexadecimal digits, as the parser has them when it is inside a group. -/
structure Token (t : List UInt8) (v : ℕ) : Prop where
  value_eq : value 16 t = some v
  length_le : t.length ≤ 4

/-- The two bytes of a group. -/
def pair (v : ℕ) : List UInt8 := [.ofNat (v / 256), .ofNat (v % 256)]

theorem Token.isGroup_iff (h : Token t n) : IsGroup t bytes ↔ t ≠ [] ∧ bytes = pair n := by
  constructor
  · rintro ⟨v, hv, rfl⟩
    have heq := h.value_eq.symm.trans hv.value_eq
    rw [Option.some.injEq] at heq
    exact ⟨List.length_pos_iff.mp hv.length_pos, by rw [heq]; rfl⟩
  · rintro ⟨hne, rfl⟩
    exact ⟨n, ⟨h.value_eq, List.length_pos_iff.mpr hne, h.length_le⟩, rfl⟩

theorem Token.notMem (h : Token t n) (hc : digit 16 c = none) : c ∉ t :=
  notMem_of_value h.value_eq hc

theorem Token.not_iPv4 (h : Token t n) : ¬IPv4 t bytes := by
  intro hdotted
  obtain ⟨hoctets, hlen⟩ := hdotted
  unfold Octets at hoctets
  rw [separated_of_notMem (h.notMem digit_sixteen_dot)] at hoctets
  have := hoctets.length_bytes
  omega

theorem IsGroup.length_bytes (h : IsGroup t bytes) : bytes.length = 2 := by
  obtain ⟨v, -, rfl⟩ := h
  rfl

theorem IsGroup.length_le (h : IsGroup t bytes) : t.length ≤ 4 := by
  obtain ⟨v, hv, -⟩ := h
  exact hv.length_le

theorem IsGroup.ne_nil (h : IsGroup t bytes) : t ≠ [] := by
  obtain ⟨v, hv, -⟩ := h
  exact List.length_pos_iff.mp hv.length_pos

theorem IsGroup.notMem (h : IsGroup t bytes) (hc : digit 16 c = none) : c ∉ t := by
  obtain ⟨v, hv, -⟩ := h
  exact notMem_of_value hv.value_eq hc

theorem IsGroup.colon_notMem (h : IsGroup t bytes) : colon ∉ t := h.notMem digit_sixteen_colon

theorem IPv4.colon_notMem (h : IPv4 t bytes) : colon ∉ t := h.notMem (by decide) (by decide)

theorem IsLast.colon_notMem (h : IsLast t bytes) : colon ∉ t := by
  rcases h with h | h
  · exact h.colon_notMem
  · exact h.colon_notMem

/-- An address does not begin with more than four digits. -/
theorem IsLast.length_le (h : IsLast (w ++ s) bytes) (hw : value 16 w = some n) :
    w.length ≤ 4 := by
  rcases h with h | h
  · have := h.length_le
    rw [List.length_append] at this
    omega
  · obtain ⟨u, first, hfirst⟩ := h.1.first (notMem_of_value hw digit_sixteen_dot)
    have := hfirst.length_le
    rw [List.length_append] at this
    omega

/-- The characters of an address. -/
def IsInetChar (c : UInt8) : Prop := c = colon ∨ c = dot ∨ ∃ d, digit 16 c = some d

theorem IsGroup.isInetChar (h : IsGroup t bytes) : ∀ c ∈ t, IsInetChar c := by
  obtain ⟨v, hv, -⟩ := h
  exact fun c hc ↦ Or.inr (Or.inr (digit_of_mem hv.value_eq hc))

theorem IsLast.isInetChar (h : IsLast t bytes) : ∀ c ∈ t, IsInetChar c := by
  rcases h with h | h
  · exact h.isInetChar
  · intro c hc
    rcases h.1.digit_or_dot c hc with hdot | ⟨d, hd⟩
    · exact Or.inr (Or.inl hdot)
    · exact Or.inr (Or.inr ⟨d, digit_sixteen hd⟩)

theorem groups_of_token (h : Token w n) : Groups w bytes ↔ w ≠ [] ∧ bytes = pair n := by
  unfold Groups
  rw [separated_of_notMem (h.notMem digit_sixteen_colon), IsLast, h.isGroup_iff,
    or_iff_left h.not_iPv4]

theorem not_groups_nil : ¬Groups [] bytes := by
  rw [groups_of_token ⟨rfl, by decide⟩]
  exact fun h ↦ h.1 rfl

theorem groups_append_colon (h : Token w n) :
    Groups (w ++ colon :: s) bytes ↔
      w ≠ [] ∧ ∃ others, Groups s others ∧ bytes = pair n ++ others := by
  unfold Groups
  rw [separated_append_cons (h.notMem digit_sixteen_colon) fun _ _ ht ↦ ht.colon_notMem]
  constructor
  · rintro (hlast | ⟨first, others, hfirst, hothers, rfl⟩)
    · exact absurd (List.mem_append_right w List.mem_cons_self) hlast.colon_notMem
    · obtain ⟨hne, rfl⟩ := h.isGroup_iff.mp hfirst
      exact ⟨hne, others, hothers, rfl⟩
  · rintro ⟨hne, others, hothers, rfl⟩
    exact Or.inr ⟨pair n, others, h.isGroup_iff.mpr ⟨hne, rfl⟩, hothers, rfl⟩

/-- A dot is only in the last item. -/
theorem groups_append_dot (h : Token w n) :
    Groups (w ++ dot :: s) bytes ↔ IPv4 (w ++ dot :: s) bytes := by
  have hdot : dot ∈ w ++ dot :: s := List.mem_append_right w List.mem_cons_self
  constructor
  · intro hgroups
    generalize htext : w ++ dot :: s = text at hgroups hdot
    cases hgroups with
    | last hlast =>
      rcases hlast with hgroup | hdotted
      · exact absurd hdot (hgroup.notMem digit_sixteen_dot)
      · exact hdotted
    | cons hfirst hrest =>
      obtain ⟨u, hu, hs⟩ := prefix_of_append_cons (h.notMem digit_sixteen_colon) htext
      cases u with
      | nil => exact absurd (List.cons.inj hs).1 (by decide)
      | cons c u =>
        rw [hu, ← (List.cons.inj hs).1] at hfirst
        exact absurd (List.mem_append_right w List.mem_cons_self)
          (hfirst.notMem digit_sixteen_dot)
  · exact fun hdotted ↦ .last (Or.inr hdotted)

theorem Groups.length_le_four (h : Groups (w ++ s) bytes) (hw : value 16 w = some n) :
    w.length ≤ 4 := by
  rcases Separated.first h (notMem_of_value hw digit_sixteen_colon) with
    hlast | ⟨u, first, hfirst⟩
  · exact hlast.length_le hw
  · have := hfirst.length_le
    rw [List.length_append] at this
    omega

theorem Groups.isInetChar (h : Groups t bytes) : ∀ c ∈ t, IsInetChar c :=
  Separated.forall_mem h (Or.inl rfl) (fun _ _ ht ↦ ht.isInetChar) fun _ _ ht ↦ ht.isInetChar

/-! ## What is left of a text after some of its groups -/

/-- The second colon of a `::`, and what follows it. -/
def IsGap (rb t lb : List UInt8) : Prop :=
  lb = [] ∧ ∃ right, t = colon :: right ∧ OrEmpty Groups right rb

/-- Groups up to a `::`; `rb` are the bytes after it. -/
def Open (rb : List UInt8) : List UInt8 → List UInt8 → Prop := Separated colon IsGroup (IsGap rb)

theorem open_of_token (h : Token w n) : ¬Open rb w lb := by
  unfold Open
  rw [separated_of_notMem (h.notMem digit_sixteen_colon)]
  rintro ⟨-, right, rfl, -⟩
  exact h.notMem digit_sixteen_colon List.mem_cons_self

theorem Token.not_isGap (h : Token w n) (hw : w ≠ []) : ¬IsGap rb (w ++ s) lb := by
  rintro ⟨-, right, htext, -⟩
  obtain ⟨c, u, rfl⟩ := List.exists_cons_of_ne_nil hw
  rw [List.cons_append, List.cons.injEq] at htext
  rw [htext.1] at h
  exact h.notMem digit_sixteen_colon List.mem_cons_self

theorem open_append_colon (h : Token w n) (hw : w ≠ []) :
    Open rb (w ++ colon :: s) lb ↔ ∃ others, Open rb s others ∧ lb = pair n ++ others := by
  unfold Open
  rw [separated_append_cons (h.notMem digit_sixteen_colon) fun _ _ ht ↦ ht.colon_notMem]
  constructor
  · rintro (hgap | ⟨first, others, hfirst, hothers, rfl⟩)
    · exact absurd hgap (h.not_isGap hw)
    · obtain ⟨-, rfl⟩ := h.isGroup_iff.mp hfirst
      exact ⟨others, hothers, rfl⟩
  · rintro ⟨others, hothers, rfl⟩
    exact Or.inr ⟨pair n, others, h.isGroup_iff.mpr ⟨hw, rfl⟩, hothers, rfl⟩

theorem open_colon : Open rb (colon :: s) lb ↔ lb = [] ∧ OrEmpty Groups s rb := by
  have hnil : colon ∉ ([] : List UInt8) := List.not_mem_nil
  constructor
  · intro h
    rcases (separated_append_cons hnil fun _ _ ht ↦ ht.colon_notMem).mp h with
      ⟨hlb, right, htext, hright⟩ | ⟨first, others, hfirst, -⟩
    · rw [(List.cons.inj htext).2]
      exact ⟨hlb, hright⟩
    · exact absurd rfl hfirst.ne_nil
  · rintro ⟨hlb, hright⟩
    exact .last ⟨hlb, s, rfl, hright⟩

theorem open_append_dot (h : Token w n) : ¬Open rb (w ++ dot :: s) lb := by
  intro hopen
  have hw : colon ∉ w ++ [dot] := by
    rw [List.mem_append, List.mem_singleton]
    rintro (hmem | heq)
    · exact h.notMem digit_sixteen_colon hmem
    · exact absurd heq (by decide)
  rw [← List.singleton_append, ← List.append_assoc] at hopen
  rcases Separated.first hopen hw with ⟨-, right, htext, -⟩ | ⟨u, first, hfirst⟩
  · cases w with
    | nil => exact absurd (List.cons.inj htext).1 (by decide)
    | cons c w =>
      have hc : c = colon := (List.cons.inj htext).1
      rw [hc] at hw
      exact hw (List.mem_append_left _ List.mem_cons_self)
  · refine hfirst.notMem digit_sixteen_dot ?_
    simp

theorem Open.length_le_four (h : Open rb (w ++ s) lb) (hw : value 16 w = some n) :
    w.length ≤ 4 := by
  rcases Separated.first h (notMem_of_value hw digit_sixteen_colon) with
    ⟨-, right, htext, -⟩ | ⟨u, first, hfirst⟩
  · cases w with
    | nil => decide
    | cons c w =>
      have hc : c = colon := (List.cons.inj htext).1
      rw [hc] at hw
      exact absurd List.mem_cons_self (notMem_of_value hw digit_sixteen_colon)
  · have := hfirst.length_le
    rw [List.length_append] at this
    omega

theorem OrEmpty.isInetChar (h : OrEmpty Groups t bytes) : ∀ c ∈ t, IsInetChar c := by
  rcases h with ⟨rfl, -⟩ | h
  · exact fun c hc ↦ absurd hc List.not_mem_nil
  · exact h.isInetChar

theorem Open.isInetChar (h : Open rb t lb) : ∀ c ∈ t, IsInetChar c := by
  refine Separated.forall_mem h (Or.inl rfl) (fun _ _ ht ↦ ht.isInetChar) ?_
  rintro t bytes ⟨-, right, rfl, hright⟩ c hc
  rw [List.mem_cons] at hc
  rcases hc with rfl | hc
  · exact Or.inl rfl
  · exact hright.isInetChar c hc

end Zbaselib.Inet
