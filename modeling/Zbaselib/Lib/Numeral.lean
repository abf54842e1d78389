import Mathlib

/-!
# Numerals as text

Numbers written with ASCII digits in a base of at most 16.  A numeral is read
from the left, and `text` is the one without superfluous zeros.
-/

namespace Zbaselib.Numeral

/-- The value of a digit; letters count in either case. -/
def digitValue (c : UInt8) : Option ℕ :=
  if 48 ≤ c.toNat ∧ c.toNat ≤ 57 then some (c.toNat - 48)
  else if 97 ≤ c.toNat ∧ c.toNat ≤ 102 then some (c.toNat - 87)
  else if 65 ≤ c.toNat ∧ c.toNat ≤ 70 then some (c.toNat - 55)
  else none

/-- The value of a digit of the base. -/
def digit (base : ℕ) (c : UInt8) : Option ℕ := (digitValue c).filter (· < base)

/-- Reads digits after a numeral of value `v`. -/
def readFrom (base v : ℕ) (t : List UInt8) : Option ℕ :=
  t.foldlM (fun v c ↦ (digit base c).map (v * base + ·)) v

/-- The value of a numeral. -/
def value (base : ℕ) (t : List UInt8) : Option ℕ := readFrom base 0 t

/-- The numeral that `printf` writes. -/
def text (base n : ℕ) : List UInt8 := (Nat.toDigits base n).map Char.toUInt8

variable {base v n d : ℕ} {c : UInt8} {t u : List UInt8}

/-! ## Reading -/

theorem digit_lt (h : digit base c = some d) : d < base := by
  unfold digit at h
  rw [Option.filter_eq_some_iff] at h
  exact of_decide_eq_true h.2

theorem digitValue_eq_zero : digitValue c = some 0 ↔ c = Char.toUInt8 '0' := by
  constructor
  · intro h
    have htoNat : c.toNat = 48 := by
      unfold digitValue at h
      split_ifs at h <;> rw [Option.some.injEq] at h <;> omega
    exact UInt8.toNat_inj.mp htoNat
  · rintro rfl
    decide

theorem digit_eq_zero (hbase : 0 < base) : digit base c = some 0 ↔ c = Char.toUInt8 '0' := by
  unfold digit
  rw [Option.filter_eq_some_iff, digitValue_eq_zero]
  exact and_iff_left (decide_eq_true hbase)

@[simp]
theorem readFrom_nil (base v : ℕ) : readFrom base v [] = some v := rfl

@[simp]
theorem readFrom_cons (base v : ℕ) (c : UInt8) (t : List UInt8) :
    readFrom base v (c :: t) =
      (digit base c).bind fun d ↦ readFrom base (v * base + d) t := by
  unfold readFrom
  rw [List.foldlM_cons]
  cases digit base c <;> rfl

theorem readFrom_append (base v : ℕ) (t u : List UInt8) :
    readFrom base v (t ++ u) = (readFrom base v t).bind fun w ↦ readFrom base w u := by
  unfold readFrom
  rw [List.foldlM_append]
  rfl

/-- One more digit. -/
theorem value_snoc (ht : value base t = some v) (hc : digit base c = some d) :
    value base (t ++ [c]) = some (v * base + d) := by
  unfold value at ht ⊢
  rw [readFrom_append, ht, Option.bind_some, readFrom_cons, hc, Option.bind_some, readFrom_nil]

theorem digit_of_mem (h : readFrom base v t = some n) (hc : c ∈ t) :
    ∃ d, digit base c = some d := by
  induction t generalizing v with
  | nil => exact absurd hc List.not_mem_nil
  | cons c' t ih =>
    rw [readFrom_cons, Option.bind_eq_some_iff] at h
    obtain ⟨d, hd, hrest⟩ := h
    rw [List.mem_cons] at hc
    rcases hc with rfl | hc
    · exact ⟨d, hd⟩
    · exact ih hrest hc

/-- Digits that follow only make a number larger. -/
theorem mul_pow_le_of_readFrom (h : readFrom base v t = some n) : v * base ^ t.length ≤ n := by
  induction t generalizing v with
  | nil =>
    rw [readFrom_nil, Option.some.injEq] at h
    simp [h]
  | cons c t ih =>
    rw [readFrom_cons, Option.bind_eq_some_iff] at h
    obtain ⟨d, -, hrest⟩ := h
    calc v * base ^ (c :: t).length
        = v * base * base ^ t.length := by rw [List.length_cons, pow_succ']; ring
      _ ≤ (v * base + d) * base ^ t.length := Nat.mul_le_mul_right _ (Nat.le_add_right _ _)
      _ ≤ n := ih hrest

theorem lt_mul_pow_of_readFrom (h : readFrom base v t = some n) :
    n < (v + 1) * base ^ t.length := by
  induction t generalizing v with
  | nil =>
    rw [readFrom_nil, Option.some.injEq] at h
    simp [h]
  | cons c t ih =>
    rw [readFrom_cons, Option.bind_eq_some_iff] at h
    obtain ⟨d, hd, hrest⟩ := h
    have hlt := digit_lt hd
    calc n < (v * base + d + 1) * base ^ t.length := ih hrest
      _ ≤ ((v + 1) * base) * base ^ t.length := by
        refine Nat.mul_le_mul_right _ ?_
        rw [add_mul, one_mul]
        omega
      _ = (v + 1) * base ^ (c :: t).length := by rw [List.length_cons, pow_succ']; ring

theorem value_lt (h : value base t = some n) : n < base ^ t.length := by
  simpa using lt_mul_pow_of_readFrom h

/-- A numeral is at least what its beginning says. -/
theorem le_of_value_append (hbase : 0 < base) (ht : value base t = some v)
    (h : value base (t ++ u) = some n) : v ≤ n := by
  unfold value at ht h
  rw [readFrom_append, ht, Option.bind_some] at h
  calc v ≤ v * base ^ u.length := Nat.le_mul_of_pos_right _ (Nat.pow_pos hbase)
    _ ≤ n := mul_pow_le_of_readFrom h

/-- A numeral of value 0 that does not begin with a zero is empty. -/
theorem eq_nil_of_value_zero (hbase : 0 < base) (h : value base t = some 0)
    (hhead : ∀ c ∈ t.head?, digit base c ≠ some 0) : t = [] := by
  cases t with
  | nil => rfl
  | cons c t =>
    unfold value at h
    rw [readFrom_cons, Option.bind_eq_some_iff] at h
    obtain ⟨d, hd, hrest⟩ := h
    rw [Nat.zero_mul, Nat.zero_add] at hrest
    have hle := mul_pow_le_of_readFrom hrest
    have hpos : 0 < base ^ t.length := Nat.pow_pos hbase
    have hzero : d = 0 := by
      by_contra hne
      have := Nat.mul_pos (Nat.pos_of_ne_zero hne) hpos
      omega
    exact absurd (hzero ▸ hd) (hhead c rfl)

/-! ## Writing -/

theorem digitValue_digitChar (h : d < 16) : digitValue (Nat.digitChar d).toUInt8 = some d := by
  interval_cases d <;> decide

theorem digit_digitChar (hbase : base ≤ 16) (h : d < base) :
    digit base (Nat.digitChar d).toUInt8 = some d := by
  unfold digit
  rw [digitValue_digitChar (by omega), Option.filter_some, if_pos (decide_eq_true h)]

theorem text_eq_ite (hbase : 1 < base) (n : ℕ) :
    text base n =
      if n < base then [(Nat.digitChar n).toUInt8]
      else text base (n / base) ++ [(Nat.digitChar (n % base)).toUInt8] := by
  unfold text
  rw [Nat.toDigits_eq_if hbase]
  split
  · rw [List.map_singleton]
  · rw [List.map_append, List.map_singleton]

/-- What is written is read back. -/
theorem value_text (hlow : 1 < base) (hhigh : base ≤ 16) (n : ℕ) :
    value base (text base n) = some n := by
  induction n using Nat.strong_induction_on with
  | _ n ih =>
    rw [text_eq_ite hlow]
    split
    case isTrue h =>
      have hdigit := digit_digitChar hhigh h
      simp [value, hdigit]
    case isFalse h =>
      have hdiv : n / base < n := Nat.div_lt_self (by omega) hlow
      have hdigit := digit_digitChar hhigh (Nat.mod_lt n (by omega))
      rw [value_snoc (ih _ hdiv) hdigit, Nat.div_add_mod']

theorem text_ne_nil (base n : ℕ) : text base n ≠ [] := by
  simp [text]

theorem length_text_pos (base n : ℕ) : 0 < (text base n).length :=
  List.length_pos_iff.mpr (text_ne_nil base n)

theorem length_text_le_iff {k : ℕ} (hbase : 1 < base) (hk : 0 < k) :
    (text base n).length ≤ k ↔ n < base ^ k := by
  unfold text
  rw [List.length_map]
  exact Nat.length_toDigits_le_iff hbase hk

/-- Only the numeral of 0 begins with a zero, and has no other digit. -/
theorem length_text_of_head (hlow : 1 < base) (hhigh : base ≤ 16) (hc : digit base c = some 0)
    (h : (text base n).head? = some c) : (text base n).length = 1 := by
  obtain ⟨t, htext⟩ := List.head?_eq_some_iff.mp h
  have hvalue := value_text hlow hhigh n
  unfold value at hvalue
  rw [htext, readFrom_cons, hc, Option.bind_some, Nat.zero_mul, Nat.zero_add] at hvalue
  have hlt := value_lt hvalue
  cases t with
  | nil => rw [htext, List.length_singleton]
  | cons c' t =>
    have hle := (length_text_le_iff hlow (Nat.succ_pos t.length)).mpr hlt
    rw [htext, List.length_cons, List.length_cons] at hle
    omega

end Zbaselib.Numeral
