import Zbaselib.Lib.Horner
import Zbaselib.Lib.Program

/-!
# The string hash of `zbaselib.c`

The hash is Horner's scheme for 31 modulo `2 ^ 32`.  The loop counts in an
`unsigned int` up to a `size_t`, so it never ends on strings of `2 ^ 32` bytes
and more.
-/

namespace Zbaselib.Hash

open Program Horner

/-- `ngx_hash` -/
def ngxHash (key : UInt32) (c : UInt8) : UInt32 := key * 31 + c.toUInt32

/-- An iteration over `i` and `key`.  The state is the indices that were read. -/
def ngxHashKeyBody (data : List UInt8) (len : UInt64) :
    UInt32 × UInt32 → Cmd (List ℕ) (UInt32 × UInt32 ⊕ UInt32)
  | (i, key) => do
    if i.toUInt64 < len then
      match data[i.toNat]? with
      | some c =>
        modify (· ++ [i.toNat])
        return .inl (i + 1, ngxHash key c)
      | none => failure
    else
      return .inr key

/-- `ngx_hash_key`, with at most so many tests of the loop condition. -/
def ngxHashKey (data : List UInt8) (len : UInt64) (rounds : ℕ) : Cmd (List ℕ) UInt32 :=
  loop (ngxHashKeyBody data len) rounds (0, 0)

/-- The call comes back with this hash, having read every byte once and in order. -/
def Returns (data : List UInt8) (key : UInt32) : Prop :=
  ∃ enough, ∀ rounds, enough ≤ rounds →
    (ngxHashKey data (.ofNat data.length) rounds).run [] = some (key, List.range data.length)

/-- The call comes back with the polynomial in 31. -/
def Hashes (data : List UInt8) : Prop :=
  ∃ key, Returns data key ∧ key.toNat =
    (∑ k : Fin data.length, data[k].toNat * 31 ^ (data.length - 1 - k)) % 2 ^ 32

/-- The hash of a string in two parts is that of the parts. -/
def Concatenates (high low : List UInt8) : Prop :=
  ∃ key keyHigh keyLow, Returns (high ++ low) key ∧ Returns high keyHigh ∧ Returns low keyLow ∧
    key.toNat = (keyHigh.toNat * 31 ^ low.length + keyLow.toNat) % 2 ^ 32

section

variable {data : List UInt8}

/-- The hash over the integers. -/
def polynomial (data : List UInt8) : ℕ := horner 31 (data.map UInt8.toNat)

theorem toNat_ngxHash (key : UInt32) (c : UInt8) :
    (ngxHash key c).toNat = (key.toNat * 31 + c.toNat) % 2 ^ 32 := by
  have hc := c.toNat_lt
  unfold ngxHash
  rw [UInt32.toNat_add, UInt32.toNat_mul, Nat.mod_add_mod, UInt8.toNat_toUInt32]
  rfl

theorem mod_mul_add_mod (a b c m : ℕ) : (a % m * b + c) % m = (a * b + c) % m :=
  calc
    _ = (a % m * b % m + c % m) % m := Nat.add_mod _ _ _
    _ = (a * b % m + c % m) % m := by rw [Nat.mod_mul_mod]
    _ = (a * b + c) % m := (Nat.add_mod _ _ _).symm

/-- The loop before it tests `i`, with so many bytes left. -/
structure Inv (data : List UInt8) (left : ℕ) (locals : UInt32 × UInt32) (reads : List ℕ) :
    Prop where
  left_eq : locals.1.toNat + left = data.length
  key_eq : locals.2.toNat = polynomial (data.take locals.1.toNat) % 2 ^ 32
  reads_eq : reads = List.range locals.1.toNat

/-- One byte more. -/
theorem polynomial_take_succ {k : ℕ} {c : UInt8} (hc : data[k]? = some c) :
    polynomial (data.take (k + 1)) = polynomial (data.take k) * 31 + c.toNat := by
  unfold polynomial
  rw [List.take_add_one, hc, List.map_append]
  exact horner_concat _ _ _

/-- An iteration that finds a byte goes on with the next one. -/
theorem wp_ngxHashKeyBody {i key : UInt32} {len : UInt64} {reads : List ℕ}
    {post : UInt32 × UInt32 ⊕ UInt32 → List ℕ → Prop} (hlt : i.toNat < len.toNat) :
    wp (ngxHashKeyBody data len (i, key)) post reads ↔
      ∃ c, data[i.toNat]? = some c ∧ post (.inl (i + 1, ngxHash key c)) (reads ++ [i.toNat]) := by
  have hless : i.toUInt64 < len := by
    rw [UInt64.lt_iff_toNat_lt, UInt32.toNat_toUInt64]
    exact hlt
  unfold ngxHashKeyBody
  rw [wp_ite, if_pos hless]
  cases hc : data[i.toNat]? with
  | none => simp
  | some c => simp

theorem returns_of_lt (h : data.length < 2 ^ 32) :
    ∃ key, Returns data key ∧ key.toNat = polynomial data % 2 ^ 32 := by
  have hlen : (UInt64.ofNat data.length).toNat = data.length :=
    UInt64.toNat_ofNat_of_lt' (show _ < 2 ^ 64 by omega)
  have hloop (rounds : ℕ) (hrounds : data.length < rounds) :
      wp (ngxHashKey data (.ofNat data.length) rounds) (fun key reads ↦
        key.toNat = polynomial data % 2 ^ 32 ∧ reads = List.range data.length) [] := by
    have hstart : Inv data data.length (0, 0) [] := ⟨Nat.zero_add _, rfl, rfl⟩
    refine wp_loop (Inv data) ?_ hstart hrounds
    rintro left ⟨i, key⟩ reads ⟨hleft, hkey, hreads⟩
    dsimp only at hleft hkey hreads
    by_cases hlt : i.toNat < data.length
    · rw [wp_ngxHashKeyBody (by rw [hlen]; exact hlt)]
      have hnext : (i + 1).toNat = i.toNat + 1 := by
        rw [UInt32.toNat_add]
        exact Nat.mod_eq_of_lt (show i.toNat + 1 < 2 ^ 32 by omega)
      refine ⟨data[i.toNat], List.getElem?_eq_getElem hlt, left - 1, by omega, ?_, ?_, ?_⟩
      · dsimp only
        omega
      · dsimp only
        rw [toNat_ngxHash, hkey, hnext, polynomial_take_succ (List.getElem?_eq_getElem hlt),
          mod_mul_add_mod]
      · dsimp only
        rw [hreads, hnext, List.range_succ]
    · have hend : i.toNat = data.length := by omega
      have hnot : ¬i.toUInt64 < .ofNat data.length := by
        rw [UInt64.lt_iff_toNat_lt, UInt32.toNat_toUInt64, hlen]
        exact hlt
      unfold ngxHashKeyBody
      rw [wp_ite, if_neg hnot, wp_pure]
      refine ⟨?_, by rw [hreads, hend]⟩
      rw [hkey, hend, List.take_length]
  obtain ⟨key, reads, hrun, hkey, rfl⟩ := hloop (data.length + 1) (Nat.lt_succ_self _)
  refine ⟨key, ⟨data.length + 1, fun rounds hrounds ↦ ?_⟩, hkey⟩
  obtain ⟨key', reads', hrun', hkey', rfl⟩ := hloop rounds hrounds
  rw [hrun', UInt32.toNat_inj.1 (hkey'.trans hkey.symm)]

/-- The counter wraps before it reaches the end. -/
theorem not_returns (h : 2 ^ 32 ≤ data.length) (hsize : data.length < 2 ^ 64) (key : UInt32) :
    ¬Returns data key := by
  have hlen : (UInt64.ofNat data.length).toNat = data.length := UInt64.toNat_ofNat_of_lt' hsize
  rintro ⟨enough, hrun⟩
  refine loop_outcome (fun _ _ ↦ True) (fun _ _ ↦ False) ?_ (hrun enough le_rfl) trivial
  rintro ⟨i, key⟩ reads next after - hbody
  have hi := i.toNat_lt
  have hwp : wp (ngxHashKeyBody data (.ofNat data.length) (i, key))
      (fun next' after' ↦ next' = next ∧ after' = after) reads := ⟨_, _, hbody, rfl, rfl⟩
  rw [wp_ngxHashKeyBody (by rw [hlen]; omega)] at hwp
  obtain ⟨c, -, rfl, -⟩ := hwp
  trivial

theorem Returns.unique {key key' : UInt32} (h : Returns data key) (h' : Returns data key') :
    key = key' := by
  obtain ⟨enough, hrun⟩ := h
  obtain ⟨enough', hrun'⟩ := h'
  have heq := (hrun _ (le_max_left enough enough')).symm.trans (hrun' _ (le_max_right _ _))
  rw [Option.some_inj, Prod.mk.injEq] at heq
  exact heq.1

theorem returns_iff (hsize : data.length < 2 ^ 64) {key : UInt32} :
    Returns data key ↔ data.length < 2 ^ 32 ∧ key.toNat = polynomial data % 2 ^ 32 := by
  constructor
  · intro hreturns
    have hlt : data.length < 2 ^ 32 := by
      by_contra hlong
      exact not_returns (Nat.not_lt.1 hlong) hsize key hreturns
    obtain ⟨key', hreturns', hkey⟩ := returns_of_lt hlt
    rw [hreturns.unique hreturns']
    exact ⟨hlt, hkey⟩
  · rintro ⟨hlt, hkey⟩
    obtain ⟨key', hreturns, hkey'⟩ := returns_of_lt hlt
    rwa [UInt32.toNat_inj.1 (hkey.trans hkey'.symm)]

theorem polynomial_eq_sum (data : List UInt8) : polynomial data =
    ∑ k : Fin data.length, data[k].toNat * 31 ^ (data.length - 1 - k) := by
  unfold polynomial
  rw [horner_eq_sum]
  refine Fintype.sum_equiv (finCongr (List.length_map _)) _ _ fun k ↦ ?_
  simp

theorem polynomial_append (high low : List UInt8) :
    polynomial (high ++ low) = polynomial high * 31 ^ low.length + polynomial low := by
  unfold polynomial
  rw [List.map_append, horner_append, List.length_map]

end

/-- **The hash is the polynomial in 31, and composes, exactly for the strings that an
`unsigned int` can count.** -/
theorem hashes_iff {data high low : List UInt8} (hdata : data.length < 2 ^ 64)
    (hparts : (high ++ low).length < 2 ^ 64) :
    (Hashes data ↔ data.length < 2 ^ 32) ∧
      (Concatenates high low ↔ (high ++ low).length < 2 ^ 32) := by
  constructor
  · unfold Hashes
    rw [← polynomial_eq_sum]
    constructor
    · rintro ⟨key, hreturns, -⟩
      exact ((returns_iff hdata).1 hreturns).1
    · exact returns_of_lt
  · constructor
    · rintro ⟨key, keyHigh, keyLow, hreturns, -⟩
      exact ((returns_iff hparts).1 hreturns).1
    · intro hlt
      have hlengths := hlt
      rw [List.length_append] at hlengths
      obtain ⟨key, hreturns, hkey⟩ := returns_of_lt hlt
      obtain ⟨keyHigh, hreturnsHigh, hkeyHigh⟩ := @returns_of_lt high (by omega)
      obtain ⟨keyLow, hreturnsLow, hkeyLow⟩ := @returns_of_lt low (by omega)
      refine ⟨key, keyHigh, keyLow, hreturns, hreturnsHigh, hreturnsLow, ?_⟩
      rw [hkey, hkeyHigh, hkeyLow, polynomial_append, Nat.add_mod_mod, mod_mul_add_mod]

/-- Two letters. -/
theorem hashes_iff_pair : Hashes [97, 98] ∧ Concatenates [97] [98] := by
  obtain ⟨hhashes, hparts⟩ :=
    @hashes_iff [97, 98] [97] [98] (by decide) (by decide)
  exact ⟨hhashes.2 (by decide), hparts.2 (by decide)⟩

/-- The hash of `2 ^ 32` zero bytes never comes back. -/
theorem not_hashes_long : ¬Hashes (List.replicate (2 ^ 32) 0) := by
  rintro ⟨key, hreturns, -⟩
  refine not_returns ?_ ?_ key hreturns
  · rw [List.length_replicate]
  · rw [List.length_replicate]
    decide

end Zbaselib.Hash
