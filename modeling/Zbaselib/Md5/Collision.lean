import Zbaselib.Md5.Stream

/-!
# Collisions of MD5

The padding ends with the length of the message.  So messages that have one
digest, and are not longer than the length that can be told, come with a
collision of the block operation inside of what was hashed.
-/

namespace Zbaselib.Md5

open BlockHash

/-- A number below a power of the base can be read off its digits. -/
theorem mod_eq_of_digits {b k m n : ℕ} (h : ∀ i < k, m / b ^ i % b = n / b ^ i % b) :
    m % b ^ k = n % b ^ k := by
  induction k with
  | zero => rw [pow_zero, Nat.mod_one, Nat.mod_one]
  | succ k ih =>
    rw [Nat.mod_pow_succ, Nat.mod_pow_succ, ih fun i hi ↦ h i (hi.trans (Nat.lt_succ_self k)),
      h k (Nat.lt_succ_self k)]

/-- A length below `2 ^ 61` can be read off its bytes. -/
theorem lengthBytes_injective {m n : ℕ} (hm : m < 2 ^ 61) (hn : n < 2 ^ 61)
    (h : lengthBytes m = lengthBytes n) : m = n := by
  have hbyte : ∀ k < 8, 8 * m / 256 ^ k % 256 = 8 * n / 256 ^ k % 256 := by
    intro k hk
    have hget := congrArg (·[k]?) h
    simp only [lengthBytes, List.getElem?_map, List.getElem?_range hk, Option.map_some,
      Option.some.injEq] at hget
    have hnat := congrArg UInt8.toNat hget
    rwa [UInt8.toNat_ofNat', UInt8.toNat_ofNat'] at hnat
  have hmod : 8 * m % 256 ^ 8 = 8 * n % 256 ^ 8 := mod_eq_of_digits hbyte
  omega

/-- A word can be read off its bytes. -/
theorem wordBytes_injective : Function.Injective wordBytes := by
  intro x y h
  unfold wordBytes at h
  simp only [List.cons.injEq, and_true, ← UInt8.toNat_inj, UInt32.toNat_toUInt8,
    UInt32.toNat_shiftRight, Nat.shiftRight_eq_div_pow, UInt32.reduceToNat, Nat.reduceMod,
    Nat.reducePow] at h
  obtain ⟨h0, h1, h2, h3⟩ := h
  have hx := x.toNat_lt
  have hy := y.toNat_lt
  rw [← UInt32.toNat_inj]
  omega

theorem result_injective : Function.Injective Regs.result := by
  rintro ⟨a, b, c, d⟩ ⟨a', b', c', d'⟩ h
  unfold Regs.result at h
  have hd := List.append_inj h rfl
  have hc := List.append_inj hd.1 rfl
  have hb := List.append_inj hc.1 rfl
  rw [Regs.mk.injEq]
  exact ⟨wordBytes_injective hb.1, wordBytes_injective hb.2, wordBytes_injective hc.2,
    wordBytes_injective hd.2⟩

/-- What is hashed. -/
def padded (message : List UInt8) : List UInt8 := message ++ padding message.length

theorem dvd_length_padded (message : List UInt8) : 64 ∣ (padded message).length := by
  rw [padded, List.length_append]
  exact length_padding message.length

theorem lengthBytes_suffix (message : List UInt8) :
    lengthBytes message.length <:+ padded message := by
  refine ⟨message ++ 0x80 :: List.replicate ((119 - message.length % 64) % 64) 0, ?_⟩
  rw [List.append_assoc]
  rfl

/-- No padded message ends with another one. -/
theorem eq_of_padded_suffix {m m' : List UInt8} (hm : m.length < 2 ^ 61) (hm' : m'.length < 2 ^ 61)
    (h : padded m <:+ padded m') : m = m' := by
  have hlength : m.length = m'.length := by
    refine lengthBytes_injective hm hm' ?_
    have hsuffix := List.suffix_of_suffix_length_le ((lengthBytes_suffix m).trans h)
      (lengthBytes_suffix m') (by rw [length_lengthBytes, length_lengthBytes])
    exact hsuffix.eq_of_length (by rw [length_lengthBytes, length_lengthBytes])
  have hpadded : padded m = padded m' := by
    refine h.eq_of_length ?_
    rw [padded, padded, List.length_append, List.length_append, hlength]
  exact (List.append_inj hpadded hlength).1

/-- **A collision of the digest is one of the block operation.**  It is met while the two messages
are hashed. -/
theorem collide_of_md5_eq (m m' : List UInt8) (hm : m.length < 2 ^ 61) (hm' : m'.length < 2 ^ 61)
    (hne : m ≠ m') (heq : md5 m = md5 m') :
    Collide transform .start (blocks 64 (padded m)) (blocks 64 (padded m')) := by
  have hsuffix {xs ys : List UInt8} (h : blocks 64 (padded xs) <:+ blocks 64 (padded ys)) :
      padded xs <:+ padded ys := by
    obtain ⟨front, hfront⟩ := h
    refine ⟨front.flatten, ?_⟩
    rw [← flatten_blocks (dvd_length_padded xs), ← flatten_blocks (dvd_length_padded ys), ← hfront,
      List.flatten_append]
  rcases collide_or_suffix (result_injective heq) with hcollide | h | h
  · exact hcollide
  · exact absurd (eq_of_padded_suffix hm hm' (hsuffix h)) hne
  · exact absurd (eq_of_padded_suffix hm' hm (hsuffix h)).symm hne

/-- Two messages of one block that have one digest. -/
def colliding (x y : UInt8) : List UInt8 :=
  [77, 201, 104, 255, 14, 227, 92, 32, 149, 114, 212, 119, 123, 114, 21, 135, 211, 111, 167, 178,
    27, 220, 86, 183, 74, 61, 192, 120, 62, 123, 149, 24, 175, 191, 162, x, 168, 40, 75, 243, 110,
    142, 75, 85, 179, 95, 66, 117, 147, 216, 73, 103, 109, 160, 209, y, 93, 131, 96, 251, 95, 7,
    254, 162]

theorem collide_colliding : Collide transform .start (blocks 64 (padded (colliding 0 85)))
    (blocks 64 (padded (colliding 2 213))) :=
  collide_of_md5_eq (colliding 0 85) (colliding 2 213) (by decide) (by decide) (by decide)
    (by decide +kernel)

end Zbaselib.Md5
