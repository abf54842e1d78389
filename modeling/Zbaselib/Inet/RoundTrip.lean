import Zbaselib.Inet.Format

/-!
# Addresses to text and back

`zbaselib_inet_ntop` writes a text form of the address if it has room, and
`zbaselib_inet_pton` reads the address from it again.
-/

namespace Zbaselib.Inet

open Program Block Decision Grammar Numeral

variable {t src dst text block bytes : List UInt8} {af ret : ℤ} {size : UInt32} {c : UInt8}

/-- The room that every text form of the family fits in. -/
def textSize (af : ℤ) : ℕ := if af = AF_INET then UV_INET_ADDRSTRLEN else UV_INET6_ADDRSTRLEN

/-- The call returns 0 exactly if the text and its terminator fit; it writes inside of the first
`size` cells, and nothing if it refuses. -/
structure Converts (af : ℤ) (src text dst : List UInt8) (size : ℕ) (ret : ℤ) (after : List UInt8) :
    Prop where
  ret_eq_zero_iff : ret = 0 ↔ text.length + 1 ≤ size
  ret_of_textSize_le : textSize af ≤ size → ret = 0
  unchanged : ret ≠ 0 → ret = -1 ∧ after = dst
  length_after : after.length = dst.length
  drop_after : after.drop size = dst.drop size
  text_of_zero : ret = 0 → ∃ rest, after = text ++ 0 :: rest
  pton_of_zero : ret = 0 → ∀ room, addrSize af ≤ room.length →
    (inetPton af (some after)).run (some room) = some (0, some (src ++ room.drop src.length))

/-- The bytes are an address of the family. -/
def IsAddress (af : ℤ) (src : List UInt8) : Prop :=
  af = AF_INET ∧ src.length = 4 ∨ af = AF_INET6 ∧ src.length = 16

/-! ## Characters of the text -/

theorem IPv6.isInetChar (h : IPv6 t bytes) : ∀ c ∈ t, IsInetChar c := by
  cases h with
  | full h _ => exact h.isInetChar
  | compressed hleft hright _ =>
    intro c hc
    rw [List.mem_append, List.mem_cons, List.mem_cons] at hc
    rcases hc with hc | rfl | rfl | hc
    · rcases hleft with ⟨rfl, -⟩ | hleft
      · exact absurd hc List.not_mem_nil
      · exact Separated.forall_mem hleft (Or.inl rfl) (fun _ _ ht ↦ ht.isInetChar)
          (fun _ _ ht ↦ ht.isInetChar) c hc
    · exact Or.inl rfl
    · exact Or.inl rfl
    · exact hright.isInetChar c hc

theorem IPv6.notMem (h : IPv6 t bytes) (hcolon : c ≠ colon) (hdot : c ≠ dot)
    (hc : digit 16 c = none) : c ∉ t := by
  intro hmem
  rcases h.isInetChar c hmem with heq | heq | ⟨d, hd⟩
  · exact hcolon heq
  · exact hdot heq
  · rw [hc] at hd
    exact Option.some_ne_none d hd.symm

/-! ## Writing -/

theorem take_append_drop_nil (hsize : size.toNat ≤ dst.length) :
    [] ++ dst.take size.toNat ++ dst.drop size.toNat = dst ∧
      (dst.take size.toNat).length = size.toNat := by
  rw [List.nil_append, List.take_append_drop, List.length_take_of_le hsize]
  exact ⟨rfl, rfl⟩

/-- The outcome of `inet_ntop6` with a text and its terminator in `tmp`. -/
theorem wp_inetNtop6 (htmp : inetNtop6Tmp src = pure (text ++ [0])) (hzero : 0 ∉ text)
    (hsize : size.toNat ≤ dst.length) :
    wp (inetNtop6 src size) (Placed text [] (dst.take size.toNat) (dst.drop size.toNat)) dst := by
  obtain ⟨hdst, hold⟩ := take_append_drop_nil hsize
  unfold inetNtop6
  rw [htmp, wp_bind, wp_lift]
  refine ⟨.ok (text ++ [0]), rfl, ?_⟩
  simp only [wp_bind, wp_ite, wp_pure, wp_lift, wp_get, wp_set, memcpy, wp_require,
    List.length_append, List.length_singleton]
  split
  case isTrue hlong =>
    refine Or.inr ⟨by omega, rfl, hdst.symm⟩
  case isFalse hshort =>
    refine ⟨text.length, strlen_terminated hzero [], ⟨by omega, by omega⟩,
      Or.inl ⟨by omega, rfl, (dst.take size.toNat).drop (text.length + 1), ?_, ?_⟩⟩
    · simp only [List.length_append, List.length_cons, List.length_drop, hold]
      omega
    · have htake : ((text ++ [0]).drop 0).take (text.length + 1) = text ++ [0] := by
        rw [List.drop_zero]
        exact List.take_of_length_le (by simp)
      have hrest : dst.drop (text ++ [0]).length =
          (dst.take size.toNat).drop (text.length + 1) ++ dst.drop size.toNat := by
        rw [← List.drop_append_of_le_length (by omega), List.take_append_drop,
          List.length_append, List.length_singleton]
      rw [htake, splice_zero, hrest]
      simp

/-- A text form that the call writes if it has room for it. -/
theorem exists_text (h : IsAddress af src) :
    ∃ text, IsText af text src ∧ 0 ∉ text ∧ percent ∉ text ∧ text.length < textSize af ∧
      ∀ (size : UInt32) dst, size.toNat ≤ dst.length →
        wp (inetNtop af src size) (Placed text [] (dst.take size.toNat) (dst.drop size.toNat))
          dst := by
  rcases h with ⟨rfl, hlen⟩ | ⟨rfl, hlen⟩
  · obtain ⟨a, b, rest, rfl, hrest⟩ := exists_cons_cons hlen
    obtain ⟨c, d, rest, rfl, hnil⟩ := exists_cons_cons hrest
    rw [List.length_eq_zero_iff.mp hnil]
    have htext := iPv4_dotted a b c d
    refine ⟨dotted a b c d, Or.inl ⟨rfl, htext⟩, zero_notMem_dotted a b c d,
      htext.notMem (by decide) (by decide), Nat.lt_succ_of_le htext.length_le, ?_⟩
    intro size dst hsize
    obtain ⟨hdst, hold⟩ := take_append_drop_nil hsize
    have hcall := @wp_inetNtop4 size a b c d [] [] [] _ (dst.drop size.toNat) hold
    rw [hdst] at hcall
    exact hcall
  · obtain ⟨text, htext, htmp⟩ := writes_inetNtop6Tmp hlen
    have hzero : 0 ∉ text := htext.notMem (by decide) (by decide) (by decide)
    have hpercent : percent ∉ text := htext.notMem (by decide) (by decide) (by decide)
    have hne : AF_INET6 ≠ AF_INET := by decide
    refine ⟨text, ?_, hzero, hpercent, Nat.lt_succ_of_le htext.length_le, fun size dst hsize ↦ ?_⟩
    · rw [isText_inet6, zoneless_of_notMem hpercent]
      exact htext
    · unfold inetNtop
      rw [if_neg hne, if_pos rfl]
      exact wp_inetNtop6 htmp hzero hsize

/-! ## Reading again -/

theorem run_inetPton_text (h : IsText af text src) (hzero : 0 ∉ text) (hpercent : percent ∉ text)
    (rest room : List UInt8) (hroom : addrSize af ≤ room.length) :
    (inetPton af (some (text ++ 0 :: rest))).run (some room) =
      some (0, some (src ++ room.drop src.length)) := by
  have hexact : Exact af text := by
    rcases h with ⟨rfl, -⟩ | ⟨rfl, -⟩
    · exact exact_inet hzero
    · exact (exact_inet6_iff hzero).mpr fun hmem ↦ absurd hmem hpercent
  obtain ⟨ret, after, hrun, ⟨bytes, hbytes, rfl, rfl⟩ | ⟨hnone, -⟩⟩ := hexact rest room hroom
  · rw [(hbytes src).mp h]
    exact hrun
  · exact absurd h (hnone src)

/-- **Addresses survive the way to text and back.**  Every address has a text form that the call
writes whenever it has room for it, with the terminator, and nothing beyond the room. -/
theorem ntop_round_trip (af : ℤ) (src : List UInt8) (h : IsAddress af src) :
    ∃ text, IsText af text src ∧ 0 ∉ text ∧
      ∀ (size : UInt32) dst, size.toNat ≤ dst.length →
        ∃ ret after, (inetNtop af src size).run dst = some (ret, after) ∧
          Converts af src text dst size.toNat ret after := by
  obtain ⟨text, htext, hzero, hpercent, hlen, hwrite⟩ := exists_text h
  refine ⟨text, htext, hzero, fun size dst hsize ↦ ?_⟩
  obtain ⟨hdst, hold⟩ := take_append_drop_nil hsize
  obtain ⟨ret, after, hrun, hplaced⟩ := hwrite size dst hsize
  refine ⟨ret, after, hrun, ?_⟩
  rcases hplaced with ⟨hfits, rfl, padding, hpad, rfl⟩ | ⟨hlong, rfl, rfl⟩
  · rw [hold] at hfits hpad
    rw [List.nil_append]
    refine ⟨⟨fun _ ↦ hfits, fun _ ↦ rfl⟩, fun _ ↦ rfl, fun hne ↦ absurd rfl hne, ?_, ?_, ?_, ?_⟩
    · rw [List.length_append, hpad, List.length_drop]
      omega
    · rw [← hpad, List.drop_left]
    · intro _
      rw [List.append_assoc]
      exact ⟨_, rfl⟩
    · intro _ room hroom
      rw [List.append_assoc]
      exact run_inetPton_text htext hzero hpercent _ room hroom
  · rw [hold] at hlong
    rw [hdst]
    have hne : (-1 : ℤ) ≠ 0 := by decide
    refine ⟨⟨fun heq ↦ absurd heq hne, fun hle ↦ ?_⟩, fun hle ↦ ?_, fun _ ↦ ⟨rfl, rfl⟩, rfl, rfl,
      fun heq ↦ absurd heq hne, fun heq ↦ absurd heq hne⟩ <;> omega

theorem ntop_round_trip_loopback :
    IsAddress AF_INET [127, 0, 0, 1] ∧
      ∃ text, IsText AF_INET text [127, 0, 0, 1] ∧ 0 ∉ text ∧
        ∀ (size : UInt32) dst, size.toNat ≤ dst.length →
          ∃ ret after, (inetNtop AF_INET [127, 0, 0, 1] size).run dst = some (ret, after) ∧
            Converts AF_INET [127, 0, 0, 1] text dst size.toNat ret after :=
  ⟨Or.inl ⟨rfl, rfl⟩, ntop_round_trip AF_INET [127, 0, 0, 1] (Or.inl ⟨rfl, rfl⟩)⟩

end Zbaselib.Inet
