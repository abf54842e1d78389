import Zbaselib.Win32Dir.Model
import Zbaselib.Lib.Words

/-!
# What becomes of a path

Every separator becomes a backslash, and behind the first character a run of
them becomes a single one.  The words of the path stay the same.
-/

namespace Zbaselib.Win32Dir

open Program Block CString Words

def isSep (c : UInt8) : Bool := c = backslash || c = slash

/-- `/` becomes `\`. -/
def back (c : UInt8) : UInt8 := if c = slash then backslash else c

/-- The path with its separators unified. -/
def fixed : List UInt8 → List UInt8
  | [] => []
  | c :: cs => back c :: squeeze isSep (cs.map back)

/-! ## Single accesses -/

theorem isSep_back (c : UInt8) : isSep (back c) = isSep c := by
  unfold back
  split
  · next h =>
    subst h
    decide
  · rfl

theorem back_of_not_isSep (c : UInt8) (hc : isSep c = false) : back c = c := by
  refine if_neg fun hslash ↦ ?_
  subst hslash
  exact absurd hc (by decide)

theorem back_ne_slash (c : UInt8) : back c ≠ slash := by
  unfold back
  split
  · decide
  · next h => exact h

theorem back_ne_zero {c : UInt8} (hc : c ≠ 0) : back c ≠ 0 := by
  unfold back
  split
  · decide
  · exact hc

theorem back_eq_backslash (c : UInt8) : back c = backslash ↔ isSep c = true := by
  unfold back isSep
  split
  · next h =>
    subst h
    decide
  · next h => simp [h]

section

variable {before after rest : List UInt8} {c : UInt8} {i : ℕ}

@[simp]
theorem wp_loadAt_append {post : UInt8 → List UInt8 → Prop} (hi : before.length = i) :
    wp (loadAt i) post (before ++ c :: after) ↔ post c (before ++ c :: after) := by
  have hget : (before ++ c :: after)[i]? = some c := by
    rw [List.getElem?_append_right (by omega), hi, Nat.sub_self, List.getElem?_cons_zero]
  unfold loadAt
  simp only [wp_bind, wp_require, wp_get, wp_lift, Int.toNat_natCast, hget,
    Option.some.injEq, exists_eq_left', Int.natCast_nonneg, true_and]

theorem wp_storeAt_append {post : Unit → List UInt8 → Prop} (hi : before.length = i) (d : UInt8) :
    wp (storeAt i d) post (before ++ c :: after) ↔ post () (before ++ d :: after) := by
  unfold storeAt
  rw [wp_bind, wp_loadAt_append hi]
  simp only [wp_modify, Int.toNat_natCast]
  rw [List.set_append_right _ _ (by omega), hi, Nat.sub_self, List.set_cons_zero]

theorem wp_strlen_append {post : ℕ → List UInt8 → Prop} (hi : before.length = i)
    (hafter : 0 ∉ after) : wp (strlen i) post (before ++ (after ++ 0 :: rest)) ↔
      post after.length (before ++ (after ++ 0 :: rest)) := by
  unfold strlen
  simp only [wp_bind, wp_get, wp_lift, wp_pure]
  rw [List.drop_left' hi, cstring_append hafter]
  simp

theorem wp_loadAt_succ {post : UInt8 → List UInt8 → Prop} (hi : before.length = i + 1) :
    wp (loadAt (i + 1)) post (before ++ c :: after) ↔ post c (before ++ c :: after) :=
  wp_loadAt_append hi

/-! ## The inner loop -/

/-- A separator behind the one at `i` is removed. -/
theorem wp_closeUpBody {cs : List UInt8} (hi : before.length = i + 1) (hcs : 0 ∉ cs)
    {post : Unit ⊕ Unit → List UInt8 → Prop}
    (hdone : cs.dropWhile isSep = cs → post (.inr ()) (before ++ (cs ++ 0 :: rest)))
    (hmore : ∀ d ds, cs = d :: ds → isSep d = true →
      post (.inl ()) (before ++ (ds ++ 0 :: 0 :: rest))) :
    wp (closeUpBody i) post (before ++ (cs ++ 0 :: rest)) := by
  unfold closeUpBody
  cases cs with
  | nil =>
    rw [wp_bind, List.nil_append, wp_loadAt_succ hi, wp_ite, if_neg (by decide), wp_pure]
    exact hdone rfl
  | cons d ds =>
    rw [wp_bind, List.cons_append, wp_loadAt_succ hi, wp_ite]
    split
    · next hsep =>
      have hd : isSep d = true := by simpa [isSep] using hsep
      rw [wp_bind, ← List.cons_append, wp_strlen_append hi hcs, wp_bind]
      unfold memmove
      simp only [wp_bind, wp_get, wp_memcpy, wp_set, wp_pure]
      have hdrop : (before ++ (d :: ds ++ 0 :: rest)).drop (i + 2) = ds ++ 0 :: rest := by
        rw [List.drop_append, List.drop_eq_nil_of_le (by omega),
          show i + 2 - before.length = 1 by omega]
        rfl
      have htake : (ds ++ 0 :: rest).take (d :: ds).length = ds ++ [0] := by
        rw [List.length_cons, List.take_append, List.take_of_length_le (by omega)]
        simp
      have hsplice := @splice_append _ before (d :: ds) (0 :: rest) (ds ++ [0]) (i + 1) hi (by simp)
      refine ⟨⟨?_, ?_⟩, ?_⟩
      · simp only [List.length_append, List.length_cons]
        omega
      · simp only [List.length_append, List.length_cons]
        omega
      · rw [hdrop, htake, ← List.append_assoc, hsplice]
        have hend := hmore d ds rfl hd
        simpa using hend
    · next hsep =>
      have hd : isSep d = false := by simpa [isSep] using hsep
      rw [wp_pure]
      exact hdone (List.dropWhile_cons_of_neg (by simp [hd]))

/-- The inner loop removes all separators behind the one at `i`. -/
theorem wp_closeUp {cs : List UInt8} (hi : before.length = i + 1) (hcs : 0 ∉ cs) {fuel : ℕ}
    (hfuel : cs.length < fuel) {post : Unit → List UInt8 → Prop}
    (hpost : ∀ rest', (cs.dropWhile isSep).length + rest'.length = cs.length + rest.length →
      post () (before ++ (cs.dropWhile isSep ++ 0 :: rest'))) :
    wp (loop (fun _ ↦ closeUpBody i) fuel ()) post (before ++ (cs ++ 0 :: rest)) := by
  apply wp_loop (fun n _ path ↦ ∃ cs' rest', path = before ++ (cs' ++ 0 :: rest') ∧ 0 ∉ cs' ∧
    n = cs'.length ∧ cs'.dropWhile isSep = cs.dropWhile isSep ∧
      cs'.length + rest'.length = cs.length + rest.length) ?_
    ⟨cs, rest, rfl, hcs, rfl, rfl, rfl⟩ hfuel
  rintro n - - ⟨cs', rest', rfl, hcs', rfl, hdrop, hlength⟩
  apply wp_closeUpBody hi hcs'
  · intro hnone
    rw [← hdrop, hnone] at hpost
    exact hpost rest' hlength
  · rintro d ds rfl hd
    refine ⟨ds.length, Nat.lt_succ_self _, ds, 0 :: rest', rfl,
      fun hzero ↦ hcs' (List.mem_cons_of_mem _ hzero), rfl, ?_, ?_⟩
    · rw [← hdrop, List.dropWhile_cons_of_pos hd]
    · rw [← hlength, List.length_cons, List.length_cons]
      omega

/-! ## The outer loop -/

/-- What the loop still has to put behind the first `i` characters. -/
def pending (i : ℕ) (after : List UInt8) : List UInt8 :=
  if i = 0 then fixed after else squeeze isSep (after.map back)

/-- What is left of the text once its first character is done. -/
def remaining (i : ℕ) (c : UInt8) (cs : List UInt8) : List UInt8 :=
  if isSep c = true ∧ i > 0 then cs.dropWhile isSep else cs

theorem pending_cons (i : ℕ) (c : UInt8) (cs : List UInt8) :
    pending i (c :: cs) = back c :: pending (i + 1) (remaining i c cs) := by
  unfold pending remaining
  rw [if_neg (Nat.succ_ne_zero i)]
  by_cases hi : i = 0
  · rw [if_pos hi, if_neg (by omega)]
    rfl
  · rw [if_neg hi, List.map_cons]
    cases hc : isSep c with
    | true =>
      rw [if_pos ⟨rfl, by omega⟩, squeeze_cons_of_pos (by rw [isSep_back, hc]),
        map_dropWhile isSep_back]
    | false =>
      rw [if_neg (by simp), squeeze_cons_of_neg (by rw [isSep_back, hc])]

theorem remaining_sublist (i : ℕ) (c : UInt8) (cs : List UInt8) :
    (remaining i c cs).Sublist cs := by
  unfold remaining
  split
  · exact List.dropWhile_sublist _
  · exact List.Sublist.refl _

theorem wp_unify {post : Unit → List UInt8 → Prop} (hi : before.length = i) :
    wp (unify i) post (before ++ c :: after) ↔ post () (before ++ back c :: after) := by
  unfold unify back
  rw [wp_bind, wp_loadAt_append hi, wp_ite]
  split
  · rw [wp_storeAt_append hi]
  · rw [wp_pure]

theorem wp_closeUp_append {cs : List UInt8} {fuel : ℕ} (hi : before.length = i) (hcs : 0 ∉ cs)
    (hfuel : cs.length < fuel) {post : Unit → List UInt8 → Prop}
    (hpost : ∀ rest', (remaining i c cs).length + rest'.length = cs.length + rest.length →
      post () (before ++ back c :: (remaining i c cs ++ 0 :: rest'))) :
    wp (closeUp fuel i) post (before ++ back c :: (cs ++ 0 :: rest)) := by
  have hsep : back c = backslash ∧ i > 0 ↔ isSep c = true ∧ i > 0 := by rw [back_eq_backslash]
  unfold closeUp
  rw [wp_bind, wp_loadAt_append hi, wp_ite]
  unfold remaining at hpost
  split
  · next h =>
    rw [hsep] at h
    have hsucc : (before ++ [back c]).length = i + 1 := by
      rw [List.length_append, hi, List.length_singleton]
    rw [if_pos h] at hpost
    rw [List.append_cons]
    apply wp_closeUp hsucc hcs hfuel
    intro rest' hlength
    rw [← List.append_cons]
    exact hpost rest' hlength
  · next h =>
    rw [hsep] at h
    rw [if_neg h] at hpost
    rw [wp_pure]
    exact hpost rest rfl

/-- One character is done. -/
theorem wp_fixBody {cs : List UInt8} {fuel : ℕ} (hi : before.length = i) (hc : c ≠ 0)
    (hcs : 0 ∉ cs) (hfuel : cs.length < fuel) {post : ℕ ⊕ Unit → List UInt8 → Prop}
    (hpost : ∀ rest', (remaining i c cs).length + rest'.length = cs.length + rest.length →
      post (.inl (i + 1)) (before ++ back c :: (remaining i c cs ++ 0 :: rest'))) :
    wp (fixBody fuel i) post (before ++ c :: (cs ++ 0 :: rest)) := by
  unfold fixBody
  rw [wp_bind, wp_loadAt_append hi, wp_ite, if_neg hc, wp_bind, wp_unify hi, wp_bind]
  apply wp_closeUp_append hi hcs hfuel
  intro rest' hlength
  rw [wp_pure]
  exact hpost rest' hlength

/-- **The separators of a terminated path are unified**, without an access behind its block. -/
theorem wp_fixDirectorySeparators {path : List UInt8} (hpath : 0 ∉ path)
    {post : Unit → List UInt8 → Prop}
    (hpost : ∀ rest', (fixed path).length + rest'.length = path.length + rest.length →
      post () (fixed path ++ 0 :: rest')) :
    wp fixDirectorySeparators post (path ++ 0 :: rest) := by
  unfold fixDirectorySeparators
  rw [wp_bind, wp_get]
  have hlength : (path ++ 0 :: rest).length = path.length + rest.length + 1 := by
    rw [List.length_append, List.length_cons]
    omega
  rw [hlength]
  apply wp_loop (fun n i block ↦ ∃ before after rest', block = before ++ (after ++ 0 :: rest') ∧
    before.length = i ∧ 0 ∉ after ∧ n = after.length ∧ fixed path = before ++ pending i after ∧
      before.length + after.length + rest'.length = path.length + rest.length) ?_
    ⟨[], path, rest, rfl, rfl, hpath, rfl, rfl, by rw [List.length_nil, Nat.zero_add]⟩ (by omega)
  rintro n i - ⟨before, after, rest', rfl, hi, hafter, rfl, hfixed, hall⟩
  cases after with
  | nil =>
    unfold fixBody
    rw [List.nil_append, wp_bind, wp_loadAt_append hi, wp_ite, if_pos rfl, wp_pure]
    have hdone : pending i [] = [] := by
      unfold pending
      split <;> rfl
    rw [hdone, List.append_nil] at hfixed
    rw [hfixed] at hpost
    exact hpost rest' hall
  | cons c cs =>
    rw [List.mem_cons, not_or] at hafter
    rw [List.length_cons] at hall
    apply wp_fixBody hi (Ne.symm hafter.1) hafter.2 (by omega)
    intro rest'' hlength'
    have hshort := (remaining_sublist i c cs).length_le
    refine ⟨_, Nat.lt_succ_of_le hshort, before ++ [back c], remaining i c cs, rest'', ?_, ?_, ?_,
      rfl, ?_, ?_⟩
    · rw [List.append_cons]
    · rw [List.length_append, hi, List.length_singleton]
    · exact fun hzero ↦ hafter.2 ((remaining_sublist i c cs).mem hzero)
    · rw [hfixed, pending_cons, List.append_cons]
    · rw [List.length_append, List.length_singleton]
      omega

/-! ## A block without an end -/

theorem wp_loadAt {post : UInt8 → List UInt8 → Prop} {p : ℤ} {path : List UInt8} :
    wp (loadAt p) post path ↔ 0 ≤ p ∧ ∃ c, path[p.toNat]? = some c ∧ post c path := by
  unfold loadAt
  simp only [wp_bind, wp_require, wp_get, wp_lift]

/-- Without a NUL there is no `strlen`, so nothing is removed. -/
theorem of_wp_closeUp {path : List UInt8} (hpath : 0 ∉ path) {fuel : ℕ}
    {post : Unit → List UInt8 → Prop} (hwp : wp (closeUp fuel i) post path) : post () path := by
  have hbody (hwp : wp (loop (fun _ ↦ closeUpBody i) fuel ()) post path) : post () path := by
    obtain ⟨_, after, hrun, hpost⟩ := hwp
    obtain rfl : after = path := by
      refine loop_outcome (fun _ a ↦ a = path) (fun _ a ↦ a = path) ?_ hrun rfl
      rintro _ _ next a rfl hrun'
      have hwp : wp (closeUpBody i) (fun r a' ↦ r = next ∧ a' = a) _ := ⟨_, _, hrun', rfl, rfl⟩
      unfold closeUpBody at hwp
      rw [wp_bind, wp_loadAt] at hwp
      obtain ⟨-, c, -, hwp⟩ := hwp
      rw [wp_ite] at hwp
      split at hwp
      · unfold strlen at hwp
        simp only [wp_bind, wp_get, wp_lift] at hwp
        rw [cstring_of_notMem fun hzero ↦ hpath (List.mem_of_mem_drop hzero)] at hwp
        obtain ⟨s, hs, -⟩ := hwp
        cases hs
      · obtain ⟨rfl, rfl⟩ := (wp_pure _ _ _).1 hwp
        rfl
    exact hpost
  unfold closeUp at hwp
  rw [wp_bind, wp_loadAt] at hwp
  obtain ⟨-, c, -, hwp⟩ := hwp
  rw [wp_ite] at hwp
  split at hwp
  · exact hbody hwp
  · rwa [wp_pure] at hwp

theorem of_wp_unify {path : List UInt8} (hpath : 0 ∉ path) {post : Unit → List UInt8 → Prop}
    (hwp : wp (unify i) post path) : ∃ path', 0 ∉ path' ∧ post () path' := by
  unfold unify at hwp
  rw [wp_bind, wp_loadAt] at hwp
  obtain ⟨-, c, -, hwp⟩ := hwp
  rw [wp_ite] at hwp
  split at hwp
  · unfold storeAt at hwp
    rw [wp_bind, wp_loadAt] at hwp
    obtain ⟨-, d, -, hwp⟩ := hwp
    refine ⟨_, fun hzero ↦ ?_, (wp_modify _ _ _).1 hwp⟩
    obtain hmem | hzero := List.mem_or_eq_of_mem_set hzero
    · exact hpath hmem
    · exact absurd hzero (by decide)
  · exact ⟨path, hpath, (wp_pure _ _ _).1 hwp⟩

/-- A path without a NUL is followed to the end of its block, and then there is no outcome. -/
theorem not_wp_fixDirectorySeparators {path : List UInt8} (hpath : 0 ∉ path)
    {post : Unit → List UInt8 → Prop} : ¬wp fixDirectorySeparators post path := by
  unfold fixDirectorySeparators
  rw [wp_bind, wp_get]
  rintro ⟨_, after, hrun, -⟩
  refine loop_outcome (fun _ path ↦ 0 ∉ path) (fun _ _ ↦ False) ?_ hrun hpath
  intro i path next after hpath hrun
  have hwp : wp (fixBody _ i) (fun r a ↦ r = next ∧ a = after) path := ⟨_, _, hrun, rfl, rfl⟩
  unfold fixBody at hwp
  rw [wp_bind, wp_loadAt] at hwp
  obtain ⟨-, c, hc, hwp⟩ := hwp
  have hne : c ≠ 0 := by
    rintro rfl
    exact hpath (List.mem_of_getElem? hc)
  rw [wp_ite, if_neg hne, wp_bind] at hwp
  obtain ⟨path', hpath', hwp⟩ := of_wp_unify hpath hwp
  rw [wp_bind] at hwp
  obtain ⟨rfl, rfl⟩ := (wp_pure _ _ _).1 (of_wp_closeUp hpath' hwp)
  exact hpath'

end

end Zbaselib.Win32Dir
