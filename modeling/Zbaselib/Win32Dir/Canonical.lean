import Zbaselib.Win32Dir.Path

/-!
# The paths that are looked up

`to_unicode` looks up one spelling of each path, without a backslash at the
end, or nothing when the path ends in a way that Windows would overlook.  Its
buffer has room for a path exactly when the path is not empty and has less than
`MAX_PATH` characters.
-/

namespace Zbaselib.Win32Dir

open Program Block CString Words

/-- Without the backslashes at the end, for a text that is read backwards. -/
def trimEnd : List UInt8 → List UInt8
  | b :: c :: r => if b = backslash ∧ c ≠ colon then trimEnd (c :: r) else b :: c :: r
  | r => r

def trim (text : List UInt8) : List UInt8 := (trimEnd text.reverse).reverse

/-- What is looked up for a path. -/
def canonical (path : List UInt8) : List UInt8 :=
  (trim (fixed path)).getLast?.elim [] fun c ↦ if suspicious c then [] else trim (fixed path)

/-- One kind of separator, and single ones behind the first character. -/
structure Unified (text : List UInt8) : Prop where
  slash_notMem : slash ∉ text
  single : text.tail.IsChain fun a b ↦ ¬(isSep a = true ∧ isSep b = true)

/-- A text that names a file or directory as it stands. -/
structure Canonical (text : List UInt8) : Prop where
  unified : Unified text
  harmless : ∀ c ∈ text.getLast?, ¬suspicious c
  untrimmed : trim text = text

/-! ## Unified texts -/

theorem unified_fixed (path : List UInt8) : Unified (fixed path) := by
  cases path with
  | nil => exact ⟨List.not_mem_nil, List.isChain_nil⟩
  | cons c cs =>
    refine ⟨fun hslash ↦ ?_, isChain_squeeze _⟩
    rw [fixed, List.mem_cons] at hslash
    obtain hslash | hslash := hslash
    · exact back_ne_slash c hslash.symm
    · obtain ⟨d, -, hd⟩ := List.mem_map.1 ((squeeze_sublist _).mem hslash)
      exact back_ne_slash d hd

theorem map_back_of_notMem {text : List UInt8} (h : slash ∉ text) : text.map back = text := by
  have hid : text.map back = text.map id :=
    List.map_congr_left fun c hc ↦ if_neg (ne_of_mem_of_not_mem hc h)
  rw [hid, List.map_id]

theorem Unified.fixed_eq {text : List UInt8} (h : Unified text) : fixed text = text := by
  cases text with
  | nil => rfl
  | cons c cs =>
    have hmap := map_back_of_notMem h.slash_notMem
    rw [List.map_cons, List.cons.injEq] at hmap
    rw [fixed, hmap.1, hmap.2]
    congr 1
    exact List.destutter_of_isChain _ _ h.single

theorem Unified.beginning {text text' : List UInt8} (h : Unified text) (hstart : text' <+: text) :
    Unified text' := by
  refine ⟨fun hslash ↦ h.slash_notMem (hstart.mem hslash), ?_⟩
  obtain ⟨u, rfl⟩ := hstart
  cases text' with
  | nil => exact List.isChain_nil
  | cons c cs => exact h.single.left_of_append

theorem words_fixed (path : List UInt8) : words isSep (fixed path) = words isSep path := by
  unfold words
  congr 1
  cases path with
  | nil => rfl
  | cons c cs =>
    calc read isSep (fixed (c :: cs))
        = (read isSep (cs.map back)).push isSep (back c) := by rw [fixed, read_cons, read_squeeze]
      _ = read isSep ((c :: cs).map back) := rfl
      _ = read isSep (c :: cs) := read_map isSep_back back_of_not_isSep _

/-- The two separators in front of a server stay. -/
theorem fixed_unc {a b : UInt8} (ha : isSep a = true) (hb : isSep b = true) (cs : List UInt8) :
    [backslash, backslash] <+: fixed (a :: b :: cs) := by
  rw [fixed, List.map_cons, squeeze_cons_of_pos (by rw [isSep_back, hb]),
    (back_eq_backslash a).2 ha, (back_eq_backslash b).2 hb]
  exact ⟨_, rfl⟩

theorem notMem_fixed {path : List UInt8} (hpath : 0 ∉ path) : 0 ∉ fixed path := by
  cases path with
  | nil => exact List.not_mem_nil
  | cons c cs =>
    rw [List.mem_cons, not_or] at hpath
    rw [fixed, List.mem_cons, not_or]
    refine ⟨(back_ne_zero (Ne.symm hpath.1)).symm, fun hzero ↦ ?_⟩
    obtain ⟨d, hmem, hd⟩ := List.mem_map.1 ((squeeze_sublist _).mem hzero)
    exact back_ne_zero (fun hd' ↦ hpath.2 (hd' ▸ hmem)) hd

theorem length_fixed_le (path : List UInt8) : (fixed path).length ≤ path.length := by
  cases path with
  | nil => exact le_rfl
  | cons c cs =>
    have hlength := (@squeeze_sublist _ isSep (cs.map back)).length_le
    rw [List.length_map] at hlength
    exact Nat.succ_le_succ hlength

/-- **Unifying the separators of a path** stays inside its block, leaves one kind of separator and
no doubled ones behind the first character, and keeps the words.  Doing it again changes nothing. -/
theorem fixDirectorySeparators_unifies (path rest : List UInt8) (hpath : 0 ∉ path) :
    (∃ rest', fixDirectorySeparators.run (path ++ 0 :: rest) =
        some ((), fixed path ++ 0 :: rest') ∧
      (fixed path).length + rest'.length = path.length + rest.length) ∧
    Unified (fixed path) ∧ words isSep (fixed path) = words isSep path ∧
    (∀ a b cs, path = a :: b :: cs → isSep a = true → isSep b = true →
      [backslash, backslash] <+: fixed path) ∧
    ∀ rest', ∃ rest'', fixDirectorySeparators.run (fixed path ++ 0 :: rest') =
      some ((), fixed path ++ 0 :: rest'') := by
  have hrun {text : List UInt8} (htext : 0 ∉ text) (rest : List UInt8) :
      ∃ rest', fixDirectorySeparators.run (text ++ 0 :: rest) =
          some ((), fixed text ++ 0 :: rest') ∧
        (fixed text).length + rest'.length = text.length + rest.length := by
    have hwp : wp fixDirectorySeparators (fun _ block ↦ ∃ rest', block = fixed text ++ 0 :: rest' ∧
        (fixed text).length + rest'.length = text.length + rest.length) (text ++ 0 :: rest) :=
      wp_fixDirectorySeparators htext fun rest' hlength ↦ ⟨rest', rfl, hlength⟩
    obtain ⟨_, _, hrun, rest', rfl, hlength⟩ := hwp
    exact ⟨rest', hrun, hlength⟩
  refine ⟨hrun hpath rest, unified_fixed path, words_fixed path, ?_, fun rest' ↦ ?_⟩
  · rintro a b cs rfl ha hb
    exact fixed_unc ha hb cs
  · obtain ⟨rest'', hagain, -⟩ := hrun (notMem_fixed hpath) rest'
    rw [(unified_fixed path).fixed_eq] at hagain
    exact ⟨rest'', hagain⟩

/-! ## Trimming -/

theorem trimEnd_suffix (r : List UInt8) : trimEnd r <:+ r := by
  induction r using trimEnd.induct with
  | case1 b c r h ih =>
    rw [trimEnd, if_pos h]
    exact ih.trans (List.suffix_cons b _)
  | case2 b c r h =>
    rw [trimEnd, if_neg h]
  | case3 r h =>
    rw [trimEnd]
    exact h

theorem trimEnd_ne_nil {r : List UInt8} (hr : r ≠ []) : trimEnd r ≠ [] := by
  induction r using trimEnd.induct with
  | case1 b c r h ih =>
    rw [trimEnd, if_pos h]
    exact ih (List.cons_ne_nil c r)
  | case2 b c r h =>
    rw [trimEnd, if_neg h]
    exact hr
  | case3 r h =>
    rw [trimEnd]
    · exact hr
    · exact h

theorem trimEnd_trimEnd (r : List UInt8) : trimEnd (trimEnd r) = trimEnd r := by
  induction r using trimEnd.induct with
  | case1 b c r h ih =>
    rw [trimEnd, if_pos h]
    exact ih
  | case2 b c r h =>
    rw [trimEnd, if_neg h, trimEnd, if_neg h]
  | case3 r h =>
    have hself : trimEnd r = r := by
      rw [trimEnd]
      exact h
    rw [hself, hself]

theorem words_trimEnd (r : List UInt8) :
    words isSep (trimEnd r).reverse = words isSep r.reverse := by
  induction r using trimEnd.induct with
  | case1 b c r h ih =>
    rw [trimEnd, if_pos h, ih, List.reverse_cons (a := b), words_append_singleton]
    rw [h.1]
    rfl
  | case2 b c r h =>
    rw [trimEnd, if_neg h]
  | case3 r h =>
    rw [trimEnd]
    exact h

theorem trim_isPrefix (text : List UInt8) : trim text <+: text := by
  have hsuffix := List.reverse_prefix.2 (trimEnd_suffix text.reverse)
  rwa [List.reverse_reverse] at hsuffix

theorem trim_trim (text : List UInt8) : trim (trim text) = trim text := by
  unfold trim
  rw [List.reverse_reverse, trimEnd_trimEnd]

theorem words_trim (text : List UInt8) : words isSep (trim text) = words isSep text := by
  rw [trim, words_trimEnd, List.reverse_reverse]

theorem trim_ne_nil {text : List UInt8} (htext : text ≠ []) : trim text ≠ [] := by
  unfold trim
  rw [ne_eq, List.reverse_eq_nil_iff]
  exact trimEnd_ne_nil (by simpa using htext)

theorem fixed_ne_nil {path : List UInt8} (hpath : path ≠ []) : fixed path ≠ [] := by
  cases path with
  | nil => exact absurd rfl hpath
  | cons c cs => exact List.cons_ne_nil _ _

/-- What is looked up is in its final form, or nothing. -/
theorem canonical_cases {path : List UInt8} (hpath : path ≠ []) :
    (canonical path = [] ∧ ∃ c ∈ (trim (fixed path)).getLast?, suspicious c) ∨
      (Canonical (canonical path) ∧ canonical path = trim (fixed path)) := by
  unfold canonical
  cases hlast : (trim (fixed path)).getLast? with
  | none =>
    exact absurd (List.getLast?_eq_none_iff.1 hlast) (trim_ne_nil (fixed_ne_nil hpath))
  | some c =>
    rw [Option.elim_some]
    split
    · next h => exact Or.inl ⟨rfl, c, rfl, h⟩
    · next h =>
      refine Or.inr ⟨⟨(unified_fixed path).beginning (trim_isPrefix _), ?_, trim_trim _⟩, rfl⟩
      rw [hlast]
      rintro d hd
      cases hd
      exact h

/-- A path in its final form is looked up as it stands. -/
theorem Canonical.canonical_eq {text : List UInt8} (h : Canonical text) :
    canonical text = text := by
  unfold canonical
  rw [h.unified.fixed_eq, h.untrimmed]
  cases hlast : text.getLast? with
  | none => exact (List.getLast?_eq_none_iff.1 hlast).symm
  | some c => exact if_neg (h.harmless c hlast)

/-- `//s/\f/` -/
def sharePath : List UInt8 := "//s/\\f/".toList.map Char.toUInt8

theorem fixDirectorySeparators_unifies_share :
    (∃ rest', fixDirectorySeparators.run (sharePath ++ [0]) =
        some ((), "\\\\s\\f\\".toList.map Char.toUInt8 ++ 0 :: rest') ∧
      (fixed sharePath).length + rest'.length = 7) ∧
      [backslash, backslash] <+: fixed sharePath := by
  have hunifies := fixDirectorySeparators_unifies sharePath [] (by decide)
  exact ⟨hunifies.1, hunifies.2.2.2.1 slash slash _ rfl (by decide) (by decide)⟩

/-! ## The buffer -/

section

variable {rest : List UInt8}

/-- The loop goes on as long as there is something to trim. -/
theorem wp_trimLoop {r : List UInt8} (hr : r ≠ []) {fuel : ℕ} (hfuel : r.length < fuel)
    {post : ℤ → List UInt8 → Prop}
    (hpost : ∀ rest', post ((trimEnd r).length - 1) ((trimEnd r).reverse ++ 0 :: rest')) :
    wp (loop trimBody fuel (r.length - 1)) post (r.reverse ++ 0 :: rest) := by
  apply wp_loop (fun n p block ↦ ∃ r' rest', block = r'.reverse ++ 0 :: rest' ∧ r' ≠ [] ∧
    n = r'.length ∧ p = (r'.length : ℤ) - 1 ∧ trimEnd r' = trimEnd r) ?_
    ⟨r, rest, rfl, hr, rfl, rfl, rfl⟩ hfuel
  rintro n p - ⟨r', rest', rfl, hr', rfl, rfl, htrim⟩
  rw [← htrim] at hpost
  unfold trimBody
  cases r' with
  | nil => exact absurd rfl hr'
  | cons b r' =>
    cases r' with
    | nil =>
      rw [wp_ite, if_neg (by simp), wp_pure]
      exact hpost rest'
    | cons c r' =>
      have hp : (((b :: c :: r').length : ℕ) : ℤ) - 1 = ((r'.length + 1 : ℕ) : ℤ) := by simp
      have hp' : ((r'.length + 1 : ℕ) : ℤ) - 1 = (r'.length : ℕ) := by simp
      have hblock : (b :: c :: r').reverse ++ 0 :: rest' =
          (r'.reverse ++ [c]) ++ b :: 0 :: rest' := by simp
      have hblock' : (r'.reverse ++ [c]) ++ b :: 0 :: rest' =
          r'.reverse ++ c :: b :: 0 :: rest' := by simp
      rw [hp, wp_ite, if_pos (by omega), wp_bind, hblock, wp_loadAt_append (by simp), wp_ite]
      rw [trimEnd] at hpost
      by_cases hb : b = backslash
      · rw [if_pos hb, wp_bind, hp', hblock', wp_loadAt_append (by simp), ← hblock', wp_ite]
        by_cases hc : c = colon
        · rw [if_neg (by simpa using hc), wp_pure, ← hp, ← hblock]
          rw [if_neg (by simp [hc])] at hpost
          exact hpost rest'
        · rw [if_pos hc, wp_bind, wp_storeAt_append (by simp), wp_pure]
          refine ⟨(c :: r').length, Nat.lt_succ_self _, c :: r', 0 :: rest', by simp,
            List.cons_ne_nil c r', rfl, by simp, ?_⟩
          rw [← htrim, trimEnd, if_pos ⟨hb, hc⟩]
      · rw [if_neg hb, wp_pure, ← hp, ← hblock]
        rw [if_neg (by simp [hb])] at hpost
        exact hpost rest'

/-- The last character decides whether the text stays. -/
theorem wp_reject {text : List UInt8} (htext : 0 ∉ text) {c : UInt8} {init : List UInt8}
    (hlast : text = init ++ [c]) {post : Unit → List UInt8 → Prop}
    (hpost : ∀ block, cstring block = some (if suspicious c then [] else text) → post () block) :
    wp (reject init.length) post (text ++ 0 :: rest) := by
  have hblock : text ++ 0 :: rest = init ++ c :: 0 :: rest := by rw [hlast]; simp
  unfold reject
  rw [hblock, wp_bind, wp_loadAt_append rfl, ← hblock, wp_ite]
  split
  · next h =>
    rw [if_pos h] at hpost
    cases text with
    | nil => simp at hlast
    | cons d ds =>
      have hstore := @wp_storeAt_append [] (ds ++ 0 :: rest) d 0 post rfl 0
      exact hstore.2 (hpost _ (cstring_append List.not_mem_nil _))
  · next h =>
    rw [if_neg h] at hpost
    rw [wp_pure]
    exact hpost _ (cstring_append htext rest)

/-- **A path that fits is looked up in its canonical form.** -/
theorem wp_toUnicode {path : List UInt8} (hpath : 0 ∉ path) (hne : path ≠ [])
    (hlength : path.length < MAX_PATH) {post : List UInt8 → List UInt8 → Prop}
    (hpost : ∀ block, post (canonical path) block) (block : List UInt8) :
    wp (toUnicode path) post block := by
  have hcopy : path.take MAX_PATH ++ List.replicate (MAX_PATH - path.length) 0 =
      path ++ 0 :: List.replicate (MAX_PATH - path.length - 1) 0 := by
    rw [List.take_of_length_le hlength.le]
    congr 1
    rw [← List.replicate_succ]
    congr 1
    omega
  unfold toUnicode
  rw [wp_bind, wp_set, hcopy, wp_bind]
  apply wp_fixDirectorySeparators hpath
  intro rest' _
  have hfixed := notMem_fixed hpath
  rw [wp_bind]
  have hstrlen := @wp_strlen_append [] (fixed path) rest' 0
  rw [List.nil_append] at hstrlen
  rw [hstrlen rfl hfixed, wp_bind]
  have htrim := @wp_trimLoop rest' (fixed path).reverse
  rw [List.reverse_reverse, List.length_reverse] at htrim
  apply htrim (by simpa using fixed_ne_nil hne) (Nat.lt_succ_self _)
  intro rest''
  have hzero : 0 ∉ trim (fixed path) := fun hzero ↦ hfixed ((trim_isPrefix _).mem hzero)
  have htrimmed := trim_ne_nil (fixed_ne_nil hne)
  obtain ⟨init, c, hlast⟩ := List.eq_nil_or_concat' _ |>.resolve_left htrimmed
  have hindex : (((trimEnd (fixed path).reverse).length : ℕ) : ℤ) - 1 = init.length := by
    have hlen := congrArg List.length hlast
    rw [trim, List.length_reverse, List.length_append, List.length_singleton] at hlen
    omega
  rw [hindex, wp_bind]
  apply wp_reject hzero hlast
  intro block hblock
  have hcanonical : canonical path = if suspicious c then [] else trim (fixed path) := by
    unfold canonical
    rw [hlast, List.getLast?_concat, Option.elim_some]
  simp only [wp_bind, wp_get, wp_lift]
  exact ⟨_, hblock, hcanonical ▸ hpost block⟩

/-- There is no path of no characters, and no room for one of too many. -/
theorem not_wp_toUnicode {path : List UInt8} (hpath : 0 ∉ path)
    (hlength : path = [] ∨ MAX_PATH ≤ path.length) {post : List UInt8 → List UInt8 → Prop}
    (block : List UInt8) : ¬wp (toUnicode path) post block := by
  unfold toUnicode
  rw [wp_bind, wp_set, wp_bind]
  intro hwp
  obtain rfl | hlong := hlength
  · -- `p` points in front of the buffer
    have hfixed : wp fixDirectorySeparators (fun _ block ↦ ∃ rest', block = 0 :: rest')
        (0 :: List.replicate 259 0) :=
      @wp_fixDirectorySeparators _ [] List.not_mem_nil _ fun rest' _ ↦ ⟨rest', rfl⟩
    obtain ⟨_, _, -, hrest, rest', rfl⟩ := wp_and hwp hfixed
    have hstrlen := @wp_strlen_append [] [] rest' 0
    rw [List.nil_append, List.nil_append] at hstrlen
    rw [wp_bind, hstrlen rfl List.not_mem_nil, wp_bind, List.length_nil, loop, wp_bind] at hrest
    unfold trimBody reject at hrest
    rw [wp_ite, if_neg (by decide), wp_pure] at hrest
    simp only [wp_pure, wp_bind, wp_loadAt] at hrest
    exact absurd hrest.1 (by decide)
  · have hcut : path.take MAX_PATH ++ List.replicate (MAX_PATH - path.length) 0 =
        path.take MAX_PATH := by
      rw [Nat.sub_eq_zero_of_le hlong, List.replicate_zero, List.append_nil]
    rw [hcut] at hwp
    exact not_wp_fixDirectorySeparators (fun hzero ↦ hpath (List.mem_of_mem_take hzero)) hwp

end

/-- **`to_unicode` has an outcome exactly for paths of 1 to `MAX_PATH - 1` characters.**  It looks
up nothing for a path that ends in a space, a dot, a plus or a character outside of ASCII, and
otherwise the one final form that all spellings of the path share. -/
theorem toUnicode_iff (path : List UInt8) (hpath : 0 ∉ path) (block : List UInt8) :
    ((toUnicode path).run block ≠ none ↔ path ≠ [] ∧ path.length < MAX_PATH) ∧
    ∀ text block', (toUnicode path).run block = some (text, block') →
      (text = [] ∧ ∃ c ∈ (trim (fixed path)).getLast?, suspicious c) ∨
        (Canonical text ∧ words isSep text = words isSep path ∧
          ∀ block, ∃ block', (toUnicode text).run block = some (text, block')) := by
  by_cases hfits : path ≠ [] ∧ path.length < MAX_PATH
  · have hwp : wp (toUnicode path) (fun text _ ↦ text = canonical path) block :=
      wp_toUnicode hpath hfits.1 hfits.2 (fun _ ↦ rfl) block
    refine ⟨iff_of_true ?_ hfits, fun text block' hrun ↦ ?_⟩
    · obtain ⟨_, _, hrun, -⟩ := hwp
      rw [hrun]
      exact Option.some_ne_none _
    · obtain rfl := wp_outcome hwp hrun
      obtain hnothing | ⟨hcanonical, heq⟩ := canonical_cases hfits.1
      · exact Or.inl hnothing
      · refine Or.inr ⟨hcanonical, ?_, fun block ↦ ?_⟩
        · rw [heq, words_trim, words_fixed]
        · have hstart := trim_isPrefix (fixed path)
          rw [← heq] at hstart
          have hzero : 0 ∉ canonical path := fun hzero ↦ notMem_fixed hpath (hstart.mem hzero)
          have hne : canonical path ≠ [] := heq ▸ trim_ne_nil (fixed_ne_nil hfits.1)
          have hshort : (canonical path).length < MAX_PATH :=
            Nat.lt_of_le_of_lt (hstart.length_le.trans (length_fixed_le path)) hfits.2
          have hagain : wp (toUnicode (canonical path)) (fun text _ ↦ text = canonical path)
              block :=
            wp_toUnicode hzero hne hshort (fun _ ↦ hcanonical.canonical_eq) block
          obtain ⟨_, block', hrun', rfl⟩ := hagain
          exact ⟨block', hrun'⟩
  · have hno (post : List UInt8 → List UInt8 → Prop) : ¬wp (toUnicode path) post block := by
      apply not_wp_toUnicode hpath
      rw [not_and_or, not_not, not_lt] at hfits
      exact hfits
    have hnone : (toUnicode path).run block = none := by
      by_contra hsome
      obtain ⟨⟨text, block'⟩, hrun⟩ := Option.ne_none_iff_exists'.1 hsome
      exact hno (fun _ _ ↦ True) ⟨text, block', hrun, trivial⟩
    refine ⟨iff_of_false (fun hsome ↦ hsome hnone) hfits, fun text block' hrun ↦ ?_⟩
    rw [hnone] at hrun
    cases hrun

theorem toUnicode_iff_share : (toUnicode sharePath).run [] ≠ none :=
  (toUnicode_iff sharePath (by decide) []).1.2 ⟨by decide, by decide⟩

/-- The backslash at the end goes, too. -/
example : canonical sharePath = "\\\\s\\f".toList.map Char.toUInt8 := by decide

end Zbaselib.Win32Dir
