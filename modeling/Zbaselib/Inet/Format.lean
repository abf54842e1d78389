import Zbaselib.Inet.Pton

/-!
# What `inet_ntop6` writes is a text form

The text follows the words of the address: those before the run that becomes
`::`, the run, and those after it, of which the last two can be dotted.
-/

namespace Zbaselib.Inet

open Program Block Decision Grammar Numeral

variable {t src left bytes : List UInt8} {words rest zs : List ℕ} {n i : ℕ} {best cur : Run}

/-! ## Items -/

theorem octet_decimal (v : UInt8) : Octet (decimal v) v where
  value_eq := value_text (by decide) (by decide) v.toNat
  ne_nil := text_ne_nil 10 v.toNat
  length_of_zero := length_text_of_head (by decide) (by decide) (by decide)

theorem isOctet_decimal (v : UInt8) : IsOctet (decimal v) [v] :=
  ⟨v, octet_decimal v, rfl⟩

theorem iPv4_dotted (a b c d : UInt8) : IPv4 (dotted a b c d) [a, b, c, d] := by
  refine ⟨?_, rfl⟩
  have hlast : Octets (decimal d) [d] := .last (isOctet_decimal d)
  exact .cons (isOctet_decimal a) (.cons (isOctet_decimal b) (.cons (isOctet_decimal c) hlast))

theorem length_hex_le (h : n < 65536) : (hex n).length ≤ 4 :=
  (length_text_le_iff (by decide) (by decide)).mpr h

theorem isGroup_hex (h : n < 65536) : IsGroup (hex n) (pair n) :=
  ⟨n, ⟨value_text (by decide) (by decide) n, length_text_pos 16 n, length_hex_le h⟩, rfl⟩

/-- The groups of the words, each behind a colon. -/
def colonHex (words : List ℕ) : List UInt8 := words.flatMap fun word ↦ colon :: hex word

/-- The groups of the words, with a colon between them. -/
def joined : List ℕ → List UInt8
  | [] => []
  | word :: words => hex word ++ colonHex words

/-- The bytes of the words. -/
def bytesOf (words : List ℕ) : List UInt8 := words.flatMap pair

theorem hextets_joined (hwords : ∀ word ∈ words, word < 65536) (hne : words ≠ []) :
    Hextets (joined words) (bytesOf words) := by
  induction words with
  | nil => exact absurd rfl hne
  | cons word words ih =>
    have hgroup := isGroup_hex (hwords word List.mem_cons_self)
    cases words with
    | nil =>
      have hlast : Hextets (hex word) (pair word) := .last hgroup
      simpa [joined, colonHex, bytesOf] using hlast
    | cons next words =>
      have hrest := ih (fun w hw ↦ hwords w (List.mem_cons_of_mem word hw)) (List.cons_ne_nil _ _)
      exact .cons hgroup hrest

/-- Groups and a last item that can be dotted. -/
theorem groups_of_last (hwords : ∀ word ∈ words, word < 65536) (ht : IsLast t bytes) :
    ∃ right, colonHex words ++ colon :: t = colon :: right ∧
      Groups right (bytesOf words ++ bytes) := by
  induction words with
  | nil => exact ⟨t, rfl, .last ht⟩
  | cons word words ih =>
    obtain ⟨right, htext, hgroups⟩ := ih fun w hw ↦ hwords w (List.mem_cons_of_mem word hw)
    refine ⟨hex word ++ colon :: right, ?_, ?_⟩
    · unfold colonHex at htext ⊢
      rw [List.flatMap_cons, List.append_assoc, htext]
      rfl
    · unfold bytesOf at hgroups ⊢
      rw [List.flatMap_cons, List.append_assoc]
      exact .cons (isGroup_hex (hwords word List.mem_cons_self)) hgroups

theorem length_bytesOf (words : List ℕ) : (bytesOf words).length = 2 * words.length := by
  induction words with
  | nil => rfl
  | cons word words ih =>
    unfold bytesOf at ih ⊢
    rw [List.flatMap_cons, List.length_append, ih, List.length_cons]
    exact (Nat.add_comm _ _).trans (Nat.mul_succ 2 words.length).symm

theorem bytesOf_append (words rest : List ℕ) :
    bytesOf (words ++ rest) = bytesOf words ++ bytesOf rest := List.flatMap_append

theorem bytesOf_zeros (n : ℕ) : bytesOf (List.replicate n 0) = List.replicate (2 * n) 0 := by
  induction n with
  | zero => rfl
  | succ n ih =>
    unfold bytesOf at ih ⊢
    rw [List.replicate_succ, List.flatMap_cons, ih, Nat.mul_succ, Nat.add_comm, List.replicate_add]
    rfl

/-! ## The words of the address -/

theorem exists_cons_cons {n : ℕ} (h : src.length = n + 2) :
    ∃ a b rest, src = a :: b :: rest ∧ rest.length = n := by
  cases src with
  | nil => exact absurd h (by simp)
  | cons a src =>
    cases src with
    | nil => exact absurd h (by simp)
    | cons b rest =>
      rw [List.length_cons, List.length_cons] at h
      exact ⟨a, b, rest, rfl, by omega⟩

/-- Two bytes as a word. -/
theorem shiftLeft_or_byte (a b : UInt8) :
    (0 ||| a.toNat <<< 8) ||| b.toNat <<< 0 = a.toNat * 256 + b.toNat := by
  have hor := Nat.shiftLeft_add_eq_or_of_lt (show b.toNat < 2 ^ 8 from b.toNat_lt) a.toNat
  rw [Nat.zero_or, Nat.shiftLeft_zero, ← hor, Nat.shiftLeft_eq]

theorem pair_word (a b : UInt8) : pair (a.toNat * 256 + b.toNat) = [a, b] := by
  have ha := a.toNat_lt
  have hb := b.toNat_lt
  have hhigh : (a.toNat * 256 + b.toNat) / 256 = a.toNat := by omega
  have hlow : (a.toNat * 256 + b.toNat) % 256 = b.toNat := by omega
  unfold pair
  rw [hhigh, hlow, UInt8.ofNat_toNat, UInt8.ofNat_toNat]

/-- The words of a list of pairs of bytes. -/
def wordsOf : List UInt8 → List ℕ
  | a :: b :: rest => (a.toNat * 256 + b.toNat) :: wordsOf rest
  | _ => []

theorem packWords_eq (h : src.length = 16) : packWords src = some (wordsOf src) := by
  obtain ⟨a₀, b₀, src₀, rfl, h₀⟩ := exists_cons_cons h
  obtain ⟨a₁, b₁, src₁, rfl, h₁⟩ := exists_cons_cons h₀
  obtain ⟨a₂, b₂, src₂, rfl, h₂⟩ := exists_cons_cons h₁
  obtain ⟨a₃, b₃, src₃, rfl, h₃⟩ := exists_cons_cons h₂
  obtain ⟨a₄, b₄, src₄, rfl, h₄⟩ := exists_cons_cons h₃
  obtain ⟨a₅, b₅, src₅, rfl, h₅⟩ := exists_cons_cons h₄
  obtain ⟨a₆, b₆, src₆, rfl, h₆⟩ := exists_cons_cons h₅
  obtain ⟨a₇, b₇, src₇, rfl, h₇⟩ := exists_cons_cons h₆
  rw [List.length_eq_zero_iff.mp h₇]
  simp only [wordsOf, ← shiftLeft_or_byte]
  rfl

theorem bytesOf_wordsOf {n : ℕ} (h : src.length = 2 * n) : bytesOf (wordsOf src) = src := by
  induction n generalizing src with
  | zero => rw [List.length_eq_zero_iff.mp h]; rfl
  | succ n ih =>
    obtain ⟨a, b, rest, rfl, hrest⟩ := exists_cons_cons h
    have hrec := ih hrest
    unfold bytesOf at hrec ⊢
    rw [wordsOf, List.flatMap_cons, hrec, pair_word]
    rfl

theorem wordsOf_lt (src : List UInt8) : ∀ word ∈ wordsOf src, word < 65536 := by
  fun_induction wordsOf src with
  | case1 a b rest ih =>
    intro word hword
    rw [List.mem_cons] at hword
    rcases hword with rfl | hword
    · have ha := a.toNat_lt
      have hb := b.toNat_lt
      omega
    · exact ih word hword
  | case2 => exact fun word hword ↦ absurd hword List.not_mem_nil

/-! ## The run of zero words -/

/-- A run of zeros somewhere in the words, or none. -/
def IsRun (words : List ℕ) (run : Run) : Prop :=
  run.base = -1 ∨ ∃ left n right, words = left ++ List.replicate n 0 ++ right ∧
    run = ⟨left.length, n⟩

/-- A run of zeros at the end of the words, or none. -/
def IsCurrent (words : List ℕ) (run : Run) : Prop :=
  run.base = -1 ∨ ∃ left n, words = left ++ List.replicate n 0 ∧ run = ⟨left.length, n⟩

theorem IsCurrent.isRun (h : IsCurrent words cur) : IsRun words cur := by
  rcases h with h | ⟨left, n, rfl, rfl⟩
  · exact Or.inl h
  · exact Or.inr ⟨left, n, [], by simp, rfl⟩

theorem IsRun.append (h : IsRun words best) (rest : List ℕ) : IsRun (words ++ rest) best := by
  rcases h with h | ⟨left, n, right, rfl, rfl⟩
  · exact Or.inl h
  · exact Or.inr ⟨left, n, right ++ rest, by simp, rfl⟩

theorem IsRun.better (h : IsRun words best) (hcur : IsRun words cur) :
    IsRun words (better best cur) := by
  unfold Inet.better
  split
  · exact hcur
  · exact h

/-- One more zero. -/
theorem IsCurrent.zero (h : IsCurrent words cur) :
    IsCurrent (words ++ [0])
      (if cur.base = -1 then ⟨words.length, 1⟩ else { cur with len := cur.len + 1 }) := by
  split
  case isTrue hnone => exact Or.inr ⟨words, 1, rfl, rfl⟩
  case isFalse hsome =>
    rcases h with h | ⟨left, n, rfl, rfl⟩
    · exact absurd h hsome
    · refine Or.inr ⟨left, n + 1, ?_, rfl⟩
      rw [List.replicate_succ', List.append_assoc]

theorem isRun_scanRuns (hbest : IsRun words best) (hcur : IsCurrent words cur) :
    IsRun (words ++ rest) (scanRuns rest words.length best cur).1 ∧
      IsCurrent (words ++ rest) (scanRuns rest words.length best cur).2 := by
  induction rest generalizing words best cur with
  | nil =>
    rw [List.append_nil, scanRuns]
    exact ⟨hbest, hcur⟩
  | cons word rest ih =>
    have htext : words ++ word :: rest = words ++ [word] ++ rest := by simp
    have hlen : ((words ++ [word]).length : ℤ) = words.length + 1 := by simp
    have hbest' := hbest.append [word]
    rw [htext, scanRuns]
    by_cases hword : word = 0
    · subst hword
      have hcur' := hcur.zero
      rw [if_pos rfl]
      by_cases hbase : cur.base = -1
      · rw [if_pos hbase] at hcur' ⊢
        have hnext := ih hbest' hcur'
        rw [hlen] at hnext
        exact hnext
      · rw [if_neg hbase] at hcur' ⊢
        have hnext := ih hbest' hcur'
        rw [hlen] at hnext
        exact hnext
    · rw [if_neg hword]
      by_cases hbase : cur.base = -1
      · have hnext := ih hbest' (Or.inl hbase)
        rw [hlen] at hnext
        rw [if_neg (not_not.mpr hbase)]
        exact hnext
      · have hnone : IsCurrent (words ++ [word]) { cur with base := -1 } := Or.inl rfl
        have hnext := ih ((hbest.better hcur.isRun).append [word]) hnone
        rw [hlen] at hnext
        rw [if_pos hbase]
        exact hnext

theorem IsRun.endRun (h : IsRun words best) (hcur : IsRun words cur) :
    IsRun words (endRun best cur) := by
  unfold Inet.endRun
  split
  · exact h.better hcur
  · exact h

theorem IsRun.dropShort (h : IsRun words best) :
    (dropShort best).base = -1 ∨ ∃ left n right, words = left ++ List.replicate n 0 ++ right ∧
      dropShort best = ⟨left.length, n⟩ ∧ 2 ≤ n := by
  unfold Inet.dropShort
  split
  case isTrue => exact Or.inl rfl
  case isFalse hlong =>
    rcases h with h | ⟨left, n, right, hwords, rfl⟩
    · exact Or.inl h
    · refine Or.inr ⟨left, n, right, hwords, rfl, ?_⟩
      simp only [not_and, not_lt] at hlong
      have := hlong (by omega)
      omega

/-- The run that becomes `::` has at least two words. -/
theorem isRun_bestRun (words : List ℕ) :
    (bestRun words).base = -1 ∨ ∃ left n right, words = left ++ List.replicate n 0 ++ right ∧
      bestRun words = ⟨left.length, n⟩ ∧ 2 ≤ n := by
  have hnone : IsRun [] ⟨-1, 0⟩ := Or.inl rfl
  obtain ⟨hbest, hcur⟩ := @isRun_scanRuns [] words ⟨-1, 0⟩ ⟨-1, 0⟩ hnone (Or.inl rfl)
  exact (hbest.endRun hcur.isRun).dropShort

/-! ## The dotted text -/

theorem zero_notMem_dotted (a b c d : UInt8) : 0 ∉ dotted a b c d :=
  (iPv4_dotted a b c d).notMem (by decide) (by decide)

theorem strncpy_eq {size : ℕ} (ht : 0 ∉ t) (hlen : t.length < size) :
    strncpy (t ++ [0]) size = t ++ List.replicate (size - t.length) 0 := by
  unfold strncpy
  rw [CString.takeWhile_ne_append_cons ht, List.take_of_length_le hlen.le]
  rfl

/-- Both stores together: the text is padded with zeros, the last one is written twice. -/
theorem store_padded {size : ℕ} {pre old post : List UInt8} (hold : old.length = size)
    (hlen : t.length < size) :
    ∃ cells, store (pre ++ old ++ post) pre.length (t ++ List.replicate (size - t.length) 0) =
        some cells ∧
      store cells (pre.length + (size - 1)) [0] =
        some (pre ++ (t ++ List.replicate (size - t.length) 0) ++ post) := by
  have hgap : List.replicate (size - t.length) (0 : UInt8) =
      List.replicate (size - t.length - 1) 0 ++ [0] := by
    rw [← List.replicate_succ', Nat.sub_add_cancel (by omega)]
  have hsize : old.length = (t ++ List.replicate (size - t.length) 0).length := by
    rw [List.length_append, List.length_replicate]
    omega
  refine ⟨_, store_append pre post hsize, ?_⟩
  have hlast : (pre ++ (t ++ List.replicate (size - t.length - 1) 0)).length =
      pre.length + (size - 1) := by
    simp only [List.length_append, List.length_replicate]
    omega
  have hcell := store_cell (pre ++ (t ++ List.replicate (size - t.length - 1) 0)) post 0 0
  rw [hlast] at hcell
  rw [hgap]
  simpa only [List.append_assoc, List.singleton_append] using hcell

/-- What becomes of the cells `old` between `pre` and `post`: if there is room the text with its
terminator comes first in them. -/
def Placed (text pre old post : List UInt8) (ret : ℤ) (block : List UInt8) : Prop :=
  (text.length < old.length ∧ ret = 0 ∧ ∃ padding,
    (text ++ 0 :: padding).length = old.length ∧ block = pre ++ (text ++ 0 :: padding) ++ post) ∨
  (old.length ≤ text.length ∧ ret = -1 ∧ block = pre ++ old ++ post)

theorem wp_inetNtop4 {size : UInt32} {a b c d : UInt8} (lead after pre old post : List UInt8)
    (hold : old.length = size.toNat) :
    wp (inetNtop4 (lead ++ a :: b :: c :: d :: after) lead.length pre.length size)
      (Placed (dotted a b c d) pre old post) (pre ++ old ++ post) := by
  have hzero := zero_notMem_dotted a b c d
  have hle := (iPv4_dotted a b c d).length_le
  have htake : (dotted a b c d).take (UV_INET_ADDRSTRLEN - 1) = dotted a b c d :=
    List.take_of_length_le hle
  have hpos : 0 < (dotted a b c d).length := by
    unfold dotted
    rw [List.length_append]
    exact Nat.add_pos_left (length_text_pos 10 a.toNat) _
  unfold inetNtop4
  simp only [wp_bind, wp_lift, wp_ite, wp_pure, wp_get, wp_set]
  refine ⟨a, by simp, b, by simp, c, by simp, d, by simp, ?_⟩
  split
  case isTrue hshort => exact Or.inr ⟨by omega, rfl, rfl⟩
  case isFalse hlong =>
    have hlen : (dotted a b c d).length < size.toNat := by omega
    have hgap : List.replicate (size.toNat - (dotted a b c d).length) (0 : UInt8) =
        0 :: List.replicate (size.toNat - (dotted a b c d).length - 1) 0 := by
      rw [← List.replicate_succ, Nat.sub_add_cancel (by omega)]
    obtain ⟨cells, hfirst, hsecond⟩ := @store_padded _ _ pre old post hold hlen
    rw [htake, strncpy_eq hzero hlen]
    refine ⟨cells, hfirst, _, hsecond, Or.inl ⟨by omega, rfl, _, ?_, by rw [hgap]⟩⟩
    rw [← hgap, List.length_append, List.length_replicate]
    omega

/-! ## The loop over the words -/

theorem emit_eq {tmp xs : List UInt8} (h : tmp.length + xs.length ≤ 46) :
    emit tmp xs = some (tmp ++ xs) := if_pos h

theorem sprintf_eq {tmp : List UInt8} {word : ℕ} (hword : word < 65536)
    (h : tmp.length + 5 ≤ 46) : sprintf tmp word = some (tmp ++ hex word) := by
  have hhex := length_hex_le hword
  exact if_pos (by simp only [UV_INET6_ADDRSTRLEN]; omega)

/-- The word at index `i` is written as it is. -/
def Plain (words : List ℕ) (best : Run) (i : ℕ) : Prop :=
  ¬(best.base ≠ -1 ∧ i ≥ best.base ∧ i < best.base + best.len) ∧
    ¬(i = 6 ∧ Encapsulated words best)

variable {word k : ℕ} {tmp : List UInt8}

theorem formatLoop_first (h : Plain words best 0) (hword : word < 65536) :
    formatLoop src words best (word :: rest) 0 [] =
      formatLoop src words best rest 1 (hex word) := by
  rw [formatLoop, if_neg h.1, if_neg (not_not.mpr rfl), pure_bind]
  dsimp only
  rw [if_neg h.2, sprintf_eq hword (by decide), lift_some_bind, List.nil_append]

theorem formatLoop_plain (hi : i ≠ 0) (h : Plain words best i) (hword : word < 65536)
    (hroom : tmp.length + 6 ≤ 46) :
    formatLoop src words best (word :: rest) i tmp =
      formatLoop src words best rest (i + 1) (tmp ++ colon :: hex word) := by
  have hcolon : emit tmp [colon] = some (tmp ++ [colon]) := by
    refine emit_eq ?_
    rw [List.length_singleton]
    omega
  have hlen : (tmp ++ [colon]).length + 5 ≤ 46 := by
    rw [List.length_append, List.length_singleton]
    omega
  rw [formatLoop, if_neg h.1, if_pos hi, hcolon, lift_some_bind]
  dsimp only
  rw [if_neg h.2, sprintf_eq hword hlen, lift_some_bind, List.append_assoc]
  rfl

/-- Several words that are written as they are. -/
theorem formatLoop_colonHex (hi : i ≠ 0) (h : ∀ j < zs.length, Plain words best (i + j))
    (hzs : ∀ word ∈ zs, word < 65536) (hroom : tmp.length + 5 * zs.length ≤ 45) :
    formatLoop src words best (zs ++ rest) i tmp =
      formatLoop src words best rest (i + zs.length) (tmp ++ colonHex zs) := by
  induction zs generalizing i tmp with
  | nil => simp [colonHex]
  | cons word zs ih =>
    have hword := hzs word List.mem_cons_self
    have hhex := length_hex_le hword
    rw [List.length_cons] at h hroom
    have hplain : Plain words best i := h 0 (Nat.succ_pos _)
    have hnext : ∀ j < zs.length, Plain words best (i + 1 + j) := by
      intro j hj
      rw [Nat.add_assoc, Nat.add_comm 1 j]
      exact h (j + 1) (Nat.succ_lt_succ hj)
    have hlen : (tmp ++ colon :: hex word).length + 5 * zs.length ≤ 45 := by
      rw [List.length_append, List.length_cons]
      omega
    rw [List.cons_append, formatLoop_plain hi hplain hword (by omega),
      ih (Nat.succ_ne_zero i) hnext (fun w hw ↦ hzs w (List.mem_cons_of_mem word hw)) hlen,
      List.length_cons, Nat.add_assoc i 1, Nat.add_comm 1, List.append_assoc]
    rfl

theorem formatLoop_joined (h : ∀ j < zs.length, Plain words best j)
    (hzs : ∀ word ∈ zs, word < 65536) (hlen : zs.length ≤ 8) :
    formatLoop src words best (zs ++ rest) 0 [] =
      formatLoop src words best rest zs.length (joined zs) := by
  cases zs with
  | nil => rfl
  | cons word zs =>
    have hword := hzs word List.mem_cons_self
    have hhex := length_hex_le hword
    rw [List.length_cons] at h hlen
    have hnext : ∀ j < zs.length, Plain words best (1 + j) := by
      intro j hj
      rw [Nat.add_comm 1 j]
      exact h (j + 1) (Nat.succ_lt_succ hj)
    rw [List.cons_append, formatLoop_first (h 0 (Nat.succ_pos _)) hword,
      formatLoop_colonHex one_ne_zero hnext (fun w hw ↦ hzs w (List.mem_cons_of_mem word hw))
        (by omega), Nat.add_comm 1]
    rfl

/-- Inside of the run nothing is written. -/
theorem formatLoop_skip {base n : ℕ} (hi : base < i) (hend : i + zs.length = base + n) :
    formatLoop src words ⟨base, n⟩ (zs ++ rest) i tmp =
      formatLoop src words ⟨base, n⟩ rest (base + n) tmp := by
  induction zs generalizing i with
  | nil =>
    rw [List.length_nil, Nat.add_zero] at hend
    rw [List.nil_append, hend]
  | cons word zs ih =>
    rw [List.length_cons] at hend
    rw [List.cons_append, formatLoop, if_pos (by simp only; omega), if_neg (by simp only; omega)]
    exact ih (by omega) (by omega)

/-- The run itself is one colon. -/
theorem formatLoop_run {base n : ℕ} (hlen : zs.length = n) (hpos : 0 < n)
    (hroom : tmp.length + 1 ≤ 46) :
    formatLoop src words ⟨base, n⟩ (zs ++ rest) base tmp =
      formatLoop src words ⟨base, n⟩ rest (base + n) (tmp ++ [colon]) := by
  cases zs with
  | nil =>
    rw [List.length_nil] at hlen
    omega
  | cons word zs =>
    rw [List.length_cons] at hlen
    rw [List.cons_append, formatLoop, if_pos (by simp only; omega), if_pos rfl, emit_eq hroom,
      lift_some_bind]
    exact formatLoop_skip (Nat.lt_succ_self base) (by omega)

theorem strlen_terminated (ht : 0 ∉ t) (rest : List UInt8) :
    strlen (t ++ 0 :: rest) = some t.length := by
  unfold strlen
  rw [List.idxOf?_eq_some_iff]
  refine ⟨by simp, by simp, fun j hj ↦ ?_⟩
  rw [List.getElem_append_left hj]
  intro hzero
  exact ht (hzero ▸ List.getElem_mem hj)

theorem appendDotted_eq {a b c d : UInt8} {lead : List UInt8} (hlead : lead.length = 12)
    (hroom : tmp.length ≤ 30) :
    appendDotted (lead ++ [a, b, c, d]) tmp = pure (tmp ++ dotted a b c d) := by
  have hzero := zero_notMem_dotted a b c d
  have hle := (iPv4_dotted a b c d).length_le
  have hsize : (UInt32.ofNat (UV_INET6_ADDRSTRLEN - tmp.length)).toNat =
      UV_INET6_ADDRSTRLEN - tmp.length := by
    rw [UInt32.toNat_ofNat']
    exact Nat.mod_eq_of_lt (by simp only [UV_INET6_ADDRSTRLEN]; omega)
  have hold : (List.replicate (UV_INET6_ADDRSTRLEN - tmp.length) (0 : UInt8)).length =
      (UInt32.ofNat (UV_INET6_ADDRSTRLEN - tmp.length)).toNat := by
    rw [hsize, List.length_replicate]
  have hcall := @wp_inetNtop4 _ a b c d lead [] [] _ [] hold
  rw [List.nil_append, List.append_nil, hlead] at hcall
  obtain ⟨ret, cells, hrun, hplaced⟩ := hcall
  rw [List.length_nil] at hrun
  unfold appendDotted
  dsimp only
  rw [hrun, lift_some_bind]
  rcases hplaced with ⟨-, rfl, padding, -, rfl⟩ | ⟨hlong, -⟩
  · rw [List.nil_append, List.append_nil]
    dsimp only
    rw [if_neg (not_not.mpr rfl), strlen_terminated hzero, lift_some_bind, List.take_left]
  · rw [List.length_replicate] at hlong
    simp only [UV_INET6_ADDRSTRLEN] at hlong
    omega

/-- The last four bytes are written with dots. -/
theorem formatLoop_dotted {a b c d : UInt8} {lead : List UInt8} (hlead : lead.length = 12)
    (hrun : ¬(best.base ≠ -1 ∧ (6 : ℕ) ≥ best.base ∧ (6 : ℕ) < best.base + best.len))
    (h : Encapsulated words best) (hroom : tmp.length < 30) :
    formatLoop (lead ++ [a, b, c, d]) words best (word :: rest) 6 tmp =
      pure (tmp ++ colon :: dotted a b c d) := by
  have hlen : (tmp ++ [colon]).length ≤ 30 := by
    rw [List.length_append, List.length_singleton]
    exact hroom
  have hcolon : emit tmp [colon] = some (tmp ++ [colon]) := by
    refine emit_eq ?_
    rw [List.length_singleton]
    omega
  rw [formatLoop, if_neg hrun, if_pos (by decide), hcolon, lift_some_bind]
  dsimp only
  rw [if_pos ⟨rfl, h⟩, appendDotted_eq hlead hlen, List.append_assoc]
  rfl

/-! ## The whole text -/

theorem length_wordsOf {n : ℕ} (h : src.length = 2 * n) : (wordsOf src).length = n := by
  have hlen := length_bytesOf (wordsOf src)
  rw [bytesOf_wordsOf h, h] at hlen
  omega

/-- The text of the words `zs` before the run, and a text for the words after it. -/
theorem iPv6_joined {right rb : List UInt8} (hzs : ∀ word ∈ zs, word < 65536)
    (hright : OrEmpty Groups right rb) (hbytes : Expands (bytesOf zs) rb bytes) :
    IPv6 (joined zs ++ colon :: colon :: right) bytes := by
  refine .compressed ?_ hright hbytes
  by_cases hne : zs = []
  · rw [hne]
    exact Or.inl ⟨rfl, rfl⟩
  · exact Or.inr (hextets_joined hzs hne)

/-- The text of words without a run of zeros. -/
theorem iPv6_joined_of_length (hzs : ∀ word ∈ zs, word < 65536) (hlen : zs.length = 8) :
    IPv6 (joined zs) (bytesOf zs) := by
  have hne : zs ≠ [] := by
    rintro rfl
    exact absurd hlen (by decide)
  refine .full ?_ (by rw [length_bytesOf, hlen])
  have hjoined := hextets_joined hzs hne
  refine hjoined.mono ?_
  exact fun t bytes ht ↦ Or.inl ht

/-- What the run of zeros stands for. -/
theorem expands_run {right : List ℕ} {n : ℕ} (hpos : 0 < n)
    (hlen : (zs ++ List.replicate n 0 ++ right).length = 8) :
    Expands (bytesOf zs) (bytesOf right) (bytesOf (zs ++ List.replicate n 0 ++ right)) := by
  simp only [List.length_append, List.length_replicate] at hlen
  refine ⟨n, hpos, ?_, ?_⟩
  · rw [length_bytesOf, length_bytesOf]
    omega
  · rw [bytesOf_append, bytesOf_append, bytesOf_zeros]

/-- The text is finished by a second colon if the run was the end of the address. -/
def closeText (best : Run) (tmp : List UInt8) : Code (List UInt8) := do
  let tmp ← if best.base ≠ -1 ∧ best.base + best.len = 8 then emit tmp [colon] else pure tmp
  let tmp ← emit tmp [0]
  pure tmp

/-- Words, a run of zeros and words: the text up to the run. -/
theorem formatLoop_left {n : ℕ} {right : List ℕ} (hzs : ∀ word ∈ zs, word < 65536)
    (hlen : zs.length ≤ 8) (hpos : 0 < n) :
    formatLoop src words ⟨zs.length, n⟩ (zs ++ List.replicate n 0 ++ right) 0 [] =
      formatLoop src words ⟨zs.length, n⟩ right (zs.length + n) (joined zs ++ [colon]) := by
  have hplain : ∀ j < zs.length, Plain words ⟨zs.length, n⟩ j := by
    intro j hj
    refine ⟨fun h ↦ ?_, fun h ↦ ?_⟩
    · have := h.2.1
      simp only at this
      omega
    · have := h.2.1
      simp only at this
      omega
  have hroom : (joined zs).length + 1 ≤ 46 := by
    by_cases hne : zs = []
    · rw [hne]
      decide
    · have htext := (hextets_joined hzs hne).length_le
      rw [length_bytesOf] at htext
      omega
  rw [List.append_assoc, formatLoop_joined hplain hzs hlen,
    formatLoop_run List.length_replicate hpos hroom]

theorem emit_terminator (ht : t.length ≤ 45) : emit t [0] = some (t ++ [0]) := by
  refine emit_eq ?_
  rw [List.length_singleton]
  omega

theorem closeText_eq (hbest : ¬(best.base ≠ -1 ∧ best.base + best.len = 8)) (ht : t.length ≤ 45) :
    closeText best t = pure (t ++ [0]) := by
  unfold closeText
  rw [if_neg hbest, pure_bind]
  dsimp only
  rw [emit_terminator ht, lift_some]

/-- The code writes a text form of the bytes, and its terminator. -/
def Writes (code : Code (List UInt8)) (bytes : List UInt8) : Prop :=
  ∃ text, IPv6 text bytes ∧ code = pure (text ++ [0])

/-- A run at the end of the address. -/
theorem writes_end {n : ℕ} (hzs : ∀ word ∈ zs, word < 65536) (hpos : 0 < n)
    (hlen : (zs ++ List.replicate n 0 ++ []).length = 8) :
    Writes (formatLoop src words ⟨zs.length, n⟩ [] (zs.length + n) (joined zs ++ [colon]) >>=
      closeText ⟨zs.length, n⟩) (bytesOf (zs ++ List.replicate n 0 ++ [])) := by
  have htext := iPv6_joined hzs (Or.inl ⟨rfl, rfl⟩) (expands_run hpos hlen)
  have hle := htext.length_le
  simp only [List.length_append, List.length_cons, List.length_nil, List.length_replicate]
    at hlen hle
  have hbest : (⟨zs.length, n⟩ : Run).base ≠ -1 ∧
      (⟨zs.length, n⟩ : Run).base + (⟨zs.length, n⟩ : Run).len = 8 := by
    simp only
    omega
  have hcolon : emit (joined zs ++ [colon]) [colon] = some (joined zs ++ [colon, colon]) := by
    rw [emit_eq (by simp only [List.length_append, List.length_singleton]; omega)]
    rw [List.append_assoc]
    rfl
  refine ⟨_, htext, ?_⟩
  unfold closeText
  rw [formatLoop, pure_bind, if_pos hbest, hcolon, lift_some_bind]
  dsimp only
  rw [emit_terminator (by simp only [List.length_append, List.length_cons, List.length_nil]; omega)]
  rfl

/-- Words after the run, the last item of which is `item`. -/
theorem writes_of_last {n : ℕ} {mid right : List ℕ} {item : List UInt8}
    (hzs : ∀ word ∈ zs, word < 65536) (hpos : 0 < n) (hmid : ∀ word ∈ mid, word < 65536)
    (hlen : (zs ++ List.replicate n 0 ++ (mid ++ right)).length = 8) (hright : right ≠ [])
    (hitem : IsLast item (bytesOf right))
    (hloop : formatLoop src words ⟨zs.length, n⟩ (mid ++ right) (zs.length + n)
      (joined zs ++ [colon]) = pure (joined zs ++ [colon] ++ (colonHex mid ++ colon :: item))) :
    Writes (formatLoop src words ⟨zs.length, n⟩ (mid ++ right) (zs.length + n)
      (joined zs ++ [colon]) >>= closeText ⟨zs.length, n⟩)
      (bytesOf (zs ++ List.replicate n 0 ++ (mid ++ right))) := by
  obtain ⟨tail, htail, hgroups⟩ := groups_of_last hmid hitem
  rw [← bytesOf_append] at hgroups
  have htext := iPv6_joined hzs (Or.inr hgroups) (expands_run hpos hlen)
  have hbest : ¬((⟨zs.length, n⟩ : Run).base ≠ -1 ∧
      (⟨zs.length, n⟩ : Run).base + (⟨zs.length, n⟩ : Run).len = 8) := by
    have hne := List.length_pos_iff.mpr hright
    simp only [List.length_append, List.length_replicate] at hlen ⊢
    omega
  have happend : joined zs ++ [colon] ++ colon :: tail = joined zs ++ colon :: colon :: tail := by
    rw [List.append_assoc]
    rfl
  refine ⟨_, htext, ?_⟩
  rw [hloop, pure_bind, htail, happend, closeText_eq hbest htext.length_le]

/-- Words after the run that are written as they are. -/
theorem writes_words {n : ℕ} {right : List ℕ} (hzs : ∀ word ∈ zs, word < 65536) (hpos : 0 < n)
    (hright : ∀ word ∈ right, word < 65536) (hne : right ≠ [])
    (hlen : (zs ++ List.replicate n 0 ++ right).length = 8)
    (hplain : ∀ j < right.length, Plain words ⟨zs.length, n⟩ (zs.length + n + j)) :
    Writes (formatLoop src words ⟨zs.length, n⟩ right (zs.length + n) (joined zs ++ [colon]) >>=
      closeText ⟨zs.length, n⟩) (bytesOf (zs ++ List.replicate n 0 ++ right)) := by
  have hsplit : right = right.dropLast ++ [right.getLast hne] :=
    (List.dropLast_append_getLast hne).symm
  generalize right.dropLast = mid at hsplit
  generalize right.getLast hne = word at hsplit
  subst hsplit
  have hword := hright word (List.mem_append_right mid (List.mem_singleton_self word))
  have hitem : IsLast (hex word) (bytesOf [word]) := Or.inl (isGroup_hex hword)
  have htext : colonHex (mid ++ [word]) = colonHex mid ++ colon :: hex word := by
    simp [colonHex]
  have hroom : (joined zs ++ [colon]).length + 5 * (mid ++ [word]).length ≤ 45 := by
    simp only [List.length_append, List.length_replicate, List.length_singleton] at hlen ⊢
    by_cases hnil : zs = []
    · rw [hnil]
      simp only [joined, List.length_nil]
      omega
    · have hjoined := (hextets_joined hzs hnil).length_le
      rw [length_bytesOf] at hjoined
      omega
  have hloop := @formatLoop_colonHex src words [] (mid ++ [word]) (zs.length + n) ⟨zs.length, n⟩
    (joined zs ++ [colon]) (by omega) hplain hright hroom
  rw [List.append_nil, formatLoop, htext] at hloop
  exact writes_of_last hzs hpos (fun w hw ↦ hright w (List.mem_append_left _ hw)) hlen
    (List.cons_ne_nil word []) hitem hloop

/-- Words after the run, the last two of which are written with dots. -/
theorem writes_dotted {n : ℕ} {right : List ℕ} (hzs : zs = []) (hpos : 0 < n)
    (hright : ∀ word ∈ right, word < 65536)
    (hlen : (zs ++ List.replicate n 0 ++ right).length = 8) (hsix : n ≤ 6) (hfive : 5 ≤ n)
    (henc : Encapsulated words ⟨zs.length, n⟩)
    (hsrc : src = bytesOf (zs ++ List.replicate n 0 ++ right)) :
    Writes (formatLoop src words ⟨zs.length, n⟩ right (zs.length + n) (joined zs ++ [colon]) >>=
      closeText ⟨zs.length, n⟩) (bytesOf (zs ++ List.replicate n 0 ++ right)) := by
  subst hzs
  have hsum := hlen
  simp only [List.length_append, List.length_replicate, List.length_nil] at hsum
  -- the words between the run and index 6
  obtain ⟨mid, w₁, w₂, rfl, hmidlen⟩ :
      ∃ mid w₁ w₂, right = mid ++ [w₁, w₂] ∧ n + mid.length = 6 := by
    have hdrop : (right.drop (6 - n)).length = 2 := by
      rw [List.length_drop]
      omega
    obtain ⟨w₁, w₂, htwo⟩ := List.length_eq_two.mp hdrop
    refine ⟨right.take (6 - n), w₁, w₂, ?_, ?_⟩
    · rw [← htwo, List.take_append_drop]
    · rw [List.length_take]
      omega
  have hmid : ∀ word ∈ mid, word < 65536 := fun w hw ↦ hright w (List.mem_append_left _ hw)
  have hlead : (bytesOf (List.replicate n 0 ++ mid)).length = 12 := by
    rw [length_bytesOf, List.length_append, List.length_replicate]
    omega
  have hfour : src = bytesOf (List.replicate n 0 ++ mid) ++ [.ofNat (w₁ / 256), .ofNat (w₁ % 256),
      .ofNat (w₂ / 256), .ofNat (w₂ % 256)] := by
    rw [hsrc, List.nil_append, ← List.append_assoc, bytesOf_append]
    rfl
  have hplain : ∀ j < mid.length, Plain words ⟨(0 : ℕ), n⟩ (0 + n + j) := by
    intro j hj
    refine ⟨fun h ↦ ?_, fun h ↦ ?_⟩
    · have := h.2.2
      simp only at this
      omega
    · have := h.1
      omega
  have hafter : ¬((⟨(0 : ℕ), n⟩ : Run).base ≠ -1 ∧ (6 : ℕ) ≥ (⟨(0 : ℕ), n⟩ : Run).base ∧
      (6 : ℕ) < (⟨(0 : ℕ), n⟩ : Run).base + (⟨(0 : ℕ), n⟩ : Run).len) := by
    simp only
    omega
  have hroom : ([colon] ++ colonHex mid).length < 30 := by
    rcases Nat.lt_or_ge n 6 with hlt | hge
    · obtain ⟨word, rfl⟩ := List.length_eq_one_iff.mp (show mid.length = 1 by omega)
      have hhex := length_hex_le (hmid word (List.mem_singleton_self word))
      simp [colonHex]
      omega
    · rw [List.length_eq_zero_iff.mp (show mid.length = 0 by omega)]
      decide
  have hloop := @formatLoop_colonHex src words [w₁, w₂] mid (0 + n) ⟨(0 : ℕ), n⟩ [colon]
    (by omega) hplain hmid (by simp only [List.length_singleton]; omega)
  have hsix' : 0 + n + mid.length = 6 := by omega
  rw [hsix'] at hloop
  rw [hfour] at hloop ⊢
  rw [formatLoop_dotted hlead hafter henc hroom, List.append_assoc] at hloop
  exact writes_of_last (fun w hw ↦ absurd hw List.not_mem_nil) hpos hmid hlen
    (List.cons_ne_nil w₁ [w₂]) (Or.inr (iPv4_dotted _ _ _ _)) hloop

/-- `inet_ntop6` writes a text form of the address. -/
theorem writes_inetNtop6Tmp (h : src.length = 16) : Writes (inetNtop6Tmp src) src := by
  have hwords := wordsOf_lt src
  have hbytes := bytesOf_wordsOf (n := 8) h
  have hlen := length_wordsOf (n := 8) h
  have hcode : inetNtop6Tmp src = formatLoop src (wordsOf src) (bestRun (wordsOf src))
      (wordsOf src) 0 [] >>= closeText (bestRun (wordsOf src)) := by
    unfold inetNtop6Tmp
    rw [packWords_eq h, lift_some_bind]
    rfl
  rw [hcode]
  rcases isRun_bestRun (wordsOf src) with hbase | ⟨left, n, right, hsplit, hbest, htwo⟩
  · have hplain : ∀ j < (wordsOf src).length, Plain (wordsOf src) (bestRun (wordsOf src)) j := by
      intro j _
      refine ⟨fun h ↦ h.1 hbase, fun h ↦ ?_⟩
      have hzero := h.2.1
      rw [hbase] at hzero
      exact absurd hzero (by decide)
    have htext := iPv6_joined_of_length hwords hlen
    have hloop := @formatLoop_joined src (wordsOf src) [] (wordsOf src) (bestRun (wordsOf src))
      hplain hwords (by omega)
    rw [List.append_nil] at hloop
    rw [hbytes] at htext
    refine ⟨_, htext, ?_⟩
    rw [hloop, formatLoop, pure_bind, closeText_eq (fun h ↦ h.1 hbase) htext.length_le]
  · generalize hall : wordsOf src = words at *
    subst hsplit
    have hleft : ∀ word ∈ left, word < 65536 := fun w hw ↦ hwords w (by simp [hw])
    have hright : ∀ word ∈ right, word < 65536 := fun w hw ↦ hwords w (by simp [hw])
    have hpos : 0 < n := by omega
    have hle : left.length ≤ 8 := by
      simp only [List.length_append] at hlen
      omega
    have hgoal : ∀ code bytes, bytes = src → Writes code bytes → Writes code src := by
      rintro code bytes rfl h
      exact h
    rw [hbest, formatLoop_left hleft hle hpos]
    refine hgoal _ _ hbytes ?_
    by_cases hne : right = []
    · subst hne
      exact writes_end hleft hpos hlen
    by_cases henc : Encapsulated (left ++ List.replicate n 0 ++ right) ⟨left.length, n⟩ ∧ n ≤ 6
    · have hnil : left = [] := by
        have hzero := henc.1.1
        simp only at hzero
        exact List.length_eq_zero_iff.mp (by omega)
      have hfive : 5 ≤ n := by
        have hcases := henc.1.2
        simp only at hcases
        omega
      exact writes_dotted hnil hpos hright hlen henc.2 hfive henc.1 hbytes.symm
    · refine writes_words hleft hpos hright hne hlen fun j hj ↦ ⟨fun h ↦ ?_, fun h ↦ henc ⟨h.2, ?_⟩⟩
      · have := h.2.2
        simp only at this
        omega
      · have := h.1
        omega

end Zbaselib.Inet
