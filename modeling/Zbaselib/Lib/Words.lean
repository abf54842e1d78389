import Mathlib

/-!
# Words between separators

The words of a text are its longest parts without a separator.  They stay the
same when a run of separators becomes a single one, and when a separator is
replaced by another.
-/

namespace Zbaselib.Words

variable {α : Type} {sep : α → Bool}

/-- The word that is being read, and the words behind it. -/
structure Reading (α : Type) where
  word : List α
  words : List (List α)

def Reading.close (r : Reading α) : List (List α) :=
  if r.word.isEmpty then r.words else r.word :: r.words

/-- One more character in front. -/
def Reading.push (sep : α → Bool) (c : α) (r : Reading α) : Reading α :=
  if sep c then ⟨[], r.close⟩ else ⟨c :: r.word, r.words⟩

def read (sep : α → Bool) (text : List α) : Reading α :=
  text.foldr (Reading.push sep) ⟨[], []⟩

def words (sep : α → Bool) (text : List α) : List (List α) := (read sep text).close

/-- Of each run of separators only the first is kept. -/
def squeeze (sep : α → Bool) (text : List α) : List α :=
  text.destutter fun a b ↦ ¬(sep a = true ∧ sep b = true)

/-! ## Runs of separators -/

theorem isChain_squeeze (text : List α) :
    (squeeze sep text).IsChain fun a b ↦ ¬(sep a = true ∧ sep b = true) :=
  List.isChain_destutter _ _

theorem squeeze_sublist (text : List α) : (squeeze sep text).Sublist text :=
  List.destutter_sublist _ _

/-- A character that is no separator stays, and does not matter for what follows. -/
theorem squeeze_cons_of_neg {c : α} (hc : sep c = false) (text : List α) :
    squeeze sep (c :: text) = c :: squeeze sep text := by
  cases text with
  | nil => rfl
  | cons d text =>
    unfold squeeze
    rw [List.destutter_cons_cons, if_pos (by simp [hc]), List.destutter_cons']

/-- Behind a separator the others of its run are left out. -/
theorem squeeze_cons_of_pos {c : α} (hc : sep c = true) (text : List α) :
    squeeze sep (c :: text) = c :: squeeze sep (text.dropWhile sep) := by
  induction text with
  | nil => rfl
  | cons d text ih =>
    by_cases hd : sep d = true
    · rw [List.dropWhile_cons_of_pos hd, ← ih]
      unfold squeeze
      rw [List.destutter_cons_cons, if_neg (by simp [hc, hd]), List.destutter_cons']
    · rw [List.dropWhile_cons_of_neg hd]
      unfold squeeze
      rw [List.destutter_cons_cons, if_pos (by simp [hd]), List.destutter_cons']

/-! ## Words -/

theorem push_push {c d : α} (hc : sep c = true) (hd : sep d = true) (r : Reading α) :
    (r.push sep d).push sep c = r.push sep c := by
  simp [Reading.push, hc, hd, Reading.close]

theorem read_cons (c : α) (text : List α) : read sep (c :: text) = (read sep text).push sep c := rfl

/-- Behind a separator, more separators make no difference. -/
theorem read_cons_dropWhile {c : α} (hc : sep c = true) (text : List α) :
    read sep (c :: text.dropWhile sep) = read sep (c :: text) := by
  induction text with
  | nil => rfl
  | cons d text ih =>
    by_cases hd : sep d = true
    · rw [List.dropWhile_cons_of_pos hd, ih]
      simp only [read_cons, push_push hc hd]
    · rw [List.dropWhile_cons_of_neg hd]

theorem read_squeeze (text : List α) : read sep (squeeze sep text) = read sep text := by
  induction hn : text.length using Nat.strong_induction_on generalizing text with
  | _ n ih =>
    cases text with
    | nil => rfl
    | cons c text =>
      rw [List.length_cons] at hn
      cases hc : sep c with
      | true =>
        have hshort := (List.dropWhile_sublist sep (l := text)).length_le
        rw [squeeze_cons_of_pos hc, ← read_cons_dropWhile hc text, read_cons, read_cons,
          ih _ (by omega) _ rfl]
      | false =>
        rw [squeeze_cons_of_neg hc, read_cons, read_cons, ih _ (by omega) _ rfl]

/-- Replacing separators by separators makes no difference. -/
theorem read_map {f : α → α} (hsep : ∀ c, sep (f c) = sep c) (hother : ∀ c, sep c = false → f c = c)
    (text : List α) : read sep (text.map f) = read sep text := by
  induction text with
  | nil => rfl
  | cons c text ih =>
    rw [List.map_cons, read_cons, read_cons, ih]
    cases hc : sep c with
    | true => simp [Reading.push, hsep, hc]
    | false => rw [hother c hc]

theorem words_append_singleton {c : α} (hc : sep c = true) (text : List α) :
    words sep (text ++ [c]) = words sep text := by
  unfold words read
  rw [List.foldr_append]
  simp [Reading.push, hc, Reading.close]

theorem map_dropWhile {f : α → α} (hsep : ∀ c, sep (f c) = sep c) (text : List α) :
    (text.dropWhile sep).map f = (text.map f).dropWhile sep := by
  rw [List.dropWhile_map]
  congr 2
  funext c
  exact (hsep c).symm

end Zbaselib.Words
