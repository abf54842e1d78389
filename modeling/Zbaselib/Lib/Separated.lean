import Mathlib

/-!
# Separated items

Texts made of items with a separator between them, and what they denote: the
parts of the items, put together in order.  The last item may be of another
kind than the ones before it.
-/

namespace Zbaselib.Grammar

variable {α β : Type} {sep : α} {Item Last : List α → List β → Prop}

/-- Items that are followed by the separator, and a last one that is not. -/
inductive Separated (sep : α) (Item Last : List α → List β → Prop) : List α → List β → Prop
  | last {t : List α} {parts : List β} : Last t parts → Separated sep Item Last t parts
  | cons {t rest : List α} {parts parts' : List β} : Item t parts →
      Separated sep Item Last rest parts' →
      Separated sep Item Last (t ++ sep :: rest) (parts ++ parts')

variable {t u w s rest : List α} {parts : List β}

/-- A beginning without the separator ends before the first separator. -/
theorem prefix_of_append_cons (hw : sep ∉ w) (h : w ++ s = t ++ sep :: rest) :
    ∃ u, t = w ++ u ∧ s = u ++ sep :: rest := by
  rw [List.append_eq_append_iff] at h
  rcases h with ⟨u, ht, hs⟩ | ⟨u, hwu, hrest⟩
  · exact ⟨u, ht, hs⟩
  · cases u with
    | nil => exact ⟨[], by simpa using hwu.symm, by simpa using hrest.symm⟩
    | cons c u =>
      rw [List.cons_append, List.cons.injEq] at hrest
      rw [hwu, hrest.1] at hw
      exact absurd (List.mem_append_right t List.mem_cons_self) hw

theorem eq_of_append_cons (hw : sep ∉ w) (ht : sep ∉ t) (h : w ++ sep :: s = t ++ sep :: rest) :
    w = t ∧ s = rest := by
  obtain ⟨u, htu, hs⟩ := prefix_of_append_cons hw h
  cases u with
  | nil =>
    rw [List.nil_append, List.cons.injEq] at hs
    exact ⟨by rw [htu, List.append_nil], hs.2⟩
  | cons c u =>
    rw [List.cons_append, List.cons.injEq] at hs
    rw [htu, ← hs.1] at ht
    exact absurd (List.mem_append_right w List.mem_cons_self) ht

theorem Separated.mono {Last' : List α → List β → Prop} (h : Separated sep Item Last t parts)
    (hlast : ∀ t parts, Last t parts → Last' t parts) : Separated sep Item Last' t parts := by
  induction h with
  | last h => exact .last (hlast _ _ h)
  | cons hfirst _ ih => exact .cons hfirst ih

/-- Without a separator there is one item. -/
theorem separated_of_notMem (ht : sep ∉ t) : Separated sep Item Last t parts ↔ Last t parts := by
  constructor
  · intro h
    cases h with
    | last h => exact h
    | cons => exact absurd (List.mem_append_right _ List.mem_cons_self) ht
  · exact Separated.last

/-- What comes before the first separator is an item. -/
theorem separated_append_cons (hw : sep ∉ w) (hitem : ∀ t parts, Item t parts → sep ∉ t) :
    Separated sep Item Last (w ++ sep :: s) parts ↔
      Last (w ++ sep :: s) parts ∨ ∃ first others, Item w first ∧
        Separated sep Item Last s others ∧ parts = first ++ others := by
  constructor
  · intro h
    generalize htext : w ++ sep :: s = text at h
    cases h with
    | last h => exact Or.inl h
    | cons hfirst hrest =>
      obtain ⟨rfl, rfl⟩ := eq_of_append_cons hw (hitem _ _ hfirst) htext
      exact Or.inr ⟨_, _, hfirst, hrest, rfl⟩
  · rintro (h | ⟨first, others, hfirst, hothers, rfl⟩)
    · exact .last h
    · exact .cons hfirst hothers

/-- A beginning without the separator is the beginning of an item. -/
theorem Separated.first (h : Separated sep Item Last (w ++ s) parts) (hw : sep ∉ w) :
    Last (w ++ s) parts ∨ ∃ u first, Item (w ++ u) first := by
  generalize htext : w ++ s = text at h
  cases h with
  | last h => exact Or.inl h
  | cons hfirst hrest =>
    obtain ⟨u, rfl, -⟩ := prefix_of_append_cons hw htext
    exact Or.inr ⟨u, _, hfirst⟩

/-- What holds of the separator and in all items holds in the text. -/
theorem Separated.forall_mem {P : α → Prop} (h : Separated sep Item Last t parts) (hsep : P sep)
    (hitem : ∀ t parts, Item t parts → ∀ c ∈ t, P c)
    (hlast : ∀ t parts, Last t parts → ∀ c ∈ t, P c) : ∀ c ∈ t, P c := by
  induction h with
  | last h => exact hlast _ _ h
  | cons hfirst _ ih =>
    intro c hc
    rw [List.mem_append, List.mem_cons] at hc
    rcases hc with hc | rfl | hc
    · exact hitem _ _ hfirst c hc
    · exact hsep
    · exact ih c hc

/-- The length of the text is bounded as in the items; the last one may have a few more. -/
theorem Separated.length_le {a b k : ℕ} (h : Separated sep Item Last t parts)
    (hitem : ∀ t parts, Item t parts → a * (t.length + 1) ≤ b * parts.length)
    (hlast : ∀ t parts, Last t parts → a * (t.length + 1) ≤ b * parts.length + k) :
    a * (t.length + 1) ≤ b * parts.length + k := by
  induction h with
  | last h => exact hlast _ _ h
  | cons hfirst _ ih =>
    have hhead := hitem _ _ hfirst
    rw [List.length_append, List.length_append, List.length_cons, Nat.mul_add b]
    linarith

end Zbaselib.Grammar
