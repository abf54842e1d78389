import Zbaselib.Rbtree.Push

/-!
# The order of the comparator

A comparator that is a total preorder keeps the in-order sequence sorted, and
the new key goes behind its equals.
-/

namespace Zbaselib.Rbtree

open Program Memory RedBlack

/-- `a` is not larger than `b`. -/
def Le (cmp : CompareFunc) (a b : Ptr) : Prop := ∃ result, cmp a b = some result ∧ result ≤ 0

/-- `a` is smaller than `b`. -/
def Lt (cmp : CompareFunc) (a b : Ptr) : Prop := ∃ result, cmp a b = some result ∧ result < 0

def Equiv (cmp : CompareFunc) (a b : Ptr) : Prop := cmp a b = some 0

instance (cmp : CompareFunc) (a b : Ptr) : Decidable (Equiv cmp a b) :=
  inferInstanceAs (Decidable (cmp a b = some 0))

/-- The comparator is a total preorder on the given keys, as far as its signs tell. -/
structure TotalPreorder (cmp : CompareFunc) (isKey : Ptr → Prop) : Prop where
  defined {a b : Ptr} : isKey a → isKey b → (cmp a b).isSome
  swap {a b : Ptr} : isKey a → isKey b → (Lt cmp a b ↔ ¬Le cmp b a)
  trans {a b c : Ptr} : isKey a → isKey b → isKey c → Le cmp a b → Le cmp b c → Le cmp a c

def Sorted (cmp : CompareFunc) (l : List Entry) : Prop := l.Pairwise fun a b ↦ Le cmp a.key b.key

variable {cmp : CompareFunc} {isKey : Ptr → Prop} {a b c : Ptr}

theorem Lt.le (h : Lt cmp a b) : Le cmp a b := by
  obtain ⟨result, hresult, hlt⟩ := h
  exact ⟨result, hresult, by omega⟩

theorem lt_of_not_le (h : TotalPreorder cmp isKey) (ha : isKey a) (hb : isKey b)
    (hab : ¬Le cmp a b) : Lt cmp b a := (h.swap hb ha).2 hab

theorem le_of_not_lt (h : TotalPreorder cmp isKey) (ha : isKey a) (hb : isKey b)
    (hab : ¬Lt cmp a b) : Le cmp b a := by
  by_contra hle
  exact hab (lt_of_not_le h hb ha hle)

theorem lt_of_le_of_lt (h : TotalPreorder cmp isKey) (ha : isKey a) (hb : isKey b) (hc : isKey c)
    (hab : Le cmp a b) (hbc : Lt cmp b c) : Lt cmp a c :=
  (h.swap ha hc).2 fun hca ↦ (h.swap hb hc).1 hbc (h.trans hc ha hb hca hab)

theorem lt_of_lt_of_le (h : TotalPreorder cmp isKey) (ha : isKey a) (hb : isKey b) (hc : isKey c)
    (hab : Lt cmp a b) (hbc : Le cmp b c) : Lt cmp a c :=
  (h.swap ha hc).2 fun hca ↦ (h.swap ha hb).1 hab (h.trans hb hc ha hbc hca)

theorem equiv_iff (h : TotalPreorder cmp isKey) (ha : isKey a) (hb : isKey b) :
    Equiv cmp a b ↔ Le cmp a b ∧ Le cmp b a := by
  obtain ⟨result, hresult⟩ := Option.isSome_iff_exists.1 (h.defined ha hb)
  have hlt : Le cmp b a ↔ ¬Lt cmp a b := by rw [h.swap ha hb, not_not]
  rw [hlt]
  simp only [Equiv, Le, Lt, hresult, Option.some.injEq, exists_eq_left']
  omega

theorem not_equiv_of_lt (h : TotalPreorder cmp isKey) (ha : isKey a) (hb : isKey b) (hc : isKey c)
    (hab : Le cmp a b) (hbc : Lt cmp b c) : ¬Equiv cmp a c := fun hac ↦
  (h.swap ha hc).1 (lt_of_le_of_lt h ha hb hc hab hbc) ((equiv_iff h ha hc).1 hac).2

theorem not_equiv_of_gt (h : TotalPreorder cmp isKey) (ha : isKey a) (hb : isKey b) (hc : isKey c)
    (hab : Lt cmp a b) (hbc : Le cmp b c) : ¬Equiv cmp c a := fun hca ↦
  (h.swap ha hc).1 (lt_of_lt_of_le h ha hb hc hab hbc) ((equiv_iff h hc ha).1 hca).1

theorem goLeft_iff (h : TotalPreorder cmp isKey) {e : Entry} (ha : isKey a) (he : isKey e.key) :
    goLeft cmp a e = true ↔ Lt cmp a e.key := by
  obtain ⟨result, hresult⟩ := Option.isSome_iff_exists.1 (h.defined ha he)
  simp [goLeft, Lt, hresult]

/-- Once the descent goes left of an element it goes left of everything behind it. -/
theorem goLeft_mono (h : TotalPreorder cmp isKey) {l : List Entry} (ha : isKey a)
    (hkeys : ∀ e ∈ l, isKey e.key) (hl : Sorted cmp l) :
    l.Pairwise fun e e' ↦ goLeft cmp a e → goLeft cmp a e' := by
  refine hl.imp_of_mem fun he he' hle hleft ↦ ?_
  rw [goLeft_iff h ha (hkeys _ he)] at hleft
  rw [goLeft_iff h ha (hkeys _ he')]
  exact lt_of_lt_of_le h ha (hkeys _ he) (hkeys _ he') hleft hle

/-- Inserting a key behind its equals keeps the sequence sorted. -/
theorem Sorted.insert {before after : List Entry} {e : Entry}
    (hl : Sorted cmp (before ++ after)) (hbefore : ∀ e' ∈ before, Le cmp e'.key e.key)
    (hafter : ∀ e' ∈ after, Lt cmp e.key e'.key) : Sorted cmp (before ++ e :: after) := by
  rw [Sorted, List.pairwise_append] at hl
  refine List.pairwise_append.2 ⟨hl.1, List.pairwise_cons.2 ⟨fun e' h' ↦ (hafter e' h').le, hl.2.1⟩,
    fun e' he' e'' he'' ↦ ?_⟩
  rcases List.mem_cons.1 he'' with rfl | he''
  · exact hbefore e' he'
  · exact hl.2.2 e' he' e'' he''

end Zbaselib.Rbtree
