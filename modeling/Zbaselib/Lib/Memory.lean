import Zbaselib.Lib.Program

/-!
# A heap of records

Pointers are numbers and `NULL` is never the address of a record.  Every access
is checked: reading, writing or freeing a record that is not live is undefined
behaviour.  The address of a new record is an argument of `calloc`, so that
nothing is assumed about the allocator except that it hands out free addresses.
-/

namespace Zbaselib.Memory

open Program

abbrev Ptr := ℕ

abbrev NULL : Ptr := 0

/-- The live records, and how many there are. -/
structure Heap (α : Type) where
  cell : Ptr → Option α
  live : ℕ
  cell_null : cell NULL = none

/-- A heap together with the variables that point into it. -/
structure Mem (α ρ : Type) where
  heap : Heap α
  vars : ρ

variable {α ρ β : Type}

namespace Heap

def empty : Heap α where
  cell := fun _ ↦ none
  live := 0
  cell_null := rfl

/-- Change the record at `p`, if it is live. -/
def update (h : Heap α) (p : Ptr) (f : α → α) : Heap α where
  cell := fun q ↦ if q = p then (h.cell q).map f else h.cell q
  live := h.live
  cell_null := by simp [h.cell_null]

def insert (h : Heap α) (p : Ptr) (record : α) : Heap α where
  cell := fun q ↦ if q = p ∧ p ≠ NULL then some record else h.cell q
  live := h.live + 1
  cell_null := by
    rw [if_neg (by rintro ⟨h, hp⟩; exact hp h.symm), h.cell_null]

def erase (h : Heap α) (p : Ptr) : Heap α where
  cell := fun q ↦ if q = p then none else h.cell q
  live := h.live - 1
  cell_null := by simp [h.cell_null]

@[simp]
theorem cell_empty (p : Ptr) : (empty : Heap α).cell p = none := rfl

@[simp]
theorem cell_update_self (h : Heap α) (p : Ptr) (f : α → α) :
    (h.update p f).cell p = (h.cell p).map f := by
  simp [update]

theorem cell_update_of_ne (h : Heap α) {p q : Ptr} (f : α → α) (hne : q ≠ p) :
    (h.update p f).cell q = h.cell q := by
  simp [update, hne]

@[simp]
theorem isSome_cell_update (h : Heap α) (p q : Ptr) (f : α → α) :
    ((h.update p f).cell q).isSome = (h.cell q).isSome := by
  by_cases hq : q = p <;> simp [update, hq]

theorem cell_insert_self (h : Heap α) {p : Ptr} (record : α) (hp : p ≠ NULL) :
    (h.insert p record).cell p = some record := by
  simp [insert, hp]

theorem cell_insert_of_ne (h : Heap α) {p q : Ptr} (record : α) (hne : q ≠ p) :
    (h.insert p record).cell q = h.cell q := by
  simp [insert, hne]

@[simp]
theorem cell_erase_self (h : Heap α) (p : Ptr) : (h.erase p).cell p = none := by
  simp [erase]

theorem cell_erase_of_ne (h : Heap α) {p q : Ptr} (hne : q ≠ p) :
    (h.erase p).cell q = h.cell q := by
  simp [erase, hne]

theorem update_insert (h : Heap α) {p : Ptr} (record : α) (f : α → α) :
    (h.insert p record).update p f = h.insert p (f record) := by
  unfold update insert
  congr 1
  funext q
  by_cases hq : q = p
  · subst hq
    by_cases hnull : q = NULL <;> simp [hnull, h.cell_null]
  · simp [hq]

/-- A record that is freed again leaves no trace. -/
theorem erase_insert {h : Heap α} {p : Ptr} (record : α) (hp : h.cell p = none) :
    (h.insert p record).erase p = h := by
  have hcell : ((h.insert p record).erase p).cell = h.cell := by
    funext q
    by_cases hq : q = p
    · rw [hq, cell_erase_self, hp]
    · rw [cell_erase_of_ne _ hq, cell_insert_of_ne _ _ hq]
  cases h
  unfold erase insert at hcell ⊢
  congr 1

/-- Of two new records the first one is freed again. -/
theorem erase_insert_insert {h : Heap α} {p q : Ptr} (record record' : α) (hp : h.cell p = none)
    (hne : p ≠ q) : ((h.insert p record).insert q record').erase p = h.insert q record' := by
  have hcell : (((h.insert p record).insert q record').erase p).cell =
      (h.insert q record').cell := by
    funext r
    by_cases hr : r = p
    · rw [hr, cell_erase_self, cell_insert_of_ne _ _ hne, hp]
    · rw [cell_erase_of_ne _ hr]
      by_cases hrq : r = q
      · simp [insert, hrq, hne.symm]
      · rw [cell_insert_of_ne _ _ hrq, cell_insert_of_ne _ _ hr, cell_insert_of_ne _ _ hrq]
  unfold erase insert at hcell ⊢
  congr 1

@[simp]
theorem live_update (h : Heap α) (p : Ptr) (f : α → α) : (h.update p f).live = h.live := rfl

@[simp]
theorem live_insert (h : Heap α) (p : Ptr) (record : α) :
    (h.insert p record).live = h.live + 1 := rfl

@[simp]
theorem live_erase (h : Heap α) (p : Ptr) : (h.erase p).live = h.live - 1 := rfl

theorem ne_null_of_cell {h : Heap α} {p : Ptr} {record : α} (hp : h.cell p = some record) :
    p ≠ NULL := by
  rintro rfl
  rw [h.cell_null] at hp
  cases hp

/-- A field of the record at `p`, if there is a record. -/
def field (g : α → β) (h : Heap α) (p : Ptr) : Option β := (h.cell p).map g

theorem cell_of_field {g : α → β} {h : Heap α} {p : Ptr} {x : β} (hx : h.field g p = some x) :
    ∃ record, h.cell p = some record ∧ g record = x :=
  Option.map_eq_some_iff.1 hx

theorem field_update_of_eq {g : α → β} {f : α → α} (hf : ∀ record, g (f record) = g record)
    (h : Heap α) (p q : Ptr) : (h.update p f).field g q = h.field g q := by
  unfold field update
  dsimp only
  split
  · cases h.cell q <;> simp [hf]
  · rfl

theorem field_update_of_const {g : α → β} {f : α → α} {x : β} (hf : ∀ record, g (f record) = x)
    {h : Heap α} {p : Ptr} (hp : (h.cell p).isSome) (q : Ptr) :
    (h.update p f).field g q = if q = p then some x else h.field g q := by
  obtain ⟨record, hrecord⟩ := Option.isSome_iff_exists.1 hp
  unfold field update
  dsimp only
  split
  · next hq => simp [hq, hrecord, hf]
  · rfl

theorem field_erase_of_ne {g : α → β} (h : Heap α) {p q : Ptr} (hq : q ≠ p) :
    (h.erase p).field g q = h.field g q := by
  unfold field
  rw [cell_erase_of_ne h hq]

end Heap

/-! ## Commands -/

abbrev HeapCmd (α ρ : Type) := Cmd (Mem α ρ)

def load (p : Ptr) : HeapCmd α ρ α := do
  match (← get).heap.cell p with
  | some record => return record
  | none => failure

/-- Assign to fields of the record at `p`. -/
def update (p : Ptr) (f : α → α) : HeapCmd α ρ Unit := do
  let _ ← load p
  modify fun m ↦ { m with heap := m.heap.update p f }

/-- A new record at the address the allocator answered, `NULL` when it had no memory. -/
def calloc (p : Ptr) (record : α) : HeapCmd α ρ Ptr := do
  if p ≠ NULL then
    require ((← get).heap.cell p = none)
    modify fun m ↦ { m with heap := m.heap.insert p record }
  return p

def free (p : Ptr) : HeapCmd α ρ Unit := do
  if p ≠ NULL then
    let _ ← load p
    modify fun m ↦ { m with heap := m.heap.erase p }

def getVars : HeapCmd α ρ ρ := return (← get).vars

def modifyVars (f : ρ → ρ) : HeapCmd α ρ Unit := modify fun m ↦ { m with vars := f m.vars }

/-- A loop that visits no record twice needs at most as many iterations as records are live, and
two more to notice that it is done. -/
def heapLoop {γ : Type} (body : β → HeapCmd α ρ (β ⊕ γ)) (locals : β) : HeapCmd α ρ γ := do
  loop body ((← get).heap.live + 2) locals

@[simp]
theorem wp_load (p : Ptr) (post : α → Mem α ρ → Prop) (m : Mem α ρ) :
    wp (load p) post m ↔ ∃ record, m.heap.cell p = some record ∧ post record m := by
  cases h : m.heap.cell p <;> simp [load, h]

theorem leaves_load (p : Ptr) : Leaves (load p : HeapCmd α ρ α) := by
  unfold load
  refine Leaves.get.bind fun m ↦ ?_
  cases m.heap.cell p with
  | none => exact .failure
  | some record => exact .pure record

@[simp]
theorem wp_update (p : Ptr) (f : α → α) (post : Unit → Mem α ρ → Prop) (m : Mem α ρ) :
    wp (update p f) post m ↔
      (∃ record, m.heap.cell p = some record) ∧
        post () { m with heap := m.heap.update p f } := by
  simp [update]

@[simp]
theorem wp_calloc (p : Ptr) (record : α) (post : Ptr → Mem α ρ → Prop) (m : Mem α ρ) :
    wp (calloc p record) post m ↔
      if p = NULL then post NULL m
      else m.heap.cell p = none ∧ post p { m with heap := m.heap.insert p record } := by
  by_cases hp : p = NULL <;> simp [calloc, hp]

@[simp]
theorem wp_free (p : Ptr) (post : Unit → Mem α ρ → Prop) (m : Mem α ρ) :
    wp (free p) post m ↔
      if p = NULL then post () m
      else (∃ record, m.heap.cell p = some record) ∧
        post () { m with heap := m.heap.erase p } := by
  by_cases hp : p = NULL <;> simp [free, hp]

@[simp]
theorem wp_getVars (post : ρ → Mem α ρ → Prop) (m : Mem α ρ) :
    wp getVars post m ↔ post m.vars m := by
  simp [getVars]

@[simp]
theorem wp_modifyVars (f : ρ → ρ) (post : Unit → Mem α ρ → Prop) (m : Mem α ρ) :
    wp (modifyVars f) post m ↔ post () { m with vars := f m.vars } := by
  simp [modifyVars]

theorem wp_heapLoop {γ : Type} {body : β → HeapCmd α ρ (β ⊕ γ)} {post : γ → Mem α ρ → Prop}
    (inv : ℕ → β → Mem α ρ → Prop)
    (hbody : ∀ measure locals m, inv measure locals m →
      wp (body locals) (LoopPost inv post measure) m)
    {n : ℕ} {locals : β} {m : Mem α ρ} (hinv : inv n locals m)
    (hmeasure : n < m.heap.live + 2) : wp (heapLoop body locals) post m := by
  simpa [heapLoop] using wp_loop inv hbody hinv hmeasure

end Zbaselib.Memory
