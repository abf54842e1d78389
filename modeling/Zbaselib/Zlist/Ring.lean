import Zbaselib.Zlist.Model

/-!
# The nodes of a list form a ring

An entry is a node with its data.  The links of a ring are the pairs of
neighbours, from the sentinel through the entries back to the sentinel.  An
operation works between two neighbours, and every other link stays as it is.
-/

namespace Zbaselib.Zlist

open Program Memory

/-- The pairs of neighbours from `u` through the nodes to `v`. -/
def links (u : Ptr) : List Ptr → Ptr → List (Ptr × Ptr)
  | [], v => [(u, v)]
  | p :: rest, v => (u, p) :: links p rest v

/-- The links up to the last of `u` and the nodes. -/
def linksBefore (u : Ptr) : List Ptr → List (Ptr × Ptr)
  | [] => []
  | p :: rest => (u, p) :: linksBefore p rest

/-- The links from the first of the nodes on. -/
def linksAfter (v : Ptr) : List Ptr → List (Ptr × Ptr)
  | [] => []
  | p :: rest => links p rest v

def lastOf (u : Ptr) : List Ptr → Ptr
  | [] => u
  | p :: rest => lastOf p rest

def firstOf (v : Ptr) : List Ptr → Ptr
  | [] => v
  | p :: _ => p

theorem links_eq (u v : Ptr) (ys : List Ptr) :
    links u ys v = (u, firstOf v ys) :: linksAfter v ys := by
  cases ys <;> rfl

/-- **Every place between two neighbours splits the links.** -/
theorem links_append (u v : Ptr) (xs ys : List Ptr) :
    links u (xs ++ ys) v =
      linksBefore u xs ++ (lastOf u xs, firstOf v ys) :: linksAfter v ys := by
  induction xs generalizing u with
  | nil => exact links_eq u v ys
  | cons p xs ih => exact congrArg _ (ih p)

theorem lastOf_mem (u : Ptr) (xs : List Ptr) : lastOf u xs ∈ u :: xs := by
  induction xs generalizing u with
  | nil => exact List.mem_cons_self
  | cons p xs ih => exact List.mem_cons_of_mem _ (ih p)

theorem firstOf_mem (v : Ptr) (ys : List Ptr) : firstOf v ys ∈ v :: ys := by
  cases ys with
  | nil => exact List.mem_cons_self
  | cons p ys => exact List.mem_cons_of_mem _ List.mem_cons_self

theorem lastOf_concat (u p : Ptr) (xs : List Ptr) : lastOf u (xs ++ [p]) = p := by
  induction xs generalizing u with
  | nil => rfl
  | cons q xs ih => exact ih q

/-- Before the place no link starts at its left end. -/
theorem mem_linksBefore {u a b : Ptr} {xs : List Ptr} (hnodup : (u :: xs).Nodup)
    (h : (a, b) ∈ linksBefore u xs) : a ∈ u :: xs ∧ a ≠ lastOf u xs ∧ b ∈ xs := by
  induction xs generalizing u with
  | nil => cases h
  | cons p xs ih =>
    obtain ⟨hu, hrest⟩ := List.nodup_cons.1 hnodup
    obtain h | h := List.mem_cons.1 h
    · cases h
      refine ⟨List.mem_cons_self, fun heq ↦ ?_, List.mem_cons_self⟩
      have hlast := lastOf_mem b xs
      rw [show lastOf b xs = a from heq.symm] at hlast
      exact hu hlast
    · obtain ⟨ha, hne, hb⟩ := ih hrest h
      exact ⟨List.mem_cons_of_mem _ ha, hne, List.mem_cons_of_mem _ hb⟩

theorem mem_links {u v a b : Ptr} {xs : List Ptr} (h : (a, b) ∈ links u xs v) :
    a ∈ u :: xs ∧ b ∈ v :: xs := by
  induction xs generalizing u with
  | nil =>
    cases List.mem_singleton.1 h
    exact ⟨List.mem_cons_self, List.mem_cons_self⟩
  | cons p xs ih =>
    obtain h | h := List.mem_cons.1 h
    · cases h
      exact ⟨List.mem_cons_self, List.mem_cons_of_mem _ List.mem_cons_self⟩
    · obtain ⟨ha, hb⟩ := ih h
      refine ⟨List.mem_cons_of_mem _ ha, ?_⟩
      obtain rfl | hb := List.mem_cons.1 hb
      · exact List.mem_cons_self
      · exact List.mem_cons_of_mem _ (List.mem_cons_of_mem _ hb)

/-- After the place no link ends at its right end. -/
theorem mem_linksAfter {v a b : Ptr} {ys : List Ptr} (hnodup : (v :: ys).Nodup)
    (h : (a, b) ∈ linksAfter v ys) : a ∈ ys ∧ b ∈ v :: ys ∧ b ≠ firstOf v ys := by
  cases ys with
  | nil => cases h
  | cons p ys =>
    obtain ⟨ha, hb⟩ := mem_links h
    obtain ⟨hv, hrest⟩ := List.nodup_cons.1 hnodup
    refine ⟨ha, ?_, ?_⟩
    · obtain rfl | hb := List.mem_cons.1 hb
      · exact List.mem_cons_self
      · exact List.mem_cons_of_mem _ (List.mem_cons_of_mem _ hb)
    · rintro rfl
      obtain rfl | hb := List.mem_cons.1 hb
      · exact hv List.mem_cons_self
      · exact (List.nodup_cons.1 hrest).1 hb

/-! ## Rings in the heap -/

abbrev addrs (entries : List (Ptr × Ptr)) : List Ptr := entries.map Prod.fst

abbrev nextOf (h : Heap Node) (p : Ptr) : Option Ptr := h.field Node.next p

abbrev prevOf (h : Heap Node) (p : Ptr) : Option Ptr := h.field Node.prev p

abbrev dataOf (h : Heap Node) (p : Ptr) : Option Ptr := h.field Node.data p

section

variable (h : Heap Node) (p x q : Ptr)

theorem nextOf_setPrev : nextOf (h.update p fun n ↦ { n with prev := x }) q = nextOf h q :=
  Heap.field_update_of_eq (fun _ ↦ by rfl) h p q

theorem nextOf_setData : nextOf (h.update p fun n ↦ { n with data := x }) q = nextOf h q :=
  Heap.field_update_of_eq (fun _ ↦ by rfl) h p q

theorem prevOf_setNext : prevOf (h.update p fun n ↦ { n with next := x }) q = prevOf h q :=
  Heap.field_update_of_eq (fun _ ↦ by rfl) h p q

theorem prevOf_setData : prevOf (h.update p fun n ↦ { n with data := x }) q = prevOf h q :=
  Heap.field_update_of_eq (fun _ ↦ by rfl) h p q

theorem dataOf_setNext : dataOf (h.update p fun n ↦ { n with next := x }) q = dataOf h q :=
  Heap.field_update_of_eq (fun _ ↦ by rfl) h p q

theorem dataOf_setPrev : dataOf (h.update p fun n ↦ { n with prev := x }) q = dataOf h q :=
  Heap.field_update_of_eq (fun _ ↦ by rfl) h p q

variable {h p} (hp : (h.cell p).isSome)

include hp

theorem nextOf_setNext : nextOf (h.update p fun n ↦ { n with next := x }) q =
    if q = p then some x else nextOf h q :=
  Heap.field_update_of_const (fun _ ↦ by rfl) hp q

theorem prevOf_setPrev : prevOf (h.update p fun n ↦ { n with prev := x }) q =
    if q = p then some x else prevOf h q :=
  Heap.field_update_of_const (fun _ ↦ by rfl) hp q

theorem dataOf_setData : dataOf (h.update p fun n ↦ { n with data := x }) q =
    if q = p then some x else dataOf h q :=
  Heap.field_update_of_const (fun _ ↦ by rfl) hp q

end

/-- The heap holds exactly the sentinel and the entries, linked in both directions. -/
structure Ring (h : Heap Node) (head : Ptr) (entries : List (Ptr × Ptr)) : Prop where
  linked : ∀ a b, (a, b) ∈ links head (addrs entries) head →
    nextOf h a = some b ∧ prevOf h b = some a
  held : ∀ p d, (p, d) ∈ entries → dataOf h p = some d
  sentinel : dataOf h head = some NULL
  nodup : (head :: addrs entries).Nodup
  live : h.live = entries.length + 1

section

variable {h h' : Heap Node} {head p d : Ptr} {xs ys entries : List (Ptr × Ptr)}

theorem addrs_append : addrs (xs ++ ys) = addrs xs ++ addrs ys := List.map_append

/-- The neighbours at a place of the ring. -/
theorem Ring.neighbours (hring : Ring h head (xs ++ ys)) :
    nextOf h (lastOf head (addrs xs)) = some (firstOf head (addrs ys)) ∧
      prevOf h (firstOf head (addrs ys)) = some (lastOf head (addrs xs)) := by
  apply hring.linked
  rw [addrs_append, links_append]
  exact List.mem_append_right _ List.mem_cons_self

theorem Ring.isSome (hring : Ring h head entries) (hp : p ∈ head :: addrs entries) :
    (h.cell p).isSome := by
  obtain rfl | hp := List.mem_cons.1 hp
  · obtain ⟨n, hn, -⟩ := Heap.cell_of_field hring.sentinel
    simp [hn]
  · obtain ⟨⟨q, d⟩, he, rfl⟩ := List.mem_map.1 hp
    obtain ⟨n, hn, -⟩ := Heap.cell_of_field (hring.held q d he)
    simp [hn]

theorem Ring.ne_null (hring : Ring h head entries) (hp : p ∈ head :: addrs entries) :
    p ≠ NULL := by
  obtain ⟨n, hn⟩ := Option.isSome_iff_exists.1 (hring.isSome hp)
  exact Heap.ne_null_of_cell hn

/-- The node at a place: its neighbours are those of the place. -/
theorem Ring.node (hring : Ring h head (xs ++ (p, d) :: ys)) :
    h.cell p = some ⟨lastOf head (addrs xs), firstOf head (addrs ys), d⟩ := by
  have hprev := hring.neighbours.2
  rw [List.append_cons] at hring
  have hnext := hring.neighbours.1
  rw [addrs_append, show addrs [(p, d)] = [p] from rfl, lastOf_concat] at hnext
  have hdata := hring.held p d (by simp)
  obtain ⟨n, hn, rfl⟩ := Heap.cell_of_field hdata
  have hnext' : (h.cell p).map Node.next = some _ := hnext
  have hprev' : (h.cell p).map Node.prev = some _ := hprev
  rw [hn, Option.map_some, Option.some_inj] at hnext' hprev'
  rw [hn, ← hnext', ← hprev']

/-- The sentinel's neighbours are the last and the first entry. -/
theorem Ring.sentinel_cell (hring : Ring h head entries) :
    h.cell head = some ⟨lastOf head (addrs entries), firstOf head (addrs entries), NULL⟩ := by
  have hfirst : Ring h head ([] ++ entries) := hring
  have hlast : Ring h head (entries ++ []) := by rwa [List.append_nil]
  have hnext : (h.cell head).map Node.next = some _ := hfirst.neighbours.1
  have hprev : (h.cell head).map Node.prev = some _ := hlast.neighbours.2
  obtain ⟨n, hn, hdata⟩ := Heap.cell_of_field hring.sentinel
  rw [hn, Option.map_some, Option.some_inj] at hnext hprev
  rw [hn, ← hnext, ← hprev, ← hdata]

/-- The links away from a place do not touch its two ends. -/
theorem mem_rest {a b : Ptr} {xs ys : List Ptr} (hnodup : (head :: (xs ++ ys)).Nodup)
    (h : (a, b) ∈ linksBefore head xs ++ linksAfter head ys) :
    a ∈ head :: (xs ++ ys) ∧ b ∈ head :: (xs ++ ys) ∧ a ≠ lastOf head xs ∧
      b ≠ firstOf head ys := by
  have hperm := hnodup
  rw [List.nodup_cons, List.nodup_append, List.mem_append] at hperm
  obtain ⟨hhead, hxs, hys, hdisjoint⟩ := hperm
  have hheadxs : (head :: xs).Nodup := List.nodup_cons.2 ⟨fun hmem ↦ hhead (Or.inl hmem), hxs⟩
  have hheadys : (head :: ys).Nodup := List.nodup_cons.2 ⟨fun hmem ↦ hhead (Or.inr hmem), hys⟩
  obtain h | h := List.mem_append.1 h
  · obtain ⟨ha, hlast, hb⟩ := mem_linksBefore hheadxs h
    refine ⟨?_, by simp [hb], hlast, ?_⟩
    · obtain rfl | ha := List.mem_cons.1 ha
      · exact List.mem_cons_self
      · simp [ha]
    · rintro rfl
      obtain hfirst | hfirst := List.mem_cons.1 (firstOf_mem head ys)
      · rw [hfirst] at hb
        exact hhead (Or.inl hb)
      · exact hdisjoint _ hb _ hfirst rfl
  · obtain ⟨ha, hb, hfirst⟩ := mem_linksAfter hheadys h
    refine ⟨by simp [ha], ?_, ?_, hfirst⟩
    · obtain rfl | hb := List.mem_cons.1 hb
      · exact List.mem_cons_self
      · simp [hb]
    · rintro rfl
      obtain hlast | hlast := List.mem_cons.1 (lastOf_mem head xs)
      · rw [hlast] at ha
        exact hhead (Or.inr ha)
      · exact hdisjoint _ hlast _ ha rfl

theorem lastOf_mem_place : lastOf head (addrs xs) ∈ head :: addrs (xs ++ ys) := by
  rw [addrs_append]
  obtain hmem | hmem := List.mem_cons.1 (lastOf_mem head (addrs xs))
  · rw [hmem]
    exact List.mem_cons_self
  · exact List.mem_cons_of_mem _ (List.mem_append_left _ hmem)

theorem firstOf_mem_place : firstOf head (addrs ys) ∈ head :: addrs (xs ++ ys) := by
  rw [addrs_append]
  obtain hmem | hmem := List.mem_cons.1 (firstOf_mem head (addrs ys))
  · rw [hmem]
    exact List.mem_cons_self
  · exact List.mem_cons_of_mem _ (List.mem_append_right _ hmem)

theorem perm_place :
    (head :: addrs (xs ++ (p, d) :: ys)).Perm (p :: head :: addrs (xs ++ ys)) := by
  rw [addrs_append, addrs_append]
  exact (List.perm_middle.cons head).trans (List.Perm.swap _ _ _)

/-- A new node comes into a place. -/
theorem Ring.insert (hring : Ring h head (xs ++ ys)) {prev next : Ptr}
    (hprev : prev = lastOf head (addrs xs)) (hnext : next = firstOf head (addrs ys))
    (hfresh : p ∉ head :: addrs (xs ++ ys)) (hdata : dataOf h' p = some d)
    (hlive : h'.live = h.live + 1)
    (hnext' : ∀ q, nextOf h' q =
      if q = p then some next else if q = prev then some p else nextOf h q)
    (hprev' : ∀ q, prevOf h' q =
      if q = next then some p else if q = p then some prev else prevOf h q)
    (hkept : ∀ q, q ≠ p → dataOf h' q = dataOf h q) : Ring h' head (xs ++ (p, d) :: ys) := by
  have hne (q : Ptr) (hq : q ∈ head :: addrs (xs ++ ys)) : q ≠ p := fun heq ↦ hfresh (heq ▸ hq)
  have hlast : prev ∈ head :: addrs (xs ++ ys) := hprev ▸ lastOf_mem_place
  have hfirst : next ∈ head :: addrs (xs ++ ys) := hnext ▸ firstOf_mem_place
  refine ⟨fun a b hab ↦ ?_, fun q e hq ↦ ?_, ?_, ?_, ?_⟩
  · rw [addrs_append, show addrs ((p, d) :: ys) = p :: addrs ys from rfl, links_append,
      show linksAfter head (p :: addrs ys) = links p (addrs ys) head from rfl, links_eq,
      ← hprev, ← hnext] at hab
    have hcases : (a, b) ∈ linksBefore head (addrs xs) ++ linksAfter head (addrs ys) ∨
        (a = prev ∧ b = p) ∨ (a = p ∧ b = next) := by
      simp only [firstOf, List.mem_append, List.mem_cons, Prod.mk.injEq] at hab ⊢
      tauto
    obtain hrest | ⟨rfl, rfl⟩ | ⟨rfl, rfl⟩ := hcases
    · have hold : (a, b) ∈ links head (addrs (xs ++ ys)) head := by
        rw [addrs_append, links_append]
        simp only [List.mem_append, List.mem_cons] at hrest ⊢
        tauto
      obtain ⟨ha, hb, hla, hfb⟩ := mem_rest (addrs_append ▸ hring.nodup) hrest
      rw [← addrs_append] at ha hb
      rw [hnext', if_neg (hne a ha), if_neg (hprev ▸ hla), hprev', if_neg (hnext ▸ hfb),
        if_neg (hne b hb)]
      exact hring.linked a b hold
    · rw [hnext', if_neg (hne a hlast), if_pos rfl, hprev', if_neg (hne next hfirst).symm,
        if_pos rfl]
      exact ⟨rfl, rfl⟩
    · rw [hnext', if_pos rfl, hprev', if_pos rfl]
      exact ⟨rfl, rfl⟩
  · obtain hold | hnew : (q, e) ∈ xs ++ ys ∨ (q, e) = (p, d) := by
      simp only [List.mem_append, List.mem_cons] at hq ⊢
      tauto
    · rw [hkept q (hne q (List.mem_cons_of_mem _ (List.mem_map_of_mem hold)))]
      exact hring.held q e hold
    · cases hnew
      exact hdata
  · rw [hkept head (hne head List.mem_cons_self)]
    exact hring.sentinel
  · exact perm_place.nodup_iff.2 (List.nodup_cons.2 ⟨hfresh, hring.nodup⟩)
  · rw [hlive, hring.live, List.length_append, List.length_append, List.length_cons]
    omega

/-- An entry leaves the ring. -/
theorem Ring.delete (hring : Ring h head (xs ++ (p, d) :: ys)) {prev next : Ptr}
    (hprev : prev = lastOf head (addrs xs)) (hnext : next = firstOf head (addrs ys))
    (hlive : h'.live + 1 = h.live)
    (hnext' : ∀ q, q ≠ p → nextOf h' q = if q = prev then some next else nextOf h q)
    (hprev' : ∀ q, q ≠ p → prevOf h' q = if q = next then some prev else prevOf h q)
    (hkept : ∀ q, q ≠ p → dataOf h' q = dataOf h q) : Ring h' head (xs ++ ys) := by
  obtain ⟨hfresh, hnodup⟩ := List.nodup_cons.1 (perm_place.nodup_iff.1 hring.nodup)
  have hne (q : Ptr) (hq : q ∈ head :: addrs (xs ++ ys)) : q ≠ p := fun heq ↦ hfresh (heq ▸ hq)
  have hlast : prev ∈ head :: addrs (xs ++ ys) := hprev ▸ lastOf_mem_place
  have hfirst : next ∈ head :: addrs (xs ++ ys) := hnext ▸ firstOf_mem_place
  refine ⟨fun a b hab ↦ ?_, fun q e hq ↦ ?_, ?_, hnodup, ?_⟩
  · rw [addrs_append, links_append, ← hprev, ← hnext] at hab
    have hcases : (a, b) ∈ linksBefore head (addrs xs) ++ linksAfter head (addrs ys) ∨
        (a = prev ∧ b = next) := by
      simp only [List.mem_append, List.mem_cons, Prod.mk.injEq] at hab ⊢
      tauto
    obtain hrest | ⟨rfl, rfl⟩ := hcases
    · have hold : (a, b) ∈ links head (addrs (xs ++ (p, d) :: ys)) head := by
        rw [addrs_append, show addrs ((p, d) :: ys) = p :: addrs ys from rfl, links_append,
          show linksAfter head (p :: addrs ys) = links p (addrs ys) head from rfl, links_eq]
        simp only [List.mem_append, List.mem_cons] at hrest ⊢
        tauto
      obtain ⟨ha, hb, hla, hfb⟩ := mem_rest (addrs_append ▸ hnodup) hrest
      rw [← addrs_append] at ha hb
      rw [hnext' a (hne a ha), if_neg (hprev ▸ hla), hprev' b (hne b hb), if_neg (hnext ▸ hfb)]
      exact hring.linked a b hold
    · rw [hnext' a (hne a hlast), if_pos rfl, hprev' b (hne b hfirst), if_pos rfl]
      exact ⟨rfl, rfl⟩
  · have hold : (q, e) ∈ xs ++ (p, d) :: ys := by
      simp only [List.mem_append, List.mem_cons] at hq ⊢
      tauto
    rw [hkept q (hne q (List.mem_cons_of_mem _ (List.mem_map_of_mem hq)))]
    exact hring.held q e hold
  · rw [hkept head (hne head List.mem_cons_self)]
    exact hring.sentinel
  · have hlength := hring.live
    rw [List.length_append, List.length_cons] at hlength
    rw [List.length_append]
    omega

/-- An entry gets other data. -/
theorem Ring.replace (hring : Ring h head (xs ++ (p, d) :: ys)) {d' : Ptr}
    (hlive : h'.live = h.live) (hnext : ∀ q, nextOf h' q = nextOf h q)
    (hprev : ∀ q, prevOf h' q = prevOf h q)
    (hdata : ∀ q, dataOf h' q = if q = p then some d' else dataOf h q) :
    Ring h' head (xs ++ (p, d') :: ys) := by
  have haddrs : addrs (xs ++ (p, d') :: ys) = addrs (xs ++ (p, d) :: ys) := by
    simp only [addrs, List.map_append, List.map_cons]
  obtain ⟨hfresh, -⟩ := List.nodup_cons.1 (perm_place.nodup_iff.1 hring.nodup)
  have hne (q : Ptr) (hq : q ∈ head :: addrs (xs ++ ys)) : q ≠ p := fun heq ↦ hfresh (heq ▸ hq)
  refine ⟨fun a b hab ↦ ?_, fun q e hq ↦ ?_, ?_, ?_, ?_⟩
  · rw [haddrs] at hab
    rw [hnext, hprev]
    exact hring.linked a b hab
  · rw [hdata]
    obtain hold | hnew : (q, e) ∈ xs ++ ys ∨ (q, e) = (p, d') := by
      simp only [List.mem_append, List.mem_cons] at hq ⊢
      tauto
    · rw [if_neg (hne q (List.mem_cons_of_mem _ (List.mem_map_of_mem hold)))]
      refine hring.held q e ?_
      simp only [List.mem_append, List.mem_cons] at hold ⊢
      tauto
    · cases hnew
      rw [if_pos rfl]
  · rw [hdata, if_neg (hne head List.mem_cons_self)]
    exact hring.sentinel
  · rw [haddrs]
    exact hring.nodup
  · rw [hlive, hring.live, List.length_append, List.length_append, List.length_cons,
      List.length_cons]

end

end Zbaselib.Zlist
