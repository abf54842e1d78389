import Zbaselib.Zlist.Ring
import Zbaselib.Zlist.Spec

/-!
# What the list operations do to the ring

One rule for each helper of the source.  A rule says which ring the heap holds
afterwards and which calls of the destroy function were made; the operations
are compositions of these.
-/

namespace Zbaselib.Zlist

open Program Memory

section

variable {m : Mem Node Vars} {h : Heap Node} {head ddfunc addr data p d : Ptr} {thiz : Handle}
  {xs ys entries : List (Ptr × Ptr)}

/-! ## Nodes -/

/-- A heap with one more node, which is linked to nothing. -/
structure Created (h h₁ : Heap Node) (addr data : Ptr) : Prop where
  cell : h₁.cell addr = some ⟨NULL, NULL, data⟩
  others : ∀ q, q ≠ addr → h₁.cell q = h.cell q
  live : h₁.live = h.live + 1
  ne_null : addr ≠ NULL
  free : h.cell addr = none

theorem wp_createNode (haddr : addr ≠ NULL) (hfree : m.heap.cell addr = none)
    {post : Ptr → Mem Node Vars → Prop}
    (hpost : ∀ h₁, Created m.heap h₁ addr data → post addr { m with heap := h₁ }) :
    wp (createNode addr data) post m := by
  unfold createNode
  simp only [wp_bind, wp_calloc, if_neg haddr, wp_update, wp_pure]
  refine ⟨hfree, ⟨_, Heap.cell_insert_self _ _ haddr⟩,
    hpost _ ⟨?_, fun q hq ↦ ?_, rfl, haddr, hfree⟩⟩
  · rw [Heap.cell_update_self, Heap.cell_insert_self _ _ haddr]
    rfl
  · rw [Heap.cell_update_of_ne _ _ hq, Heap.cell_insert_of_ne _ _ hq]

/-- The allocator's answer is used without a test. -/
theorem fresh_of_wp_createNode {post : Ptr → Mem Node Vars → Prop}
    (h : wp (createNode addr data) post m) : addr ≠ NULL ∧ m.heap.cell addr = none := by
  unfold createNode at h
  simp only [wp_bind, wp_calloc] at h
  split at h
  · simp only [wp_update] at h
    obtain ⟨⟨record, hrecord⟩, -⟩ := h
    exact absurd rfl (Heap.ne_null_of_cell hrecord)
  · next haddr => exact ⟨haddr, h.1⟩

/-- The new node comes between two neighbours. -/
theorem wp_addNode (hring : Ring h head (xs ++ ys)) (hcreated : Created h m.heap addr data)
    {prev next : Ptr} (hprev : prev = lastOf head (addrs xs))
    (hnext : next = firstOf head (addrs ys)) {post : Unit → Mem Node Vars → Prop}
    (hpost : ∀ h', Ring h' head (xs ++ (addr, data) :: ys) → post () { m with heap := h' }) :
    wp (addNode addr prev next) post m := by
  obtain ⟨hcell, hothers, hlive, haddr, hfree⟩ := hcreated
  have hfresh : addr ∉ head :: addrs (xs ++ ys) := by
    intro hmem
    have hsome := hring.isSome hmem
    rw [hfree] at hsome
    cases hsome
  have hprevMem : prev ∈ head :: addrs (xs ++ ys) := hprev ▸ lastOf_mem_place
  have hnextMem : next ∈ head :: addrs (xs ++ ys) := hnext ▸ firstOf_mem_place
  have hprevNe : prev ≠ addr := fun heq ↦ hfresh (heq ▸ hprevMem)
  have hnextNe : next ≠ addr := fun heq ↦ hfresh (heq ▸ hnextMem)
  have hprevSome : (m.heap.cell prev).isSome := by
    rw [hothers prev hprevNe]
    exact hring.isSome hprevMem
  have hnextSome : (m.heap.cell next).isSome := by
    rw [hothers next hnextNe]
    exact hring.isSome hnextMem
  have hnull : ¬(addr = NULL ∨ prev = NULL ∨ next = NULL) := by
    simp only [haddr, hring.ne_null hprevMem, hring.ne_null hnextMem, or_self, not_false_eq_true]
  unfold addNode
  rw [wp_ite, if_neg hnull]
  simp only [wp_bind, wp_update, ← Option.isSome_iff_exists, Heap.isSome_cell_update]
  have haddrSome : (m.heap.cell addr).isSome := by
    rw [hcell]
    rfl
  refine ⟨hprevSome, haddrSome, haddrSome, hnextSome,
    hpost _ (hring.insert hprev hnext hfresh ?_ hlive (fun q ↦ ?_) (fun q ↦ ?_) fun q hq ↦ ?_)⟩
  · simp only [dataOf_setNext, dataOf_setPrev]
    rw [dataOf, Heap.field, hcell]
    rfl
  · rw [nextOf_setPrev, nextOf_setNext _ _ (by simpa using haddrSome), nextOf_setPrev,
      nextOf_setNext _ _ hprevSome]
    split
    · rfl
    · next hq => rw [nextOf, Heap.field, hothers q hq, nextOf, Heap.field]
  · rw [prevOf_setPrev _ _ (by simpa using hnextSome), prevOf_setNext,
      prevOf_setPrev _ _ (by simpa using haddrSome), prevOf_setNext]
    split
    · rfl
    · split
      · rfl
      · next hq => rw [prevOf, Heap.field, hothers q hq, prevOf, Heap.field]
  · simp only [dataOf_setNext, dataOf_setPrev]
    rw [dataOf, Heap.field, hothers q hq, dataOf, Heap.field]

/-- The call of the destroy function for one datum, if there is one. -/
def released (ddfunc data : Ptr) : List (Ptr × Ptr) :=
  if data ≠ NULL ∧ ddfunc ≠ NULL then [(ddfunc, data)] else []

/-- `destroyNode` with the call of the destroy function left open. -/
def destroyNodeWith (invoke : Ptr → Ptr → Ptr → ZlistCmd Unit) (node ddfunc : Ptr) :
    ZlistCmd Unit := do
  if node = NULL then
    return
  update node fun n ↦ { n with prev := NULL }
  update node fun n ↦ { n with next := NULL }
  let data := (← load node).data
  if data ≠ NULL then
    if ddfunc ≠ NULL then
      invoke node ddfunc data
    update node fun n ↦ { n with data := NULL }
  free node

theorem destroyNode_eq : destroyNode = destroyNodeWith fun _ ↦ call := rfl

/-- `destroyNode` on a live node frees it after the call. -/
theorem wp_destroyNodeWith {invoke : Ptr → Ptr → Ptr → ZlistCmd Unit} {n : Node}
    (hn : m.heap.cell p = some n)
    (hinvoke : ∀ h₁ : Heap Node, h₁.live = m.heap.live →
      (∀ q, q ≠ p → h₁.cell q = m.heap.cell q) → (h₁.cell p).isSome → n.data ≠ NULL →
      ddfunc ≠ NULL → wp (invoke p ddfunc n.data) (fun _ m₁ ↦ m₁ = ⟨h₁, { m.vars with
        calls := m.vars.calls ++ [(ddfunc, n.data)] }⟩) ⟨h₁, m.vars⟩)
    {post : Unit → Mem Node Vars → Prop}
    (hpost : ∀ h', h'.live = m.heap.live - 1 → (∀ q, q ≠ p → h'.cell q = m.heap.cell q) →
      h'.cell p = none →
      post () ⟨h', { m.vars with calls := m.vars.calls ++ released ddfunc n.data }⟩) :
    wp (destroyNodeWith invoke p ddfunc) post m := by
  have hp := Heap.ne_null_of_cell hn
  unfold destroyNodeWith
  rw [wp_ite, if_neg hp]
  simp only [wp_bind, wp_update, wp_load, ← Option.isSome_iff_exists, Heap.cell_update_self, hn,
    Option.map_some, Option.some.injEq, exists_eq_left']
  have hfree (h₁ : Heap Node) (hlive : h₁.live = m.heap.live)
      (hothers : ∀ q, q ≠ p → h₁.cell q = m.heap.cell q) (hsome : ∃ n₁, h₁.cell p = some n₁) :
      wp (free p) post ⟨h₁, { m.vars with calls := m.vars.calls ++ released ddfunc n.data }⟩ := by
    rw [wp_free, if_neg hp]
    refine ⟨hsome, hpost _ (by rw [Heap.live_erase, hlive]) (fun q hq ↦ ?_)
      (Heap.cell_erase_self _ _)⟩
    rw [Heap.cell_erase_of_ne _ hq]
    exact hothers q hq
  refine ⟨⟨n, rfl⟩, rfl, ?_⟩
  unfold released at hfree
  rw [wp_ite]
  split
  · next hdata =>
    rw [wp_ite]
    split
    · next hddfunc =>
      rw [if_pos ⟨hdata, hddfunc⟩] at hfree
      rw [wp_bind]
      refine wp_mono (hinvoke _ rfl (fun q hq ↦ ?_) ?_ hdata hddfunc) ?_
      · simp only [Heap.cell_update_of_ne _ _ hq]
      · simp [hn]
      rintro - m₁ rfl
      simp only [wp_bind, wp_update]
      refine ⟨⟨_, by simp [hn]; rfl⟩, hfree _ rfl (fun q hq ↦ ?_) ⟨_, by simp [hn]; rfl⟩⟩
      simp only [Heap.cell_update_of_ne _ _ hq]
    · next hddfunc =>
      rw [if_neg fun hboth ↦ hddfunc hboth.2, List.append_nil] at hfree
      simp only [wp_bind, wp_update]
      refine ⟨⟨_, by simp [hn]; rfl⟩, hfree _ rfl (fun q hq ↦ ?_) ⟨_, by simp [hn]; rfl⟩⟩
      simp only [Heap.cell_update_of_ne _ _ hq]
  · next hdata =>
    rw [if_neg fun hboth ↦ hdata hboth.1, List.append_nil] at hfree
    refine hfree _ rfl (fun q hq ↦ ?_) ⟨_, by simp [hn]; rfl⟩
    simp only [Heap.cell_update_of_ne _ _ hq]

theorem wp_call (hddfunc : ddfunc ≠ NULL) :
    wp (call ddfunc d) (fun _ m₁ ↦ m₁ = ⟨m.heap, { m.vars with
      calls := m.vars.calls ++ [(ddfunc, d)] }⟩) m := by
  unfold call
  rw [wp_bind, wp_require]
  exact ⟨hddfunc, (wp_modifyVars _ _ _).2 rfl⟩

theorem wp_destroyNode {n : Node} (hn : m.heap.cell p = some n)
    {post : Unit → Mem Node Vars → Prop}
    (hpost : ∀ h', h'.live = m.heap.live - 1 → (∀ q, q ≠ p → h'.cell q = m.heap.cell q) →
      h'.cell p = none →
      post () ⟨h', { m.vars with calls := m.vars.calls ++ released ddfunc n.data }⟩) :
    wp (destroyNode p ddfunc) post m := by
  rw [destroyNode_eq]
  exact wp_destroyNodeWith hn (fun _ _ _ _ _ hddfunc ↦ wp_call hddfunc) hpost

/-- `remove` with the call of the destroy function left open. -/
def removeWith (invoke : Ptr → Ptr → Ptr → ZlistCmd Unit) (thiz : Handle) (node : Ptr) :
    ZlistCmd Unit := do
  let n ← load node
  delNode n.prev n.next
  destroyNodeWith invoke node thiz.ddfunc

theorem remove_eq : remove = removeWith fun _ ↦ call := rfl

/-- The node is live, and all that is live besides is the ring of the entries. -/
def Detached (h : Heap Node) (head : Ptr) (entries : List (Ptr × Ptr)) (p : Ptr) : Prop :=
  (h.cell p).isSome ∧ 0 < h.live ∧ Ring (h.erase p) head entries

/-- The call is recorded, provided that it is made when the node has left the ring. -/
def Invokes (invoke : Ptr → Ptr → Ptr → ZlistCmd Unit) (thiz : Handle) : Prop :=
  ∀ h vars entries p d, Detached h thiz.head entries p → d ≠ NULL → thiz.ddfunc ≠ NULL →
    wp (invoke p thiz.ddfunc d) (fun _ m₁ ↦ m₁ = ⟨h, { vars with
      calls := vars.calls ++ [(thiz.ddfunc, d)] }⟩) ⟨h, vars⟩

theorem invokes_call (thiz : Handle) : Invokes (fun _ ↦ call) thiz :=
  fun _ _ _ _ _ _ _ hddfunc ↦ wp_call hddfunc

/-- An entry leaves the ring and its datum goes to the destroy function. -/
theorem wp_removeWith {invoke : Ptr → Ptr → Ptr → ZlistCmd Unit} (hinvoke : Invokes invoke thiz)
    (hring : Ring m.heap thiz.head (xs ++ (p, d) :: ys))
    {post : Unit → Mem Node Vars → Prop}
    (hpost : ∀ h', Ring h' thiz.head (xs ++ ys) →
      post () ⟨h', { m.vars with calls := m.vars.calls ++ released thiz.ddfunc d }⟩) :
    wp (removeWith invoke thiz p) post m := by
  obtain ⟨hfresh, -⟩ := List.nodup_cons.1 (perm_place.nodup_iff.1 hring.nodup)
  have hcell := hring.node
  have hmem (q : Ptr) (hq : q ∈ thiz.head :: addrs (xs ++ ys)) :
      q ≠ p ∧ (m.heap.cell q).isSome ∧ q ≠ NULL := by
    have hold : q ∈ thiz.head :: addrs (xs ++ (p, d) :: ys) :=
      perm_place.mem_iff.2 (List.mem_cons_of_mem _ hq)
    exact ⟨fun heq ↦ hfresh (heq ▸ hq), hring.isSome hold, hring.ne_null hold⟩
  obtain ⟨hprevNe, hprevSome, hprevNull⟩ := hmem (lastOf thiz.head (addrs xs)) lastOf_mem_place
  obtain ⟨hnextNe, hnextSome, hnextNull⟩ := hmem (firstOf thiz.head (addrs ys)) firstOf_mem_place
  have hlength : m.heap.live = xs.length + ys.length + 2 := by
    rw [hring.live, List.length_append, List.length_cons]
    omega
  unfold removeWith delNode
  simp only [wp_bind, wp_load, hcell, Option.some.injEq, exists_eq_left', hprevNull, hnextNull,
    or_self, if_false, wp_update, ← Option.isSome_iff_exists, Heap.isSome_cell_update]
  refine ⟨hprevSome, hnextSome, ?_⟩
  -- the neighbours are linked to each other
  have hrest (h' : Heap Node) (hlive : h'.live = m.heap.live - 1)
      (hothers : ∀ q, q ≠ p → h'.cell q = ((m.heap.update (lastOf thiz.head (addrs xs)) fun n ↦
        { n with next := firstOf thiz.head (addrs ys) }).update (firstOf thiz.head (addrs ys))
          fun n ↦ { n with prev := lastOf thiz.head (addrs xs) }).cell q) :
      Ring h' thiz.head (xs ++ ys) := by
    refine hring.delete rfl rfl (by omega) (fun q hq ↦ ?_) (fun q hq ↦ ?_) fun q hq ↦ ?_
    · rw [nextOf, Heap.field, hothers q hq]
      exact (nextOf_setPrev _ _ _ _).trans (nextOf_setNext _ _ hprevSome)
    · rw [prevOf, Heap.field, hothers q hq]
      refine (prevOf_setPrev _ _ (by simpa using hnextSome)).trans ?_
      rw [prevOf_setNext]
    · rw [dataOf, Heap.field, hothers q hq]
      exact (dataOf_setPrev _ _ _ _).trans (dataOf_setNext _ _ _ _)
  refine wp_destroyNodeWith
    (n := ⟨lastOf thiz.head (addrs xs), firstOf thiz.head (addrs ys), d⟩) ?_ ?_ ?_
  · rw [Heap.cell_update_of_ne _ _ hnextNe.symm, Heap.cell_update_of_ne _ _ hprevNe.symm, hcell]
  · intro h₁ hlive hothers hsome
    simp only [Heap.live_update] at hlive
    refine hinvoke _ _ (xs ++ ys) p d ⟨hsome, by omega, hrest _ ?_ fun q hq ↦ ?_⟩
    · rw [Heap.live_erase, hlive]
    · rw [Heap.cell_erase_of_ne _ hq]
      exact hothers q hq
  · intro h' hlive hothers _
    exact hpost h' (hrest h' hlive hothers)

theorem wp_remove (hring : Ring m.heap thiz.head (xs ++ (p, d) :: ys))
    {post : Unit → Mem Node Vars → Prop}
    (hpost : ∀ h', Ring h' thiz.head (xs ++ ys) →
      post () ⟨h', { m.vars with calls := m.vars.calls ++ released thiz.ddfunc d }⟩) :
    wp (remove thiz p) post m := by
  rw [remove_eq]
  exact wp_removeWith (invokes_call thiz) hring hpost

/-- The datum of an entry goes to the destroy function and another takes its place. -/
theorem wp_replace (hring : Ring m.heap thiz.head (xs ++ (p, d) :: ys))
    (hddfunc : d ≠ NULL → thiz.ddfunc ≠ NULL) {post : Unit → Mem Node Vars → Prop}
    (hpost : ∀ h', Ring h' thiz.head (xs ++ (p, data) :: ys) →
      post () ⟨h', { m.vars with calls := m.vars.calls ++ released thiz.ddfunc d }⟩) :
    wp (replace thiz p data) post m := by
  have hcell := hring.node
  have hsome : (m.heap.cell p).isSome := by rw [hcell]; rfl
  have hdone (h₁ : Heap Node) (hlive : h₁.live = m.heap.live)
      (hnext : ∀ q, nextOf h₁ q = nextOf m.heap q) (hprev : ∀ q, prevOf h₁ q = prevOf m.heap q)
      (hdata : ∀ q, q ≠ p → dataOf h₁ q = dataOf m.heap q) (hp : (h₁.cell p).isSome) :
      wp (update p fun n ↦ { n with data }) post
        ⟨h₁, { m.vars with calls := m.vars.calls ++ released thiz.ddfunc d }⟩ := by
    rw [wp_update]
    refine ⟨Option.isSome_iff_exists.1 hp, hpost _ (hring.replace hlive (fun q ↦ ?_) (fun q ↦ ?_)
      fun q ↦ ?_)⟩
    · rw [nextOf_setData, hnext]
    · rw [prevOf_setData, hprev]
    · rw [dataOf_setData _ _ hp]
      split
      · rfl
      · next hq => exact hdata q hq
  unfold replace
  simp only [wp_bind, wp_load, hcell, Option.some.injEq, exists_eq_left']
  unfold released at hdone
  rw [wp_ite]
  split
  · next hd =>
    rw [if_pos ⟨hd, hddfunc hd⟩] at hdone
    unfold call
    simp only [wp_bind, wp_require, wp_modifyVars]
    refine ⟨hddfunc hd, (wp_update _ _ _ _).2 ⟨⟨_, hcell⟩, hdone _ rfl (fun q ↦ ?_) (fun q ↦ ?_)
      (fun q hq ↦ ?_) (by simpa using hsome)⟩⟩
    · exact nextOf_setData _ _ _ _
    · exact prevOf_setData _ _ _ _
    · exact (dataOf_setData _ _ hsome).trans (if_neg hq)
  · next hd =>
    rw [if_neg fun hboth ↦ hd hboth.1, List.append_nil] at hdone
    exact hdone _ rfl (fun _ ↦ rfl) (fun _ ↦ rfl) (fun _ _ ↦ rfl) hsome

/-! ## Walking through the ring -/

/-- The cursor of a walk stands on the last of the visited entries. -/
theorem Ring.cursor (hring : Ring h head (xs ++ ys)) :
    ∃ n, h.cell (lastOf head (addrs xs)) = some n ∧ n.next = firstOf head (addrs ys) :=
  Heap.cell_of_field hring.neighbours.1

/-- The walk is over when the next node is the sentinel. -/
theorem Ring.firstOf_eq_head (hring : Ring h head (xs ++ ys)) :
    firstOf head (addrs ys) = head ↔ ys = [] := by
  constructor
  · intro hfirst
    cases ys with
    | nil => rfl
    | cons e ys =>
      obtain ⟨hhead, -⟩ := List.nodup_cons.1 hring.nodup
      refine absurd ?_ hhead
      rw [← show e.1 = head from hfirst]
      simp
  · rintro rfl
    rfl

/-- **A loop that visits the entries in order** and leaves the ring alone.  The invariant speaks
about the visited entries, the ones ahead and the other local variable. -/
theorem wp_walk {β γ : Type} {body : Ptr × β → ZlistCmd ((Ptr × β) ⊕ γ)}
    {post : γ → Mem Node Vars → Prop} (hring : Ring m.heap head entries)
    (inv : List (Ptr × Ptr) → List (Ptr × Ptr) → β → Vars → Prop)
    (hbody : ∀ xs ys x vars, entries = xs ++ ys → inv xs ys x vars →
      wp (body (lastOf head (addrs xs), x)) (fun result m' ↦ match result with
        | .inl (cursor, x') => m'.heap = m.heap ∧ ∃ e ys', ys = e :: ys' ∧ cursor = e.1 ∧
            inv (xs ++ [e]) ys' x' m'.vars
        | .inr value => post value m') ⟨m.heap, vars⟩)
    {x : β} (hinv : inv [] entries x m.vars) : wp (heapLoop body (head, x)) post m := by
  refine wp_heapLoop (fun measure locals m' ↦ m'.heap = m.heap ∧ ∃ xs ys, entries = xs ++ ys ∧
    measure = ys.length ∧ locals.1 = lastOf head (addrs xs) ∧ inv xs ys locals.2 m'.vars)
    ?_ ⟨rfl, [], entries, rfl, rfl, rfl, hinv⟩ (by rw [hring.live]; omega)
  rintro measure locals m' ⟨hheap, xs, ys, hentries, hmeasure, hcursor, hinv'⟩
  obtain ⟨cursor, x'⟩ := locals
  obtain ⟨heap, vars⟩ := m'
  dsimp only at hheap hcursor hinv'
  subst hheap hcursor
  refine wp_mono (hbody xs ys x' vars hentries hinv') fun result m'' hresult ↦ ?_
  cases result with
  | inl next =>
    obtain ⟨hheap, e, ys', rfl, hnext, hinv''⟩ := hresult
    refine ⟨ys'.length, by rw [hmeasure, List.length_cons]; omega, hheap, xs ++ [e], ys', ?_, rfl,
      ?_, hinv''⟩
    · rw [hentries, List.append_cons]
    · rw [addrs_append, show addrs [e] = [e.1] from rfl, lastOf_concat]
      exact hnext
  | inr value => exact hresult

/-- The node at `index`. -/
theorem wp_getNode (hring : Ring m.heap thiz.head entries) {index : ℤ}
    {post : Ptr → Mem Node Vars → Prop}
    (hout : index < 0 ∨ entries.length ≤ index → post NULL m)
    (hin : ∀ xs p d ys, entries = xs ++ (p, d) :: ys → (xs.length : ℤ) = index → post p m) :
    wp (getNode thiz index) post m := by
  unfold getNode
  rw [wp_ite]
  split
  · next hneg =>
    rw [wp_pure]
    exact hout (Or.inl hneg)
  next hpos =>
  simp only [wp_bind, wp_load, hring.sentinel_cell, Option.some.injEq, exists_eq_left']
  rw [wp_ite]
  split
  · next hempty =>
    rw [wp_pure]
    have hfirst : Ring m.heap thiz.head ([] ++ entries) := hring
    rw [hfirst.firstOf_eq_head] at hempty
    exact hout (Or.inr (by rw [hempty]; simp; omega))
  · apply wp_walk hring fun xs ys (index' : ℤ) vars ↦
      vars = m.vars ∧ index' = index - xs.length ∧ -1 ≤ index'
    · rintro xs ys index' vars rfl ⟨rfl, hindex, hlow⟩
      obtain ⟨n, hn, hnext⟩ := hring.cursor
      simp only [wp_bind, wp_load, hn, hnext, Option.some.injEq, exists_eq_left']
      rw [wp_ite]
      split
      · next hgo =>
        obtain ⟨hne, hge⟩ := hgo
        rw [wp_pure]
        obtain _ | ⟨e, ys⟩ := ys
        · exact absurd rfl hne
        · refine ⟨rfl, e, ys, rfl, rfl, rfl, ?_, by omega⟩
          rw [List.length_append, List.length_singleton]
          omega
      · next hstop =>
        rw [wp_pure]
        dsimp only
        by_cases hneg : index' < 0
        · rw [if_pos hneg]
          obtain rfl | ⟨xs, ⟨p, d⟩, rfl⟩ := List.eq_nil_or_concat xs
          · rw [List.length_nil] at hindex
            omega
          · rw [List.concat_eq_append] at *
            rw [addrs_append, show addrs [(p, d)] = [p] from rfl, lastOf_concat]
            rw [List.length_append, List.length_singleton] at hindex
            exact hin xs p d ys (by rw [List.append_assoc]; rfl) (by omega)
        · have hys : ys = [] := by
            rw [← hring.firstOf_eq_head]
            by_contra hne
            exact hstop ⟨hne, by omega⟩
          rw [if_neg hneg]
          exact hout (Or.inr (by rw [hys, List.append_nil]; omega))
    · exact ⟨rfl, by simp, by omega⟩

theorem wp_increment {n : ℤ} {post : ℤ → Mem Node Vars → Prop} :
    wp (increment n) post m ↔ n + 1 < 2 ^ 31 ∧ post (n + 1) m := by
  unfold increment
  simp only [wp_bind, wp_require, wp_pure]

theorem wp_size (hring : Ring m.heap thiz.head entries) (hsmall : entries.length < 2 ^ 31)
    {post : ℤ → Mem Node Vars → Prop} (hpost : post entries.length m) :
    wp (size thiz) post m := by
  unfold size
  dsimp only
  apply wp_walk hring fun xs ys (size : ℤ) vars ↦ vars = m.vars ∧ size = xs.length
  · rintro xs ys size vars rfl ⟨rfl, rfl⟩
    obtain ⟨n, hn, hnext⟩ := hring.cursor
    simp only [wp_bind, wp_load, hn, hnext, Option.some.injEq, exists_eq_left']
    rw [wp_ite]
    obtain _ | ⟨e, ys⟩ := ys
    · rw [if_neg (fun hne ↦ hne rfl), wp_pure]
      rwa [List.append_nil] at hpost
    · rw [if_pos (fun heq ↦ by simpa using hring.firstOf_eq_head.1 heq)]
      simp only [wp_bind, wp_increment, wp_pure]
      rw [List.length_append, List.length_cons] at hsmall
      refine ⟨by omega, trivial, e, ys, rfl, rfl, trivial, ?_⟩
      rw [List.length_append, List.length_singleton]
      rfl
  · exact ⟨rfl, rfl⟩

/-- Counting up to `2 ^ 31` overflows. -/
theorem small_of_wp_size (hring : Ring m.heap thiz.head entries)
    {post : ℤ → Mem Node Vars → Prop} (h : wp (size thiz) post m) : entries.length < 2 ^ 31 := by
  obtain ⟨value, m', hrun, -⟩ := h
  unfold size heapLoop at hrun
  have hloop := loop_outcome (fun locals m' ↦ m' = m ∧ ∃ xs ys, entries = xs ++ ys ∧
      locals.1 = lastOf thiz.head (addrs xs) ∧ locals.2 = (xs.length : ℤ) ∧ xs.length < 2 ^ 31)
    (fun _ _ ↦ entries.length < 2 ^ 31) (fun locals m' next after hinv hbody ↦ ?_) hrun
    ⟨rfl, [], entries, rfl, rfl, rfl, by norm_num⟩
  · exact hloop
  · obtain ⟨rfl, xs, ys, rfl, hcursor, hsize, hsmall⟩ := hinv
    obtain ⟨n, hn, hnext⟩ := hring.cursor
    obtain ⟨cursor, size⟩ := locals
    dsimp only at hcursor hsize
    subst hcursor hsize
    have hwp : wp _ (fun r a ↦ r = next ∧ a = after) m' := ⟨_, _, hbody, rfl, rfl⟩
    simp only [wp_bind, wp_load, hn, hnext, Option.some.injEq, exists_eq_left'] at hwp
    rw [wp_ite] at hwp
    obtain _ | ⟨e, ys⟩ := ys
    · rw [if_neg (fun hne ↦ hne rfl), wp_pure] at hwp
      obtain ⟨rfl, -⟩ := hwp
      rwa [List.append_nil]
    · rw [if_pos (fun heq ↦ by simpa using hring.firstOf_eq_head.1 heq)] at hwp
      simp only [wp_bind, wp_increment, wp_pure] at hwp
      obtain ⟨hroom, rfl, rfl⟩ := hwp
      refine ⟨rfl, xs ++ [e], ys, List.append_cons _ _ _, ?_, ?_, ?_⟩
      · rw [addrs_append, show addrs [e] = [e.1] from rfl, lastOf_concat]
        rfl
      · rw [List.length_append, List.length_singleton]
        rfl
      · rw [List.length_append, List.length_singleton]
        omega

theorem wp_empty (hring : Ring m.heap thiz.head entries) {post : Bool → Mem Node Vars → Prop} :
    wp (empty thiz) post m ↔ post (decide (entries = [])) m := by
  have hfirst : Ring m.heap thiz.head ([] ++ entries) := hring
  unfold empty
  simp only [wp_bind, wp_load, hring.sentinel_cell, Option.some.injEq, exists_eq_left',
    hfirst.firstOf_eq_head, wp_pure]

theorem wp_find (hring : Ring m.heap thiz.head entries) (hsmall : entries.length < 2 ^ 31)
    {cmp : Ptr → Bool} {post : ℤ → Mem Node Vars → Prop}
    (hpost : ∀ compared, post (findIndex cmp (entries.map Prod.snd))
      ⟨m.heap, { m.vars with compared }⟩) : wp (find thiz cmp) post m := by
  unfold find
  simp only [wp_bind, wp_empty hring, decide_eq_true_eq]
  rw [wp_ite]
  split
  · next hnil =>
    rw [wp_pure]
    rw [hnil] at hpost
    exact hpost m.vars.compared
  · apply wp_walk hring fun xs ys (index : ℤ) vars ↦ (∃ compared, vars = { m.vars with compared }) ∧
      index = xs.length ∧ ∀ d ∈ xs.map Prod.snd, cmp d = false
    · rintro xs ys index vars hentries ⟨⟨compared, rfl⟩, rfl, hno⟩
      rw [hentries] at hring hpost hsmall
      obtain ⟨n, hn, hnext⟩ := hring.cursor
      simp only [wp_bind, wp_load, hn, hnext, Option.some.injEq, exists_eq_left']
      rw [wp_ite]
      have hnone : (xs.map Prod.snd).findIdx? cmp = none := List.findIdx?_eq_none_iff.2 hno
      obtain _ | ⟨⟨p, d⟩, ys⟩ := ys
      · rw [if_neg (fun hne ↦ hne rfl), wp_pure]
        simp only [List.append_nil, findIndex, hnone] at hpost
        exact hpost compared
      · rw [if_pos (fun heq ↦ by simpa using hring.firstOf_eq_head.1 heq)]
        have hcell := hring.node
        unfold compare
        simp only [firstOf, wp_bind, wp_load, List.map_cons, hcell, Option.some.injEq,
          exists_eq_left', wp_modifyVars, wp_pure]
        rw [wp_ite]
        split
        · next hcmp =>
          rw [wp_pure]
          have hfound : findIndex cmp ((xs ++ (p, d) :: ys).map Prod.snd) = xs.length := by
            simp [findIndex, List.findIdx?_append, hnone, List.findIdx?_cons, hcmp]
          rw [hfound] at hpost
          exact hpost _
        · next hcmp =>
          simp only [wp_bind, wp_increment, wp_pure]
          rw [List.length_append, List.length_cons] at hsmall
          refine ⟨by omega, trivial, (p, d), ys, rfl, rfl, ⟨_, rfl⟩, ?_, ?_⟩
          · rw [List.length_append, List.length_singleton]
            rfl
          · intro d' hd'
            rw [List.map_append, List.mem_append] at hd'
            obtain hd' | hd' := hd'
            · exact hno d' hd'
            · obtain rfl : d' = d := by simpa using hd'
              simpa using hcmp
    · exact ⟨⟨_, rfl⟩, rfl, by simp⟩

/-- The visited data reach the function pointer in order. -/
theorem wp_foreach_call (hring : Ring m.heap thiz.head entries)
    (hddfunc : entries ≠ [] → ddfunc ≠ NULL) {post : ℤ → Mem Node Vars → Prop}
    (hpost : ∀ result, post result ⟨m.heap, { m.vars with
      calls := m.vars.calls ++ entries.map fun e ↦ (ddfunc, e.2) }⟩) :
    wp (foreach thiz (call ddfunc)) post m := by
  unfold foreach
  simp only [wp_bind, wp_empty hring, decide_eq_true_eq]
  rw [wp_ite]
  split
  · next hnil =>
    rw [wp_pure]
    simpa [hnil] using hpost (-1)
  · next hne =>
    apply wp_walk hring fun xs ys (_ : Unit) vars ↦
      vars = { m.vars with calls := m.vars.calls ++ xs.map fun e ↦ (ddfunc, e.2) }
    · rintro xs ys - vars hentries rfl
      rw [hentries] at hring hpost
      obtain ⟨n, hn, hnext⟩ := hring.cursor
      simp only [wp_bind, wp_load, hn, hnext, Option.some.injEq, exists_eq_left']
      rw [wp_ite]
      obtain _ | ⟨⟨p, d⟩, ys⟩ := ys
      · rw [if_neg (fun hne ↦ hne rfl), wp_pure]
        simpa only [List.append_nil] using hpost 0
      · rw [if_pos (fun heq ↦ by simpa using hring.firstOf_eq_head.1 heq)]
        have hcell := hring.node
        unfold call
        simp only [firstOf, wp_bind, wp_load, List.map_cons, hcell, Option.some.injEq,
          exists_eq_left', wp_require, wp_modifyVars, wp_pure]
        refine ⟨hddfunc hne, trivial, (p, d), ys, rfl, rfl, ?_⟩
        rw [List.map_append, List.append_assoc]
        rfl
    · simp

/-- A datum cannot be visited through a null pointer. -/
theorem ne_null_of_wp_foreach_call (hring : Ring m.heap thiz.head entries)
    {post : ℤ → Mem Node Vars → Prop} (h : wp (foreach thiz (call ddfunc)) post m) :
    entries ≠ [] → ddfunc ≠ NULL := by
  intro hne
  obtain ⟨⟨p, d⟩, ys, rfl⟩ := List.exists_cons_of_ne_nil hne
  have hplace : Ring m.heap thiz.head ([] ++ (p, d) :: ys) := hring
  unfold foreach heapLoop at h
  simp only [wp_bind, wp_empty hring, decide_eq_true_eq] at h
  rw [wp_ite, if_neg hne] at h
  simp only [wp_bind, wp_get, loop, wp_load, hring.sentinel_cell, Option.some.injEq,
    exists_eq_left'] at h
  rw [wp_ite, if_pos (fun heq ↦ by simpa using hplace.firstOf_eq_head.1 heq)] at h
  unfold call at h
  simp only [firstOf, wp_bind, wp_load, List.map_cons, hplace.node, Option.some.injEq,
    exists_eq_left', wp_require] at h
  exact h.1

end

end Zbaselib.Zlist
