import Zbaselib.Zlist.Operations

/-!
# The public list functions

Each rule gives the entries afterwards and the data that went to the destroy
function, in order.
-/

namespace Zbaselib.Zlist

open Program Memory

section

variable {m : Mem Node Vars} {addr data : Ptr} {thiz : Handle} {entries : List (Ptr × Ptr)}

/-! ## The node that an operation works on -/

/-- The first node, if there is one. -/
theorem wp_atHead {α : Type} (body : Ptr → ZlistCmd α) (hring : Ring m.heap thiz.head entries)
    {missing : α} {post : α → Mem Node Vars → Prop} (hempty : entries = [] → post missing m)
    (hbody : ∀ p d ys, entries = (p, d) :: ys → Ring m.heap thiz.head ([] ++ (p, d) :: ys) →
      wp (body p) post m) :
    wp (do
      if ← empty thiz then
        return missing
      body (← load thiz.head).next) post m := by
  simp only [wp_bind, wp_empty hring, decide_eq_true_eq]
  rw [wp_ite]
  obtain _ | ⟨⟨p, d⟩, ys⟩ := entries
  · rw [if_pos rfl, wp_pure]
    exact hempty rfl
  · rw [if_neg (by simp)]
    simp only [wp_bind, wp_load, hring.sentinel_cell, firstOf, List.map_cons, Option.some.injEq,
      exists_eq_left']
    exact hbody p d ys rfl hring

/-- The last node, if there is one. -/
theorem wp_atTail {α : Type} (body : Ptr → ZlistCmd α) (hring : Ring m.heap thiz.head entries)
    {missing : α} {post : α → Mem Node Vars → Prop} (hempty : entries = [] → post missing m)
    (hbody : ∀ xs p d, entries = xs ++ [(p, d)] → wp (body p) post m) :
    wp (do
      if ← empty thiz then
        return missing
      body (← load thiz.head).prev) post m := by
  simp only [wp_bind, wp_empty hring, decide_eq_true_eq]
  rw [wp_ite]
  obtain rfl | ⟨xs, ⟨p, d⟩, rfl⟩ := List.eq_nil_or_concat entries
  · rw [if_pos rfl, wp_pure]
    exact hempty rfl
  · rw [List.concat_eq_append] at *
    rw [if_neg (by simp)]
    have hlast : lastOf thiz.head (addrs (xs ++ [(p, d)])) = p := by
      rw [addrs_append]
      exact lastOf_concat _ _ _
    simp only [wp_bind, wp_load, hring.sentinel_cell, hlast, Option.some.injEq, exists_eq_left']
    exact hbody xs p d rfl

/-- The node at `index`, if there is one. -/
theorem wp_atIndex {α : Type} {body : Ptr → ZlistCmd α} (hring : Ring m.heap thiz.head entries)
    {index : ℤ} {missing : α} {post : α → Mem Node Vars → Prop}
    (hout : index < 0 ∨ entries.length ≤ index → post missing m)
    (hbody : ∀ xs p d ys, entries = xs ++ (p, d) :: ys → (xs.length : ℤ) = index →
      wp (body p) post m) :
    wp (do
      let node ← getNode thiz index
      if node = NULL then
        return missing
      body node) post m := by
  rw [wp_bind]
  apply wp_getNode hring
  · intro hrange
    simp only [if_true, wp_pure]
    exact hout hrange
  · rintro xs p d ys rfl hindex
    have hne : p ≠ NULL := Heap.ne_null_of_cell hring.node
    rw [wp_ite, if_neg hne]
    exact hbody xs p d ys rfl hindex

/-- A new node, and one that is there. -/
theorem wp_beside {α : Type} {next : Ptr → Node → ZlistCmd α} {p : Ptr} {record : Node}
    (hcell : m.heap.cell p = some record) (haddr : addr ≠ NULL) (hfree : m.heap.cell addr = none)
    {post : α → Mem Node Vars → Prop}
    (hpost : ∀ h₁, Created m.heap h₁ addr data → wp (next addr record) post ⟨h₁, m.vars⟩) :
    wp (do
      let node ← createNode addr data
      next node (← load p)) post m := by
  rw [wp_bind]
  apply wp_createNode haddr hfree
  intro h₁ hcreated
  have hp : p ≠ addr := by
    rintro rfl
    rw [hcell] at hfree
    cases hfree
  simp only [wp_bind, wp_load, hcreated.others _ hp, hcell, Option.some.injEq, exists_eq_left']
  exact hpost h₁ hcreated

/-! ## Reading -/

theorem wp_gethead (hring : Ring m.heap thiz.head entries) {post : Ptr → Mem Node Vars → Prop}
    (hpost : post ((entries.map Prod.snd).headD NULL) m) : wp (gethead thiz) post m := by
  unfold gethead
  apply wp_atHead (fun p ↦ do return (← load p).data) hring
  · rintro rfl
    exact hpost
  · rintro p d ys rfl hplace
    simp only [wp_bind, wp_load, hplace.node, Option.some.injEq, exists_eq_left', wp_pure]
    exact hpost

theorem wp_gettail (hring : Ring m.heap thiz.head entries) {post : Ptr → Mem Node Vars → Prop}
    (hpost : post ((entries.map Prod.snd).getLastD NULL) m) : wp (gettail thiz) post m := by
  unfold gettail
  apply wp_atTail (fun p ↦ do return (← load p).data) hring
  · rintro rfl
    exact hpost
  · rintro xs p d rfl
    simp only [wp_bind, wp_load, hring.node, Option.some.injEq, exists_eq_left', wp_pure]
    simpa using hpost

theorem wp_get (hring : Ring m.heap thiz.head entries) {index : ℤ}
    {post : Ptr → Mem Node Vars → Prop}
    (hout : index < 0 ∨ entries.length ≤ index → post NULL m)
    (hin : ∀ xs p d ys, entries = xs ++ (p, d) :: ys → (xs.length : ℤ) = index → post d m) :
    wp (get thiz index) post m := by
  unfold get
  simp only [wp_bind, wp_empty hring, decide_eq_true_eq]
  rw [wp_ite]
  split
  · next hnil =>
    rw [wp_pure]
    exact hout (by rw [hnil]; simp; omega)
  · apply wp_atIndex hring hout
    rintro xs p d ys rfl hindex
    simp only [wp_bind, wp_load, hring.node, Option.some.injEq, exists_eq_left', wp_pure]
    exact hin xs p d ys rfl hindex

/-! ## Inserting -/

theorem wp_addhead (hring : Ring m.heap thiz.head entries) (haddr : addr ≠ NULL)
    (hfree : m.heap.cell addr = none) {post : Unit → Mem Node Vars → Prop}
    (hpost : ∀ h', Ring h' thiz.head ((addr, data) :: entries) → post () ⟨h', m.vars⟩) :
    wp (addhead thiz addr data) post m := by
  unfold addhead
  apply wp_beside hring.sentinel_cell haddr hfree
  intro h₁ hcreated
  have hplace : Ring m.heap thiz.head ([] ++ entries) := hring
  exact wp_addNode (m := ⟨h₁, m.vars⟩) hplace hcreated rfl rfl hpost

theorem wp_addtail (hring : Ring m.heap thiz.head entries) (haddr : addr ≠ NULL)
    (hfree : m.heap.cell addr = none) {post : Unit → Mem Node Vars → Prop}
    (hpost : ∀ h', Ring h' thiz.head (entries ++ [(addr, data)]) → post () ⟨h', m.vars⟩) :
    wp (addtail thiz addr data) post m := by
  unfold addtail
  apply wp_beside hring.sentinel_cell haddr hfree
  intro h₁ hcreated
  have hplace : Ring m.heap thiz.head (entries ++ []) := by rwa [List.append_nil]
  exact wp_addNode (m := ⟨h₁, m.vars⟩) hplace hcreated rfl rfl hpost

/-- Only the new node appears in the heap. -/
theorem of_wp_addtail {thiz : Option Handle} {post : Unit → Mem Node Vars → Prop}
    (h : wp (addtail thiz addr data) post m) :
    ∃ m', post () m' ∧ ∀ q, q ≠ addr → (m'.heap.cell q).isSome = (m.heap.cell q).isSome := by
  unfold addtail at h
  cases thiz with
  | none => exact ⟨m, (wp_pure _ _ _).1 h, fun _ _ ↦ rfl⟩
  | some thiz =>
    rw [wp_bind] at h
    obtain ⟨haddr, hfree⟩ := fresh_of_wp_createNode h
    have hcreate : wp (createNode addr data) (fun p m' ↦
        ∀ q, q ≠ addr → m'.heap.cell q = m.heap.cell q) m :=
      wp_createNode haddr hfree fun h₁ hcreated ↦ hcreated.others
    obtain ⟨p, m₁, -, hrest, hothers⟩ := wp_and h hcreate
    rw [wp_bind, wp_load] at hrest
    obtain ⟨n, -, hrest⟩ := hrest
    unfold addNode at hrest
    rw [wp_ite] at hrest
    split at hrest
    · rw [wp_pure] at hrest
      exact ⟨m₁, hrest, fun q hq ↦ by rw [hothers q hq]⟩
    · simp only [wp_bind, wp_update] at hrest
      exact ⟨_, hrest.2.2.2.2, fun q hq ↦ by simp [hothers q hq]⟩

/-- `add` inserts at every index from 0 to the size. -/
theorem wp_add (hring : Ring m.heap thiz.head entries) (haddr : addr ≠ NULL)
    (hfree : m.heap.cell addr = none) (hsmall : entries.length < 2 ^ 31) {index : ℤ}
    {post : ℤ → Mem Node Vars → Prop}
    (hout : index < 0 ∨ entries.length < index → post (-1) m)
    (hin : ∀ xs ys h', entries = xs ++ ys → (xs.length : ℤ) = index →
      Ring h' thiz.head (xs ++ (addr, data) :: ys) → post 0 ⟨h', m.vars⟩) :
    wp (add thiz addr data index) post m := by
  unfold add
  dsimp only
  rw [wp_ite]
  split
  · next hneg =>
    rw [wp_pure]
    exact hout (Or.inl hneg)
  simp only [wp_bind, wp_empty hring, decide_eq_true_eq]
  rw [wp_ite]
  split
  · next hfirst =>
    obtain ⟨rfl, rfl⟩ := hfirst
    rw [wp_bind]
    apply wp_addhead hring haddr hfree
    intro h' hring'
    rw [wp_pure]
    exact hin [] [] h' rfl rfl hring'
  rw [wp_bind]
  apply wp_size hring hsmall
  rw [wp_ite]
  split
  · next hlast =>
    rw [wp_bind]
    apply wp_addtail hring haddr hfree
    intro h' hring'
    rw [wp_pure]
    exact hin entries [] h' (List.append_nil _).symm hlast.symm hring'
  apply wp_atIndex hring fun hrange ↦ hout (by omega)
  rintro xs p d ys rfl hindex
  apply wp_beside hring.node haddr hfree
  intro h₁ hcreated
  rw [wp_bind]
  apply wp_addNode (m := ⟨h₁, m.vars⟩) hring hcreated rfl rfl
  intro h' hring'
  rw [wp_pure]
  exact hin xs _ h' rfl hindex hring'

/-! ## Deleting -/

theorem wp_delhead (hring : Ring m.heap thiz.head entries) {post : Unit → Mem Node Vars → Prop}
    (hempty : entries = [] → post () m)
    (hpost : ∀ p d ys h', entries = (p, d) :: ys → Ring h' thiz.head ys →
      post () ⟨h', { m.vars with calls := m.vars.calls ++ released thiz.ddfunc d }⟩) :
    wp (delhead thiz) post m := by
  unfold delhead
  apply wp_atHead (fun p ↦ remove thiz p) hring hempty
  rintro p d ys rfl hplace
  exact wp_remove hplace fun h' hring' ↦ hpost p d ys h' rfl hring'

theorem wp_deltail (hring : Ring m.heap thiz.head entries) {post : Unit → Mem Node Vars → Prop}
    (hempty : entries = [] → post () m)
    (hpost : ∀ xs p d h', entries = xs ++ [(p, d)] → Ring h' thiz.head xs →
      post () ⟨h', { m.vars with calls := m.vars.calls ++ released thiz.ddfunc d }⟩) :
    wp (deltail thiz) post m := by
  unfold deltail
  apply wp_atTail (fun p ↦ remove thiz p) hring hempty
  rintro xs p d rfl
  refine wp_remove hring fun h' hring' ↦ hpost xs p d h' rfl ?_
  rwa [List.append_nil] at hring'

theorem wp_del (hring : Ring m.heap thiz.head entries) {index : ℤ}
    {post : ℤ → Mem Node Vars → Prop}
    (hout : index < 0 ∨ entries.length ≤ index → post (-1) m)
    (hin : ∀ xs p d ys h', entries = xs ++ (p, d) :: ys → (xs.length : ℤ) = index →
      Ring h' thiz.head (xs ++ ys) →
      post 0 ⟨h', { m.vars with calls := m.vars.calls ++ released thiz.ddfunc d }⟩) :
    wp (del thiz index) post m := by
  unfold del
  simp only [wp_bind, wp_empty hring, decide_eq_true_eq]
  rw [wp_ite]
  split
  · next hnil =>
    rw [wp_pure]
    apply hout
    obtain rfl | hneg := hnil
    · rw [List.length_nil]
      omega
    · exact Or.inl hneg
  · apply wp_atIndex hring hout
    rintro xs p d ys rfl hindex
    rw [wp_bind]
    refine wp_remove hring fun h' hring' ↦ ?_
    rw [wp_pure]
    exact hin xs p d ys h' rfl hindex hring'

/-- The calls of the destroy function for several data. -/
def releasedAll (ddfunc : Ptr) (items : List Ptr) : List (Ptr × Ptr) :=
  items.flatMap (released ddfunc)

/-- Nothing is released. -/
theorem releasedAll_null (items : List Ptr) : releasedAll NULL items = [] := by
  unfold releasedAll
  rw [List.flatMap_eq_nil_iff]
  intro data _
  unfold released
  exact if_neg fun h ↦ h.2 rfl

/-- `delUseCond` with the call of the destroy function left open. -/
def delUseCondWith (invoke : Ptr → Ptr → Ptr → ZlistCmd Unit) (thiz : Option Handle)
    (cmp : Ptr → Bool) : ZlistCmd ℤ := do
  match thiz with
  | some thiz =>
    if ← empty thiz then
      return -1
    heapLoop (fun (cursor, delNum) ↦ do
      let next := (← load cursor).next
      if next ≠ thiz.head then
        let n ← load next
        if ← compare cmp n.data then
          removeWith invoke thiz next
          return .inl (n.prev, ← increment delNum)
        else
          return .inl (next, delNum)
      else
        return .inr delNum) (thiz.head, 0)
  | none => return -1

theorem delUseCond_eq : delUseCond = delUseCondWith fun _ ↦ call := by
  funext thiz cmp
  cases thiz <;> rfl

/-- **`delUseCond` filters the list** in one pass. -/
theorem wp_delUseCondWith {invoke : Ptr → Ptr → Ptr → ZlistCmd Unit}
    (hinvoke : Invokes invoke thiz) (hring : Ring m.heap thiz.head entries) {cmp : Ptr → Bool}
    (hsmall : (entries.filter fun e ↦ cmp e.2).length < 2 ^ 31)
    {post : ℤ → Mem Node Vars → Prop} (hempty : entries = [] → post (-1) m)
    (hpost : ∀ h', entries ≠ [] → Ring h' thiz.head (entries.filter fun e ↦ !cmp e.2) →
      post (entries.filter fun e ↦ cmp e.2).length
        ⟨h', { m.vars with
          calls := m.vars.calls ++
            releasedAll thiz.ddfunc ((entries.map Prod.snd).filter cmp)
          compared := m.vars.compared ++ entries.map Prod.snd }⟩) :
    wp (delUseCondWith invoke thiz cmp) post m := by
  unfold delUseCondWith
  simp only [wp_bind, wp_empty hring, decide_eq_true_eq]
  rw [wp_ite]
  split
  · next hnil =>
    rw [wp_pure]
    exact hempty hnil
  next hne =>
  -- `xs` are the entries that were looked at, `ys` those ahead
  refine wp_heapLoop (fun measure (locals : Ptr × ℤ) m' ↦ ∃ xs ys, entries = xs ++ ys ∧
    measure = ys.length ∧ Ring m'.heap thiz.head ((xs.filter fun e ↦ !cmp e.2) ++ ys) ∧
    locals.1 = lastOf thiz.head (addrs (xs.filter fun e ↦ !cmp e.2)) ∧
    locals.2 = (xs.filter fun e ↦ cmp e.2).length ∧
    m'.vars = { m.vars with
      calls := m.vars.calls ++ releasedAll thiz.ddfunc ((xs.map Prod.snd).filter cmp)
      compared := m.vars.compared ++ xs.map Prod.snd })
    (fun measure locals m' hinv ↦ ?_)
    ⟨[], entries, rfl, rfl, hring, rfl, rfl, by simp [releasedAll]⟩
    (by rw [hring.live]; omega)
  obtain ⟨xs, ys, hentries, hmeasure, hring', hcursor, hnum, hvars⟩ := hinv
  obtain ⟨cursor, delNum⟩ := locals
  dsimp only at hcursor hnum
  subst hcursor hnum
  obtain ⟨n, hn, hnext⟩ := hring'.cursor
  simp only [wp_bind, wp_load, hn, hnext, Option.some.injEq, exists_eq_left']
  rw [wp_ite]
  obtain _ | ⟨⟨p, d⟩, ys⟩ := ys
  · rw [if_neg (fun hne ↦ hne rfl), wp_pure]
    rw [List.append_nil] at hentries hring'
    subst hentries
    obtain ⟨heap, vars⟩ := m'
    dsimp only at hvars
    subst hvars
    exact hpost heap hne hring'
  · rw [if_pos (fun heq ↦ by simpa using hring'.firstOf_eq_head.1 heq)]
    unfold compare
    simp only [firstOf, wp_bind, wp_load, List.map_cons, hring'.node, Option.some.injEq,
      exists_eq_left', wp_modifyVars, wp_pure]
    have hxs : entries = (xs ++ [(p, d)]) ++ ys := by rw [hentries, List.append_cons]
    have hlength : ys.length < measure := by
      rw [hmeasure, List.length_cons]
      omega
    rw [wp_ite]
    split
    · next hcmp =>
      rw [wp_bind]
      have hmem : Ring (Mem.mk m'.heap { m'.vars with compared := m'.vars.compared ++ [d] }).heap
        thiz.head _ := hring'
      refine wp_removeWith hinvoke hmem fun h' hring'' ↦ ?_
      simp only [wp_bind, wp_increment, wp_pure]
      have hcount : (xs.filter fun e ↦ cmp e.2).length + 1 < 2 ^ 31 := by
        rw [hentries, List.filter_append, List.filter_cons_of_pos (by simpa using hcmp),
          List.length_append, List.length_cons] at hsmall
        omega
      refine ⟨by omega, ys.length, hlength, xs ++ [(p, d)], ys, hxs, rfl, ?_, ?_, ?_, ?_⟩
      · simpa [hcmp] using hring''
      · simp [hcmp]
      · simp [hcmp]
      · simp [hvars, hcmp, releasedAll]
    · next hcmp =>
      rw [wp_pure]
      refine ⟨ys.length, hlength, xs ++ [(p, d)], ys, hxs, rfl, ?_, ?_, ?_, ?_⟩
      · simpa [hcmp] using hring'
      · simp [hcmp, lastOf_concat]
      · simp [hcmp]
      · simp [hvars, hcmp]

theorem wp_delUseCond (hring : Ring m.heap thiz.head entries) {cmp : Ptr → Bool}
    (hsmall : (entries.filter fun e ↦ cmp e.2).length < 2 ^ 31)
    {post : ℤ → Mem Node Vars → Prop} (hempty : entries = [] → post (-1) m)
    (hpost : ∀ h', entries ≠ [] → Ring h' thiz.head (entries.filter fun e ↦ !cmp e.2) →
      post (entries.filter fun e ↦ cmp e.2).length
        ⟨h', { m.vars with
          calls := m.vars.calls ++
            releasedAll thiz.ddfunc ((entries.map Prod.snd).filter cmp)
          compared := m.vars.compared ++ entries.map Prod.snd }⟩) :
    wp (delUseCond thiz cmp) post m := by
  rw [delUseCond_eq]
  exact wp_delUseCondWith (invokes_call thiz) hring hsmall hempty hpost

theorem wp_clear (hring : Ring m.heap thiz.head entries) {post : Unit → Mem Node Vars → Prop}
    (hpost : ∀ h', Ring h' thiz.head [] → post () ⟨h', { m.vars with
      calls := m.vars.calls ++ releasedAll thiz.ddfunc (entries.map Prod.snd).reverse }⟩) :
    wp (clear thiz) post m := by
  unfold clear
  simp only [wp_bind, wp_empty hring, decide_eq_true_eq]
  rw [wp_ite]
  split
  · next hnil =>
    subst hnil
    rw [wp_pure]
    simpa [releasedAll] using hpost m.heap hring
  -- `ys` are the entries that are gone
  refine wp_heapLoop (fun measure cursor m' ↦ ∃ xs ys, entries = xs ++ ys ∧ measure = xs.length ∧
    cursor = thiz.head ∧ Ring m'.heap thiz.head xs ∧ m'.vars = { m.vars with
      calls := m.vars.calls ++ releasedAll thiz.ddfunc (ys.map Prod.snd).reverse })
    (fun measure cursor m' hinv ↦ ?_)
    ⟨entries, [], (List.append_nil _).symm, rfl, rfl, hring, by simp [releasedAll]⟩
    (by rw [hring.live]; omega)
  obtain ⟨xs, ys, hentries, hmeasure, rfl, hring', hvars⟩ := hinv
  have hfirst : Ring m'.heap thiz.head ([] ++ xs) := hring'
  simp only [wp_bind, wp_load, hring'.sentinel_cell, Option.some.injEq, exists_eq_left']
  rw [wp_ite]
  split
  · next hmore =>
    rw [wp_bind]
    apply wp_deltail hring'
    · rintro rfl
      exact absurd rfl hmore
    · rintro xs' p d h' rfl hring''
      rw [wp_pure]
      refine ⟨xs'.length, ?_, xs', (p, d) :: ys, ?_, rfl, rfl, hring'', ?_⟩
      · rw [hmeasure, List.length_append, List.length_singleton]
        omega
      · rw [hentries, List.append_assoc]
        rfl
      · simp [hvars, releasedAll]
  · next hdone =>
    rw [wp_pure]
    have hxs : xs = [] := by
      rw [← hfirst.firstOf_eq_head]
      by_contra hne
      exact hdone hne
    subst hxs
    obtain ⟨heap, vars⟩ := m'
    dsimp only at hvars
    subst hvars hentries
    exact hpost heap hring'

/-- Every node is freed, the sentinel last, which holds no data. -/
theorem wp_destroy (hlist : m.vars.list = some thiz) (hring : Ring m.heap thiz.head entries)
    {post : Unit → Mem Node Vars → Prop}
    (hpost : ∀ h', h'.live = 0 → post () ⟨h', { m.vars with
      list := none
      calls := m.vars.calls ++ releasedAll thiz.ddfunc (entries.map Prod.snd).reverse }⟩) :
    wp destroy post m := by
  unfold destroy
  simp only [wp_bind, wp_getVars, hlist]
  apply wp_clear hring
  intro h₁ hring₁
  have hcell := hring₁.sentinel_cell
  refine wp_destroyNode hcell fun h₂ hlive _ _ ↦ ?_
  rw [wp_modifyVars]
  have hnone : released thiz.ddfunc NULL = [] := by simp [released]
  simp only [hnone, List.append_nil]
  apply hpost
  have hlive₁ := hring₁.live
  simp only [hlive₁] at hlive
  exact hlive

/-! ## Replacing -/

theorem wp_sethead (hring : Ring m.heap thiz.head entries)
    (hddfunc : (entries.map Prod.snd).headD NULL ≠ NULL → thiz.ddfunc ≠ NULL)
    {post : Unit → Mem Node Vars → Prop} (hempty : entries = [] → post () m)
    (hpost : ∀ p d ys h', entries = (p, d) :: ys → Ring h' thiz.head ((p, data) :: ys) →
      post () ⟨h', { m.vars with calls := m.vars.calls ++ released thiz.ddfunc d }⟩) :
    wp (sethead thiz data) post m := by
  unfold sethead
  apply wp_atHead (fun p ↦ replace thiz p data) hring hempty
  rintro p d ys rfl hplace
  exact wp_replace hplace hddfunc fun h' hring' ↦ hpost p d ys h' rfl hring'

theorem wp_settail (hring : Ring m.heap thiz.head entries)
    (hddfunc : (entries.map Prod.snd).getLastD NULL ≠ NULL → thiz.ddfunc ≠ NULL)
    {post : Unit → Mem Node Vars → Prop} (hempty : entries = [] → post () m)
    (hpost : ∀ xs p d h', entries = xs ++ [(p, d)] → Ring h' thiz.head (xs ++ [(p, data)]) →
      post () ⟨h', { m.vars with calls := m.vars.calls ++ released thiz.ddfunc d }⟩) :
    wp (settail thiz data) post m := by
  unfold settail
  apply wp_atTail (fun p ↦ replace thiz p data) hring hempty
  rintro xs p d rfl
  refine wp_replace hring (fun hd ↦ hddfunc ?_) fun h' hring' ↦ hpost xs p d h' rfl hring'
  simpa using hd

theorem wp_set (hring : Ring m.heap thiz.head entries) {index : ℤ}
    (hddfunc : 0 ≤ index → (entries.map Prod.snd).getD index.toNat NULL ≠ NULL → thiz.ddfunc ≠ NULL)
    {post : ℤ → Mem Node Vars → Prop}
    (hout : index < 0 ∨ entries.length ≤ index → post (-1) m)
    (hin : ∀ xs p d ys h', entries = xs ++ (p, d) :: ys → (xs.length : ℤ) = index →
      Ring h' thiz.head (xs ++ (p, data) :: ys) →
      post 0 ⟨h', { m.vars with calls := m.vars.calls ++ released thiz.ddfunc d }⟩) :
    wp (set thiz data index) post m := by
  unfold set
  dsimp only
  rw [wp_ite]
  split
  · next hneg =>
    rw [wp_pure]
    exact hout (Or.inl hneg)
  apply wp_atIndex hring hout
  rintro xs p d ys rfl hindex
  rw [wp_bind]
  have hold : (xs.map Prod.snd ++ d :: ys.map Prod.snd).getD index.toNat NULL = d := by
    rw [← hindex]
    simp
  rw [List.map_append, List.map_cons, hold] at hddfunc
  refine wp_replace hring (hddfunc (by omega)) fun h' hring' ↦ ?_
  rw [wp_pure]
  exact hin xs p d ys h' rfl hindex hring'

/-! ## Creation -/

theorem wp_create {ddfunc : Ptr} (hlive : m.heap.live = 0) (haddr : addr ≠ NULL)
    (hfree : m.heap.cell addr = none) {post : Unit → Mem Node Vars → Prop}
    (hpost : ∀ h', Ring h' addr [] → post () ⟨h', { m.vars with list := some ⟨addr, ddfunc⟩ }⟩) :
    wp (create true addr ddfunc) post m := by
  unfold create
  simp only [wp_bind, wp_require]
  refine ⟨trivial, wp_createNode haddr hfree fun h₁ hcreated ↦ ?_⟩
  have hsome : (h₁.cell addr).isSome := by
    rw [hcreated.cell]
    rfl
  simp only [wp_update, wp_modifyVars, ← Option.isSome_iff_exists, Heap.isSome_cell_update]
  refine ⟨hsome, hsome, hpost _ ⟨fun a b hab ↦ ?_, fun p d he ↦ (List.not_mem_nil he).elim, ?_,
    List.nodup_singleton addr, ?_⟩⟩
  · cases List.mem_singleton.1 hab
    rw [nextOf_setPrev, nextOf_setNext _ _ hsome, prevOf_setPrev _ _ (by simpa using hsome),
      if_pos rfl, if_pos rfl]
    exact ⟨rfl, rfl⟩
  · rw [dataOf_setPrev, dataOf_setNext, dataOf, Heap.field, hcreated.cell]
    rfl
  · exact hcreated.live.trans (by rw [hlive]; rfl)

end

end Zbaselib.Zlist
