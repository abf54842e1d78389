import Zbaselib.Zlist.Manual

/-!
# Iterators

An iterator is a list and a node pointer that outlives a traversal.  The loop of
a client starts with `iteraterFirst` and goes on with `iteraterNext` until
`iteraterIsend`.
-/

namespace Zbaselib.Zlist

open Program Memory Transition

/-! ## The functions of the source -/

/-- `struct _zbaselib_list_iterater` -/
structure Iterater where
  list : Option Handle
  node : Ptr
  deriving DecidableEq

def getHeadnode (thiz : Option Handle) : ZlistCmd Ptr := do
  match thiz with
  | some thiz =>
    if ← empty thiz then
      return NULL
    return (← load thiz.head).next
  | none => return NULL

def getTailnode (thiz : Option Handle) : ZlistCmd Ptr := do
  match thiz with
  | some thiz =>
    if ← empty thiz then
      return NULL
    return (← load thiz.head).prev
  | none => return NULL

def isend (node : Ptr) (thiz : Option Handle) : Bool :=
  match thiz with
  | some thiz => node = NULL ∨ node = thiz.head
  | none => true

/-- `memory` says whether there is memory for the iterator. -/
def iteraterCreate (memory : Bool) (list : Option Handle) : ZlistCmd (Option Iterater) := do
  match list with
  | some list =>
    require memory
    return some ⟨some list, NULL⟩
  | none => return none

/-- The answer and the iterator afterwards. -/
def iteraterFirst (thiz : Option Iterater) : ZlistCmd (Ptr × Option Iterater) := do
  match thiz with
  | some thiz =>
    if thiz.list.isNone then
      return (NULL, some thiz)
    let first ← getHeadnode thiz.list
    if first ≠ NULL then
      return ((← load first).data, some { thiz with node := first })
    else
      return (NULL, some thiz)
  | none => return (NULL, none)

def iteraterNext (thiz : Option Iterater) : ZlistCmd (Ptr × Option Iterater) := do
  match thiz with
  | some thiz =>
    if thiz.list.isNone then
      return (NULL, some thiz)
    if isend thiz.node thiz.list then
      return (NULL, some thiz)
    else
      let next := (← load thiz.node).next
      return ((← load next).data, some { thiz with node := next })
  | none => return (NULL, none)

def iteraterLast (thiz : Option Iterater) : ZlistCmd (Ptr × Option Iterater) := do
  match thiz with
  | some thiz =>
    if thiz.list.isNone then
      return (NULL, some thiz)
    let node ← getTailnode thiz.list
    if node ≠ NULL then
      return ((← load node).data, some { thiz with node })
    else
      return (NULL, some thiz)
  | none => return (NULL, none)

def iteraterIsend (thiz : Option Iterater) : ZlistCmd Bool := do
  match thiz with
  | some thiz => return isend thiz.node thiz.list
  | none => failure

/-- One round of a client's loop, which keeps the values that `p` had in the body. -/
def visit (visited : List Ptr) (p : Ptr) (thiz : Option Iterater) :
    ZlistCmd ((List Ptr × Ptr × Option Iterater) ⊕ (List Ptr × Option Iterater)) := do
  if ← iteraterIsend thiz then
    return .inr (visited, thiz)
  else
    let next ← iteraterNext thiz
    return .inl (visited ++ [p], next)

/-- `for(p = first(); !isend(); p = next())` -/
def traversal (thiz : Option Iterater) : ZlistCmd (List Ptr × Option Iterater) := do
  let first ← iteraterFirst thiz
  heapLoop (fun locals ↦ visit locals.1 locals.2.1 locals.2.2) ([], first)

/-! ## One traversal -/

/-- The values in the body are the data of the list, and the list is left alone. -/
def Visits (m : Mem Node Vars) (thiz : Option Iterater) : Prop :=
  wp (traversal thiz) (fun out m' ↦ m' = m ∧ some out.1 = itemsOf m) m

section

variable {m : Mem Node Vars} {thiz : Handle} {entries : List (Ptr × Ptr)} {node : Ptr}

theorem wp_getHeadnode (hring : Ring m.heap thiz.head entries)
    {post : Ptr → Mem Node Vars → Prop}
    (hpost : post (if entries = [] then NULL else firstOf thiz.head (addrs entries)) m) :
    wp (getHeadnode thiz) post m := by
  unfold getHeadnode
  simp only [wp_bind, wp_empty hring, decide_eq_true_eq]
  rw [wp_ite]
  split
  · next hnil =>
    rw [wp_pure]
    rwa [if_pos hnil] at hpost
  · next hne =>
    simp only [wp_bind, wp_load, hring.sentinel_cell, Option.some.injEq, exists_eq_left', wp_pure]
    rwa [if_neg hne] at hpost

/-- The datum of a node, or of the sentinel. -/
theorem cell_firstOf (xs : List (Ptr × Ptr)) {ys : List (Ptr × Ptr)}
    (hring : Ring m.heap thiz.head (xs ++ ys)) :
    ∃ n, m.heap.cell (firstOf thiz.head (addrs ys)) = some n ∧
      n.data = (ys.map Prod.snd).headD NULL := by
  obtain _ | ⟨⟨p, d⟩, ys⟩ := ys
  · exact ⟨_, hring.sentinel_cell, rfl⟩
  · exact ⟨_, hring.node, rfl⟩

/-- **The loop** from a place in the list visits what is ahead. -/
theorem wp_traversal_loop {visited : List Ptr} (xs : List (Ptr × Ptr)) {ys : List (Ptr × Ptr)}
    (hring : Ring m.heap thiz.head (xs ++ ys))
    {post : List Ptr × Option Iterater → Mem Node Vars → Prop}
    (hpost : post (visited ++ ys.map Prod.snd, some ⟨some thiz, thiz.head⟩) m) :
    wp (heapLoop (fun locals ↦ visit locals.1 locals.2.1 locals.2.2) (visited,
      (ys.map Prod.snd).headD NULL, some ⟨some thiz, firstOf thiz.head (addrs ys)⟩)) post m := by
  refine wp_heapLoop (fun measure (locals : List Ptr × Ptr × Option Iterater) m' ↦ m' = m ∧
    ∃ xs' ys' : List (Ptr × Ptr), xs ++ ys = xs' ++ ys' ∧ measure = ys'.length ∧
      locals.1 ++ ys'.map Prod.snd = visited ++ ys.map Prod.snd ∧
      locals.2.1 = (ys'.map Prod.snd).headD NULL ∧
      locals.2.2 = some ⟨some thiz, firstOf thiz.head (addrs ys')⟩)
    ?_ ⟨rfl, xs, ys, rfl, rfl, rfl, rfl, rfl⟩ ?_
  · rintro measure ⟨visited', p, it⟩ m' ⟨rfl, xs', ys', hsplit, rfl, hvisited, hp, hit⟩
    dsimp only at hvisited hp hit
    subst hp hit
    rw [hsplit] at hring
    have hfirst : firstOf thiz.head (addrs ys') ≠ NULL := hring.ne_null firstOf_mem_place
    unfold visit
    simp only [iteraterIsend, wp_bind, wp_pure, isend, hfirst, false_or, decide_eq_true_eq]
    rw [wp_ite]
    obtain _ | ⟨⟨q, d⟩, ys'⟩ := ys'
    · have hend : firstOf thiz.head (addrs []) = thiz.head := rfl
      rw [if_pos hend, wp_pure]
      rw [← hvisited, List.map_nil, List.append_nil] at hpost
      exact hpost
    · have hne : firstOf thiz.head (addrs ((q, d) :: ys')) ≠ thiz.head := fun heq ↦ by
        simpa using hring.firstOf_eq_head.1 heq
      have hnode := hring.node
      rw [List.append_cons] at hring hsplit
      obtain ⟨n, hn, hdata⟩ := cell_firstOf (xs' ++ [(q, d)]) hring
      rw [if_neg hne]
      unfold iteraterNext
      simp only [wp_bind]
      rw [wp_ite, if_neg (by simp), wp_ite, if_neg (by simpa [isend] using ⟨hfirst, hne⟩), wp_bind]
      refine (wp_load _ _ _).2 ⟨_, hnode, ?_⟩
      rw [wp_bind]
      refine (wp_load _ _ _).2 ⟨n, hn, ?_⟩
      rw [wp_pure, wp_pure]
      refine ⟨ys'.length, by simp, rfl, xs' ++ [(q, d)], ys', hsplit, rfl, ?_, hdata, rfl⟩
      rw [← hvisited]
      simp
  · rw [hring.live, List.length_append]
    omega

/-- A list that has elements, or an iterator that points nowhere or to the sentinel. -/
theorem wp_traversal (hring : Ring m.heap thiz.head entries)
    (hnode : entries ≠ [] ∨ node = NULL ∨ node = thiz.head)
    {post : List Ptr × Option Iterater → Mem Node Vars → Prop}
    (hpost : ∀ node', node' = NULL ∨ node' = thiz.head →
      post (entries.map Prod.snd, some ⟨some thiz, node'⟩) m) :
    wp (traversal (some ⟨some thiz, node⟩)) post m := by
  unfold traversal iteraterFirst
  simp only [wp_bind]
  rw [wp_ite, if_neg (by simp), wp_bind]
  apply wp_getHeadnode hring
  obtain _ | ⟨e, ys⟩ := entries
  · have hend : node = NULL ∨ node = thiz.head := hnode.resolve_left fun hne ↦ hne rfl
    rw [if_pos rfl, wp_ite, if_neg (not_not.2 rfl), wp_pure]
    refine wp_heapLoop (fun _ (locals : List Ptr × Ptr × Option Iterater) m' ↦ m' = m ∧
      locals = ([], NULL, some ⟨some thiz, node⟩)) ?_ ⟨rfl, rfl⟩ (Nat.succ_pos _)
    rintro measure _ _ ⟨rfl, rfl⟩
    unfold visit
    simp only [iteraterIsend, wp_bind, wp_pure, isend, hend, decide_true]
    rw [wp_ite, if_pos trivial, wp_pure]
    exact hpost node hend
  · have hplace : Ring m.heap thiz.head ([] ++ e :: ys) := hring
    have hfirst : firstOf thiz.head (addrs (e :: ys)) ≠ NULL := hplace.ne_null firstOf_mem_place
    obtain ⟨n, hn, hdata⟩ := cell_firstOf [] hplace
    rw [if_neg (List.cons_ne_nil _ _), wp_ite, if_pos hfirst, wp_bind]
    refine (wp_load _ _ _).2 ⟨n, hn, ?_⟩
    rw [wp_pure, hdata]
    exact wp_traversal_loop [] hplace (hpost thiz.head (Or.inr rfl))

/-- A round ends the loop or appends to what was visited. -/
theorem of_wp_visit {visited : List Ptr} {p : Ptr} {it : Option Iterater}
    {post : (List Ptr × Ptr × Option Iterater) ⊕ (List Ptr × Option Iterater) →
      Mem Node Vars → Prop} (h : wp (visit visited p it) post m) :
    (∃ it', it = some it' ∧ isend it'.node it'.list = true ∧ post (.inr (visited, it)) m) ∨
      ∃ next m', post (.inl (visited ++ [p], next)) m' := by
  unfold visit iteraterIsend at h
  cases it with
  | none => simp at h
  | some it =>
    simp only [wp_bind, wp_pure] at h
    rw [wp_ite] at h
    by_cases hend : isend it.node it.list = true
    · rw [if_pos hend, wp_pure] at h
      exact Or.inl ⟨it, rfl, hend, h⟩
    · rw [if_neg hend, wp_bind] at h
      obtain ⟨next, m', -, h⟩ := h
      rw [wp_pure] at h
      exact Or.inr ⟨next, m', h⟩

/-- What was visited stays visited. -/
theorem of_wp_visits {visited : List Ptr} (hvisited : visited ≠ []) {fuel : ℕ}
    {next : Ptr × Option Iterater} {out : List Ptr × Option Iterater} {m' : Mem Node Vars}
    (hrun : (loop (fun locals : List Ptr × Ptr × Option Iterater ↦
      visit locals.1 locals.2.1 locals.2.2) fuel (visited, next)).run m = some (out, m')) :
    out.1 ≠ [] := by
  refine loop_outcome (fun (locals : List Ptr × Ptr × Option Iterater) _ ↦ locals.1 ≠ [])
    (fun (out : List Ptr × Option Iterater) _ ↦ out.1 ≠ []) ?_ hrun hvisited
  intro locals m₁ result m₂ hinv hstep
  have hwp : wp (visit locals.1 locals.2.1 locals.2.2) (fun r a ↦ r = result ∧ a = m₂) m₁ :=
    ⟨_, _, hstep, rfl, rfl⟩
  obtain ⟨it, -, -, rfl, -⟩ | ⟨next', m₃, rfl, -⟩ := of_wp_visit hwp
  · exact hinv
  · exact List.append_ne_nil_of_right_ne_nil _ (List.cons_ne_nil _ _)

/-- The body is entered when an empty list leaves the iterator at another node. -/
theorem not_visits_empty (hlist : m.vars.list = some thiz) (hring : Ring m.heap thiz.head [])
    (hnode : ¬(node = NULL ∨ node = thiz.head)) : ¬Visits m (some ⟨some thiz, node⟩) := by
  intro hvisits
  have hitems : itemsOf m = some [] := hring.itemsOf_eq hlist
  unfold Visits traversal iteraterFirst at hvisits
  simp only [wp_bind] at hvisits
  rw [wp_ite, if_neg (by simp), wp_bind] at hvisits
  have hhead : wp (getHeadnode thiz) (fun first m' ↦ first = NULL ∧ m' = m) m :=
    wp_getHeadnode hring ⟨rfl, rfl⟩
  obtain ⟨first, m', -, hvisits, hfirst, hm'⟩ := wp_and hvisits hhead
  rw [hfirst, hm', wp_ite, if_neg (not_not.2 rfl), wp_pure] at hvisits
  unfold heapLoop at hvisits
  rw [wp_bind, Program.wp_get, loop, wp_bind] at hvisits
  obtain ⟨it, hit, hend, -⟩ | ⟨next, m₁, out, after, hrun, -, hvisited⟩ := of_wp_visit hvisits
  · cases hit
    exact hnode (by simpa [isend] using hend)
  · rw [hitems, Option.some_inj] at hvisited
    exact of_wp_visits (List.append_ne_nil_of_right_ne_nil _ (List.cons_ne_nil _ _)) hrun hvisited

end

/-! ## Runs of a client -/

/-- A client with one iterator. -/
structure Client where
  mem : Mem Node Vars
  iterater : Option Iterater

inductive Call
  | onList (op : Op)
  | create
  | first
  | next
  | last
  | isend

/-- The answer and the iterator afterwards. -/
def Call.run (iterater : Option Iterater) : Call → ZlistCmd (Result × Option Iterater)
  | .onList op => do
    return (← op.run, iterater)
  | .create => do
    return (.done, ← iteraterCreate true (← getVars).list)
  | .first => do
    let next ← iteraterFirst iterater
    return (.ptr next.1, next.2)
  | .next => do
    let next ← iteraterNext iterater
    return (.ptr next.1, next.2)
  | .last => do
    let next ← iteraterLast iterater
    return (.ptr next.1, next.2)
  | .isend => do
    return (.bool (← iteraterIsend iterater), iterater)

def ClientStep (label : Call × Result) (c c' : Client) : Prop :=
  (∀ op, label.1 = .onList op → Allowed c.mem op) ∧
    (label.1.run c.iterater).run c.mem = some ((label.2, c'.iterater), c'.mem)

/-- The iterator is one of the client's list as long as there is one. -/
structure Bound (ddfunc : Ptr) (c : Client) : Prop where
  sound : Sound ddfunc c.mem
  list : ∀ it ∈ c.iterater, ∀ thiz ∈ c.mem.vars.list, it.list = some thiz

section

variable {m m' : Mem Node Vars} {thiz : Handle} {ddfunc : Ptr} {it : Option Iterater}
  {entries : List (Ptr × Ptr)}

/-- Only the node of an iterator changes. -/
def SameList (it it' : Option Iterater) : Prop := it'.map Iterater.list = it.map Iterater.list

theorem leaves_empty (list : Option Handle) : Leaves (empty list) := by
  unfold empty
  cases list with
  | none => exact .pure true
  | some thiz => exact (leaves_load thiz.head).bind fun _ ↦ .pure _

theorem leaves_getHeadnode (list : Option Handle) : Leaves (getHeadnode list) := by
  unfold getHeadnode
  cases list with
  | none => exact .pure NULL
  | some thiz =>
    refine (leaves_empty _).bind fun _ ↦ .ite (.pure _) ?_
    exact (leaves_load thiz.head).bind fun _ ↦ .pure _

theorem leaves_getTailnode (list : Option Handle) : Leaves (getTailnode list) := by
  unfold getTailnode
  cases list with
  | none => exact .pure NULL
  | some thiz =>
    refine (leaves_empty _).bind fun _ ↦ .ite (.pure _) ?_
    exact (leaves_load thiz.head).bind fun _ ↦ .pure _

/-- `first` and `last` point the iterator to the node that they get, if there is one. -/
theorem of_wp_seek {node : Ptr} {it : Iterater}
    {post : Ptr × Option Iterater → Mem Node Vars → Prop}
    (h : wp (do
      if node ≠ NULL then
        return ((← load node).data, some { it with node })
      else
        return (NULL, some it)) post m) :
    ∃ p it', post (p, it') m ∧ SameList (some it) it' := by
  rw [wp_ite] at h
  split at h
  · simp only [wp_bind, wp_load, wp_pure] at h
    obtain ⟨n, -, h⟩ := h
    exact ⟨_, _, h, rfl⟩
  · exact ⟨NULL, some it, (wp_pure _ _ _).1 h, rfl⟩

theorem of_wp_iteraterFirst {post : Ptr × Option Iterater → Mem Node Vars → Prop}
    (h : wp (iteraterFirst it) post m) : ∃ p it', post (p, it') m ∧ SameList it it' := by
  unfold iteraterFirst at h
  cases it with
  | none => exact ⟨NULL, none, (wp_pure _ _ _).1 h, rfl⟩
  | some it =>
    dsimp only at h
    rw [wp_ite] at h
    split at h
    · exact ⟨NULL, some it, (wp_pure _ _ _).1 h, rfl⟩
    · rw [wp_bind] at h
      obtain ⟨first, h⟩ := (leaves_getHeadnode it.list).of_wp h
      exact of_wp_seek h

theorem of_wp_iteraterLast {post : Ptr × Option Iterater → Mem Node Vars → Prop}
    (h : wp (iteraterLast it) post m) : ∃ p it', post (p, it') m ∧ SameList it it' := by
  unfold iteraterLast at h
  cases it with
  | none => exact ⟨NULL, none, (wp_pure _ _ _).1 h, rfl⟩
  | some it =>
    dsimp only at h
    rw [wp_ite] at h
    split at h
    · exact ⟨NULL, some it, (wp_pure _ _ _).1 h, rfl⟩
    · rw [wp_bind] at h
      obtain ⟨last, h⟩ := (leaves_getTailnode it.list).of_wp h
      exact of_wp_seek h

theorem of_wp_iteraterNext {post : Ptr × Option Iterater → Mem Node Vars → Prop}
    (h : wp (iteraterNext it) post m) : ∃ p it', post (p, it') m ∧ SameList it it' := by
  unfold iteraterNext at h
  cases it with
  | none => exact ⟨NULL, none, (wp_pure _ _ _).1 h, rfl⟩
  | some it =>
    dsimp only at h
    rw [wp_ite] at h
    split at h
    · exact ⟨NULL, some it, (wp_pure _ _ _).1 h, rfl⟩
    · rw [wp_ite] at h
      split at h
      · exact ⟨NULL, some it, (wp_pure _ _ _).1 h, rfl⟩
      · simp only [wp_bind, wp_load, wp_pure] at h
        obtain ⟨n, -, n', -, h⟩ := h
        exact ⟨_, _, h, rfl⟩

/-- A call that has an outcome leaves the client's pointer alone or clears it. -/
theorem list_of_step (hsound : Sound ddfunc m) {label : Op × Result} (hstep : Step label m m')
    (hlist : m'.vars.list = some thiz) : m.vars.list = some thiz := by
  have hddfunc : overwritten label.1 ((itemsOf m).getD []) ≠ NULL → ddfunc ≠ NULL := by
    rintro hold rfl
    have hwp : wp label.1.run (fun _ _ ↦ True) m := ⟨_, _, hstep.2, trivial⟩
    exact hold (overwritten_of_wp hsound hwp)
  unfold Sound at hsound
  cases hbefore : m.vars.list with
  | none =>
    have hsame := wp_outcome (wp_run_null hbefore) hstep.2
    rw [hsame.2, hbefore] at hlist
    cases hlist
  | some thiz' =>
    rw [hbefore] at hsound
    obtain ⟨rfl, entries, hring⟩ := hsound
    rw [hring.itemsOf_eq hbefore] at hddfunc
    obtain ⟨-, hrep, -⟩ := wp_outcome (wp_run hbefore hring hddfunc hstep.1) hstep.2
    cases hitems : (specLive label.1 (entries.map Prod.snd)).items with
    | none =>
      rw [hitems] at hrep
      rw [hrep.1] at hlist
      cases hlist
    | some items =>
      rw [hitems] at hrep
      rw [hrep.1] at hlist
      exact hlist

theorem Bound.of_sameList {c c' : Client} (h : Bound ddfunc c) (hmem : c'.mem = c.mem)
    (hsame : SameList c.iterater c'.iterater) : Bound ddfunc c' := by
  refine ⟨hmem ▸ h.sound, fun it' hit' thiz hthiz ↦ ?_⟩
  rw [hmem] at hthiz
  rw [SameList, hit', Option.map_some, eq_comm, Option.map_eq_some_iff] at hsame
  obtain ⟨it, hit, hlist⟩ := hsame
  rw [← hlist]
  exact h.list it hit thiz hthiz

/-- **Every call of the client** keeps the iterator on its list. -/
theorem Bound.step {label : Call × Result} {c c' : Client} (h : Bound ddfunc c)
    (hstep : ClientStep label c c') : Bound ddfunc c' := by
  obtain ⟨call, result⟩ := label
  obtain ⟨hop, hrun⟩ := hstep
  have hwp : wp (call.run c.iterater) (fun r a ↦ r = (result, c'.iterater) ∧ a = c'.mem) c.mem :=
    ⟨_, _, hrun, rfl, rfl⟩
  cases call with
  | onList op =>
    simp only [Call.run, wp_bind, wp_pure] at hwp
    obtain ⟨result', m', hrun', hresult, rfl⟩ := hwp
    have hstep : Step (op, result') c.mem c'.mem := ⟨hop op rfl, hrun'⟩
    obtain ⟨-, hiterater⟩ := Prod.mk.inj hresult
    refine ⟨h.sound.step hstep, fun it hit thiz hthiz ↦ ?_⟩
    rw [← hiterater] at hit
    exact h.list it hit thiz (list_of_step h.sound hstep hthiz)
  | create =>
    simp only [Call.run, wp_bind, wp_getVars] at hwp
    unfold iteraterCreate at hwp
    cases hlist : c.mem.vars.list with
    | none =>
      simp only [hlist, wp_pure] at hwp
      obtain ⟨hresult, hmem⟩ := hwp
      obtain ⟨-, hiterater⟩ := Prod.mk.inj hresult
      refine ⟨hmem ▸ h.sound, fun it hit ↦ ?_⟩
      rw [← hiterater] at hit
      cases hit
    | some thiz =>
      simp only [hlist, wp_bind, wp_require, wp_pure] at hwp
      obtain ⟨-, hresult, hmem⟩ := hwp
      obtain ⟨-, hiterater⟩ := Prod.mk.inj hresult
      refine ⟨hmem ▸ h.sound, fun it hit thiz' hthiz' ↦ ?_⟩
      rw [← hiterater] at hit
      rw [← hmem, hlist] at hthiz'
      cases hit
      exact hthiz'
  | first =>
    simp only [Call.run, wp_bind, wp_pure] at hwp
    obtain ⟨p, it', ⟨hresult, hmem⟩, hsame⟩ := of_wp_iteraterFirst hwp
    obtain ⟨-, rfl⟩ := Prod.mk.inj hresult
    exact h.of_sameList hmem.symm hsame
  | next =>
    simp only [Call.run, wp_bind, wp_pure] at hwp
    obtain ⟨p, it', ⟨hresult, hmem⟩, hsame⟩ := of_wp_iteraterNext hwp
    obtain ⟨-, rfl⟩ := Prod.mk.inj hresult
    exact h.of_sameList hmem.symm hsame
  | last =>
    simp only [Call.run, wp_bind, wp_pure] at hwp
    obtain ⟨p, it', ⟨hresult, hmem⟩, hsame⟩ := of_wp_iteraterLast hwp
    obtain ⟨-, rfl⟩ := Prod.mk.inj hresult
    exact h.of_sameList hmem.symm hsame
  | isend =>
    unfold Call.run iteraterIsend at hwp
    cases hit : c.iterater with
    | none => simp [hit] at hwp
    | some it =>
      simp only [hit, wp_bind, wp_pure] at hwp
      obtain ⟨hresult, hmem⟩ := hwp
      obtain ⟨-, hiterater⟩ := Prod.mk.inj hresult
      refine h.of_sameList hmem.symm ?_
      rw [← hiterater, hit]
      rfl

/-! ## The list and its positions -/

theorem visits_iff_of_ring (hlist : m.vars.list = some thiz)
    (hring : Ring m.heap thiz.head entries) (node : Ptr) :
    Visits m (some ⟨some thiz, node⟩) ↔
      itemsOf m ≠ some [] ∨ node = NULL ∨ node = thiz.head := by
  have hitems := hring.itemsOf_eq hlist
  constructor
  · intro hvisits
    by_cases hne : entries = []
    · subst hne
      right
      by_contra hnode
      exact not_visits_empty hlist hring hnode hvisits
    · left
      rw [hitems]
      simpa using hne
  · intro hnode
    have hnode' : entries ≠ [] ∨ node = NULL ∨ node = thiz.head := by
      refine hnode.imp_left fun hne hnil ↦ hne ?_
      rw [hitems, hnil]
      rfl
    refine wp_traversal hring hnode' fun node' _ ↦ ⟨rfl, ?_⟩
    rw [hitems]

/-- The value at a position is what `get` returns there. -/
theorem wp_get_visited (hring : Ring m.heap thiz.head entries) {i : ℕ} {d : Ptr}
    (hd : (entries.map Prod.snd)[i]? = some d) :
    wp (get thiz i) (fun p m' ↦ p = d ∧ m' = m) m := by
  apply wp_get hring
  · intro hout
    have hlt := (List.getElem?_eq_some_iff.1 hd).1
    rw [List.length_map] at hlt
    omega
  · intro xs p d' ys hentries hindex
    refine ⟨?_, rfl⟩
    have hi : i = xs.length := by omega
    rw [hentries, hi] at hd
    simpa using hd

/-- `add` puts its datum before the one at the position. -/
theorem wp_add_visited (hlist : m.vars.list = some thiz) (hring : Ring m.heap thiz.head entries)
    {i : ℕ} (hi : i < entries.length) {addr data : Ptr} (hop : Allowed m (.add addr data i)) :
    wp (add thiz addr data i) (fun ret m' ↦ ret = 0 ∧ itemsOf m' =
      some ((entries.map Prod.snd).take i ++ data :: (entries.map Prod.snd).drop i)) m := by
  have hlive := hop.1
  rw [hring.live] at hlive
  apply wp_add hring hop.2.1 hop.2.2 (by omega)
  · intro hout
    omega
  · intro xs ys h' hentries hindex hring'
    refine ⟨rfl, ?_⟩
    have hxs : i = xs.length := by omega
    have hlist' : (Mem.mk h' m.vars).vars.list = some thiz := hlist
    rw [hring'.itemsOf_eq hlist', hentries, hxs]
    simp

end

/-- **A traversal visits the list in order exactly when the list has an element, or the iterator
was never used or stands at the end.** -/
theorem visits_iff {addr ddfunc : Ptr} {m₀ : Mem Node Vars} {labels : List (Call × Result)}
    {c : Client} {thiz : Handle} {it : Iterater}
    (hcreate : (create true addr ddfunc).run start = some ((), m₀))
    (hrun : Run ClientStep labels ⟨m₀, none⟩ c) (hlist : c.mem.vars.list = some thiz)
    (hit : c.iterater = some it) :
    (Visits c.mem c.iterater ↔
      itemsOf c.mem ≠ some [] ∨ it.node = NULL ∨ it.node = thiz.head) ∧
    ∀ items (i : ℕ) d, itemsOf c.mem = some items → items[i]? = some d →
      wp (get thiz i) (fun p m' ↦ p = d ∧ m' = c.mem) c.mem ∧
      ∀ addr data, Allowed c.mem (.add addr data i) →
        wp (add thiz addr data i) (fun ret m' ↦ ret = 0 ∧
          itemsOf m' = some (items.take i ++ data :: items.drop i)) c.mem := by
  have hbound : Bound ddfunc c :=
    hrun.invariant (Bound ddfunc) (fun _ _ _ h hstep ↦ h.step hstep)
      ⟨(sound_create hcreate).1, fun _ hnone ↦ absurd hnone (Option.not_mem_none _)⟩
  obtain ⟨list, node⟩ := it
  obtain rfl : list = some thiz := hbound.list _ hit thiz hlist
  have hsound := hbound.sound
  unfold Sound at hsound
  rw [hlist] at hsound
  obtain ⟨-, entries, hring⟩ := hsound
  rw [hit]
  refine ⟨visits_iff_of_ring hlist hring node, fun items i d hheld hd ↦ ?_⟩
  rw [hring.itemsOf_eq hlist, Option.some_inj] at hheld
  subst hheld
  have hlt := (List.getElem?_eq_some_iff.1 hd).1
  rw [List.length_map] at hlt
  exact ⟨wp_get_visited hring hd, fun addr data hop ↦ wp_add_visited hlist hring hlt hop⟩

theorem clientStep {call : Call} {result : Result} {c : Client} {m' : Mem Node Vars}
    {it' : Option Iterater} (hop : ∀ op, call = .onList op → Allowed c.mem op)
    (hrun : (call.run c.iterater).run c.mem = some ((result, it'), m')) :
    ClientStep (call, result) c ⟨m', it'⟩ :=
  ⟨hop, hrun⟩

/-- A traversal is broken off at the first element, and another one is added. -/
def grownLabels : List (Call × Result) :=
  [(.onList (.addtail 2 20), .done), (.create, .done), (.first, .ptr 20),
    (.onList (.addtail 3 30), .done)]

theorem grown_run : ∃ m₀ c thiz, (create true 1 9).run start = some ((), m₀) ∧
    Run ClientStep grownLabels ⟨m₀, none⟩ c ∧ c.mem.vars.list = some thiz ∧
      c.iterater = some ⟨some thiz, 2⟩ ∧ itemsOf c.mem = some [20, 30] := by
  refine ⟨_, _, _, rfl, .cons (clientStep ?_ rfl) <| .cons (clientStep ?_ rfl) <|
    .cons (clientStep ?_ rfl) <| .cons (clientStep ?_ rfl) <| .nil _, rfl, rfl, rfl⟩
  · rintro op hop
    cases hop
    exact ⟨by decide, rfl⟩
  · rintro op hop
    cases hop
  · rintro op hop
    cases hop
  · rintro op hop
    cases hop
    exact ⟨by decide, rfl⟩

theorem visits_iff_grown : ∃ (c : Client) (thiz : Handle), c.mem.vars.list = some thiz ∧
    itemsOf c.mem = some [20, 30] ∧ Visits c.mem c.iterater ∧
      wp (get thiz 1) (fun p m' ↦ p = 30 ∧ m' = c.mem) c.mem := by
  obtain ⟨m₀, c, thiz, hcreate, hrun, hlist, hit, hitems⟩ := grown_run
  obtain ⟨hvisits, hget⟩ := visits_iff hcreate hrun hlist hit
  refine ⟨c, thiz, hlist, hitems, hvisits.2 (Or.inl ?_), (hget [20, 30] 1 30 hitems rfl).1⟩
  rw [hitems]
  decide

/-- The only element is deleted instead. -/
def shrunkLabels : List (Call × Result) :=
  [(.onList (.addtail 2 20), .done), (.create, .done), (.first, .ptr 20),
    (.onList .delhead, .done)]

theorem shrunk_run : ∃ m₀ c, (create true 1 9).run start = some ((), m₀) ∧
    Run ClientStep shrunkLabels ⟨m₀, none⟩ c ∧ itemsOf c.mem = some [] ∧
      (traversal c.iterater).run c.mem = none := by
  refine ⟨_, _, rfl, .cons (clientStep ?_ rfl) <| .cons (clientStep ?_ rfl) <|
    .cons (clientStep ?_ rfl) <| .cons (clientStep ?_ rfl) <| .nil _, rfl, rfl⟩
  · rintro op hop
    cases hop
    exact ⟨by decide, rfl⟩
  · rintro op hop
    cases hop
  · rintro op hop
    cases hop
  · rintro op hop
    cases hop
    exact trivial

/-- The next traversal does not visit nothing. -/
theorem not_visits_shrunk : ∃ m₀ c, (create true 1 9).run start = some ((), m₀) ∧
    Run ClientStep shrunkLabels ⟨m₀, none⟩ c ∧ itemsOf c.mem = some [] ∧
      ¬Visits c.mem c.iterater := by
  obtain ⟨m₀, c, hcreate, hrun, hitems, hnone⟩ := shrunk_run
  refine ⟨m₀, c, hcreate, hrun, hitems, ?_⟩
  rintro ⟨out, m', hsome, -⟩
  rw [hnone] at hsome
  cases hsome

end Zbaselib.Zlist
