import Zbaselib.Rbtree.Safety

/-!
# What a search compares

`find` goes on until a child pointer is `NULL`, while the leaves of the tree
are the sentinel, whose key is `NULL`.
-/

namespace Zbaselib.Rbtree

open Program Memory RedBlack Transition

def StoredKey (m : State) (key : Ptr) : Prop :=
  ∃ a n, Reachable m a ∧ m.heap.cell a = some n ∧ n.key = key

open Classical in
/-- The comparator, where it is called on a stored key and the key that is searched for. -/
noncomputable def onStored (cmp : CompareFunc) (m : State) (key : Ptr) : CompareFunc :=
  fun a b ↦ if StoredKey m a ∧ b = key then cmp a b else none

/-- No stored key is equivalent. -/
def Absent (cmp : CompareFunc) (m : State) (key : Ptr) : Prop :=
  ∀ a, StoredKey m a → ¬Equiv cmp a key

/-- The searches compare stored keys only, and notice that a key is absent. -/
structure Searches (cmp : CompareFunc) (m : State) (key : Ptr) : Prop where
  find : wp (find (onStored cmp m key) key) (fun node m' ↦
    m' = m ∧ node ≠ m.vars.sentinel ∧ (Absent cmp m key → node = NULL)) m
  delnode : wp (delnode (onStored cmp m key) key) (fun result _ ↦
    Absent cmp m key → result = -1) m

/-- The way down from a node by the comparator meets an equivalent key. -/
inductive Meets (cmp : CompareFunc) (m : State) (key : Ptr) : Ptr → Prop
  | here {a : Ptr} {n : Node} (hn : m.heap.cell a = some n) (ha : a ≠ m.vars.sentinel)
      (hequiv : cmp n.key key = some 0) : Meets cmp m key a
  | left {a : Ptr} {n : Node} {ret : ℤ} (hn : m.heap.cell a = some n) (ha : a ≠ m.vars.sentinel)
      (hret : cmp n.key key = some ret) (hpos : ret > 0) (hnext : Meets cmp m key n.left) :
      Meets cmp m key a
  | right {a : Ptr} {n : Node} {ret : ℤ} (hn : m.heap.cell a = some n) (ha : a ≠ m.vars.sentinel)
      (hret : cmp n.key key = some ret) (hneg : ret < 0) (hnext : Meets cmp m key n.right) :
      Meets cmp m key a

section

variable {cmp : CompareFunc} {m m₀ : State} {t : RBTree Entry} {key a : Ptr}

theorem Meets.ne_sentinel (h : Meets cmp m key a) : a ≠ m.vars.sentinel := by
  cases h <;> assumption

/-- What the way down meets is stored and equivalent. -/
theorem Meets.exists_stored (h : Meets cmp m key a) (ha : Reachable m a) :
    ∃ b, StoredKey m b ∧ Equiv cmp b key := by
  induction h with
  | here hn _ hequiv => exact ⟨_, ⟨_, _, ha, hn, rfl⟩, hequiv⟩
  | left hn _ _ _ hnext ih => exact ih (.child .left ha hn hnext.ne_sentinel)
  | right hn _ _ _ hnext ih => exact ih (.child .right ha hn hnext.ne_sentinel)

/-! ## The place of a search in the tree -/

/-- The node is the top of a subtree. -/
def Place (m : State) (t : RBTree Entry) (node : Ptr) (t' : RBTree Entry) : Prop :=
  ∃ path, Path.plug path t' = t ∧ node = ptr m.vars.sentinel t'

theorem Place.root {top scratch : Ptr} (h : Holds m top scratch t) :
    Place m t m.vars.root t := ⟨[], rfl, h.root⟩

variable {top scratch node : Ptr} {c : Color} {left right : RBTree Entry} {e : Entry}

/-- A search that stands on a node of the tree sees its record. -/
theorem Place.cell (h : Holds m top scratch t) (hplace : Place m t node (.node c left e right)) :
    ∃ n, m.heap.cell node = some n ∧ n.key = e.key ∧ node ≠ NULL ∧ node ≠ m.vars.sentinel ∧
      Reachable m node ∧ Place m t n.left left ∧ Place m t n.right right := by
  obtain ⟨path, rfl, rfl⟩ := hplace
  have hcell : m.heap.cell e.addr = some ⟨e.key, ptr m.vars.sentinel left,
    ptr m.vars.sentinel right, parentOf top path, c⟩ := h.hole.1
  have hreach := h.reachable_path (by simp)
  have hfresh : ptr m.vars.sentinel (.node c left e right) ≠ m.vars.sentinel := by
    intro heq
    apply h.fresh
    rw [← heq]
    exact h.reachable_iff.1 hreach
  exact ⟨_, hcell, rfl, Heap.ne_null_of_cell hcell, hfresh, hreach,
    ⟨⟨.left, c, e, right⟩ :: path, rfl, rfl⟩, ⟨⟨.right, c, e, left⟩ :: path, rfl, rfl⟩⟩

theorem Place.stored (h : Holds m top scratch t) {t' : RBTree Entry} (hplace : Place m t node t')
    (he : e ∈ t'.toList) : StoredKey m e.key := by
  induction t' generalizing node with
  | leaf => simp at he
  | node c left e' right ihleft ihright =>
    obtain ⟨n, hn, hkey, -, -, hreach, hleft, hright⟩ := hplace.cell h
    simp only [RBTree.toList_node, List.mem_append, List.mem_cons] at he
    obtain he | rfl | he := he
    · exact ihleft hleft he
    · exact ⟨_, n, hreach, hn, hkey⟩
    · exact ihright hright he

theorem storedKey_iff (h : Holds m top scratch t) : StoredKey m a ↔ ∃ e ∈ t.toList, e.key = a := by
  constructor
  · rintro ⟨b, n, hreach, hn, rfl⟩
    obtain ⟨path, near, c, e, far, rfl, rfl⟩ :=
      exists_branch_of_mem .left (h.reachable_iff.1 hreach)
    have hcell := h.cell
    rw [hn, Option.some.injEq] at hcell
    refine ⟨e, ?_, by rw [hcell, Node.key_branch]⟩
    simp [Path.toList_plug, RBTree.branch]
  · rintro ⟨e, he, rfl⟩
    exact (Place.root h).stored h he

theorem onStored_of_stored (h : StoredKey m a) : onStored cmp m key a key = cmp a key := by
  unfold onStored
  rw [if_pos ⟨h, rfl⟩]

theorem onStored_of_not_stored (h : ¬StoredKey m a) : onStored cmp m key a key = none := by
  unfold onStored
  rw [if_neg fun hboth ↦ h hboth.1]

theorem not_wp_compare {b : Ptr} {post : ℤ → State → Prop} (h : cmp a b = none) :
    ¬wp (compare cmp a b) post m := by
  simp [compare, h]

/-! ## One search -/

/-- Where the way down meets an equivalent key, `find` returns its node. -/
theorem wp_find_of_meets (h : Holds m top scratch t) (hmeets : Meets cmp m key m.vars.root)
    {post : Ptr → State → Prop} (hfound : ∀ path c left e right,
      Path.plug path (.node c left e right) = t → Equiv cmp e.key key → post e.addr m) :
    wp (find (onStored cmp m key) key) post m := by
  unfold find
  rw [wp_bind, wp_root]
  refine wp_heapLoop (fun k node m' ↦ m' = m ∧ Meets cmp m key node ∧
    ∃ t', Place m t node t' ∧ k = (addrs t').length) (fun k node m' hinv ↦ ?_)
    ⟨rfl, hmeets, t, Place.root h, rfl⟩ (by have := h.room; omega)
  obtain ⟨rfl, hmeets, t', hplace, rfl⟩ := hinv
  cases t' with
  | leaf =>
    obtain ⟨path, -, hnode⟩ := hplace
    exact absurd hnode hmeets.ne_sentinel
  | node c left e right =>
    have hsize : (addrs (.node c left e right)).length =
      (addrs left).length + (addrs right).length + 1 := length_addrs_branch .left ..
    obtain ⟨n, hn, hkey, hnull, -, hreach, hleft, hright⟩ := hplace.cell h
    have hstored : StoredKey m' n.key := ⟨node, n, hreach, hn, rfl⟩
    rw [findRound, wp_ite, if_neg hnull]
    simp only [wp_bind, wp_load, hn, Option.some.injEq, exists_eq_left', compare,
      onStored_of_stored hstored]
    cases hmeets with
    | here hn' _ hequiv =>
      rw [hn, Option.some.injEq] at hn'
      subst hn'
      obtain ⟨path, hplug, hnode⟩ := hplace
      rw [hequiv, wp_pure, wp_ite, if_pos rfl, wp_pure, hnode]
      rw [hkey] at hequiv
      exact hfound path c left e right hplug hequiv
    | left hn' _ hret hpos hnext =>
      rw [hn, Option.some.injEq] at hn'
      subst hn'
      rw [hret, wp_pure, wp_ite, if_neg (by omega), wp_ite, if_pos hpos]
      simp only [wp_bind, wp_child, hn, Option.some.injEq, exists_eq_left', wp_pure]
      exact ⟨_, by omega, rfl, hnext, left, hleft, rfl⟩
    | right hn' _ hret hneg hnext =>
      rw [hn, Option.some.injEq] at hn'
      subst hn'
      rw [hret, wp_pure, wp_ite, if_neg (by omega), wp_ite, if_neg (by omega)]
      simp only [wp_bind, wp_child, hn, Option.some.injEq, exists_eq_left', wp_pure]
      exact ⟨_, by omega, rfl, hnext, right, hright, rfl⟩

/-- Elsewhere `find` comes to the sentinel and compares its key. -/
theorem not_wp_find (h : Holds m top scratch t) (hnull : ¬StoredKey m NULL)
    (hmeets : ¬Meets cmp m key m.vars.root) {post : Ptr → State → Prop} :
    ¬wp (find (onStored cmp m key) key) post m := by
  intro hwp
  unfold find heapLoop at hwp
  rw [wp_bind, wp_root, wp_bind, Program.wp_get] at hwp
  obtain ⟨result, after, hrun, -⟩ := hwp
  refine loop_outcome (fun node m' ↦ m' = m ∧ ¬Meets cmp m key node ∧
    ∃ t', Place m t node t') (fun _ _ ↦ False) (fun node m' next after hinv hbody ↦ ?_) hrun
    ⟨rfl, hmeets, t, Place.root h⟩
  obtain ⟨rfl, hmeets, t', hplace⟩ := hinv
  have hwp : wp (findRound (onStored cmp m' key) key node) (fun r a ↦ r = next ∧ a = after) m' :=
    ⟨_, _, hbody, rfl, rfl⟩
  rw [findRound] at hwp
  cases t' with
  | leaf =>
    obtain ⟨path, -, hnode⟩ := hplace
    rw [ptr_leaf] at hnode
    have hcell : m'.heap.cell node = some { parent := scratch } := hnode ▸ h.sentinel
    rw [wp_ite, if_neg (Heap.ne_null_of_cell hcell)] at hwp
    simp only [wp_bind, wp_load, hcell, Option.some.injEq, exists_eq_left'] at hwp
    exact absurd hwp (not_wp_compare (onStored_of_not_stored hnull))
  | node c left e right =>
    obtain ⟨n, hn, -, hne, hns, hreach, hleft, hright⟩ := hplace.cell h
    have hstored : StoredKey m' n.key := ⟨node, n, hreach, hn, rfl⟩
    rw [wp_ite, if_neg hne] at hwp
    simp only [wp_bind, wp_load, hn, Option.some.injEq, exists_eq_left'] at hwp
    cases hret : cmp n.key key with
    | none =>
      exact absurd hwp (not_wp_compare ((onStored_of_stored hstored).trans hret))
    | some ret =>
      rw [wp_compare (by rw [onStored_of_stored hstored, hret]; rfl), onStored_of_stored hstored,
        hret, Option.getD_some, wp_ite] at hwp
      split at hwp
      · next hzero => exact absurd (.here hn hns (hzero ▸ hret)) hmeets
      · rw [wp_ite] at hwp
        split at hwp
        · next hpos =>
          simp only [wp_bind, wp_child, hn, Option.some.injEq, exists_eq_left', wp_pure] at hwp
          obtain ⟨rfl, rfl⟩ := hwp
          exact ⟨rfl, fun hnext ↦ hmeets (.left hn hns hret hpos hnext), left, hleft⟩
        · next hneg =>
          simp only [wp_bind, wp_child, hn, Option.some.injEq, exists_eq_left', wp_pure] at hwp
          obtain ⟨rfl, rfl⟩ := hwp
          exact ⟨rfl, fun hnext ↦ hmeets (.right hn hns hret (by omega) hnext), right, hright⟩

/-- Where the comparator orders the keys, the way down finds what is stored. -/
theorem Meets.of_mem (hcmp : TotalPreorder cmp (· ≠ NULL)) (hkey : key ≠ NULL)
    (h : Holds m top scratch t) {t' : RBTree Entry} (hplace : Place m t node t')
    (hsorted : Sorted cmp t'.toList) (hkeys : ∀ e ∈ t'.toList, e.key ≠ NULL)
    (he : e ∈ t'.toList) (hequiv : Equiv cmp e.key key) : Meets cmp m key node := by
  induction t' generalizing node with
  | leaf => simp at he
  | node c left top right ihleft ihright =>
    obtain ⟨n, hn, hnkey, -, hns, -, hleft, hright⟩ := hplace.cell h
    rw [RBTree.toList_node] at hsorted hkeys he
    obtain ⟨hsl, hsr, hcross⟩ := List.pairwise_append.1 hsorted
    obtain ⟨hbehind, hsr⟩ := List.pairwise_cons.1 hsr
    have htop : top.key ≠ NULL := hkeys top (by simp)
    have hne : e.key ≠ NULL := hkeys e he
    obtain ⟨ret, hret⟩ := Option.isSome_iff_exists.1 (hcmp.defined htop hkey)
    have hret' : cmp n.key key = some ret := hnkey ▸ hret
    rw [List.mem_append, List.mem_cons] at he
    have hself (hzero : Equiv cmp top.key key) : ret = 0 := by
      rwa [Equiv, hret, Option.some.injEq] at hzero
    obtain hneg | rfl | hpos := lt_trichotomy ret 0
    · have hlt : Lt cmp top.key key := ⟨ret, hret, hneg⟩
      refine .right hn hns hret' hneg (ihright hright hsr (fun e he ↦ hkeys e (by simp [he])) ?_)
      obtain he | rfl | he := he
      · have hle := hcross e he top List.mem_cons_self
        exact absurd hequiv (not_equiv_of_lt hcmp hne htop hkey hle hlt)
      · exact absurd (hself hequiv) hneg.ne
      · exact he
    · exact .here hn hns hret'
    · have hlt : Lt cmp key top.key := by
        apply lt_of_not_le hcmp htop hkey
        rintro ⟨result, hresult, hle⟩
        rw [hret, Option.some.injEq] at hresult
        omega
      refine .left hn hns hret' hpos (ihleft hleft hsl (fun e he ↦ hkeys e (by simp [he])) ?_)
      obtain he | rfl | he := he
      · exact he
      · exact absurd (hself hequiv) hpos.ne'
      · exact absurd hequiv (not_equiv_of_gt hcmp hkey htop hne hlt (hbehind e he))

/-! ## Runs -/

/-- The tree is represented, and `NULL` is not among its keys. -/
def Keyed (m : State) : Prop := ∃ t, Rep m t ∧ ∀ e ∈ t.toList, e.key ≠ NULL

theorem Keyed.fits (hdef : ∀ a b, (cmp a b).isSome ↔ a ≠ NULL ∧ b ≠ NULL) (h : Keyed m)
    {call : Call} {result : Result} {m' : State} (hcall : Mutation m call)
    (hrun : (call.run cmp).run m = some (result, m')) : Fits m call := by
  obtain ⟨t, hrep, hkeys⟩ := h
  refine hrep.fits (fun addr key heq ↦ ?_) hrun
  subst heq
  exact ⟨hcall.1, fun e he ↦ (hdef _ _).2 ⟨hcall.2, hkeys e he⟩⟩

theorem Keyed.step (hdef : ∀ a b, (cmp a b).isSome ↔ a ≠ NULL ∧ b ≠ NULL) (h : Keyed m)
    {call : Call} (hcall : Mutation m call) (hfits : Fits m call) :
    wp (call.run cmp) (fun _ m' ↦ Keyed m') m := by
  obtain ⟨t, hrep, hkeys⟩ := h
  cases call with
  | push addr key =>
    obtain ⟨hfree, hkey⟩ := hcall
    simp only [Call.run, wp_bind, wp_pure]
    have hcompares : Compares cmp key t := fun e he ↦ (hdef _ _).2 ⟨hkey, hkeys e he⟩
    apply wp_mono (wp_push_rep hrep hfree.1 hfree.2 hcompares hfits)
    rintro - m' ⟨h', -⟩
    refine ⟨_, h', fun e he ↦ ?_⟩
    obtain rfl | he := List.mem_cons.1 ((perm_insertTree ..).mem_iff.1 he)
    · exact hkey
    · exact hkeys e he
  | popmin =>
    simp only [Call.run, wp_bind, wp_pure]
    apply wp_mono (wp_popmin hrep)
    rintro - m' ⟨-, -, t', h', htail, -⟩
    exact ⟨t', h', fun e he ↦ hkeys e (List.mem_of_mem_tail (htail ▸ he))⟩
  | remove addr =>
    obtain ⟨top, scratch, hholds⟩ := hrep.holds
    obtain ⟨path, left, c, e, right, rfl, rfl⟩ :=
      exists_branch_of_mem .left (hholds.reachable_iff.1 hcall)
    have hremove : wp (do delete e.addr; free e.addr) (fun _ m' ↦ Keyed m') m := by
      refine wp_remove hrep fun m' h' _ ↦ ⟨_, h', fun e' he' ↦ hkeys e' ?_⟩
      rw [toList_deleteNode] at he'
      simp only [Path.toList_plug, RBTree.branch, RBTree.toList_node, List.mem_append,
        List.mem_cons] at he' ⊢
      tauto
    simp only [Call.run, wp_bind, wp_pure] at hremove ⊢
    exact hremove
  | getmin | getmax | find | delnode => exact hcall.elim

theorem Keyed.not_stored_null (h : Keyed m) : ¬StoredKey m NULL := by
  obtain ⟨t, hrep, hkeys⟩ := h
  obtain ⟨top, scratch, hholds⟩ := hrep.holds
  rw [storedKey_iff hholds]
  rintro ⟨e, he, hnull⟩
  exact hkeys e he hnull

theorem Keyed.searches_iff_meets (h : Keyed m) (hkey : key ≠ NULL) :
    Searches cmp m key ↔ Meets cmp m key m.vars.root := by
  have hnull := h.not_stored_null
  obtain ⟨t, hrep, -⟩ := h
  obtain ⟨top, scratch, hholds⟩ := hrep.holds
  constructor
  · intro hsearch
    by_contra hmeets
    exact not_wp_find hholds hnull hmeets hsearch.find
  · intro hmeets
    have hpresent : ¬Absent cmp m key := by
      intro habsent
      obtain ⟨a, hstored, hequiv⟩ := hmeets.exists_stored (.root hmeets.ne_sentinel)
      exact habsent a hstored hequiv
    constructor
    · refine wp_find_of_meets hholds hmeets fun path c left e right hplug _ ↦
        ⟨rfl, fun hsentinel ↦ ?_, fun habsent ↦ absurd habsent hpresent⟩
      apply hholds.fresh
      rw [← hsentinel, ← hplug]
      have hroot : e.addr ∈ addrs (.node c left e right) :=
        ptr_mem_addrs (s := NULL) (t := .node c left e right) (by simp)
      exact mem_addrs_plug.2 (.inl hroot)
    · unfold delnode
      rw [wp_bind]
      refine wp_find_of_meets hholds hmeets fun path c left e right hplug _ ↦ ?_
      rw [← hplug] at hholds hrep
      have hne : ¬(e.addr = NULL ∨ key = NULL) :=
        not_or.2 ⟨Heap.ne_null_of_cell hholds.hole.1, hkey⟩
      rw [wp_ite, if_neg hne]
      simp only [wp_bind]
      refine (wp_bind ..).1 (wp_remove hrep fun m' _ _ ↦ ?_)
      rw [wp_pure]
      exact fun habsent ↦ absurd habsent hpresent

/-- **A search stays within the stored keys exactly when its way down meets an equivalent one.**
For a comparator that orders the keys this is the case when an equivalent key is stored. -/
theorem searches_iff (hdef : ∀ a b, (cmp a b).isSome ↔ a ≠ NULL ∧ b ≠ NULL)
    {labels : List (Call × Result)} (hinit : Initial m₀)
    (hrun : Run (Step cmp Mutation) labels m₀ m) (hkey : key ≠ NULL) :
    (Searches cmp m key ↔ Meets cmp m key m.vars.root) ∧
      (TotalPreorder cmp (· ≠ NULL) →
        (Searches cmp m key ↔ ∃ a, StoredKey m a ∧ Equiv cmp a key)) := by
  have hkeyed : Keyed m := by
    refine hrun.invariant Keyed (fun label m m' h hstep ↦ ?_) ⟨.leaf, hinit.rep, by simp⟩
    have hfits := h.fits hdef hstep.1 hstep.2
    have hstep' := wp_outcome (h.step hdef hstep.1 hfits) hstep.2
    exact hstep'
  have hmeets : Searches cmp m key ↔ Meets cmp m key m.vars.root := hkeyed.searches_iff_meets hkey
  refine ⟨hmeets, fun hcmp ↦ hmeets.trans ⟨fun h ↦ ?_, ?_⟩⟩
  · exact h.exists_stored (.root h.ne_sentinel)
  · rintro ⟨a, hstored, hequiv⟩
    obtain ⟨t, hrep, hsorted, hkeys⟩ := searchTree_of_run hcmp hinit hrun
    obtain ⟨top, scratch, hholds⟩ := hrep.holds
    obtain ⟨e, he, rfl⟩ := (storedKey_iff hholds).1 hstored
    exact .of_mem hcmp hkey hholds (Place.root hholds) hsorted hkeys he hequiv

end

/-- The comparator of the tens again, as a function that reads through its arguments. -/
def strictDecades : CompareFunc := fun a b ↦ if a = NULL ∨ b = NULL then none else decades a b

theorem strictDecades_isSome (a b : Ptr) :
    (strictDecades a b).isSome ↔ a ≠ NULL ∧ b ≠ NULL := by
  unfold strictDecades decades
  split
  · next h => simp only [Option.isSome_none, Bool.false_eq_true, false_iff]; tauto
  · next h => simp only [Option.isSome_some, true_iff]; tauto

theorem strictDecades_eq {a b : Ptr} (ha : a ≠ NULL) (hb : b ≠ NULL) :
    strictDecades a b = decades a b := by
  unfold strictDecades
  rw [if_neg (not_or.2 ⟨ha, hb⟩)]

theorem strictDecades_totalPreorder : TotalPreorder strictDecades (· ≠ NULL) where
  defined ha hb := (strictDecades_isSome _ _).2 ⟨ha, hb⟩
  swap ha hb := by
    have h := (decades_totalPreorder (· ≠ NULL)).swap ha hb
    rwa [Lt, Le, ← strictDecades_eq ha hb, ← strictDecades_eq hb ha] at h
  trans ha hb hc := by
    have h := (decades_totalPreorder (· ≠ NULL)).trans ha hb hc
    rwa [Le, Le, Le, ← strictDecades_eq ha hb, ← strictDecades_eq hb hc,
      ← strictDecades_eq ha hc] at h

theorem search_run : ∃ m₀ m, Initial m₀ ∧ Run (Step strictDecades Mutation)
    [(.push 100 31, .void), (.push 101 12, .void)] m₀ m ∧ m.vars.root = 100 ∧
      m.vars.sentinel = 1 ∧ m.heap.cell 100 = some ⟨31, 101, 1, NULL, .black⟩ :=
  ⟨_, _, ⟨1, blank, ⟨by decide, rfl⟩, rfl⟩,
    .cons ⟨⟨⟨by decide, rfl⟩, by decide⟩, rfl⟩
      (.cons ⟨⟨⟨by decide, rfl⟩, by decide⟩, rfl⟩ (.nil _)), rfl, rfl, rfl⟩

/-- `35` is found, because `31` is stored. -/
theorem searches_iff_decades : ∃ m, m.vars.root = 100 ∧ Searches strictDecades m 35 := by
  obtain ⟨m₀, m, hinit, hrun, hroot, hsentinel, hcell⟩ := search_run
  have hiff : Searches strictDecades m 35 ↔ Meets strictDecades m 35 m.vars.root :=
    (searches_iff strictDecades_isSome hinit hrun (by decide)).1
  refine ⟨m, hroot, hiff.2 (hroot ▸ .here hcell ?_ rfl)⟩
  rw [hsentinel]
  decide

/-- On the empty tree the search calls the comparator on the key of the sentinel. -/
theorem not_searches_empty : ∃ m, Initial m ∧
    (∀ a b, (strictDecades a b).isSome ↔ a ≠ NULL ∧ b ≠ NULL) ∧
    TotalPreorder strictDecades (· ≠ NULL) ∧ ¬Searches strictDecades m 35 := by
  have hinit : Initial ⟨_, ⟨1, 1, 0⟩⟩ := ⟨1, blank, ⟨by decide, rfl⟩, rfl⟩
  refine ⟨_, hinit, strictDecades_isSome, strictDecades_totalPreorder, ?_⟩
  have hkeyed : Keyed _ := ⟨.leaf, hinit.rep, by simp⟩
  rw [hkeyed.searches_iff_meets (by decide)]
  exact fun hmeets ↦ hmeets.ne_sentinel rfl

end Zbaselib.Rbtree
