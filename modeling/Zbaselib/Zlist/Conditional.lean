import Zbaselib.Zlist.Manual

/-!
# Deleting under a condition

The destroy function may look at the list.  A call that has an outcome only when
the node is no longer linked stands for what it would see.
-/

namespace Zbaselib.Zlist

open Program Memory Transition

/-- The node is live, and neither direction leads to it. -/
def unlinked (h : Heap Node) (head node : Ptr) : Bool :=
  (h.cell node).isSome && (forward h head).any fun nodes ↦
    !nodes.contains node && backward h head == some nodes.reverse

/-- The call of the destroy function, which has no outcome as long as the node is linked. -/
def callUnlinked (head node ddfunc data : Ptr) : ZlistCmd Unit := do
  let m ← MonadState.get
  require (unlinked m.heap head node = true)
  call ddfunc data

section

variable {m : Mem Node Vars} {h : Heap Node} {head p d ddfunc : Ptr} {thiz : Handle}
  {entries : List (Ptr × Ptr)} {nodes : List Ptr}

/-- A traversal meets the same nodes when there is more that could be met. -/
theorem traverse_mono {step step' : Ptr → Option Ptr} {fuel fuel' : ℕ} {q : Ptr}
    (hstep : ∀ q r, step q = some r → step' q = some r) (hfuel : fuel ≤ fuel')
    (h : traverse step head fuel q = some nodes) : traverse step' head fuel' q = some nodes := by
  induction fuel generalizing q fuel' nodes with
  | zero => cases h
  | succ fuel ih =>
    obtain ⟨fuel', rfl⟩ := Nat.exists_eq_succ_of_ne_zero (show fuel' ≠ 0 by omega)
    unfold traverse at h ⊢
    simp only [Option.bind_eq_bind, Option.bind_eq_some_iff] at h ⊢
    obtain ⟨r, hr, hrest⟩ := h
    refine ⟨r, hstep q r hr, ?_⟩
    by_cases hend : r = head
    · rw [if_pos hend] at hrest ⊢
      exact hrest
    · rw [if_neg hend] at hrest ⊢
      simp only [Option.bind_eq_some_iff] at hrest ⊢
      obtain ⟨rest, hrest, hnodes⟩ := hrest
      exact ⟨rest, ih (Nat.le_of_succ_le_succ hfuel) hrest, hnodes⟩

theorem Detached.unlinked_eq (hdetached : Detached h head entries p) :
    unlinked h head p = true := by
  obtain ⟨hlive, hpos, hring⟩ := hdetached
  have hkept {g : Node → Ptr} (q r : Ptr) (hq : (h.erase p).field g q = some r) :
      h.field g q = some r := by
    have hne : q ≠ p := by
      rintro rfl
      obtain ⟨record, hrecord, -⟩ := Heap.cell_of_field hq
      rw [Heap.cell_erase_self] at hrecord
      cases hrecord
    rwa [Heap.field_erase_of_ne h hne] at hq
  have hless : (h.erase p).live ≤ h.live := by
    rw [Heap.live_erase]
    exact Nat.sub_le _ _
  have hwell := hring.wellFormed
  have hforward : forward h head = some (addrs entries) :=
    traverse_mono hkept hless hwell.forward_eq
  have hbackward : backward h head = some (addrs entries).reverse :=
    traverse_mono hkept hless hwell.backward_eq
  have hout : p ∉ addrs entries := by
    intro hmem
    have hsome := hring.isSome (List.mem_cons_of_mem _ hmem)
    rw [Heap.cell_erase_self] at hsome
    cases hsome
  unfold unlinked
  rw [hforward, hbackward, hlive]
  simpa using hout

theorem invokes_callUnlinked (thiz : Handle) : Invokes (callUnlinked thiz.head) thiz := by
  intro h vars entries p d hdetached hd hddfunc
  unfold callUnlinked
  rw [wp_bind, Program.wp_get, wp_bind, wp_require]
  exact ⟨hdetached.unlinked_eq, wp_call hddfunc⟩

/-- The calls for data that are not `NULL`. -/
theorem releasedAll_eq (hddfunc : ddfunc ≠ NULL) (items : List Ptr) :
    releasedAll ddfunc items = (items.filter (· ≠ NULL)).map fun data ↦ (ddfunc, data) := by
  induction items with
  | nil => rfl
  | cons data items ih =>
    have hcons : releasedAll ddfunc (data :: items) =
        released ddfunc data ++ releasedAll ddfunc items := rfl
    rw [hcons, ih, released]
    by_cases hdata : data = NULL
    · simp [hdata]
    · simp [hdata, hddfunc]

end

/-! ## The check changes no outcome -/

section

variable {invoke invoke' : Ptr → Ptr → Ptr → ZlistCmd Unit}

theorem callUnlinked_extends (head node ddfunc data : Ptr) :
    Extends (callUnlinked head node ddfunc data) (call ddfunc data) := by
  intro m outcome h
  have hwp : wp (callUnlinked head node ddfunc data) (fun r a ↦ (r, a) = outcome) m :=
    ⟨_, _, h, rfl⟩
  unfold callUnlinked at hwp
  rw [wp_bind, Program.wp_get] at hwp
  obtain ⟨result, after, hrun, rfl⟩ := hwp
  exact Extends.require _ _ _ _ hrun

theorem destroyNodeWith_extends (hinvoke : ∀ p f d, Extends (invoke p f d) (invoke' p f d))
    (node ddfunc : Ptr) :
    Extends (destroyNodeWith invoke node ddfunc) (destroyNodeWith invoke' node ddfunc) := by
  refine .ite (.refl _) (.bind (.refl _) fun _ ↦ .bind (.refl _) fun _ ↦ .bind (.refl _) fun n ↦ ?_)
  refine .ite ?_ (.refl _)
  exact .ite (.bind (hinvoke node ddfunc n.data) fun _ ↦ .refl _) (.refl _)

theorem removeWith_extends (hinvoke : ∀ p f d, Extends (invoke p f d) (invoke' p f d))
    (thiz : Handle) (node : Ptr) :
    Extends (removeWith invoke thiz node) (removeWith invoke' thiz node) :=
  .bind (.refl _) fun _ ↦ .bind (.refl _) fun _ ↦ destroyNodeWith_extends hinvoke node thiz.ddfunc

theorem delUseCondWith_extends (hinvoke : ∀ p f d, Extends (invoke p f d) (invoke' p f d))
    (thiz : Option Handle) (cmp : Ptr → Bool) :
    Extends (delUseCondWith invoke thiz cmp) (delUseCondWith invoke' thiz cmp) := by
  cases thiz with
  | none => exact .refl _
  | some thiz =>
    refine .bind (.refl _) fun empty ↦ .ite (.refl _) (.bind (.refl _) fun m ↦ .loop ?_ _ _)
    rintro ⟨cursor, delNum⟩
    refine .bind (.refl _) fun n ↦ .ite ?_ (.refl _)
    refine .bind (.refl _) fun n' ↦ .bind (.refl _) fun found ↦ .ite ?_ (.refl _)
    exact .bind (removeWith_extends hinvoke thiz n.next) fun _ ↦ .refl _

end

/-- **`delUseCond` keeps exactly the elements that do not satisfy the condition.**  It looks at
every element once, in order, and destroys those it removes once they are unlinked. -/
theorem delUseCond_keeps {ddfunc : Ptr} {m : Mem Node Vars} {items : List Ptr} {cmp : Ptr → Bool}
    (hsound : Sound ddfunc m) (hitems : itemsOf m = some items) (hne : items ≠ [])
    (hsmall : (items.filter cmp).length < 2 ^ 31) :
    ∃ thiz m', m.vars.list = some thiz ∧ m'.vars.list = some thiz ∧
      (delUseCond thiz cmp).run m = some (((items.filter cmp).length : ℤ), m') ∧
      (delUseCondWith (callUnlinked thiz.head) thiz cmp).run m =
        some (((items.filter cmp).length : ℤ), m') ∧
      m'.vars.compared = m.vars.compared ++ items ∧
      itemsOf m' = some (items.filter fun data ↦ !cmp data) ∧
      (∃ nodes nodes', WellFormed m.heap thiz.head nodes ∧ WellFormed m'.heap thiz.head nodes' ∧
        nodes'.Sublist nodes) ∧
      m'.vars.calls = m.vars.calls ++ if ddfunc = NULL then [] else
        ((items.filter cmp).filter (· ≠ NULL)).map fun data ↦ (ddfunc, data) := by
  unfold Sound at hsound
  cases hlist : m.vars.list with
  | none => simp [itemsOf, hlist] at hitems
  | some thiz =>
    rw [hlist] at hsound
    obtain ⟨rfl, entries, hring⟩ := hsound
    rw [hring.itemsOf_eq hlist, Option.some_inj] at hitems
    subst hitems
    have hcount : (entries.filter fun e ↦ cmp e.2).length =
        ((entries.map Prod.snd).filter cmp).length := by
      rw [List.filter_map, List.length_map]
      rfl
    rw [← hcount] at hsmall
    have hcalls : releasedAll thiz.ddfunc ((entries.map Prod.snd).filter cmp) =
        if thiz.ddfunc = NULL then [] else (((entries.map Prod.snd).filter cmp).filter
          (· ≠ NULL)).map fun data ↦ (thiz.ddfunc, data) := by
      split
      · next hnull => rw [hnull, releasedAll_null]
      · next hddfunc => exact releasedAll_eq hddfunc _
    have hdone (invoke : Ptr → Ptr → Ptr → ZlistCmd Unit) (hinvoke : Invokes invoke thiz) :
        wp (delUseCondWith invoke thiz cmp) (fun ret m' ↦
          ret = (entries.filter fun e ↦ cmp e.2).length ∧
          Ring m'.heap thiz.head (entries.filter fun e ↦ !cmp e.2) ∧
          m'.vars = { m.vars with
            calls := m.vars.calls ++ releasedAll thiz.ddfunc ((entries.map Prod.snd).filter cmp)
            compared := m.vars.compared ++ entries.map Prod.snd }) m := by
      apply wp_delUseCondWith hinvoke hring hsmall
      · rintro rfl
        exact absurd rfl hne
      · intro h' _ hring'
        exact ⟨rfl, hring', rfl⟩
    obtain ⟨ret, m', hrun, rfl, hring', hvars⟩ := hdone _ (invokes_callUnlinked thiz)
    have hsame : (delUseCond thiz cmp).run m =
        some (((entries.filter fun e ↦ cmp e.2).length : ℤ), m') := by
      rw [delUseCond_eq]
      exact delUseCondWith_extends (callUnlinked_extends thiz.head) thiz cmp _ _ hrun
    have hlist' : m'.vars.list = some thiz := by
      rw [hvars]
      exact hlist
    rw [hcount] at hrun hsame
    refine ⟨thiz, m', rfl, hlist', hsame, hrun, by rw [hvars], ?_,
      ⟨addrs entries, _, hring.wellFormed, hring'.wellFormed, ?_⟩, by rw [hvars, hcalls]⟩
    · rw [hring'.itemsOf_eq hlist', List.filter_map]
      rfl
    · exact List.filter_sublist.map Prod.fst

/-- Of four elements the first two and the last are removed, and one of those is `NULL`. -/
def condLabels : List (Op × Result) :=
  [(.addtail 2 20, .done), (.addtail 3 NULL, .done), (.addtail 4 50, .done),
    (.addtail 5 30, .done)]

theorem cond_run : ∃ m₀ m, (create true 1 9).run start = some ((), m₀) ∧
    Run Step condLabels m₀ m ∧ itemsOf m = some [20, NULL, 50, 30] ∧ m.vars.calls = [] ∧
      m.vars.compared = [] :=
  ⟨_, _, rfl,
    .cons ⟨⟨by decide, rfl⟩, rfl⟩ <| .cons ⟨⟨by decide, rfl⟩, rfl⟩ <|
      .cons ⟨⟨by decide, rfl⟩, rfl⟩ <| .cons ⟨⟨by decide, rfl⟩, rfl⟩ <| .nil _, rfl, rfl, rfl⟩

theorem delUseCond_keeps_one : ∃ m m' thiz, Sound 9 m ∧ itemsOf m = some [20, NULL, 50, 30] ∧
    (delUseCond thiz fun data ↦ decide (data < 40)).run m = some (3, m') ∧
      itemsOf m' = some [50] ∧ m'.vars.compared = [20, NULL, 50, 30] ∧
        m'.vars.calls = [(9, 20), (9, 30)] := by
  obtain ⟨m₀, m, hcreate, hrun, hitems, hcalls, hcompared⟩ := cond_run
  have hsound := sound_of_run hcreate hrun
  obtain ⟨thiz, m', -, -, hdel, -, hcompared', hitems', -, hcalls'⟩ :=
    @delUseCond_keeps 9 m _ (fun data ↦ decide (data < 40)) hsound hitems (by decide) (by decide)
  rw [hcompared] at hcompared'
  rw [hcalls] at hcalls'
  exact ⟨m, m', thiz, hsound, hitems, hdel, hitems', hcompared', hcalls'⟩

/-! ## The count is an `int` -/

section

variable {m m' : Mem Node Vars} {cmp : Ptr → Bool}

theorem of_wp_increment {n : ℤ} {post : ℤ → Mem Node Vars → Prop} (h : wp (increment n) post m) :
    n + 1 < 2 ^ 31 ∧ post (n + 1) m := by
  unfold increment at h
  simpa only [wp_bind, wp_require, wp_pure] using h

theorem delUseCond_int {thiz : Option Handle} {ret : ℤ}
    (hrun : (delUseCond thiz cmp).run m = some (ret, m')) : ret < 2 ^ 31 := by
  have hwp : wp (delUseCond thiz cmp) (fun r _ ↦ r = ret) m := ⟨_, _, hrun, rfl⟩
  unfold delUseCond at hwp
  cases thiz with
  | none =>
    rw [wp_pure] at hwp
    omega
  | some thiz =>
    simp only [wp_bind] at hwp
    obtain ⟨answer, m₁, -, hwp⟩ := hwp
    rw [wp_ite] at hwp
    split at hwp
    · rw [wp_pure] at hwp
      omega
    · unfold heapLoop at hwp
      rw [wp_bind, Program.wp_get] at hwp
      obtain ⟨ret', m₂, hloop, rfl⟩ := hwp
      refine loop_outcome (fun (locals : Ptr × ℤ) _ ↦ locals.2 < 2 ^ 31)
        (fun (ret : ℤ) _ ↦ ret < 2 ^ 31) ?_ hloop (by norm_num)
      rintro ⟨cursor, delNum⟩ m₃ next m₄ hsmall hbody
      have hwp : wp _ (fun r a ↦ r = next ∧ a = m₄) m₃ := ⟨_, _, hbody, rfl, rfl⟩
      simp only [wp_bind, wp_load] at hwp
      obtain ⟨n, -, hwp⟩ := hwp
      rw [wp_ite] at hwp
      split at hwp
      · simp only [wp_bind, wp_load] at hwp
        obtain ⟨n', -, found, m₅, -, hwp⟩ := hwp
        rw [wp_ite] at hwp
        split at hwp
        · rw [wp_bind] at hwp
          obtain ⟨-, m₆, -, hwp⟩ := hwp
          rw [wp_bind] at hwp
          obtain ⟨hlt, hnext⟩ := of_wp_increment hwp
          rw [wp_pure] at hnext
          obtain ⟨rfl, -⟩ := hnext
          exact hlt
        · rw [wp_pure] at hwp
          obtain ⟨rfl, -⟩ := hwp
          exact hsmall
      · rw [wp_pure] at hwp
        obtain ⟨rfl, -⟩ := hwp
        exact hsmall

/-- `n` elements at the addresses from 2 on. -/
def longLabels (n : ℕ) : List (Op × Result) :=
  (List.range n).map fun i ↦ (.addtail (i + 2) 20, .done)

theorem long_run (n : ℕ) : ∃ m₀ m, (create true 1 9).run start = some ((), m₀) ∧
    Run Step (longLabels n) m₀ m ∧ itemsOf m = some (List.replicate n 20) ∧
      ∀ q, n + 1 < q → (m.heap.cell q).isSome = false := by
  induction n with
  | zero =>
    refine ⟨_, _, rfl, .nil _, rfl, fun q hq ↦ ?_⟩
    have hne : q ≠ 1 := by omega
    simp [start, Heap.cell_insert_of_ne _ _ hne]
  | succ n ih =>
    obtain ⟨m₀, m, hcreate, hrun, hitems, hfree⟩ := ih
    have hop : Allowed m (.addtail (n + 2) 20) := by
      refine ⟨by simp, ?_⟩
      simpa using hfree (n + 2) (by omega)
    obtain ⟨result, m', hrun', -, ⟨hresult, hitems'⟩, -⟩ :=
      wp_step (sound_of_run hcreate hrun) (fun hold ↦ absurd rfl hold) hop
    rw [hitems] at hresult hitems'
    have hstep : Step (.addtail (n + 2) 20, .done) m m' := by
      refine ⟨hop, ?_⟩
      rw [hrun']
      exact congrArg (fun r ↦ some (r, m')) hresult
    have hnext := hrun.append (.cons hstep (.nil m'))
    have hmore : itemsOf m' = some (List.replicate (n + 1) 20) := by
      rw [hitems', List.replicate_succ']
      rfl
    refine ⟨m₀, m', hcreate, ?_, hmore, fun q hq ↦ ?_⟩
    · unfold longLabels at hnext ⊢
      rwa [List.range_succ, List.map_append]
    · have hwp : wp (Op.run (.addtail (n + 2) 20)) (fun _ a ↦ a = m') m := ⟨_, _, hrun', rfl⟩
      unfold Op.run at hwp
      simp only [wp_bind, wp_getVars, wp_pure] at hwp
      obtain ⟨after, hafter, hothers⟩ := of_wp_addtail hwp
      have hne : q ≠ n + 2 := by omega
      rw [← hafter, hothers q hne]
      exact hfree q (by omega)

/-- **The answer cannot count `2 ^ 31` elements.** -/
theorem not_delUseCond_keeps : ∃ m₀ m, (create true 1 9).run start = some ((), m₀) ∧
    Run Step (longLabels (2 ^ 31)) m₀ m ∧ itemsOf m = some (List.replicate (2 ^ 31) 20) ∧
      ∀ ret m', (delUseCond m.vars.list fun _ ↦ true).run m = some (ret, m') →
        ret ≠ ((List.replicate (2 ^ 31) 20).filter fun _ ↦ true).length := by
  obtain ⟨m₀, m, hcreate, hrun, hitems, -⟩ := long_run (2 ^ 31)
  refine ⟨m₀, m, hcreate, hrun, hitems, fun ret m' hdel ↦ ?_⟩
  have hint := delUseCond_int hdel
  rw [List.filter_true, List.length_replicate]
  norm_num
  omega

end

end Zbaselib.Zlist
