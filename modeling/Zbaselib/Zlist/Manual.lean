import Zbaselib.Zlist.Runs

/-!
# Lists without a destroy function

A list that is made with `NULL` leaves its data to the client.  Deleting tests
the function pointer; the set family calls it for every datum that it overwrites.
-/

namespace Zbaselib.Zlist

open Program Memory Transition

section

variable {m m₀ : Mem Node Vars} {thiz : Handle} {entries xs ys : List (Ptr × Ptr)} {p d data : Ptr}

/-- There is no outcome when the function pointer is `NULL`. -/
theorem ddfunc_of_wp_replace (hring : Ring m.heap thiz.head (xs ++ (p, d) :: ys))
    {post : Unit → Mem Node Vars → Prop} (h : wp (replace thiz p data) post m) (hd : d ≠ NULL) :
    thiz.ddfunc ≠ NULL := by
  unfold replace call at h
  simp only [wp_bind, wp_load, hring.node, Option.some.injEq, exists_eq_left'] at h
  rw [wp_ite, if_pos hd] at h
  simp only [wp_bind, wp_require] at h
  exact h.1

/-- The node that the set family works on. -/
theorem wp_getNode_eq (hring : Ring m.heap thiz.head (xs ++ (p, d) :: ys)) :
    wp (getNode thiz xs.length) (fun node m' ↦ node = p ∧ m' = m) m := by
  apply wp_getNode hring
  · intro hout
    rw [List.length_append, List.length_cons] at hout
    omega
  · intro xs' p' d' ys' hsplit hlength
    obtain ⟨-, htail⟩ := List.append_inj hsplit (by omega)
    obtain ⟨hhead, -⟩ := List.cons.inj htail
    obtain ⟨rfl, -⟩ := Prod.mk.inj hhead
    exact ⟨rfl, rfl⟩

/-- A call that has an outcome had a function to call. -/
theorem ddfunc_of_wp_run (hlist : m.vars.list = some thiz)
    (hring : Ring m.heap thiz.head entries) {op : Op} {post : Result → Mem Node Vars → Prop}
    (h : wp op.run post m) (hold : overwritten op (entries.map Prod.snd) ≠ NULL) :
    thiz.ddfunc ≠ NULL := by
  unfold Op.run at h
  simp only [wp_bind, wp_getVars, hlist] at h
  cases op with
  | sethead data =>
    obtain _ | ⟨⟨p, d⟩, ys⟩ := entries
    · exact absurd rfl hold
    · have hplace : Ring m.heap thiz.head ([] ++ (p, d) :: ys) := hring
      simp only [sethead, wp_bind, wp_empty hring, decide_eq_true_eq] at h
      rw [wp_ite, if_neg (List.cons_ne_nil _ _), wp_bind] at h
      simp only [wp_load, hring.sentinel_cell, firstOf, List.map_cons, Option.some.injEq,
        exists_eq_left'] at h
      exact ddfunc_of_wp_replace hplace h hold
  | settail data =>
    obtain rfl | ⟨xs, ⟨p, d⟩, rfl⟩ := List.eq_nil_or_concat entries
    · exact absurd rfl hold
    · rw [List.concat_eq_append] at *
      have hlast : lastOf thiz.head (addrs (xs ++ [(p, d)])) = p := by
        rw [addrs_append]
        exact lastOf_concat _ _ _
      have hd : d ≠ NULL := by simpa [overwritten] using hold
      simp only [settail, wp_bind, wp_empty hring, decide_eq_true_eq] at h
      rw [wp_ite, if_neg (by simp), wp_bind] at h
      simp only [wp_load, hring.sentinel_cell, hlast, Option.some.injEq, exists_eq_left'] at h
      exact ddfunc_of_wp_replace hring h hd
  | set data index =>
    have hrange : 0 ≤ index ∧ index < entries.length := by
      unfold overwritten at hold
      dsimp only at hold
      by_cases hlow : 0 ≤ index
      · refine ⟨hlow, ?_⟩
        by_contra hhigh
        rw [if_pos hlow, List.getD_eq_getElem?_getD, List.getElem?_eq_none] at hold
        · exact hold rfl
        · rw [List.length_map]
          omega
      · exact absurd (if_neg hlow) hold
    obtain ⟨k, rfl⟩ := Int.eq_ofNat_of_zero_le hrange.1
    obtain ⟨xs, ⟨p, d⟩, ys, rfl, rfl⟩ : ∃ xs e ys, entries = xs ++ e :: ys ∧ xs.length = k := by
      have hlt : k < entries.length := by omega
      exact ⟨entries.take k, entries[k], entries.drop (k + 1), by simp,
        List.length_take_of_le (Nat.le_of_lt hlt)⟩
    have hd : d ≠ NULL := by
      simpa [overwritten] using hold
    simp only [set, wp_bind] at h
    rw [wp_ite, if_neg (by omega), wp_bind] at h
    obtain ⟨node, m', -, h, hnode, hm'⟩ := wp_and h (wp_getNode_eq hring)
    rw [hnode, hm', wp_ite, if_neg (Heap.ne_null_of_cell hring.node), wp_bind] at h
    exact ddfunc_of_wp_replace hring h hd
  | _ => exact absurd rfl hold

theorem overwritten_nil (op : Op) : overwritten op [] = NULL := by
  cases op with
  | set data index =>
    unfold overwritten
    dsimp only
    split <;> rfl
  | _ => rfl

theorem overwritten_of_wp (hsound : Sound NULL m) {op : Op} {post : Result → Mem Node Vars → Prop}
    (h : wp op.run post m) : overwritten op ((itemsOf m).getD []) = NULL := by
  unfold Sound at hsound
  cases hlist : m.vars.list with
  | none =>
    have hitems : itemsOf m = none := by simp [itemsOf, hlist]
    rw [hitems]
    exact overwritten_nil op
  | some thiz =>
    rw [hlist] at hsound
    obtain ⟨hddfunc, entries, hring⟩ := hsound
    rw [hring.itemsOf_eq hlist, Option.getD_some]
    by_contra hold
    exact ddfunc_of_wp_run hlist hring h hold hddfunc

/-- **Without a destroy function a call has an outcome exactly when it overwrites no datum**, and
then it does what the specification says. -/
theorem outcome_iff_of_null (hsound : Sound NULL m) {op : Op} (hop : Allowed m op) :
    (∃ result m', Step (op, result) m m' ∧ SpecStep (op, result) (itemsOf m) (itemsOf m') ∧
      m'.vars.calls = m.vars.calls) ↔ overwritten op ((itemsOf m).getD []) = NULL := by
  constructor
  · rintro ⟨result, m', ⟨-, hrun⟩, -⟩
    have hwp : wp op.run (fun _ _ ↦ True) m := ⟨result, m', hrun, trivial⟩
    exact overwritten_of_wp hsound hwp
  · intro hold
    obtain ⟨result, m', hrun, -, hspec, hcalls⟩ :=
      wp_step hsound (fun hne ↦ absurd hold hne) hop
    rw [releasedAll_null, List.append_nil] at hcalls
    exact ⟨result, m', ⟨hop, hrun⟩, hspec, hcalls⟩

/-- A list without a destroy function calls nothing in a run that has an outcome. -/
theorem run_of_null {addr : Ptr} {labels : List (Op × Result)}
    (hcreate : (create true addr NULL).run start = some ((), m₀)) (hrun : Run Step labels m₀ m) :
    Sound NULL m ∧ Run SpecStep labels (some []) (itemsOf m) ∧ m.vars.calls = [] := by
  obtain ⟨hsound₀, hitems₀, hcalls₀⟩ := sound_create hcreate
  have hsim (label : Op × Result) (m m' : Mem Node Vars) (items : Option (List Ptr))
      (hrel : Sound NULL m ∧ itemsOf m = items ∧ m.vars.calls = [])
      (hstep : Step label m m') : ∃ items', SpecStep label items items' ∧
        Sound NULL m' ∧ itemsOf m' = items' ∧ m'.vars.calls = [] := by
    obtain ⟨hsound, rfl, hcalls⟩ := hrel
    have hwp : wp label.1.run (fun _ _ ↦ True) m := ⟨_, _, hstep.2, trivial⟩
    have hold := overwritten_of_wp hsound hwp
    obtain ⟨hsound', hspec, hcalls'⟩ :=
      wp_outcome (wp_step hsound (fun hne ↦ absurd hold hne) hstep.1) hstep.2
    rw [hcalls, releasedAll_null] at hcalls'
    exact ⟨itemsOf m', hspec, hsound', rfl, hcalls'⟩
  obtain ⟨items, hspec, hsound, rfl, hcalls⟩ := hrun.simulation _ hsim ⟨hsound₀, hitems₀, hcalls₀⟩
  exact ⟨hsound, hspec, hcalls⟩

/-- The representation is kept by every call that has an outcome. -/
theorem Sound.step {ddfunc : Ptr} (hsound : Sound ddfunc m) {label : Op × Result}
    {m' : Mem Node Vars} (hstep : Step label m m') : Sound ddfunc m' := by
  have hddfunc : overwritten label.1 ((itemsOf m).getD []) ≠ NULL → ddfunc ≠ NULL := by
    rintro hold rfl
    have hwp : wp label.1.run (fun _ _ ↦ True) m := ⟨_, _, hstep.2, trivial⟩
    exact hold (overwritten_of_wp hsound hwp)
  exact (wp_outcome (wp_step hsound hddfunc hstep.1) hstep.2).1

theorem sound_of_run {addr ddfunc : Ptr} {labels : List (Op × Result)}
    (hcreate : (create true addr ddfunc).run start = some ((), m₀))
    (hrun : Run Step labels m₀ m) : Sound ddfunc m :=
  hrun.invariant (Sound ddfunc) (fun _ _ _ h hstep ↦ h.step hstep) (sound_create hcreate).1

end

end Zbaselib.Zlist
