import Zbaselib.Win32Dir.Canonical
import Zbaselib.Lib.Transition

/-!
# Directories that are read one entry after the other

A `DIR` owns its search until `readdir` has returned the last name, or until
`closedir`.  Any number of directories may be open, and their calls may
alternate.  A search that `FindClose` does not close is lost.
-/

namespace Zbaselib.Win32Dir

open Program Memory Transition

/-- The directories, what each search is to find, and what each `DIR` has returned. -/
structure Listings where
  mem : Mem DIR (Heap (List Name))
  listed : Ptr → List Name
  given : Ptr → List (Option (List UInt8))

inductive Event
  | opendir (name : Option (List UInt8)) (p : Ptr) (isDirectory : Bool) (h : Ptr)
      (found : List Name)
  | readdir (p : Ptr) (closed : Bool)
  | closedir (p : Ptr) (closed : Bool)

/-- `FindClose` closes what it is given. -/
def Event.closes : Event → Bool
  | .opendir _ _ _ _ _ => true
  | .readdir _ closed | .closedir _ closed => closed

inductive Step (w : Windows) : Event → Listings → Listings → Prop
  | opendir {s : Listings} {name : Option (List UInt8)} {p : Ptr} {isDirectory : Bool} {h : Ptr}
      {found : List Name} {ret : Ptr} {mem : Mem DIR (Heap (List Name))}
      (hrun : (opendir w name p isDirectory h found).run s.mem = some (ret, mem)) :
      Step w (.opendir name p isDirectory h found) s
        ⟨mem, Function.update s.listed ret found, Function.update s.given ret []⟩
  | readdir {s : Listings} {p : Ptr} {closed : Bool} {name : Option (Option (List UInt8))}
      {mem : Mem DIR (Heap (List Name))}
      (hrun : (readdir w p closed).run s.mem = some (name, mem)) :
      Step w (.readdir p closed) s
        ⟨mem, s.listed, Function.update s.given p (s.given p ++ name.toList)⟩
  | closedir {s : Listings} {p : Ptr} {closed : Bool} {ret : ℤ}
      {mem : Mem DIR (Heap (List Name))}
      (hrun : (closedir p closed).run s.mem = some (ret, mem)) :
      Step w (.closedir p closed) s { s with mem }

/-- No directory is open. -/
def start : Listings := ⟨⟨.empty, .empty⟩, fun _ ↦ [], fun _ ↦ []⟩

/-- The names of a directory, as `readdir` returns them. -/
def Listings.names (w : Windows) (s : Listings) (p : Ptr) : List (Option (List UInt8)) :=
  (s.listed p).map w.wideCharToMultiByte

/-- Each `DIR` has returned what its search has left behind, and no two have one search.  Where
`FindClose` always closes, each open search belongs to a `DIR`. -/
structure Invariant (w : Windows) (closes : Prop) (s : Listings) : Prop where
  searching : ∀ p d h, s.mem.heap.cell p = some d → d.handle = some h → ∃ name rest,
    d.info = some name ∧ s.mem.vars.cell h = some rest ∧
      s.given p ++ (name :: rest).map w.wideCharToMultiByte = s.names w p
  finished : ∀ p d, s.mem.heap.cell p = some d → d.handle = none → s.given p = s.names w p
  owned : closes → ∀ h rest, s.mem.vars.cell h = some rest →
    ∃ p d, s.mem.heap.cell p = some d ∧ d.handle = some h
  unique : ∀ p p' d d' h, s.mem.heap.cell p = some d → s.mem.heap.cell p' = some d' →
    d.handle = some h → d'.handle = some h → p = p'

section

variable {w : Windows} {closes : Prop} {closed : Bool} {s : Listings}
  {m : Mem DIR (Heap (List Name))} {p h : Ptr}

/-! ## The calls of Windows -/

theorem wp_findClose {post : Bool → Mem DIR (Heap (List Name)) → Prop} :
    wp (findClose h closed) post m ↔
      m.vars.cell h ≠ none ∧
        post closed { m with vars := if closed then m.vars.erase h else m.vars } := by
  unfold findClose
  simp only [wp_bind, wp_getVars, wp_require, wp_modifyVars, wp_pure]

theorem wp_findNextFileW {rest : List Name} (hrest : m.vars.cell h = some rest)
    {post : Option Name → Mem DIR (Heap (List Name)) → Prop}
    (hnone : rest = [] → post none m)
    (hsome : ∀ name rest', rest = name :: rest' →
      post (some name) { m with vars := m.vars.update h fun _ ↦ rest' }) :
    wp (findNextFileW h) post m := by
  unfold findNextFileW
  rw [wp_bind, wp_getVars, hrest]
  cases rest with
  | nil => exact (wp_pure _ _ _).2 (hnone rfl)
  | cons name rest' =>
    simp only [wp_bind, wp_modifyVars, wp_pure]
    exact hsome name rest' rfl

/-! ## Reading -/

/-- A directory that is read to its end. -/
theorem wp_readdir_finished {d : DIR} (hp : m.heap.cell p = some d) (hd : d.handle = none)
    {post : Option (Option (List UInt8)) → Mem DIR (Heap (List Name)) → Prop}
    (hpost : post none m) : wp (readdir w p closed) post m := by
  unfold readdir
  rw [wp_ite, if_neg (Heap.ne_null_of_cell hp), wp_bind, wp_load]
  refine ⟨d, hp, ?_⟩
  rw [hd]
  exact (wp_pure _ _ _).2 hpost

/-- A directory with names left; the last one ends the search. -/
theorem wp_readdir_searching {d : DIR} (hp : m.heap.cell p = some d) (hd : d.handle = some h)
    {name : Name} {rest : List Name} (hname : d.info = some name)
    (hrest : m.vars.cell h = some rest)
    {post : Option (Option (List UInt8)) → Mem DIR (Heap (List Name)) → Prop}
    (hlast : rest = [] → post (some (w.wideCharToMultiByte name))
      ⟨m.heap.update p fun thiz ↦ { thiz with handle := none },
        if closed then m.vars.erase h else m.vars⟩)
    (hmore : ∀ next rest', rest = next :: rest' → post (some (w.wideCharToMultiByte name))
      ⟨m.heap.update p fun thiz ↦ { thiz with info := some next },
        m.vars.update h fun _ ↦ rest'⟩) :
    wp (readdir w p closed) post m := by
  unfold readdir
  rw [wp_ite, if_neg (Heap.ne_null_of_cell hp), wp_bind, wp_load]
  refine ⟨d, hp, ?_⟩
  rw [hd, hname]
  dsimp only
  rw [wp_bind]
  apply wp_findNextFileW hrest
  · intro hnil
    simp only [wp_bind, wp_findClose, wp_update, wp_pure]
    exact ⟨by simp [hrest], ⟨d, hp⟩, hlast hnil⟩
  · intro next rest' hcons
    simp only [wp_bind, wp_update, wp_pure]
    exact ⟨⟨d, hp⟩, hmore next rest' hcons⟩

/-- The record of one searching `DIR` changes, and its search with it. -/
theorem Invariant.update (hs : Invariant w closes s) {d : DIR} (hp : s.mem.heap.cell p = some d)
    (hd : d.handle = some h) {f : DIR → DIR} {vars : Heap (List Name)}
    {given : List (Option (List UInt8))}
    (hvars : ∀ h', h' ≠ h → vars.cell h' = s.mem.vars.cell h')
    (hafter : ((f d).handle = some h ∧ ∃ name rest, (f d).info = some name ∧
        vars.cell h = some rest ∧ given ++ (name :: rest).map w.wideCharToMultiByte = s.names w p) ∨
      ((f d).handle = none ∧ (closes → vars.cell h = none) ∧ given = s.names w p)) :
    Invariant w closes
      ⟨⟨s.mem.heap.update p f, vars⟩, s.listed, Function.update s.given p given⟩ := by
  have hself : (s.mem.heap.update p f).cell p = some (f d) := by
    rw [Heap.cell_update_self, hp, Option.map_some]
  -- a record afterwards, by whether it is the one that changed
  have hcases {q : Ptr} {e : DIR} (hq : (s.mem.heap.update p f).cell q = some e) :
      (q = p ∧ e = f d) ∨ (q ≠ p ∧ s.mem.heap.cell q = some e) := by
    by_cases hqp : q = p
    · subst hqp
      rw [hself, Option.some.injEq] at hq
      exact Or.inl ⟨rfl, hq.symm⟩
    · rw [Heap.cell_update_of_ne _ _ hqp] at hq
      exact Or.inr ⟨hqp, hq⟩
  have hother {q : Ptr} {e : DIR} {h' : Ptr} (hqp : q ≠ p) (hq : s.mem.heap.cell q = some e)
      (he : e.handle = some h') : h' ≠ h := by
    rintro rfl
    exact hqp (hs.unique q p e d h' hq hp he hd)
  have hhandle {h' : Ptr} (he : (f d).handle = some h') : h' = h := by
    obtain ⟨hsome, -⟩ | ⟨hnone, -⟩ := hafter
    · rw [hsome, Option.some.injEq] at he
      exact he.symm
    · rw [hnone] at he
      cases he
  refine ⟨?_, ?_, ?_, ?_⟩
  · intro q e h' hq he
    obtain ⟨rfl, rfl⟩ | ⟨hqp, hq⟩ := hcases hq
    · obtain rfl := hhandle he
      obtain ⟨-, name, rest, hname, hrest, hgiven⟩ | ⟨hnone, -⟩ := hafter
      · exact ⟨name, rest, hname, hrest, by dsimp only; rw [Function.update_self]; exact hgiven⟩
      · rw [hnone] at he
        cases he
    · obtain ⟨name, rest, hname, hrest, hgiven⟩ := hs.searching q e h' hq he
      refine ⟨name, rest, hname, (hvars h' (hother hqp hq he)).trans hrest, ?_⟩
      dsimp only
      rw [Function.update_of_ne hqp]
      exact hgiven
  · intro q e hq he
    obtain ⟨rfl, rfl⟩ | ⟨hqp, hq⟩ := hcases hq
    · obtain ⟨hsome, -⟩ | ⟨-, -, hgiven⟩ := hafter
      · rw [hsome] at he
        cases he
      · dsimp only
        rw [Function.update_self]
        exact hgiven
    · dsimp only
      rw [Function.update_of_ne hqp]
      exact hs.finished q e hq he
  · intro hc h' rest hrest
    by_cases hh : h' = h
    · subst hh
      obtain ⟨hsome, -⟩ | ⟨-, hnone, -⟩ := hafter
      · exact ⟨p, f d, hself, hsome⟩
      · rw [hnone hc] at hrest
        cases hrest
    · rw [hvars h' hh] at hrest
      obtain ⟨q, e, hq, he⟩ := hs.owned hc h' rest hrest
      have hqp : q ≠ p := by
        rintro rfl
        rw [hp, Option.some.injEq] at hq
        subst hq
        rw [hd, Option.some.injEq] at he
        exact hh he.symm
      exact ⟨q, e, by rw [Heap.cell_update_of_ne _ _ hqp]; exact hq, he⟩
  · intro q q' e e' h' hq hq' he he'
    obtain ⟨rfl, rfl⟩ | ⟨hqp, hq₀⟩ := hcases hq
    · obtain rfl := hhandle he
      obtain ⟨rfl, -⟩ | ⟨hqp', hq₀'⟩ := hcases hq'
      · rfl
      · exact absurd rfl (hother hqp' hq₀' he')
    · obtain ⟨rfl, rfl⟩ | ⟨-, hq₀'⟩ := hcases hq'
      · obtain rfl := hhandle he'
        exact absurd rfl (hother hqp hq₀ he)
      · exact hs.unique q q' e e' h' hq₀ hq₀' he he'

/-- **`readdir` returns the next name of its directory**, whatever happens to the others. -/
theorem Invariant.wp_readdir (hs : Invariant w closes s) {d : DIR}
    (hp : s.mem.heap.cell p = some d) (hcloses : closes → closed = true) :
    wp (readdir w p closed) (fun name mem ↦ name = (s.names w p)[(s.given p).length]? ∧
      Invariant w closes
        ⟨mem, s.listed, Function.update s.given p (s.given p ++ name.toList)⟩) s.mem := by
  cases hd : d.handle with
  | none =>
    apply wp_readdir_finished hp hd
    have hgiven := hs.finished p d hp hd
    refine ⟨by rw [hgiven, List.getElem?_length], ?_⟩
    rw [Option.toList_none, List.append_nil, Function.update_eq_self]
    exact hs
  | some h =>
    obtain ⟨name, rest, hname, hrest, hgiven⟩ := hs.searching p d h hp hd
    have hnext : some (w.wideCharToMultiByte name) = (s.names w p)[(s.given p).length]? := by
      rw [← hgiven, List.getElem?_append_right le_rfl, Nat.sub_self, List.map_cons,
        List.getElem?_cons_zero]
    apply wp_readdir_searching hp hd hname hrest
    · rintro rfl
      refine ⟨hnext, hs.update hp hd (fun h' hne ↦ ?_) (Or.inr ⟨rfl, fun hc ↦ ?_, hgiven⟩)⟩
      · cases closed with
        | true => exact Heap.cell_erase_of_ne _ hne
        | false => rfl
      · rw [hcloses hc]
        exact Heap.cell_erase_self _ _
    · rintro next rest' rfl
      refine ⟨hnext, hs.update hp hd (fun h' hne ↦ Heap.cell_update_of_ne _ _ hne) ?_⟩
      refine Or.inl ⟨hd, next, rest', rfl, ?_, ?_⟩
      · rw [Heap.cell_update_self, hrest, Option.map_some]
      · rw [← hgiven, List.append_assoc]
        rfl

/-! ## Closing -/

/-- A `DIR` goes, and its search with it. -/
theorem Invariant.erase (hs : Invariant w closes s) {d : DIR} (hp : s.mem.heap.cell p = some d)
    {vars : Heap (List Name)}
    (hvars : ∀ h, d.handle ≠ some h → vars.cell h = s.mem.vars.cell h)
    (hclosed : closes → ∀ h, d.handle = some h → vars.cell h = none) :
    Invariant w closes ⟨⟨s.mem.heap.erase p, vars⟩, s.listed, s.given⟩ := by
  have hlive {q : Ptr} {e : DIR} (hq : (s.mem.heap.erase p).cell q = some e) :
      q ≠ p ∧ s.mem.heap.cell q = some e := by
    have hqp : q ≠ p := by
      rintro rfl
      rw [Heap.cell_erase_self] at hq
      cases hq
    rw [Heap.cell_erase_of_ne _ hqp] at hq
    exact ⟨hqp, hq⟩
  refine ⟨?_, ?_, ?_, ?_⟩
  · intro q e h hq he
    obtain ⟨hqp, hq⟩ := hlive hq
    obtain ⟨name, rest, hname, hrest, hgiven⟩ := hs.searching q e h hq he
    refine ⟨name, rest, hname, (hvars h fun hd ↦ hqp ?_).trans hrest, hgiven⟩
    exact hs.unique q p e d h hq hp he hd
  · intro q e hq he
    exact hs.finished q e (hlive hq).2 he
  · intro hc h rest hrest
    by_cases hd : d.handle = some h
    · rw [hclosed hc h hd] at hrest
      cases hrest
    · rw [hvars h hd] at hrest
      obtain ⟨q, e, hq, he⟩ := hs.owned hc h rest hrest
      have hqp : q ≠ p := by
        rintro rfl
        rw [hp, Option.some.injEq] at hq
        subst hq
        exact hd he
      exact ⟨q, e, by rw [Heap.cell_erase_of_ne _ hqp]; exact hq, he⟩
  · intro q q' e e' h hq hq' he he'
    exact hs.unique q q' e e' h (hlive hq).2 (hlive hq').2 he he'

/-- **`closedir` ends the search of its directory**, if it is not over and `FindClose` closes it,
and frees the `DIR` in any case. -/
theorem Invariant.wp_closedir (hs : Invariant w closes s) {d : DIR}
    (hp : s.mem.heap.cell p = some d) (hcloses : closes → closed = true) :
    wp (closedir p closed) (fun ret mem ↦
      (ret = (if d.handle = none ∨ closed = true then 0 else -1) ∧
        mem.heap = s.mem.heap.erase p) ∧ Invariant w closes { s with mem }) s.mem := by
  have hnull := Heap.ne_null_of_cell hp
  unfold closedir
  rw [wp_ite, if_neg hnull, wp_bind, wp_load]
  refine ⟨d, hp, ?_⟩
  cases hd : d.handle with
  | none =>
    simp only [wp_bind, wp_pure, wp_free, if_neg hnull]
    refine ⟨⟨d, hp⟩, ⟨by simp, trivial⟩, hs.erase hp (fun _ _ ↦ rfl) fun _ h hh ↦ ?_⟩
    rw [hd] at hh
    cases hh
  | some h =>
    obtain ⟨name, rest, -, hrest, -⟩ := hs.searching p d h hp hd
    simp only [wp_bind, wp_ite, wp_pure, wp_findClose, wp_free, if_neg hnull]
    refine ⟨by simp [hrest], ?_⟩
    cases closed with
    | true =>
      refine ⟨⟨d, hp⟩, ⟨by simp, trivial⟩, hs.erase hp (fun h' hh ↦ ?_) fun _ h' hh ↦ ?_⟩
      · refine Heap.cell_erase_of_ne _ ?_
        rintro rfl
        exact hh hd
      · rw [hd, Option.some.injEq] at hh
        subst hh
        exact Heap.cell_erase_self _ _
    | false =>
      exact ⟨⟨d, hp⟩, ⟨by simp, trivial⟩,
        hs.erase hp (fun _ _ ↦ rfl) fun hc ↦ absurd (hcloses hc) Bool.false_ne_true⟩

/-! ## Opening -/

/-- What is remembered of an address without a `DIR` does not matter. -/
theorem Invariant.forget (hs : Invariant w closes s) (hp : s.mem.heap.cell p = none)
    (listed : List Name) (given : List (Option (List UInt8))) :
    Invariant w closes
      ⟨s.mem, Function.update s.listed p listed, Function.update s.given p given⟩ := by
  have hlive {q : Ptr} {e : DIR} (hq : s.mem.heap.cell q = some e) : q ≠ p := by
    rintro rfl
    rw [hp] at hq
    cases hq
  refine ⟨fun q e h hq he ↦ ?_, fun q e hq he ↦ ?_, hs.owned, hs.unique⟩
  · unfold Listings.names
    dsimp only
    rw [Function.update_of_ne (hlive hq), Function.update_of_ne (hlive hq)]
    exact hs.searching q e h hq he
  · unfold Listings.names
    dsimp only
    rw [Function.update_of_ne (hlive hq), Function.update_of_ne (hlive hq)]
    exact hs.finished q e hq he

/-- A new `DIR`, with a search of its own if there is something to find. -/
theorem Invariant.insert (hs : Invariant w closes s) (hnull : p ≠ NULL)
    (hp : s.mem.heap.cell p = none) {d : DIR} {vars : Heap (List Name)} {found : List Name}
    (hd : (found = [] ∧ d.handle = none ∧ vars = s.mem.vars) ∨
      ∃ h name rest, found = name :: rest ∧ d = ⟨some h, some name⟩ ∧ h ≠ NULL ∧
        s.mem.vars.cell h = none ∧ vars = s.mem.vars.insert h rest) :
    Invariant w closes ⟨⟨s.mem.heap.insert p d, vars⟩, Function.update s.listed p found,
      Function.update s.given p []⟩ := by
  have hself : (s.mem.heap.insert p d).cell p = some d := Heap.cell_insert_self _ d hnull
  have hcases {q : Ptr} {e : DIR} (hq : (s.mem.heap.insert p d).cell q = some e) :
      (q = p ∧ e = d) ∨ (q ≠ p ∧ s.mem.heap.cell q = some e) := by
    by_cases hqp : q = p
    · subst hqp
      rw [hself, Option.some.injEq] at hq
      exact Or.inl ⟨rfl, hq.symm⟩
    · rw [Heap.cell_insert_of_ne _ _ hqp] at hq
      exact Or.inr ⟨hqp, hq⟩
  -- searches that were open stay as they are, and are not the new one
  have hkept {h : Ptr} {rest : List Name} (hrest : s.mem.vars.cell h = some rest) :
      vars.cell h = some rest ∧ d.handle ≠ some h := by
    obtain ⟨-, hnone, rfl⟩ | ⟨h', name, rest', -, rfl, -, hfresh, rfl⟩ := hd
    · exact ⟨hrest, by simp [hnone]⟩
    · have hne : h ≠ h' := by
        rintro rfl
        rw [hfresh] at hrest
        cases hrest
      refine ⟨(Heap.cell_insert_of_ne _ _ hne).trans hrest, ?_⟩
      simpa using hne.symm
  refine ⟨?_, ?_, ?_, ?_⟩
  · intro q e h hq he
    unfold Listings.names
    dsimp only
    obtain ⟨rfl, rfl⟩ | ⟨hqp, hq⟩ := hcases hq
    · rw [Function.update_self, Function.update_self]
      obtain ⟨-, hnone, -⟩ | ⟨h', name, rest, rfl, rfl, hh', -, rfl⟩ := hd
      · rw [hnone] at he
        cases he
      · cases he
        exact ⟨name, rest, rfl, Heap.cell_insert_self _ _ hh', rfl⟩
    · rw [Function.update_of_ne hqp, Function.update_of_ne hqp]
      obtain ⟨name, rest, hname, hrest, hgiven⟩ := hs.searching q e h hq he
      exact ⟨name, rest, hname, (hkept hrest).1, hgiven⟩
  · intro q e hq he
    unfold Listings.names
    dsimp only
    obtain ⟨rfl, rfl⟩ | ⟨hqp, hq⟩ := hcases hq
    · rw [Function.update_self, Function.update_self]
      obtain ⟨rfl, -⟩ | ⟨h', name, rest, -, rfl, -⟩ := hd
      · rfl
      · cases he
    · rw [Function.update_of_ne hqp, Function.update_of_ne hqp]
      exact hs.finished q e hq he
  · intro hc h rest hrest
    by_cases hh : d.handle = some h
    · exact ⟨p, d, hself, hh⟩
    · have hold : s.mem.vars.cell h = some rest := by
        obtain ⟨-, -, rfl⟩ | ⟨h', name, rest', -, rfl, -, -, rfl⟩ := hd
        · exact hrest
        · rw [Heap.cell_insert_of_ne _ _ (by simpa using Ne.symm (by simpa using hh))] at hrest
          exact hrest
      obtain ⟨q, e, hq, he⟩ := hs.owned hc h rest hold
      have hqp : q ≠ p := by
        rintro rfl
        rw [hp] at hq
        cases hq
      exact ⟨q, e, by rw [Heap.cell_insert_of_ne _ _ hqp]; exact hq, he⟩
  · intro q q' e e' h hq hq' he he'
    obtain ⟨rfl, rfl⟩ | ⟨hqp, hq₀⟩ := hcases hq
    · obtain ⟨rfl, -⟩ | ⟨-, hq₀'⟩ := hcases hq'
      · rfl
      · obtain ⟨-, rest, -, hrest, -⟩ := hs.searching q' e' h hq₀' he'
        exact absurd he (hkept hrest).2
    · obtain ⟨rfl, rfl⟩ | ⟨-, hq₀'⟩ := hcases hq'
      · obtain ⟨-, rest, -, hrest, -⟩ := hs.searching q e h hq₀ he
        exact absurd he' (hkept hrest).2
      · exact hs.unique q q' e e' h hq₀ hq₀' he he'

/-- The ways in which a search begins. -/
theorem wp_findFirstFileW {found : List Name} {post : DIR → Mem DIR (Heap (List Name)) → Prop}
    (hwp : wp (findFirstFileW h found) post m) : ∃ d vars, post d ⟨m.heap, vars⟩ ∧
      ((found = [] ∧ d.handle = none ∧ vars = m.vars) ∨
        ∃ h name rest, found = name :: rest ∧ d = ⟨some h, some name⟩ ∧ h ≠ NULL ∧
          m.vars.cell h = none ∧ vars = m.vars.insert h rest) := by
  unfold findFirstFileW at hwp
  cases found with
  | nil => exact ⟨_, m.vars, (wp_pure _ _ _).1 hwp, Or.inl ⟨rfl, rfl, rfl⟩⟩
  | cons name rest =>
    simp only [wp_bind, wp_getVars, wp_require, wp_modifyVars, wp_pure] at hwp
    obtain ⟨⟨hnull, hfresh⟩, hpost⟩ := hwp
    exact ⟨_, _, hpost, Or.inr ⟨h, name, rest, rfl, rfl, hnull, hfresh, rfl⟩⟩

/-- **`opendir` makes a `DIR` with nothing returned yet**, or leaves everything as it was. -/
theorem Invariant.opendir (hs : Invariant w closes s) {name : Option (List UInt8)}
    {isDirectory : Bool} {found : List Name} {ret : Ptr} {mem : Mem DIR (Heap (List Name))}
    (hrun : (opendir w name p isDirectory h found).run s.mem = some (ret, mem)) :
    Invariant w closes
      ⟨mem, Function.update s.listed ret found, Function.update s.given ret []⟩ := by
  have hwp : wp (Win32Dir.opendir w name p isDirectory h found) (fun r a ↦ r = ret ∧ a = mem)
      s.mem := ⟨_, _, hrun, rfl, rfl⟩
  have hfail (heq : NULL = ret ∧ s.mem = mem) : Invariant w closes
      ⟨mem, Function.update s.listed ret found, Function.update s.given ret []⟩ := by
    obtain ⟨rfl, rfl⟩ := heq
    exact hs.forget s.mem.heap.cell_null found []
  unfold Win32Dir.opendir at hwp
  cases name with
  | none => exact hfail ((wp_pure NULL _ s.mem).1 hwp)
  | some name =>
    dsimp only at hwp
    rw [wp_bind, wp_calloc] at hwp
    split at hwp
    · rw [wp_ite, if_pos rfl] at hwp
      exact hfail ((wp_pure NULL _ s.mem).1 hwp)
    next hnull =>
    obtain ⟨hp, hwp⟩ := hwp
    split at hwp
    · next text _ _ =>
      rw [wp_ite] at hwp
      split at hwp
      · simp only [wp_bind, wp_require] at hwp
        obtain ⟨-, d, vars, hwp, hd⟩ := And.imp_right wp_findFirstFileW hwp
        simp only [wp_update, wp_pure] at hwp
        obtain ⟨-, rfl, rfl⟩ := hwp
        rw [Heap.update_insert]
        exact hs.insert hnull hp hd
      · simp only [wp_bind, wp_free, if_neg hnull, wp_pure] at hwp
        rw [Heap.erase_insert _ hp] at hwp
        exact hfail hwp.2
    · exact ((wp_failure _ _).1 hwp).elim

/-! ## Runs -/

theorem Invariant.step {s' : Listings} (hs : Invariant w closes s) {event : Event}
    (hcloses : closes → event.closes = true) (hstep : Step w event s s') :
    Invariant w closes s' := by
  cases hstep with
  | opendir hrun => exact hs.opendir hrun
  | @readdir _ p closed name mem hrun =>
    cases hp : s.mem.heap.cell p with
    | some d => exact (wp_outcome (hs.wp_readdir hp hcloses) hrun).2
    | none =>
      have hwp : wp (readdir w p closed) (fun r a ↦ r = name ∧ a = mem) s.mem :=
        ⟨_, _, hrun, rfl, rfl⟩
      unfold readdir at hwp
      rw [wp_ite] at hwp
      split at hwp
      · obtain ⟨rfl, rfl⟩ := (wp_pure none _ s.mem).1 hwp
        rw [Option.toList_none, List.append_nil, Function.update_eq_self]
        exact hs
      · rw [wp_bind, wp_load, hp] at hwp
        obtain ⟨d, hd, -⟩ := hwp
        cases hd
  | @closedir _ p closed ret mem hrun =>
    cases hp : s.mem.heap.cell p with
    | some d => exact (wp_outcome (hs.wp_closedir hp hcloses) hrun).2
    | none =>
      have hwp : wp (closedir p closed) (fun r a ↦ r = ret ∧ a = mem) s.mem :=
        ⟨_, _, hrun, rfl, rfl⟩
      unfold closedir at hwp
      rw [wp_ite] at hwp
      split at hwp
      · obtain ⟨-, rfl⟩ := (wp_pure (-1 : ℤ) _ s.mem).1 hwp
        exact hs
      · rw [wp_bind, wp_load, hp] at hwp
        obtain ⟨d, hd, -⟩ := hwp
        cases hd

theorem Invariant.run {s' : Listings} {labels : List Event} (hs : Invariant w closes s)
    (hcloses : closes → ∀ event ∈ labels, event.closes = true)
    (hrun : Run (Step w) labels s s') : Invariant w closes s' := by
  induction hrun with
  | nil => exact hs
  | cons head _ ih =>
    exact ih (hs.step (fun hc ↦ hcloses hc _ List.mem_cons_self) head)
      fun hc event hevent ↦ hcloses hc event (List.mem_cons_of_mem _ hevent)

theorem invariant_start : Invariant w closes start := by
  refine ⟨?_, ?_, ?_, ?_⟩
  · intro p d h hp
    cases hp
  · intro p d hp
    cases hp
  · intro hc h rest hrest
    cases hrest
  · intro p p' d d' h hp
    cases hp

end

/-- **Every directory is read once, in order, however the calls for several of them alternate**.
Where `FindClose` always closes, no search is closed twice or left open. -/
theorem listing_of_run (w : Windows) {labels : List Event} {s : Listings}
    (hrun : Run (Step w) labels start s) :
    (∀ p d, s.mem.heap.cell p = some d →
      s.given p <+: s.names w p ∧
      (∀ closed, ∃ mem, (readdir w p closed).run s.mem =
        some ((s.names w p)[(s.given p).length]?, mem)) ∧
      ∀ closed, ∃ mem, (closedir p closed).run s.mem =
        some (if d.handle = none ∨ closed = true then 0 else -1, mem) ∧
          mem.heap = s.mem.heap.erase p) ∧
    ((∀ event ∈ labels, event.closes = true) → ∀ h rest, s.mem.vars.cell h = some rest →
      ∃! p, ∃ d, s.mem.heap.cell p = some d ∧ d.handle = some h) := by
  have hs : Invariant w False s := invariant_start.run False.elim hrun
  refine ⟨fun p d hp ↦ ⟨?_, fun closed ↦ ?_, fun closed ↦ ?_⟩, fun hcloses h rest hrest ↦ ?_⟩
  · cases hd : d.handle with
    | none => rw [hs.finished p d hp hd]
    | some h =>
      obtain ⟨name, rest, -, -, hgiven⟩ := hs.searching p d h hp hd
      exact ⟨_, hgiven⟩
  · obtain ⟨name, mem, hread, rfl, -⟩ := hs.wp_readdir hp False.elim
    exact ⟨mem, hread⟩
  · obtain ⟨ret, mem, hclose, ⟨rfl, hheap⟩, -⟩ := hs.wp_closedir hp False.elim
    exact ⟨mem, hclose, hheap⟩
  · have howned : Invariant w True s := invariant_start.run (fun _ ↦ hcloses) hrun
    obtain ⟨p, d, hp, hd⟩ := howned.owned trivial h rest hrest
    refine ⟨p, ⟨d, hp, hd⟩, ?_⟩
    rintro p' ⟨d', hp', hd'⟩
    exact hs.unique p' p d' d h hp' hp hd' hd

/-- Characters as they are. -/
def ascii : Windows where
  multiByteToWideChar text := text.map fun c ↦ UInt16.ofNat c.toNat
  wideCharToMultiByte name := some (name.map fun c ↦ UInt8.ofNat c.toNat)

/-- `a` is opened, with two names to find, and one of them is read. -/
def oneLabels : List Event := [.opendir (some [97]) 1 true 1 [[46], [98]], .readdir 1 true]

def oneOpen : Mem DIR (Heap (List Name)) :=
  ⟨(Heap.empty.insert 1 ⟨none, none⟩).update 1 fun _ ↦ ⟨some 1, some [46]⟩,
    Heap.empty.insert 1 [[98]]⟩

theorem one_opendir :
    (opendir ascii (some [97]) 1 true 1 [[46], [98]]).run start.mem = some (1, oneOpen) := by
  have htext : wp (toUnicode [97]) (fun text _ ↦ text = [97]) [] :=
    wp_toUnicode (by decide) (by decide) (by decide) (fun _ ↦ by decide) []
  obtain ⟨_, block, hrun, rfl⟩ := htext
  have hwp : wp (opendir ascii (some [97]) 1 true 1 [[46], [98]])
      (fun ret mem ↦ ret = 1 ∧ mem = oneOpen) start.mem := by
    unfold opendir
    dsimp only
    rw [wp_bind, wp_calloc, if_neg (by decide)]
    refine ⟨rfl, ?_⟩
    rw [wp_ite, if_neg (by decide), hrun]
    dsimp only
    rw [if_pos rfl, wp_bind, wp_require]
    exact ⟨by decide, 1, oneOpen, rfl, rfl, rfl⟩
  obtain ⟨_, _, hopendir, rfl, rfl⟩ := hwp
  exact hopendir

def oneRead : Listings :=
  ⟨⟨oneOpen.heap.update 1 fun thiz ↦ { thiz with info := some [98] },
      oneOpen.vars.update 1 fun _ ↦ []⟩,
    Function.update (fun _ ↦ []) 1 [[46], [98]],
    Function.update (Function.update (fun _ ↦ []) 1 []) 1 [some [46]]⟩

theorem one_run : Run (Step ascii) oneLabels start oneRead :=
  .cons (.opendir one_opendir) <| .cons (.readdir rfl) <| .nil _

/-- The other name comes next, also when `FindClose` does not close the search behind it, and the
search is that of the one `DIR`. -/
theorem listing_of_run_one :
    (∃ mem, (readdir ascii 1 false).run oneRead.mem = some (some (some [98]), mem)) ∧
      ∃! p, ∃ d, oneRead.mem.heap.cell p = some d ∧ d.handle = some 1 :=
  have h := listing_of_run ascii one_run
  ⟨(h.1 1 _ rfl).2.1 false, h.2 (by decide) 1 [] rfl⟩

end Zbaselib.Win32Dir
