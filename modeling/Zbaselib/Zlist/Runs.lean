import Zbaselib.Zlist.Interface
import Zbaselib.Lib.Transition

/-!
# Every run of a list follows its specification
-/

namespace Zbaselib.Zlist

open Program Memory Transition

/-! ## Traversals -/

/-- The nodes met on the way back to the sentinel. -/
def traverse (step : Ptr → Option Ptr) (head : Ptr) : ℕ → Ptr → Option (List Ptr)
  | 0, _ => none
  | fuel + 1, p => do
      let q ← step p
      if q = head then some [] else return q :: (← traverse step head fuel q)

def forward (h : Heap Node) (head : Ptr) : Option (List Ptr) :=
  traverse (nextOf h) head h.live head

def backward (h : Heap Node) (head : Ptr) : Option (List Ptr) :=
  traverse (prevOf h) head h.live head

/-- The data on a forward traversal of the client's list. -/
def itemsOf (m : Mem Node Vars) : Option (List Ptr) :=
  m.vars.list.map fun thiz ↦
    ((forward m.heap thiz.head).getD []).map fun p ↦ (dataOf m.heap p).getD NULL

/-- `next` and `prev` are inverse on the sentinel and the nodes, and each leads through all of
them, once, and back. -/
structure WellFormed (h : Heap Node) (head : Ptr) (nodes : List Ptr) : Prop where
  distinct : (head :: nodes).Nodup
  forward_eq : forward h head = some nodes
  backward_eq : backward h head = some nodes.reverse
  next_mem : ∀ p ∈ head :: nodes, ∃ q ∈ head :: nodes, nextOf h p = some q
  prev_mem : ∀ p ∈ head :: nodes, ∃ q ∈ head :: nodes, prevOf h p = some q
  inverse : ∀ p ∈ head :: nodes, ∀ q ∈ head :: nodes, nextOf h p = some q ↔ prevOf h q = some p

section

variable {h : Heap Node} {head : Ptr} {xs ys entries : List (Ptr × Ptr)}

theorem Ring.traverse_next (hring : Ring h head (xs ++ ys)) :
    traverse (nextOf h) head (ys.length + 1) (lastOf head (addrs xs)) = some (addrs ys) := by
  induction ys generalizing xs with
  | nil =>
    unfold traverse
    rw [hring.neighbours.1]
    simp [firstOf]
  | cons e ys ih =>
    have hfirst : firstOf head (addrs (e :: ys)) ≠ head := fun heq ↦ by
      simpa using hring.firstOf_eq_head.1 heq
    unfold traverse
    rw [hring.neighbours.1]
    rw [List.append_cons] at hring
    have hrest := ih hring
    rw [addrs_append, show addrs [e] = [e.1] from rfl, lastOf_concat] at hrest
    simpa [firstOf, hrest] using hfirst

theorem Ring.traverse_prev (hring : Ring h head (xs ++ ys)) :
    traverse (prevOf h) head (xs.length + 1) (firstOf head (addrs ys)) =
      some (addrs xs).reverse := by
  induction xs using List.reverseRecOn generalizing ys with
  | nil =>
    unfold traverse
    rw [hring.neighbours.2]
    simp [lastOf]
  | append_singleton xs e ih =>
    have hhead : e.1 ≠ head := by
      obtain ⟨hhead, -⟩ := List.nodup_cons.1 hring.nodup
      rintro rfl
      simp at hhead
    have hprev := hring.neighbours.2
    rw [addrs_append, show addrs [e] = [e.1] from rfl, lastOf_concat] at hprev
    rw [List.length_append, List.length_singleton, traverse, hprev]
    rw [List.append_assoc] at hring
    have hrest := ih hring
    simp only [List.cons_append, List.nil_append, List.map_cons, firstOf] at hrest
    simp [hhead, hrest]

/-- Every node is the left and the right end of a link. -/
theorem mem_links_fst {u v p : Ptr} {nodes : List Ptr} (hp : p ∈ u :: nodes) :
    ∃ q, (p, q) ∈ links u nodes v := by
  induction nodes generalizing u with
  | nil =>
    obtain rfl := List.mem_singleton.1 hp
    exact ⟨v, List.mem_cons_self⟩
  | cons w nodes ih =>
    obtain rfl | hp := List.mem_cons.1 hp
    · exact ⟨w, List.mem_cons_self⟩
    · obtain ⟨q, hq⟩ := ih hp
      exact ⟨q, List.mem_cons_of_mem _ hq⟩

theorem mem_links_snd {u v p : Ptr} {nodes : List Ptr} (hp : p ∈ v :: nodes) :
    ∃ q, (q, p) ∈ links u nodes v := by
  induction nodes generalizing u with
  | nil =>
    obtain rfl := List.mem_singleton.1 hp
    exact ⟨u, List.mem_cons_self⟩
  | cons w nodes ih =>
    obtain rfl | hp := List.mem_cons.1 hp
    · obtain ⟨q, hq⟩ := ih (u := w) List.mem_cons_self
      exact ⟨q, List.mem_cons_of_mem _ hq⟩
    · obtain rfl | hp := List.mem_cons.1 hp
      · exact ⟨u, List.mem_cons_self⟩
      · obtain ⟨q, hq⟩ := ih (u := w) (List.mem_cons_of_mem _ hp)
        exact ⟨q, List.mem_cons_of_mem _ hq⟩

theorem Ring.wellFormed (hring : Ring h head entries) : WellFormed h head (addrs entries) := by
  have hfirst : Ring h head ([] ++ entries) := hring
  have hlast : Ring h head (entries ++ []) := by rwa [List.append_nil]
  refine ⟨hring.nodup, ?_, ?_, fun p hp ↦ ?_, fun p hp ↦ ?_, fun p hp q hq ↦ ?_⟩
  · unfold forward
    rw [hring.live]
    exact hfirst.traverse_next
  · unfold backward
    rw [hring.live]
    exact hlast.traverse_prev
  · obtain ⟨q, hlink⟩ := mem_links_fst (v := head) hp
    exact ⟨q, (mem_links hlink).2, (hring.linked p q hlink).1⟩
  · obtain ⟨q, hlink⟩ := mem_links_snd (u := head) hp
    exact ⟨q, (mem_links hlink).1, (hring.linked q p hlink).2⟩
  · obtain ⟨q', hnext⟩ := mem_links_fst (v := head) hp
    obtain ⟨p', hprev⟩ := mem_links_snd (u := head) hq
    obtain ⟨hnext₁, hnext₂⟩ := hring.linked p q' hnext
    obtain ⟨hprev₁, hprev₂⟩ := hring.linked p' q hprev
    rw [hnext₁, hprev₂, Option.some_inj, Option.some_inj]
    constructor
    · rintro rfl
      rw [hnext₂] at hprev₂
      exact (Option.some_inj.1 hprev₂).symm
    · rintro rfl
      rw [hnext₁] at hprev₁
      exact Option.some_inj.1 hprev₁

theorem Ring.data_eq (hring : Ring h head entries) :
    (addrs entries).map (fun p ↦ (dataOf h p).getD NULL) = entries.map Prod.snd := by
  rw [List.map_map]
  apply List.map_congr_left
  rintro ⟨p, d⟩ he
  simp [hring.held p d he]

end

/-! ## One call -/

def Op.run (op : Op) : ZlistCmd Result := do
  let list := (← getVars).list
  match op with
  | .addhead addr data => do Zlist.addhead list addr data; return .done
  | .addtail addr data => do Zlist.addtail list addr data; return .done
  | .add addr data index => return .int (← Zlist.add list addr data index)
  | .delhead => do Zlist.delhead list; return .done
  | .deltail => do Zlist.deltail list; return .done
  | .del index => return .int (← Zlist.del list index)
  | .delUseCond cmp => return .int (← Zlist.delUseCond list cmp)
  | .sethead data => do Zlist.sethead list data; return .done
  | .settail data => do Zlist.settail list data; return .done
  | .set data index => return .int (← Zlist.set list data index)
  | .clear => do Zlist.clear list; return .done
  | .destroy => do Zlist.destroy; return .done
  | .size => return .int (← Zlist.size list)
  | .empty => return .bool (← Zlist.empty list)
  | .get index => return .ptr (← Zlist.get list index)
  | .gethead => return .ptr (← Zlist.gethead list)
  | .gettail => return .ptr (← Zlist.gettail list)
  | .find cmp => return .int (← Zlist.find list cmp)

/-- The allocator finds a free address for a new node, and a call that counts elements meets fewer
than `2 ^ 31`, the sentinel not counted. -/
def Allowed (m : Mem Node Vars) : Op → Prop
  | .addhead addr _ | .addtail addr _ => addr ≠ NULL ∧ m.heap.cell addr = none
  | .add addr _ _ => m.heap.live ≤ 2 ^ 31 ∧ addr ≠ NULL ∧ m.heap.cell addr = none
  | .delUseCond _ | .size | .find _ => m.heap.live ≤ 2 ^ 31
  | _ => True

/-- The memory holds a list with these data, or no list any more. -/
def Represents (thiz : Handle) (m : Mem Node Vars) : Option (List Ptr) → Prop
  | some items => m.vars.list = some thiz ∧
      ∃ entries, Ring m.heap thiz.head entries ∧ entries.map Prod.snd = items
  | none => m.vars.list = none ∧ m.heap.live = 0

/-- What a call has to do: answer, give data back and leave the list as the outcome says. -/
def Achieves (thiz : Handle) (m : Mem Node Vars) (outcome : Outcome) (result : Result)
    (m' : Mem Node Vars) : Prop :=
  result = outcome.result ∧ Represents thiz m' outcome.items ∧
    m'.vars.calls = m.vars.calls ++ releasedAll thiz.ddfunc outcome.left

section

variable {m : Mem Node Vars} {thiz : Handle} {entries : List (Ptr × Ptr)}

theorem achieves_of_ring {h' : Heap Node} {vars : Vars} {outcome : Outcome} {result : Result}
    {entries' : List (Ptr × Ptr)} (hlist : m.vars.list = some thiz)
    (hring : Ring h' thiz.head entries') (hresult : result = outcome.result)
    (hitems : some (entries'.map Prod.snd) = outcome.items) (hvars : vars.list = m.vars.list)
    (hcalls : vars.calls = m.vars.calls ++ releasedAll thiz.ddfunc outcome.left) :
    Achieves thiz m outcome result ⟨h', vars⟩ := by
  refine ⟨hresult, ?_, hcalls⟩
  rw [← hitems]
  exact ⟨hvars.trans hlist, entries', hring, rfl⟩

/-- **Every call does what the specification says**, with a destroy function for a datum that is
overwritten. -/
theorem wp_run (hlist : m.vars.list = some thiz) (hring : Ring m.heap thiz.head entries) {op : Op}
    (hddfunc : overwritten op (entries.map Prod.snd) ≠ NULL → thiz.ddfunc ≠ NULL)
    (hop : Allowed m op) :
    wp op.run (Achieves thiz m (specLive op (entries.map Prod.snd))) m := by
  have hsmall (hlive : m.heap.live ≤ 2 ^ 31) : entries.length < 2 ^ 31 := by
    rw [hring.live] at hlive
    omega
  unfold Op.run
  simp only [wp_bind, wp_getVars, hlist]
  cases op with
  | addhead addr data =>
    simp only [wp_bind, wp_pure]
    apply wp_addhead hring hop.1 hop.2
    intro h' hring'
    exact achieves_of_ring hlist hring' rfl rfl rfl (List.append_nil _).symm
  | addtail addr data =>
    simp only [wp_bind, wp_pure]
    apply wp_addtail hring hop.1 hop.2
    intro h' hring'
    exact achieves_of_ring hlist hring' rfl (by simp [specLive]) rfl (List.append_nil _).symm
  | add addr data index =>
    simp only [wp_bind, wp_pure]
    apply wp_add hring hop.2.1 hop.2.2 (hsmall hop.1)
    · intro hout
      rw [specLive_add_out (by rwa [List.length_map])]
      exact achieves_of_ring hlist hring rfl rfl rfl (List.append_nil _).symm
    · rintro xs ys h' rfl rfl hring'
      rw [List.map_append, ← List.length_map Prod.snd, specLive_add_in]
      exact achieves_of_ring hlist hring' rfl (by simp) rfl (List.append_nil _).symm
  | delhead =>
    simp only [wp_bind, wp_pure]
    apply wp_delhead hring
    · rintro rfl
      exact achieves_of_ring hlist hring rfl rfl rfl (List.append_nil _).symm
    · rintro p d ys h' rfl hring'
      exact achieves_of_ring hlist hring' rfl rfl rfl (by simp [specLive, releasedAll])
  | deltail =>
    simp only [wp_bind, wp_pure]
    apply wp_deltail hring
    · rintro rfl
      exact achieves_of_ring hlist hring rfl rfl rfl (List.append_nil _).symm
    · rintro xs p d h' rfl hring'
      rw [List.map_append, List.map_singleton, specLive_deltail]
      exact achieves_of_ring hlist hring' rfl rfl rfl (by simp [releasedAll])
  | del index =>
    simp only [wp_bind, wp_pure]
    apply wp_del hring
    · intro hout
      rw [specLive_del_out (by rwa [List.length_map])]
      exact achieves_of_ring hlist hring rfl rfl rfl (List.append_nil _).symm
    · rintro xs p d ys h' rfl rfl hring'
      rw [List.map_append, List.map_cons, ← List.length_map Prod.snd, specLive_del_in]
      exact achieves_of_ring hlist hring' rfl (by simp) rfl (by simp [releasedAll])
  | delUseCond cmp =>
    simp only [wp_bind, wp_pure]
    apply wp_delUseCond hring (Nat.lt_of_le_of_lt (List.length_filter_le _ _) (hsmall hop))
    · rintro rfl
      exact achieves_of_ring hlist hring rfl rfl rfl (List.append_nil _).symm
    · intro h' hne hring'
      have hspec : specLive (.delUseCond cmp) (entries.map Prod.snd) =
          ⟨.int ((entries.map Prod.snd).filter cmp).length, (entries.map Prod.snd).filter cmp, [],
            some ((entries.map Prod.snd).filter fun data ↦ !cmp data)⟩ := by
        unfold specLive
        exact if_neg (by simpa using hne)
      rw [hspec]
      refine achieves_of_ring hlist hring' ?_ ?_ rfl rfl
      · rw [List.filter_map, List.length_map]
        rfl
      · dsimp only
        rw [List.filter_map]
        rfl
  | sethead data =>
    simp only [wp_bind, wp_pure]
    apply wp_sethead hring hddfunc
    · rintro rfl
      exact achieves_of_ring hlist hring rfl rfl rfl (List.append_nil _).symm
    · rintro p d ys h' rfl hring'
      exact achieves_of_ring hlist hring' rfl rfl rfl (by simp [specLive, releasedAll])
  | settail data =>
    simp only [wp_bind, wp_pure]
    apply wp_settail hring hddfunc
    · rintro rfl
      exact achieves_of_ring hlist hring rfl rfl rfl (List.append_nil _).symm
    · rintro xs p d h' rfl hring'
      rw [List.map_append, List.map_singleton, specLive_settail]
      exact achieves_of_ring hlist hring' rfl (by simp) rfl (by simp [releasedAll])
  | set data index =>
    simp only [wp_bind, wp_pure]
    apply wp_set hring (fun hindex hold ↦ hddfunc (by rwa [overwritten, if_pos hindex]))
    · intro hout
      rw [specLive_set_out (by rwa [List.length_map])]
      exact achieves_of_ring hlist hring rfl rfl rfl (List.append_nil _).symm
    · rintro xs p d ys h' rfl rfl hring'
      rw [List.map_append, List.map_cons, ← List.length_map Prod.snd, specLive_set_in]
      exact achieves_of_ring hlist hring' rfl (by simp) rfl (by simp [releasedAll])
  | clear =>
    simp only [wp_bind, wp_pure]
    apply wp_clear hring
    intro h' hring'
    exact achieves_of_ring hlist hring' rfl rfl rfl rfl
  | destroy =>
    simp only [wp_bind, wp_pure]
    apply wp_destroy hlist hring
    intro h' hlive'
    exact ⟨rfl, ⟨rfl, hlive'⟩, rfl⟩
  | size =>
    simp only [wp_bind, wp_pure]
    apply wp_size hring (hsmall hop)
    exact achieves_of_ring hlist hring (by simp [specLive]) rfl rfl (List.append_nil _).symm
  | empty =>
    simp only [wp_bind, wp_empty hring, wp_pure]
    exact achieves_of_ring hlist hring (by simp [specLive]) rfl rfl (List.append_nil _).symm
  | get index =>
    simp only [wp_bind, wp_pure]
    apply wp_get hring
    · intro hout
      rw [specLive_get_out (by rwa [List.length_map])]
      exact achieves_of_ring hlist hring rfl rfl rfl (List.append_nil _).symm
    · rintro xs p d ys rfl rfl
      rw [List.map_append, List.map_cons, ← List.length_map Prod.snd, specLive_get_in]
      exact achieves_of_ring hlist hring rfl (by simp) rfl (List.append_nil _).symm
  | gethead =>
    simp only [wp_bind, wp_pure]
    apply wp_gethead hring
    exact achieves_of_ring hlist hring rfl rfl rfl (List.append_nil _).symm
  | gettail =>
    simp only [wp_bind, wp_pure]
    apply wp_gettail hring
    exact achieves_of_ring hlist hring rfl rfl rfl (List.append_nil _).symm
  | find cmp =>
    simp only [wp_bind, wp_pure]
    apply wp_find hring (hsmall hop)
    intro compared
    exact achieves_of_ring hlist hring rfl rfl rfl (List.append_nil _).symm

/-- A null list pointer is answered without a look at the memory. -/
theorem wp_run_null (hlist : m.vars.list = none) {op : Op} :
    wp op.run (fun result m' ↦ result = resultNull op ∧ m' = m) m := by
  unfold Op.run
  simp only [wp_bind, wp_getVars, hlist]
  cases op <;>
    simp [resultNull, addhead, addtail, add, delhead, deltail, del, delUseCond, sethead, settail,
      set, clear, destroy, size, empty, get, gethead, gettail, find, hlist]

theorem Ring.itemsOf_eq (hlist : m.vars.list = some thiz) (hring : Ring m.heap thiz.head entries) :
    itemsOf m = some (entries.map Prod.snd) := by
  unfold itemsOf
  rw [hlist, Option.map_some, hring.wellFormed.forward_eq, Option.getD_some, hring.data_eq]

end

/-! ## Runs -/

/-- The list was made with this destroy function and is a ring, or it is gone with its nodes. -/
def Sound (ddfunc : Ptr) (m : Mem Node Vars) : Prop :=
  match m.vars.list with
  | some thiz => thiz.ddfunc = ddfunc ∧ ∃ entries, Ring m.heap thiz.head entries
  | none => m.heap.live = 0

def Step (label : Op × Result) (m m' : Mem Node Vars) : Prop :=
  Allowed m label.1 ∧ label.1.run.run m = some (label.2, m')

def start : Mem Node Vars := ⟨Heap.empty, ⟨none, [], []⟩⟩

section

variable {m m' : Mem Node Vars} {ddfunc : Ptr}

theorem sound_of_represents {thiz : Handle} {items : Option (List Ptr)}
    (h : Represents thiz m items) : Sound thiz.ddfunc m ∧ itemsOf m = items := by
  unfold Sound
  cases items with
  | some items =>
    obtain ⟨hlist, entries, hring, rfl⟩ := h
    rw [hlist]
    exact ⟨⟨rfl, entries, hring⟩, hring.itemsOf_eq hlist⟩
  | none =>
    obtain ⟨hlist, hlive⟩ := h
    rw [hlist]
    exact ⟨hlive, by simp [itemsOf, hlist]⟩

/-- **One step**: what is answered, what goes to the destroy function, and what is left. -/
theorem wp_step (h : Sound ddfunc m) {op : Op}
    (hddfunc : overwritten op ((itemsOf m).getD []) ≠ NULL → ddfunc ≠ NULL) (hop : Allowed m op) :
    wp op.run (fun result m' ↦ Sound ddfunc m' ∧ SpecStep (op, result) (itemsOf m) (itemsOf m') ∧
      m'.vars.calls = m.vars.calls ++ releasedAll ddfunc (spec op (itemsOf m)).left) m := by
  unfold Sound at h
  split at h
  · next thiz hlist =>
    obtain ⟨rfl, entries, hring⟩ := h
    rw [hring.itemsOf_eq hlist] at hddfunc ⊢
    apply wp_mono (wp_run hlist hring hddfunc hop)
    rintro result m' ⟨hresult, hrep, hcalls⟩
    obtain ⟨hsound, hitems⟩ := sound_of_represents hrep
    exact ⟨hsound, ⟨hresult, hitems⟩, hcalls⟩
  · next hlist =>
    have hitems : itemsOf m = none := by simp [itemsOf, hlist]
    rw [hitems]
    apply wp_mono (wp_run_null hlist)
    rintro result m' ⟨hresult, rfl⟩
    rw [hitems]
    refine ⟨?_, ⟨hresult, rfl⟩, by simp [spec, releasedAll]⟩
    unfold Sound
    rw [hlist]
    exact h

theorem sound_create {addr : Ptr} (hcreate : (create true addr ddfunc).run start = some ((), m)) :
    Sound ddfunc m ∧ itemsOf m = some [] ∧ m.vars.calls = [] := by
  have haddr : addr ≠ NULL := by
    rintro rfl
    have hwp : wp (create true NULL ddfunc) (fun _ _ ↦ True) start := ⟨_, _, hcreate, trivial⟩
    unfold create createNode at hwp
    simp [start] at hwp
  have hwp : wp (create true addr ddfunc) (fun _ m ↦
      Sound ddfunc m ∧ itemsOf m = some [] ∧ m.vars.calls = []) start := by
    refine wp_create rfl haddr rfl fun h' hring ↦ ?_
    have hrep : Represents ⟨addr, ddfunc⟩ ⟨h', { start.vars with list := some ⟨addr, ddfunc⟩ }⟩
        (some []) := ⟨rfl, [], hring, rfl⟩
    obtain ⟨hsound, hitems⟩ := sound_of_represents hrep
    exact ⟨hsound, hitems, rfl⟩
  have houtcome := wp_outcome hwp hcreate
  exact houtcome

/-- **Every run keeps the ring well formed and follows the list specification.** -/
theorem follows_spec (hddfunc : ddfunc ≠ NULL) {addr : Ptr} {m₀ : Mem Node Vars}
    {labels : List (Op × Result)} (hcreate : (create true addr ddfunc).run start = some ((), m₀))
    (hrun : Run Step labels m₀ m) :
    (∀ thiz, m.vars.list = some thiz → ∃ nodes, WellFormed m.heap thiz.head nodes) ∧
      Run SpecStep labels (some []) (itemsOf m) ∧
      ∀ op, Allowed m op → ∃ result m', Step (op, result) m m' := by
  obtain ⟨hsound₀, hitems₀, -⟩ := sound_create hcreate
  have hsim (label : Op × Result) (m m' : Mem Node Vars) (items : Option (List Ptr))
      (hrel : Sound ddfunc m ∧ itemsOf m = items) (hstep : Step label m m') :
      ∃ items', SpecStep label items items' ∧ Sound ddfunc m' ∧ itemsOf m' = items' := by
    obtain ⟨hsound, rfl⟩ := hrel
    obtain ⟨hsound', hspec, -⟩ := wp_outcome (wp_step hsound (fun _ ↦ hddfunc) hstep.1) hstep.2
    exact ⟨itemsOf m', hspec, hsound', rfl⟩
  obtain ⟨items, hspec, hsound, hitems⟩ := hrun.simulation _ hsim ⟨hsound₀, hitems₀⟩
  refine ⟨fun thiz hlist ↦ ?_, hitems ▸ hspec, fun op hop ↦ ?_⟩
  · unfold Sound at hsound
    rw [hlist] at hsound
    obtain ⟨-, entries, hring⟩ := hsound
    exact ⟨addrs entries, hring.wellFormed⟩
  · obtain ⟨result, m', hstep, -⟩ := wp_step hsound (fun _ ↦ hddfunc) hop
    exact ⟨result, m', hop, hstep⟩

end

/-- Insertions at both ends and in the middle, a range error, and two ways of deleting. -/
def editLabels : List (Op × Result) :=
  [(.addtail 2 20, .done), (.addhead 3 30, .done), (.add 4 40 1, .int 0), (.add 5 50 9, .int (-1)),
    (.set 60 2, .int 0), (.gettail, .ptr 60), (.del 0, .int 0), (.find (· == 60), .int 1),
    (.delUseCond (· == 40), .int 1)]

theorem edit_run : ∃ m₀ m, (create true 1 9).run start = some ((), m₀) ∧
    Run Step editLabels m₀ m ∧ itemsOf m = some [60] :=
  ⟨_, _, rfl,
    .cons ⟨⟨by decide, rfl⟩, rfl⟩ <| .cons ⟨⟨by decide, rfl⟩, rfl⟩ <|
      .cons ⟨⟨by decide, by decide, rfl⟩, rfl⟩ <| .cons ⟨⟨by decide, by decide, rfl⟩, rfl⟩ <|
      .cons ⟨trivial, rfl⟩ <| .cons ⟨trivial, rfl⟩ <| .cons ⟨trivial, rfl⟩ <|
      .cons ⟨(by decide : 3 ≤ 2 ^ 31), rfl⟩ <| .cons ⟨(by decide : 3 ≤ 2 ^ 31), rfl⟩ <| .nil _, rfl⟩

theorem follows_spec_edit : Run SpecStep editLabels (some []) (some [60]) := by
  obtain ⟨m₀, m, hcreate, hrun, hitems⟩ := edit_run
  exact hitems ▸ (follows_spec (by decide) hcreate hrun).2.1

end Zbaselib.Zlist
