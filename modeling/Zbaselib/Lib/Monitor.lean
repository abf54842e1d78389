import Zbaselib.Lib.Program
import Zbaselib.Lib.Transition

/-!
# Calls that one lock serializes

The code of a call is a tree of accesses to the shared state; between any two of
them other threads run.  A monitor is an object whose calls look at the state
once, where they may answer at once, and then run their code under the lock.

The events that the threads of a monitor see are those of an atomic object: a
state on which every call takes effect at one moment between its invocation and
its return.  That is what it means to be linearizable.
-/

namespace Zbaselib.Monitor

open Program Transition

variable {σ ρ α β ι τ : Type}

/-- Two commands with the same weakest preconditions are equal. -/
theorem eq_of_wp_iff {command command' : Cmd σ α}
    (h : ∀ post state, wp command post state ↔ wp command' post state) : command = command' := by
  have hrun (state : σ) (outcome : α × σ) :
      command.run state = some outcome ↔ command'.run state = some outcome := by
    have hwp := h (fun result after ↦ (result, after) = outcome) state
    constructor
    · intro hrun
      obtain ⟨_, _, hrun', rfl⟩ := hwp.1 ⟨_, _, hrun, rfl⟩
      exact hrun'
    · intro hrun
      obtain ⟨_, _, hrun', rfl⟩ := hwp.2 ⟨_, _, hrun, rfl⟩
      exact hrun'
  exact StateT.ext fun state ↦ Option.ext (hrun state)

/-! ## Code -/

/-- An access changes the shared state, or is undefined, and the code goes on with what it saw
before. -/
inductive Code (σ β : Type)
  | done (value : β)
  | access (update : σ → Option σ) (next : σ → Code σ β)

namespace Code

protected def bind : Code σ α → (α → Code σ β) → Code σ β
  | .done value, f => f value
  | .access update next, f => .access update fun s ↦ (next s).bind f

instance : Monad (Code σ) where
  pure := .done
  bind := Code.bind

def load (field : σ → α) : Code σ α :=
  .access some fun s ↦ .done (field s)

def store (update : σ → σ) : Code σ Unit :=
  .access (fun s ↦ some (update s)) fun _ ↦ .done ()

/-- Undefined unless `valid` holds. -/
def loadIf (valid : σ → Prop) [DecidablePred valid] (field : σ → α) : Code σ α :=
  .access (fun s ↦ if valid s then some s else none) fun s ↦ .done (field s)

/-- What the code does when no other thread runs in between. -/
def run : Code σ β → Cmd σ β
  | .done value => pure value
  | .access update next => fun s ↦ (update s).bind fun s' ↦ (next s).run s'

theorem run_access {update : σ → Option σ} {next : σ → Code σ β} {s s' : σ}
    (h : update s = some s') : (access update next).run s = (next s).run s' := by
  change (update s).bind _ = _
  rw [h, Option.bind_some]

@[simp]
theorem wp_pure (value : β) (post : β → σ → Prop) (s : σ) :
    wp (pure value : Code σ β).run post s ↔ post value s :=
  Program.wp_pure value post s

theorem wp_access (update : σ → Option σ) (next : σ → Code σ β) (post : β → σ → Prop) (s : σ) :
    wp (access update next).run post s ↔ ∃ s', update s = some s' ∧ wp (next s).run post s' := by
  constructor
  · rintro ⟨result, after, hrun, hpost⟩
    obtain ⟨s', hupdate, hrest⟩ := Option.bind_eq_some_iff.1 hrun
    exact ⟨s', hupdate, result, after, hrest, hpost⟩
  · rintro ⟨s', hupdate, result, after, hrest, hpost⟩
    exact ⟨result, after, Option.bind_eq_some_iff.2 ⟨s', hupdate, hrest⟩, hpost⟩

@[simp]
theorem wp_bind (first : Code σ α) (next : α → Code σ β) (post : β → σ → Prop) (s : σ) :
    wp (first >>= next).run post s ↔
      wp first.run (fun value s' ↦ wp (next value).run post s') s := by
  induction first generalizing s with
  | done value => exact (Program.wp_pure value (fun value s' ↦ wp (next value).run post s') s).symm
  | access update rest ih =>
    change wp (access update fun s ↦ rest s >>= next).run post s ↔ _
    simp only [wp_access, ih]

@[simp]
theorem wp_load (field : σ → α) (post : α → σ → Prop) (s : σ) :
    wp (load field).run post s ↔ post (field s) s := by
  simp only [load, wp_access, Option.some.injEq, exists_eq_left']
  exact wp_pure _ post s

@[simp]
theorem wp_store (update : σ → σ) (post : Unit → σ → Prop) (s : σ) :
    wp (store update).run post s ↔ post () (update s) := by
  simp only [store, wp_access, Option.some.injEq, exists_eq_left']
  exact wp_pure _ post _

@[simp]
theorem wp_loadIf (valid : σ → Prop) [DecidablePred valid] (field : σ → α)
    (post : α → σ → Prop) (s : σ) :
    wp (loadIf valid field).run post s ↔ valid s ∧ post (field s) s := by
  simp only [loadIf, wp_access, Option.ite_none_right_eq_some, Option.some.injEq, and_assoc,
    exists_and_left, exists_eq_left']
  exact and_congr_right fun _ ↦ wp_pure _ post s

@[simp]
theorem wp_ite (p : Prop) [Decidable p] (yes no : Code σ β) (post : β → σ → Prop) (s : σ) :
    wp (if p then yes else no).run post s ↔ if p then wp yes.run post s else wp no.run post s := by
  by_cases hp : p <;> simp [hp]

/-- No access changes what `view` sees. -/
def Keeps (view : σ → α) : Code σ β → Prop
  | .done _ => True
  | .access update next =>
    (∀ s s', update s = some s' → view s' = view s) ∧ ∀ s, (next s).Keeps view

variable {view : σ → ρ}

theorem Keeps.pure (value : β) : (Pure.pure value : Code σ β).Keeps view := trivial

theorem Keeps.bind {first : Code σ α} {next : α → Code σ β} (hfirst : first.Keeps view)
    (hnext : ∀ value, (next value).Keeps view) : (first >>= next).Keeps view := by
  induction first with
  | done value => exact hnext value
  | access update rest ih => exact ⟨hfirst.1, fun s ↦ ih s (hfirst.2 s)⟩

theorem Keeps.ite {p : Prop} [Decidable p] {yes no : Code σ β} (hyes : yes.Keeps view)
    (hno : no.Keeps view) : (if p then yes else no).Keeps view := by
  split
  · exact hyes
  · exact hno

theorem Keeps.load (field : σ → α) : (Code.load field).Keeps view :=
  ⟨fun _ _ h ↦ by cases h; rfl, fun _ ↦ trivial⟩

theorem Keeps.store {update : σ → σ} (h : ∀ s, view (update s) = view s) :
    (Code.store update).Keeps view :=
  ⟨fun _ _ heq ↦ by cases heq; exact h _, fun _ ↦ trivial⟩

theorem Keeps.loadIf (valid : σ → Prop) [DecidablePred valid] (field : σ → α) :
    (Code.loadIf valid field).Keeps view :=
  ⟨fun _ _ h ↦ by cases (Option.ite_none_right_eq_some.1 h).2; rfl, fun _ ↦ trivial⟩

theorem Keeps.comp {code : Code σ β} (h : code.Keeps view) (f : ρ → α) :
    code.Keeps fun s ↦ f (view s) := by
  induction code with
  | done => trivial
  | access update next ih =>
    exact ⟨fun s s' hupdate ↦ congrArg f (h.1 s s' hupdate), fun s ↦ ih s (h.2 s)⟩

end Code

/-! ## Atomic objects -/

/-- What the outside sees of a thread. -/
inductive Event (τ ι β : Type)
  | call (thread : τ) (op : ι)
  | ret (thread : τ) (op : ι) (result : β)

/-- A thread outside every call, one whose call has not taken effect, and one whose call has. -/
inductive Pending (ι β : Type)
  | idle
  | called (op : ι)
  | decided (op : ι) (result : β)

structure Atomic (σ ι β τ : Type) where
  state : σ
  pending : τ → Pending ι β

def Atomic.init (s : σ) : Atomic σ ι β τ := ⟨s, fun _ ↦ .idle⟩

variable [DecidableEq τ]

/-- A call takes effect at one moment between its invocation and its return.  Steps without an
event may also do nothing. -/
inductive AtomicStep (step : ι × β → σ → σ → Prop) :
    Option (Event τ ι β) → Atomic σ ι β τ → Atomic σ ι β τ → Prop
  | call {a : Atomic σ ι β τ} {t : τ} {op : ι} (h : a.pending t = .idle) :
      AtomicStep step (some (.call t op)) a ⟨a.state, Function.update a.pending t (.called op)⟩
  | effect {a : Atomic σ ι β τ} {t : τ} {op : ι} {result : β} {s : σ}
      (h : a.pending t = .called op) (heffect : step (op, result) a.state s) :
      AtomicStep step none a ⟨s, Function.update a.pending t (.decided op result)⟩
  | stutter (a : Atomic σ ι β τ) : AtomicStep step none a a
  | ret {a : Atomic σ ι β τ} {t : τ} {op : ι} {result : β} (h : a.pending t = .decided op result) :
      AtomicStep step (some (.ret t op result)) a ⟨a.state, Function.update a.pending t .idle⟩

/-- What every call keeps. -/
theorem AtomicStep.invariant {step : ι × β → σ → σ → Prop} {inv : σ → Prop}
    (hstep : ∀ label s s', inv s → step label s s' → inv s') {label : Option (Event τ ι β)}
    {a a' : Atomic σ ι β τ} (h : AtomicStep step label a a') (hinv : inv a.state) :
    inv a'.state := by
  cases h with
  | effect _ heffect => exact hstep _ _ _ hinv heffect
  | call | stutter | ret => exact hinv

/-- A simulation of the calls is one of the atomic objects. -/
theorem AtomicStep.simulation {step : ι × β → σ → σ → Prop} {step' : ι × β → ρ → ρ → Prop}
    (rel : σ → ρ → Prop)
    (hstep : ∀ label s s' r, rel s r → step label s s' → ∃ r', step' label r r' ∧ rel s' r')
    {labels : List (Option (Event τ ι β))} {a a' : Atomic σ ι β τ}
    (hrun : Run (AtomicStep step) labels a a') {r : ρ} (hrel : rel a.state r) :
    ∃ r', Run (AtomicStep step') labels ⟨r, a.pending⟩ ⟨r', a'.pending⟩ ∧ rel a'.state r' := by
  have hsim (label : Option (Event τ ι β)) (a a' : Atomic σ ι β τ) (b : Atomic ρ ι β τ)
      (hb : rel a.state b.state ∧ b.pending = a.pending) (h : AtomicStep step label a a') :
      ∃ b', AtomicStep step' label b b' ∧ rel a'.state b'.state ∧ b'.pending = a'.pending := by
    obtain ⟨hrel, hpending⟩ := hb
    cases h with
    | call h => exact ⟨_, .call (hpending ▸ h), hrel, by rw [hpending]⟩
    | effect h heffect =>
      obtain ⟨r', hr', hrel'⟩ := hstep _ _ _ _ hrel heffect
      exact ⟨_, .effect (hpending ▸ h) hr', hrel', by rw [hpending]⟩
    | stutter => exact ⟨b, .stutter b, hrel, hpending⟩
    | ret h => exact ⟨_, .ret (hpending ▸ h), hrel, by rw [hpending]⟩
  obtain ⟨⟨r', _⟩, hrun', hrel', rfl⟩ := hrun.simulation _ hsim (t := ⟨r, a.pending⟩) ⟨hrel, rfl⟩
  exact ⟨r', hrun', hrel'⟩

/-! ## The order in which calls take effect -/

/-- The call of the thread that has taken effect and not returned. -/
def Pending.effects : Pending ι β → List (ι × β)
  | .decided op result => [(op, result)]
  | .idle | .called _ => []

/-- The calls that have returned to the thread. -/
def returned (t : τ) : List (Option (Event τ ι β)) → List (ι × β)
  | [] => []
  | none :: labels | some (.call _ _) :: labels => returned t labels
  | some (.ret u op result) :: labels =>
    if u = t then (op, result) :: returned t labels else returned t labels

/-- The part of the thread. -/
def ofThread (t : τ) (order : List (τ × ι × β)) : List (ι × β) :=
  (order.filter fun effect ↦ effect.1 = t).map Prod.snd

/-- **The calls happen one after the other.**  In the order in which they take effect they are a run
of the single state, and each thread's part of it is what it was answered, in that order. -/
theorem AtomicStep.exists_order {step : ι × β → σ → σ → Prop}
    {labels : List (Option (Event τ ι β))} {a a' : Atomic σ ι β τ}
    (hrun : Run (AtomicStep step) labels a a') :
    ∃ order : List (τ × ι × β), Run step (order.map Prod.snd) a.state a'.state ∧
      ∀ t, (a.pending t).effects ++ ofThread t order =
        returned t labels ++ (a'.pending t).effects := by
  induction hrun with
  | nil => exact ⟨[], .nil _, fun t ↦ List.append_nil _⟩
  | cons head _ ih =>
    obtain ⟨order, horder, hthreads⟩ := ih
    cases head with
    | @call _ u op h =>
      refine ⟨order, horder, fun t ↦ ?_⟩
      rw [returned, ← hthreads]
      obtain rfl | hne := eq_or_ne t u
      · simp [h, Pending.effects]
      · simp [hne]
    | @effect _ u op result s h heffect =>
      refine ⟨(u, op, result) :: order, .cons heffect horder, fun t ↦ ?_⟩
      rw [returned, ← hthreads]
      obtain rfl | hne := eq_or_ne t u
      · simp [h, Pending.effects, ofThread]
      · simp [hne, hne.symm, ofThread]
    | stutter => exact ⟨order, horder, hthreads⟩
    | @ret _ u op result h =>
      refine ⟨order, horder, fun t ↦ ?_⟩
      have ht := hthreads t
      rw [returned]
      obtain rfl | hne := eq_or_ne t u
      · simpa [h, Pending.effects] using ht
      · simpa [hne, hne.symm] using ht

/-! ## Monitors -/

structure Object (σ ι β : Type) where
  /-- What a call answers before it takes the lock, if it does. -/
  guard : ι → σ → Option β
  body : ι → Code σ β
  keeps : ∀ op, (body op).Keeps fun s op' ↦ guard op' s

/-- The call without other threads. -/
def Object.call (object : Object σ ι β) (op : ι) : Cmd σ β := do
  let s ← get
  match object.guard op s with
  | some result => return result
  | none => (object.body op).run

def Object.Call (object : Object σ ι β) (label : ι × β) (s s' : σ) : Prop :=
  (object.call label.1).run s = some (label.2, s')

inductive Phase (σ ι β : Type)
  | idle
  | called (op : ι)
  | waiting (op : ι)
  | inside (op : ι) (rest : Code σ β)
  | leaving (op : ι) (result : β)

/-- The threads, the shared state and the owner of the lock. -/
structure System (σ ι β τ : Type) where
  shared : σ
  owner : Option τ
  phase : τ → Phase σ ι β

def System.init (s : σ) : System σ ι β τ := ⟨s, none, fun _ ↦ .idle⟩

def System.put (m : System σ ι β τ) (t : τ) (phase : Phase σ ι β) : System σ ι β τ :=
  { m with phase := Function.update m.phase t phase }

theorem System.phase_put_self (m : System σ ι β τ) (t : τ) (phase : Phase σ ι β) :
    (m.put t phase).phase t = phase :=
  Function.update_self _ _ _

/-- One step of one thread.  Without `locked` the calls do not take the lock. -/
inductive LockStep (object : Object σ ι β) (locked : Bool) :
    Option (Event τ ι β) → System σ ι β τ → System σ ι β τ → Prop
  | call {m : System σ ι β τ} {t : τ} {op : ι} (h : m.phase t = .idle) :
      LockStep object locked (some (.call t op)) m (m.put t (.called op))
  | refuse {m : System σ ι β τ} {t : τ} {op : ι} {result : β} (h : m.phase t = .called op)
      (hguard : object.guard op m.shared = some result) :
      LockStep object locked none m (m.put t (.leaving op result))
  | pass {m : System σ ι β τ} {t : τ} {op : ι} (h : m.phase t = .called op)
      (hguard : object.guard op m.shared = none) :
      LockStep object locked none m (m.put t (.waiting op))
  | acquire {m : System σ ι β τ} {t : τ} {op : ι} (h : m.phase t = .waiting op)
      (hfree : locked = true → m.owner = none) :
      LockStep object locked none m
        ({ m with owner := if locked then some t else m.owner }.put t
          (.inside op (object.body op)))
  | access {m : System σ ι β τ} {t : τ} {op : ι} {update : σ → Option σ} {next : σ → Code σ β}
      {s : σ} (h : m.phase t = .inside op (.access update next))
      (hupdate : update m.shared = some s) :
      LockStep object locked none m
        ({ m with shared := s }.put t (.inside op (next m.shared)))
  | release {m : System σ ι β τ} {t : τ} {op : ι} {result : β}
      (h : m.phase t = .inside op (.done result)) :
      LockStep object locked none m
        ({ m with owner := if locked then none else m.owner }.put t (.leaving op result))
  | ret {m : System σ ι β τ} {t : τ} {op : ι} {result : β} (h : m.phase t = .leaving op result) :
      LockStep object locked (some (.ret t op result)) m (m.put t .idle)

/-- Calls take effect when they release the lock, or when they look at the state and are refused. -/
def Phase.pending : Phase σ ι β → Pending ι β
  | .idle => .idle
  | .called op | .waiting op | .inside op _ => .called op
  | .leaving op result => .decided op result

def System.pending (m : System σ ι β τ) (t : τ) : Pending ι β :=
  (m.phase t).pending

@[simp]
theorem System.pending_put (m : System σ ι β τ) (t : τ) (phase : Phase σ ι β) :
    (m.put t phase).pending = Function.update m.pending t phase.pending := by
  funext u
  unfold System.pending System.put
  obtain rfl | hne := eq_or_ne u t
  · simp
  · simp [hne]

section

variable {object : Object σ ι β} {m m' : System σ ι β τ} {s : σ} {t : τ} {op : ι}

/-- The system, seen against the state that the calls so far have made. -/
structure Coherent (object : Object σ ι β) (m : System σ ι β τ) (s : σ) : Prop where
  guard : ∀ op, object.guard op m.shared = object.guard op s
  passed : ∀ t op, m.phase t = .waiting op → object.guard op s = none
  inside : ∀ t op rest, m.phase t = .inside op rest → m.owner = some t ∧
    rest.Keeps (fun s op' ↦ object.guard op' s) ∧ object.guard op s = none ∧
      rest.run m.shared = (object.body op).run s
  held : ∀ t, m.owner = some t → ∃ op rest, m.phase t = .inside op rest
  free : m.owner = none → m.shared = s

omit [DecidableEq τ] in
theorem coherent_init (s : σ) : Coherent object (System.init s : System σ ι β τ) s where
  guard _ := rfl
  passed _ _ h := nomatch h
  inside _ _ _ h := nomatch h
  held _ h := nomatch h
  free _ := rfl

omit [DecidableEq τ] in
/-- At most one thread is in the code. -/
theorem Coherent.eq_of_inside (h : Coherent object m s) {u : τ} {op' : ι} {rest rest' : Code σ β}
    (ht : m.phase t = .inside op rest) (hu : m.phase u = .inside op' rest') : u = t := by
  have howner := (h.inside t op rest ht).1
  rw [(h.inside u op' rest' hu).1] at howner
  exact Option.some.inj howner

theorem wp_call_of_guard_eq_some {result : β} (h : object.guard op s = some result)
    (post : β → σ → Prop) : wp (object.call op) post s ↔ post result s := by
  simp [Object.call, h]

theorem call_of_guard_eq_some {result : β} (h : object.guard op s = some result) :
    object.Call (op, result) s s := by
  obtain ⟨_, _, hrun, rfl, rfl⟩ :=
    (wp_call_of_guard_eq_some h fun r s' ↦ r = result ∧ s' = s).2 ⟨rfl, rfl⟩
  exact hrun

theorem wp_call_of_guard_eq_none (h : object.guard op s = none) (post : β → σ → Prop) :
    wp (object.call op) post s ↔ wp (object.body op).run post s := by
  simp [Object.call, h]

theorem call_of_run (h : object.guard op s = none) {result : β} {s' : σ}
    (hrun : (object.body op).run s = some (result, s')) : object.Call (op, result) s s' := by
  have hwp : wp (object.body op).run (fun r after ↦ r = result ∧ after = s') s :=
    ⟨_, _, hrun, rfl, rfl⟩
  obtain ⟨_, _, hcall, rfl, rfl⟩ := (wp_call_of_guard_eq_none h _).2 hwp
  exact hcall

/-- A phase outside the code does not touch the others. -/
theorem Coherent.put (h : Coherent object m s) {phase : Phase σ ι β}
    (hout : ∀ op rest, m.phase t ≠ .inside op rest) (hin : ∀ op rest, phase ≠ .inside op rest)
    (hpassed : ∀ op, phase = .waiting op → object.guard op s = none) :
    Coherent object (m.put t phase) s where
  guard := h.guard
  passed u op hu := by
    obtain rfl | hne := eq_or_ne u t
    · exact hpassed op (by simpa [System.put] using hu)
    · exact h.passed u op (by simpa [System.put, hne] using hu)
  inside u op rest hu := by
    obtain rfl | hne := eq_or_ne u t
    · exact absurd (by simpa [System.put] using hu) (hin op rest)
    · exact h.inside u op rest (by simpa [System.put, hne] using hu)
  held u hu := by
    obtain ⟨op, rest, hrest⟩ := h.held u hu
    obtain rfl | hne := eq_or_ne u t
    · exact absurd hrest (hout op rest)
    · exact ⟨op, rest, by simpa [System.put, hne] using hrest⟩
  free := h.free

/-- The owner of the lock, or the thread that takes it, is in its code. -/
theorem Coherent.put_inside (h : Coherent object m s) (howner : m.owner = none ∨ m.owner = some t)
    {shared : σ} {rest : Code σ β} (hguard : ∀ op, object.guard op shared = object.guard op s)
    (hkeeps : rest.Keeps fun s op' ↦ object.guard op' s) (hnone : object.guard op s = none)
    (hrun : rest.run shared = (object.body op).run s) :
    Coherent object (System.put ⟨shared, some t, m.phase⟩ t (.inside op rest)) s where
  guard := hguard
  passed u op' hu := by
    obtain rfl | hne := eq_or_ne u t
    · simp [System.put] at hu
    · exact h.passed u op' (by simpa [System.put, hne] using hu)
  inside u op' rest' hu := by
    obtain rfl | hne := eq_or_ne u t
    · simp only [System.put, Function.update_self, Phase.inside.injEq] at hu
      obtain ⟨rfl, rfl⟩ := hu
      exact ⟨rfl, hkeeps, hnone, hrun⟩
    · have hother := (h.inside u op' rest' (by simpa [System.put, hne] using hu)).1
      rw [hother] at howner
      simp [hne] at howner
  held u hu := by
    obtain rfl : t = u := Option.some.inj hu
    exact ⟨op, rest, by simp [System.put]⟩
  free hu := nomatch hu

/-- The owner of the lock has finished its code. -/
theorem Coherent.put_leaving (h : Coherent object m s) (howner : m.owner = some t) {result : β} :
    Coherent object (System.put ⟨m.shared, none, m.phase⟩ t (.leaving op result)) m.shared where
  guard _ := rfl
  passed u op' hu := by
    obtain rfl | hne := eq_or_ne u t
    · simp [System.put] at hu
    · rw [h.guard]
      exact h.passed u op' (by simpa [System.put, hne] using hu)
  inside u op' rest' hu := by
    obtain rfl | hne := eq_or_ne u t
    · simp [System.put] at hu
    · have hother := (h.inside u op' rest' (by simpa [System.put, hne] using hu)).1
      rw [hother] at howner
      exact absurd (Option.some.inj howner) hne
  held _ hu := nomatch hu
  free _ := rfl

theorem System.pending_put_of_eq {phase : Phase σ ι β} (h : phase.pending = m.pending t) :
    (m.put t phase).pending = m.pending := by
  rw [pending_put, h, Function.update_eq_self]

/-- **Every step of a thread is one of the atomic object.** -/
theorem Coherent.step {label : Option (Event τ ι β)} (h : Coherent object m s)
    (hstep : LockStep object true label m m') :
    ∃ s', AtomicStep object.Call label ⟨s, m.pending⟩ ⟨s', m'.pending⟩ ∧
      Coherent object m' s' := by
  cases hstep with
  | @call _ t op ht =>
    refine ⟨s, ?_, h.put (by simp [ht]) (by simp) (by simp)⟩
    rw [System.pending_put]
    exact .call (by simp [System.pending, ht, Phase.pending])
  | @refuse _ t op result ht hguard =>
    refine ⟨s, ?_, h.put (by simp [ht]) (by simp) (by simp)⟩
    rw [System.pending_put]
    exact .effect (by simp [System.pending, ht, Phase.pending])
      (call_of_guard_eq_some ((h.guard op).symm.trans hguard))
  | @pass _ t op ht hguard =>
    refine ⟨s, ?_, h.put (by simp [ht]) (by simp) fun op' hop ↦ ?_⟩
    · rw [System.pending_put_of_eq (by simp [System.pending, ht, Phase.pending])]
      exact .stutter _
    · cases hop
      rw [← h.guard, hguard]
  | @acquire _ t op ht hfree =>
    have hshared := h.free (hfree rfl)
    refine ⟨s, ?_, h.put_inside (.inl (hfree rfl)) h.guard (object.keeps op) (h.passed t op ht) ?_⟩
    · rw [System.pending_put_of_eq (by simp [System.pending, ht, Phase.pending])]
      exact .stutter _
    · rw [hshared]
  | @access _ t op update next s' ht hupdate =>
    obtain ⟨howner, hkeeps, hnone, hrun⟩ := h.inside t op _ ht
    have hview := hkeeps.1 m.shared s' hupdate
    refine ⟨s, ?_, ?_⟩
    · rw [System.pending_put_of_eq (by simp [System.pending, ht, Phase.pending])]
      exact .stutter _
    · rw [howner]
      refine h.put_inside (.inr howner) (fun op' ↦ ?_) (hkeeps.2 m.shared) hnone ?_
      · exact (congrFun hview op').trans (h.guard op')
      · rw [← hrun, Code.run_access hupdate]
  | @release _ t op result ht =>
    obtain ⟨howner, -, hnone, hrun⟩ := h.inside t op _ ht
    refine ⟨m.shared, ?_, h.put_leaving howner⟩
    rw [System.pending_put]
    exact .effect (by simp [System.pending, ht, Phase.pending])
      (call_of_run hnone (hrun.symm.trans rfl))
  | @ret _ t op result ht =>
    refine ⟨s, ?_, h.put (by simp [ht]) (by simp) (by simp)⟩
    rw [System.pending_put]
    exact .ret (by simp [System.pending, ht, Phase.pending])

/-- **The lock makes the calls atomic.**  What the threads see in any interleaving they also see of
the atomic object, and the shared state is that of the object when no thread is in its code. -/
theorem coherent_of_run {s₀ : σ} {labels : List (Option (Event τ ι β))}
    (hrun : Run (LockStep object true) labels (System.init s₀) m) :
    ∃ s, Run (AtomicStep object.Call) labels (Atomic.init s₀) ⟨s, m.pending⟩ ∧
      Coherent object m s := by
  obtain ⟨⟨s, _⟩, hatomic, h, rfl⟩ := hrun.simulation
    (fun m (a : Atomic σ ι β τ) ↦ Coherent object m a.state ∧ a.pending = m.pending)
    (fun label m m' a hrel hstep ↦ by
      obtain ⟨s, _⟩ := a
      obtain ⟨h, rfl⟩ := hrel
      obtain ⟨s', hatomic, h'⟩ := h.step hstep
      exact ⟨⟨s', m'.pending⟩, hatomic, h', rfl⟩)
    (t := Atomic.init s₀) ⟨coherent_init s₀, rfl⟩
  exact ⟨s, hatomic, h⟩

/-! ## No call is stuck -/

/-- The owner of the lock finishes its code. -/
theorem exists_run_leaving {rest : Code σ β} (ht : m.phase t = .inside op rest)
    (hdefined : wp rest.run (fun _ _ ↦ True) m.shared) :
    ∃ labels m' result, Run (LockStep object true) labels m m' ∧ m'.owner = none ∧
      m'.phase = Function.update m.phase t (.leaving op result) := by
  induction rest generalizing m with
  | done result =>
    exact ⟨[none], _, result, .cons (.release ht) (.nil _), rfl, rfl⟩
  | access update next ih =>
    obtain ⟨s', hupdate, hrest⟩ := (Code.wp_access update next _ _).1 hdefined
    obtain ⟨labels, m', result, hrun, howner, hphase⟩ :=
      ih m.shared (m := System.put { m with shared := s' } t (.inside op (next m.shared)))
        (by simp [System.put]) hrest
    refine ⟨none :: labels, m', result, .cons (.access ht hupdate) hrun, howner, ?_⟩
    rw [hphase, System.put, Function.update_idem]

variable {inv : σ → Prop}

variable (object) in
theorem exists_idle_of_leaving {result : β} (ht : m.phase t = .leaving op result) :
    ∃ labels m', Run (LockStep object true) labels m m' ∧ m'.phase t = .idle :=
  ⟨[_], _, .cons (.ret ht) (.nil _), by simp [System.put]⟩

section

variable (hcall : ∀ op s, inv s → wp (object.call op) (fun _ s' ↦ inv s') s)

include hcall

theorem coherent_inv_of_run {labels : List (Option (Event τ ι β))}
    (hrun : Run (LockStep object true) labels m m') (h : ∃ s, Coherent object m s ∧ inv s) :
    ∃ s, Coherent object m' s ∧ inv s := by
  refine hrun.invariant (fun m ↦ ∃ s, Coherent object m s ∧ inv s) ?_ h
  rintro label m m' ⟨s, h, hinv⟩ hstep
  obtain ⟨s', hatomic, h'⟩ := h.step hstep
  have hkept (label : ι × β) (s s' : σ) (hinv : inv s) (heffect : object.Call label s s') :
      inv s' :=
    wp_outcome (hcall label.1 s hinv) heffect
  exact ⟨s', h', hatomic.invariant hkept hinv⟩

omit [DecidableEq τ] in
/-- The code of the owner stays defined. -/
theorem defined_of_inside (h : Coherent object m s) (hinv : inv s) {rest : Code σ β}
    (ht : m.phase t = .inside op rest) : wp rest.run (fun _ _ ↦ True) m.shared := by
  obtain ⟨-, -, hnone, hrun⟩ := h.inside t op rest ht
  obtain ⟨result, s', hbody, -⟩ := (wp_call_of_guard_eq_none hnone _).1 (hcall op s hinv)
  exact ⟨result, s', hrun.trans hbody, trivial⟩

theorem exists_idle_of_inside (h : Coherent object m s) (hinv : inv s) {rest : Code σ β}
    (ht : m.phase t = .inside op rest) :
    ∃ labels m', Run (LockStep object true) labels m m' ∧ m'.phase t = .idle := by
  obtain ⟨labels, m₁, result, hrun₁, -, hphase⟩ :=
    exists_run_leaving ht (defined_of_inside hcall h hinv ht)
  obtain ⟨labels', m₂, hrun₂, hidle⟩ :=
    exists_idle_of_leaving object ((congrFun hphase t).trans (Function.update_self _ _ _))
  exact ⟨labels ++ labels', m₂, hrun₁.append hrun₂, hidle⟩

/-- The lock gets free, and the other threads stay where they are. -/
theorem exists_free (h : Coherent object m s) (hinv : inv s) :
    ∃ labels m', Run (LockStep object true) labels m m' ∧ m'.owner = none ∧
      ∀ t op, m.phase t = .waiting op → m'.phase t = .waiting op := by
  cases howner : m.owner with
  | none => exact ⟨[], m, .nil m, howner, fun _ _ ht ↦ ht⟩
  | some u =>
    obtain ⟨op, rest, hu⟩ := h.held u howner
    obtain ⟨labels, m', result, hrun', hfree, hphase⟩ :=
      exists_run_leaving hu (defined_of_inside hcall h hinv hu)
    refine ⟨labels, m', hrun', hfree, fun t op' ht ↦ ?_⟩
    obtain rfl | hne := eq_or_ne t u
    · rw [hu] at ht
      cases ht
    · rw [hphase, Function.update_of_ne hne, ht]

theorem exists_idle_of_waiting (h : Coherent object m s) (hinv : inv s)
    (ht : m.phase t = .waiting op) :
    ∃ labels m', Run (LockStep object true) labels m m' ∧ m'.phase t = .idle := by
  obtain ⟨labels, m₁, hrun₁, hfree, hwaiting⟩ := exists_free hcall h hinv
  have hrun₂ := hrun₁.append (.cons (.acquire (hwaiting t op ht) fun _ ↦ hfree) (.nil _))
  obtain ⟨s', h', hinv'⟩ := coherent_inv_of_run hcall hrun₂ ⟨s, h, hinv⟩
  obtain ⟨labels', m₂, hrun₃, hidle⟩ :=
    exists_idle_of_inside hcall h' hinv' (System.phase_put_self _ _ _)
  exact ⟨_, m₂, hrun₂.append hrun₃, hidle⟩

/-- **No call is stuck.**  From wherever an interleaving has led, every thread's call can return. -/
theorem exists_idle (h : Coherent object m s) (hinv : inv s) (t : τ) :
    ∃ labels m', Run (LockStep object true) labels m m' ∧ m'.phase t = .idle := by
  cases ht : m.phase t with
  | idle => exact ⟨[], m, .nil m, ht⟩
  | called op =>
    cases hguard : object.guard op m.shared with
    | none =>
      have hrun₁ : Run (LockStep object true) [none] m (m.put t (.waiting op)) :=
        .cons (.pass ht hguard) (.nil _)
      obtain ⟨s', h', hinv'⟩ := coherent_inv_of_run hcall hrun₁ ⟨s, h, hinv⟩
      obtain ⟨labels, m', hrun₂, hidle⟩ :=
        exists_idle_of_waiting hcall h' hinv' (System.phase_put_self _ _ _)
      exact ⟨_, m', hrun₁.append hrun₂, hidle⟩
    | some result =>
      obtain ⟨labels, m', hrun, hidle⟩ :=
        exists_idle_of_leaving object (m.phase_put_self t (.leaving op result))
      exact ⟨none :: labels, m', .cons (.refuse ht hguard) hrun, hidle⟩
  | waiting op => exact exists_idle_of_waiting hcall h hinv ht
  | inside op rest => exact exists_idle_of_inside hcall h hinv ht
  | leaving op result => exact exists_idle_of_leaving object ht

end

end

end Zbaselib.Monitor
