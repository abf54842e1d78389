import Mathlib

/-!
# Total-correctness reasoning about sequential C code

A command reads and changes a state, and has no outcome when the C code would
run into undefined behaviour.  `wp` is the weakest precondition for total
correctness: the command has an outcome, and the outcome satisfies the
postcondition.  The rules below are the only facts about commands that the
models use; a `while` loop is verified with a decreasing measure.
-/

namespace Zbaselib.Program

variable {σ α β : Type}

/-- A command over `σ`; `none` is undefined behaviour, or a loop that was cut off. -/
abbrev Cmd (σ : Type) := StateT σ Option

/-- The command has an outcome from this state, and the outcome satisfies `post`. -/
def wp (command : Cmd σ α) (post : α → σ → Prop) (state : σ) : Prop :=
  ∃ result after, command.run state = some (result, after) ∧ post result after

/-- Undefined behaviour unless `p` holds. -/
def require (p : Prop) [Decidable p] : Cmd σ Unit := do
  if ¬p then failure

/-- A C loop over its local variables: the body goes on with new values (`inl`) or leaves the
loop (`inr`).  At most `fuel` iterations are made. -/
def loop (body : α → Cmd σ (α ⊕ β)) : ℕ → α → Cmd σ β
  | 0, _ => failure
  | fuel + 1, locals => do
      match ← body locals with
      | .inl next => loop body fuel next
      | .inr result => pure result

/-! ## Rules -/

@[simp]
theorem wp_pure (value : α) (post : α → σ → Prop) (state : σ) :
    wp (pure value) post state ↔ post value state := by
  simp [wp]

@[simp]
theorem wp_bind (first : Cmd σ α) (next : α → Cmd σ β) (post : β → σ → Prop) (state : σ) :
    wp (first >>= next) post state ↔
      wp first (fun value after ↦ wp (next value) post after) state := by
  simp only [wp, StateT.run_bind, Option.bind_eq_bind, Option.bind_eq_some_iff]
  constructor
  · rintro ⟨result, after, ⟨⟨value, middle⟩, hfirst, hnext⟩, hpost⟩
    exact ⟨value, middle, hfirst, result, after, hnext, hpost⟩
  · rintro ⟨value, middle, hfirst, result, after, hnext, hpost⟩
    exact ⟨result, after, ⟨(value, middle), hfirst, hnext⟩, hpost⟩

@[simp]
theorem wp_map (f : α → β) (command : Cmd σ α) (post : β → σ → Prop) (state : σ) :
    wp (f <$> command) post state ↔ wp command (fun value ↦ post (f value)) state := by
  simp only [map_eq_pure_bind, wp_bind, wp_pure]

@[simp]
theorem wp_get (post : σ → σ → Prop) (state : σ) :
    wp (get : Cmd σ σ) post state ↔ post state state := by
  simp [wp]

@[simp]
theorem wp_set (value : σ) (post : PUnit → σ → Prop) (state : σ) :
    wp (set value : Cmd σ PUnit) post state ↔ post ⟨⟩ value := by
  constructor
  · rintro ⟨result, after, hrun, hpost⟩
    cases hrun
    exact hpost
  · exact fun hpost ↦ ⟨_, _, rfl, hpost⟩

@[simp]
theorem wp_modify (f : σ → σ) (post : PUnit → σ → Prop) (state : σ) :
    wp (modify f : Cmd σ PUnit) post state ↔ post ⟨⟩ (f state) := by
  exact wp_set (f state) post state

@[simp]
theorem wp_failure (post : α → σ → Prop) (state : σ) :
    wp (failure : Cmd σ α) post state ↔ False := by
  simp only [wp, iff_false]
  rintro ⟨result, after, h, -⟩
  exact nomatch h

@[simp]
theorem wp_lift (value : Option α) (post : α → σ → Prop) (state : σ) :
    wp (liftM value : Cmd σ α) post state ↔ ∃ result, value = some result ∧ post result state := by
  cases value with
  | none =>
    simp only [reduceCtorEq, false_and, exists_false, iff_false]
    rintro ⟨result, after, h, -⟩
    exact absurd h.symm (Option.some_ne_none _)
  | some result =>
    simp only [Option.some.injEq, exists_eq_left']
    exact wp_pure result post state

@[simp]
theorem wp_require (p : Prop) [Decidable p] (post : Unit → σ → Prop) (state : σ) :
    wp (require p) post state ↔ p ∧ post () state := by
  by_cases hp : p <;> simp [require, hp]

@[simp]
theorem wp_ite (p : Prop) [Decidable p] (yes no : Cmd σ α) (post : α → σ → Prop) (state : σ) :
    wp (if p then yes else no) post state ↔
      if p then wp yes post state else wp no post state := by
  by_cases hp : p <;> simp [hp]

theorem wp_mono {command : Cmd σ α} {post post' : α → σ → Prop} {state : σ}
    (h : wp command post state) (hpost : ∀ value after, post value after → post' value after) :
    wp command post' state := by
  obtain ⟨value, after, hrun, hvalue⟩ := h
  exact ⟨value, after, hrun, hpost value after hvalue⟩

theorem wp_congr {command : Cmd σ α} {post post' : α → σ → Prop} {state : σ}
    (h : ∀ value after, post value after ↔ post' value after) :
    wp command post state ↔ wp command post' state :=
  ⟨fun hwp ↦ wp_mono hwp fun value after ↦ (h value after).1,
    fun hwp ↦ wp_mono hwp fun value after ↦ (h value after).2⟩

/-- What is known of the outcome holds of the outcome that was observed. -/
theorem wp_outcome {command : Cmd σ α} {post : α → σ → Prop} {state after : σ} {value : α}
    (h : wp command post state) (hrun : command.run state = some (value, after)) :
    post value after := by
  obtain ⟨value', after', hrun', hpost⟩ := h
  rw [hrun] at hrun'
  cases hrun'
  exact hpost

theorem wp_and {command : Cmd σ α} {post post' : α → σ → Prop} {state : σ}
    (h : wp command post state) (h' : wp command post' state) :
    wp command (fun value after ↦ post value after ∧ post' value after) state := by
  obtain ⟨value, after, hrun, hpost⟩ := h
  exact ⟨value, after, hrun, hpost, wp_outcome h' hrun⟩

/-- After an iteration either the invariant holds for a smaller measure, or the loop was left. -/
abbrev LoopPost (inv : ℕ → α → σ → Prop) (post : β → σ → Prop) (measure : ℕ) :
    α ⊕ β → σ → Prop
  | .inl locals, after => ∃ measure' < measure, inv measure' locals after
  | .inr result, after => post result after

/-- **The `while` rule.**  The invariant is indexed by a measure that every iteration decreases;
fuel above the measure is enough. -/
theorem wp_loop {body : α → Cmd σ (α ⊕ β)} {post : β → σ → Prop} (inv : ℕ → α → σ → Prop)
    (hbody : ∀ measure locals state, inv measure locals state →
      wp (body locals) (LoopPost inv post measure) state)
    {fuel n : ℕ} {locals : α} {state : σ} (hinv : inv n locals state)
    (hfuel : n < fuel) : wp (loop body fuel locals) post state := by
  induction fuel generalizing n locals state with
  | zero => omega
  | succ fuel ih =>
    rw [loop, wp_bind]
    refine wp_mono (hbody n locals state hinv) fun next after hnext ↦ ?_
    cases next with
    | inl locals' =>
      obtain ⟨measure', hlt, hinv'⟩ := hnext
      exact ih hinv' (by omega)
    | inr result => simpa using hnext

theorem wp_loop_mono {body : α → Cmd σ (α ⊕ β)} {post : β → σ → Prop} {fuel fuel' : ℕ}
    {locals : α} {state : σ} (hle : fuel ≤ fuel') (h : wp (loop body fuel locals) post state) :
    wp (loop body fuel' locals) post state := by
  induction fuel generalizing fuel' locals state with
  | zero => exact absurd h (by simp [loop])
  | succ fuel ih =>
    obtain ⟨fuel', rfl⟩ := Nat.exists_eq_add_of_lt hle
    rw [loop, wp_bind] at h ⊢
    refine wp_mono h fun next after hnext ↦ ?_
    cases next with
    | inl locals' => exact ih (Nat.le_add_right _ _) hnext
    | inr result => exact hnext

/-- A loop that is left is left in the same way with any amount of fuel that is enough. -/
theorem wp_loop_of_wp_loop {body : α → Cmd σ (α ⊕ β)} {post post' : β → σ → Prop}
    {fuel fuel' : ℕ} {locals : α} {state : σ} (h : wp (loop body fuel locals) post state)
    (h' : wp (loop body fuel' locals) post' state) : wp (loop body fuel locals) post' state := by
  obtain hle | hle := le_total fuel fuel'
  · obtain ⟨result, after, hrun, -⟩ := h
    have hmono : wp (loop body fuel' locals) (fun r a ↦ r = result ∧ a = after) state :=
      wp_loop_mono hle ⟨result, after, hrun, rfl, rfl⟩
    obtain ⟨_, _, hrun', rfl, rfl⟩ := hmono
    exact ⟨_, _, hrun, wp_outcome h' hrun'⟩
  · exact wp_loop_mono hle h'

/-- What holds of a loop that was left, whatever number of iterations it made. -/
theorem loop_outcome {body : α → Cmd σ (α ⊕ β)} (inv : α → σ → Prop) (post : β → σ → Prop)
    (hbody : ∀ locals state next after, inv locals state →
      (body locals).run state = some (next, after) →
        Sum.elim (fun locals' ↦ inv locals' after) (fun result ↦ post result after) next)
    {fuel : ℕ} {locals : α} {state after : σ} {result : β}
    (hrun : (loop body fuel locals).run state = some (result, after)) (hinv : inv locals state) :
    post result after := by
  induction fuel generalizing locals state with
  | zero => exact nomatch hrun
  | succ fuel ih =>
    have hwp : wp (loop body (fuel + 1) locals) (fun r a ↦ r = result ∧ a = after) state :=
      ⟨_, _, hrun, rfl, rfl⟩
    rw [loop, wp_bind] at hwp
    obtain ⟨next, middle, hfirst, hrest⟩ := hwp
    have hnext := hbody locals state next middle hinv hfirst
    cases next with
    | inl locals' =>
      obtain ⟨r, a, hrun', rfl, rfl⟩ := hrest
      exact ih hrun' hnext
    | inr result' =>
      simp only [wp_pure] at hrest
      obtain ⟨rfl, rfl⟩ := hrest
      exact hnext

theorem of_run_bind {first : Cmd σ α} {next : α → Cmd σ β} {state after : σ} {result : β}
    (hrun : (first >>= next).run state = some (result, after)) : ∃ value middle,
      first.run state = some (value, middle) ∧ (next value).run middle = some (result, after) := by
  rw [StateT.run_bind, Option.bind_eq_bind, Option.bind_eq_some_iff] at hrun
  obtain ⟨⟨value, middle⟩, hfirst, hnext⟩ := hrun
  exact ⟨value, middle, hfirst, hnext⟩

/-! ## Commands that do the same from one state -/

theorem run_bind_congr {first first' : Cmd σ α} {next next' : α → Cmd σ β} {state : σ}
    (hfirst : first.run state = first'.run state)
    (hnext : ∀ value after, first.run state = some (value, after) →
      (next value).run after = (next' value).run after) :
    (first >>= next).run state = (first' >>= next').run state := by
  rw [StateT.run_bind, StateT.run_bind, ← hfirst]
  cases hrun : first.run state with
  | none => rfl
  | some outcome => exact hnext outcome.1 outcome.2 hrun

/-- Bodies that do the same where the invariant holds. -/
theorem run_loop_congr {body body' : α → Cmd σ (α ⊕ β)} (inv : α → σ → Prop)
    (hbody : ∀ locals state, inv locals state →
      (body locals).run state = (body' locals).run state ∧
        ∀ next after, (body locals).run state = some (.inl next, after) → inv next after)
    {fuel : ℕ} {locals : α} {state : σ} (hinv : inv locals state) :
    (loop body fuel locals).run state = (loop body' fuel locals).run state := by
  induction fuel generalizing locals state with
  | zero => rfl
  | succ fuel ih =>
    obtain ⟨hsame, hkept⟩ := hbody locals state hinv
    refine run_bind_congr hsame fun next after hrun ↦ ?_
    cases next with
    | inl locals' => exact ih (hkept locals' after hrun)
    | inr result => rfl

/-! ## Commands that leave the state alone -/

def Leaves (command : Cmd σ α) : Prop :=
  ∀ state result after, command.run state = some (result, after) → after = state

theorem Leaves.of_wp {command : Cmd σ α} (h : Leaves command) {post : α → σ → Prop} {state : σ}
    (hwp : wp command post state) : ∃ result, post result state := by
  obtain ⟨result, after, hrun, hpost⟩ := hwp
  rw [h state result after hrun] at hpost
  exact ⟨result, hpost⟩

/-- A postcondition that only looks at the result is enough. -/
theorem leaves_of_wp {command : Cmd σ α}
    (h : ∀ post state, wp command post state → ∃ result, post result state) : Leaves command := by
  intro state result after hrun
  obtain ⟨-, rfl⟩ := h (fun _ after' ↦ after' = after) state ⟨_, _, hrun, rfl⟩
  rfl

theorem Leaves.pure (value : α) : Leaves (Pure.pure value : Cmd σ α) :=
  leaves_of_wp fun _ _ hwp ↦ ⟨value, (wp_pure _ _ _).1 hwp⟩

theorem Leaves.get : Leaves (MonadState.get : Cmd σ σ) :=
  leaves_of_wp fun _ state hwp ↦ ⟨state, (wp_get _ _).1 hwp⟩

theorem Leaves.failure : Leaves (Alternative.failure : Cmd σ α) :=
  leaves_of_wp fun _ _ hwp ↦ ((wp_failure _ _).1 hwp).elim

theorem Leaves.require (p : Prop) [Decidable p] : Leaves (Program.require p : Cmd σ Unit) :=
  leaves_of_wp fun post _ hwp ↦ ⟨(), ((wp_require p post _).1 hwp).2⟩

theorem Leaves.bind {first : Cmd σ α} {next : α → Cmd σ β} (hfirst : Leaves first)
    (hnext : ∀ value, Leaves (next value)) : Leaves (first >>= next) := by
  apply leaves_of_wp
  intro post state hwp
  rw [wp_bind] at hwp
  obtain ⟨value, hwp⟩ := hfirst.of_wp hwp
  exact (hnext value).of_wp hwp

theorem Leaves.ite {p : Prop} [Decidable p] {yes no : Cmd σ α} (hyes : Leaves yes)
    (hno : Leaves no) : Leaves (if p then yes else no) := by
  split
  · exact hyes
  · exact hno

theorem Leaves.loop {body : α → Cmd σ (α ⊕ β)} (hbody : ∀ locals, Leaves (body locals))
    (fuel : ℕ) (locals : α) : Leaves (loop body fuel locals) := by
  induction fuel generalizing locals with
  | zero => exact .failure
  | succ fuel ih =>
    refine (hbody locals).bind fun next ↦ ?_
    cases next with
    | inl locals' => exact ih locals'
    | inr result => exact .pure result

/-! ## Checks that a command makes besides -/

/-- The second command has every outcome of the first. -/
def Extends (command command' : Cmd σ α) : Prop :=
  ∀ state outcome, command.run state = some outcome → command'.run state = some outcome

theorem Extends.refl (command : Cmd σ α) : Extends command command := fun _ _ h ↦ h

theorem Extends.require (p : Prop) [Decidable p] (command : Cmd σ α) :
    Extends (do Program.require p; command) command := by
  intro state outcome h
  have hwp : wp (do Program.require p; command) (fun r a ↦ (r, a) = outcome) state := ⟨_, _, h, rfl⟩
  rw [wp_bind, wp_require] at hwp
  obtain ⟨-, result, after, hrun, rfl⟩ := hwp
  exact hrun

theorem Extends.bind {first first' : Cmd σ α} {next next' : α → Cmd σ β}
    (hfirst : Extends first first') (hnext : ∀ value, Extends (next value) (next' value)) :
    Extends (first >>= next) (first' >>= next') := by
  intro state outcome h
  have hwp : wp (first >>= next) (fun r a ↦ (r, a) = outcome) state := ⟨_, _, h, rfl⟩
  rw [wp_bind] at hwp
  obtain ⟨value, middle, hrun, result, after, hrun', rfl⟩ := hwp
  have hwp' : wp (first' >>= next') (fun r a ↦ (r, a) = (result, after)) state := by
    rw [wp_bind]
    exact ⟨value, middle, hfirst _ _ hrun, result, after, hnext value _ _ hrun', rfl⟩
  obtain ⟨result', after', hrun'', heq⟩ := hwp'
  rw [← heq]
  exact hrun''

theorem Extends.ite {p : Prop} [Decidable p] {yes yes' no no' : Cmd σ α} (hyes : Extends yes yes')
    (hno : Extends no no') : Extends (if p then yes else no) (if p then yes' else no') := by
  split
  · exact hyes
  · exact hno

theorem Extends.loop {body body' : α → Cmd σ (α ⊕ β)}
    (hbody : ∀ locals, Extends (body locals) (body' locals)) (fuel : ℕ) (locals : α) :
    Extends (loop body fuel locals) (loop body' fuel locals) := by
  induction fuel generalizing locals with
  | zero => exact .refl _
  | succ fuel ih =>
    refine (hbody locals).bind fun next ↦ ?_
    cases next with
    | inl locals' => exact ih locals'
    | inr result => exact .refl _

end Zbaselib.Program
