import Zbaselib.Lib.CString
import Zbaselib.Lib.Program

/-!
# Nested directories

`zbaselib_createdir` copies the path to an array of 256 characters, ends it with
a slash and cuts it off at one slash after the other.  What it does to the file
system is to make the missing ones of a list of prefixes.
-/

namespace Zbaselib.Createdir

open Program CString

/-! ## The function -/

/-- What the function uses of a file system, whose state is arbitrary. -/
structure FileSystem (σ : Type) where
  /-- Whether `access(path, F_OK)` is 0. -/
  access : σ → List UInt8 → Bool
  /-- The state after `mkdir(path, 0777)`, or `none` when it is -1. -/
  mkdir : σ → List UInt8 → Option σ
  access_made : ∀ files path made, mkdir files path = some made → access made path = true
  access_kept : ∀ files path made other, mkdir files path = some made →
    access files other = true → access made other = true

/-- A call of `mkdir`. -/
structure Mkdir (σ : Type) where
  path : List UInt8
  files : σ
  made : Bool

/-- `DirName`, the file system and the calls of `mkdir` so far. -/
structure State (σ : Type) where
  dirName : List UInt8
  files : σ
  calls : List (Mkdir σ)

abbrev DirCmd (σ : Type) := Cmd (State σ)

variable {σ : Type}

def slash : UInt8 := Char.toUInt8 '/'

/-- `DirName[i]` -/
def load (i : ℤ) : DirCmd σ UInt8 := do
  let c ← (← get).dirName[i.toNat]?
  require (0 ≤ i)
  return c

/-- `DirName[i] = c` -/
def store (i : ℕ) (c : UInt8) : DirCmd σ Unit := do
  require (i < (← get).dirName.length)
  modify fun s ↦ { s with dirName := s.dirName.set i c }

/-- `strcpy(DirName, dirPath)` -/
def strcpy (dirPath : List UInt8) : DirCmd σ Unit := do
  require (dirPath.length + 1 ≤ (← get).dirName.length)
  modify fun s ↦ { s with
    dirName := dirPath ++ 0 :: s.dirName.drop (dirPath.length + 1) }

/-- `strlen(DirName)` -/
def strlen : DirCmd σ ℕ := do
  let path ← cstring (← get).dirName
  return path.length

/-- `if (zbaselib_access(DirName) != 0) if (zbaselib_mkdir(DirName) == -1) …`; whether the function
goes on. -/
def makeMissing (fs : FileSystem σ) : DirCmd σ Bool := do
  let s ← get
  let path ← cstring s.dirName
  if fs.access s.files path then
    return true
  else
    match fs.mkdir s.files path with
    | some files =>
      modify fun s ↦ { s with files, calls := s.calls ++ [⟨path, s.files, true⟩] }
      return true
    | none =>
      modify fun s ↦ { s with calls := s.calls ++ [⟨path, s.files, false⟩] }
      return false

/-- The `for` loop, over the values of `i`. -/
def createdirLoop (fs : FileSystem σ) (store : ℕ → UInt8 → DirCmd σ Unit) :
    List ℕ → DirCmd σ ℤ
  | [] => return 0
  | i :: rest => do
    if (← load i) = slash then
      store i 0
      if ← makeMissing fs then
        store i slash
        createdirLoop fs store rest
      else
        return -1
    else
      createdirLoop fs store rest

/-- `zbaselib_createdir`, with what an assignment to a character of `DirName` does. -/
def createdirWith (store : ℕ → UInt8 → DirCmd σ Unit) (fs : FileSystem σ)
    (dirPath : List UInt8) : DirCmd σ ℤ := do
  modify fun s ↦ { s with dirName := List.replicate 256 0 }
  strcpy dirPath
  let len ← strlen
  if (← load (len - 1)) ≠ slash then
    store len slash
  let len ← strlen
  createdirLoop fs store ((List.range len).drop 1)

def createdir (fs : FileSystem σ) (dirPath : List UInt8) : DirCmd σ ℤ :=
  createdirWith store fs dirPath

/-! ## What it is to do -/

/-- The assignment is defined only if `DirName` stays terminated. -/
def storeTerminated (i : ℕ) (c : UInt8) : DirCmd σ Unit := do
  store i c
  require (0 ∈ (← get).dirName)

/-- A file system that no call was made to. -/
def start (files : σ) : State σ := ⟨[], files, []⟩

/-- The path has a prefix of this length that ends just before a slash, or at its end. -/
def Cut (dirPath : List UInt8) (i : ℕ) : Prop :=
  0 < i ∧ (dirPath[i]? = some slash ∨ i = dirPath.length ∧ dirPath.getLast? ≠ some slash)

/-- The prefixes that are missing are made, shorter ones first, each once, until one fails. -/
structure Makes (fs : FileSystem σ) (dirPath : List UInt8) (ret : ℤ) (after : State σ) :
    Prop where
  prefixes : ∀ call ∈ after.calls, ∃ i, Cut dirPath i ∧ call.path = dirPath.take i
  missing : ∀ call ∈ after.calls, fs.access call.files call.path = false
  ordered : (after.calls.map fun call ↦ call.path.length).Pairwise (· < ·)
  result : ret = 0 ↔ ∀ call ∈ after.calls, call.made = true
  made : ret = 0 → ∀ i, Cut dirPath i → fs.access after.files (dirPath.take i) = true
  again : ret = 0 → ∃ after', (createdir fs dirPath).run (start after.files) = some (0, after') ∧
    after'.calls = []

/-- The call comes back from accesses to a terminated `DirName`, and makes what is missing. -/
def Creates (fs : FileSystem σ) (dirPath : List UInt8) (files : σ) : Prop :=
  ∃ ret after, (createdir fs dirPath).run (start files) = some (ret, after) ∧
    (createdirWith storeTerminated fs dirPath).run (start files) = some (ret, after) ∧
    Makes fs dirPath ret after

/-! ## Making the missing ones of a list of paths -/

/-- Whether nothing failed, and what became of the file system. -/
structure Outcome (σ : Type) where
  ok : Bool
  files : σ
  calls : List (Mkdir σ)

def ensure (fs : FileSystem σ) (files : σ) (path : List UInt8) : Outcome σ :=
  if fs.access files path then
    ⟨true, files, []⟩
  else
    match fs.mkdir files path with
    | some made => ⟨true, made, [⟨path, files, true⟩]⟩
    | none => ⟨false, files, [⟨path, files, false⟩]⟩

def ensureAll (fs : FileSystem σ) : σ → List (List UInt8) → Outcome σ
  | files, [] => ⟨true, files, []⟩
  | files, path :: rest =>
    let first := ensure fs files path
    if first.ok then
      let others := ensureAll fs first.files rest
      { others with calls := first.calls ++ others.calls }
    else
      first

section

variable {fs : FileSystem σ} {files : σ} {path other : List UInt8} {paths : List (List UInt8)}

/-- The three cases of a path. -/
theorem ensure_cases (fs : FileSystem σ) (files : σ) (path : List UInt8) :
    (fs.access files path = true ∧ ensure fs files path = ⟨true, files, []⟩) ∨
      (fs.access files path = false ∧
        ((∃ made, fs.mkdir files path = some made ∧
            ensure fs files path = ⟨true, made, [⟨path, files, true⟩]⟩) ∨
          (fs.mkdir files path = none ∧
            ensure fs files path = ⟨false, files, [⟨path, files, false⟩]⟩))) := by
  unfold ensure
  cases haccess : fs.access files path with
  | true => simp
  | false =>
    cases hmkdir : fs.mkdir files path with
    | none => simp
    | some made => simp

theorem ensure_missing : ∀ call ∈ (ensure fs files path).calls,
    fs.access call.files call.path = false := by
  obtain ⟨-, heq⟩ | ⟨hno, ⟨made, -, heq⟩ | ⟨-, heq⟩⟩ := ensure_cases fs files path
  · simp [heq]
  · simpa [heq] using hno
  · simpa [heq] using hno

theorem ensure_paths : ((ensure fs files path).calls.map Mkdir.path).Sublist [path] := by
  obtain ⟨-, heq⟩ | ⟨-, ⟨made, -, heq⟩ | ⟨-, heq⟩⟩ := ensure_cases fs files path <;> simp [heq]

theorem ensure_ok : (ensure fs files path).ok = true ↔
    ∀ call ∈ (ensure fs files path).calls, call.made = true := by
  obtain ⟨-, heq⟩ | ⟨-, ⟨made, -, heq⟩ | ⟨-, heq⟩⟩ := ensure_cases fs files path <;> simp [heq]

theorem ensure_access (hok : (ensure fs files path).ok = true) :
    fs.access (ensure fs files path).files path = true := by
  obtain ⟨haccess, heq⟩ | ⟨-, ⟨made, hmkdir, heq⟩ | ⟨-, heq⟩⟩ := ensure_cases fs files path
  · rw [heq]
    exact haccess
  · rw [heq]
    exact fs.access_made _ _ _ hmkdir
  · rw [heq] at hok
    cases hok

theorem ensure_kept (haccess : fs.access files other = true) :
    fs.access (ensure fs files path).files other = true := by
  obtain ⟨-, heq⟩ | ⟨-, ⟨made, hmkdir, heq⟩ | ⟨-, heq⟩⟩ := ensure_cases fs files path
  · rwa [heq]
  · rw [heq]
    exact fs.access_kept _ _ _ _ hmkdir haccess
  · rwa [heq]

theorem ensureAll_missing : ∀ call ∈ (ensureAll fs files paths).calls,
    fs.access call.files call.path = false := by
  induction paths generalizing files with
  | nil => simp [ensureAll]
  | cons path rest ih =>
    rw [ensureAll]
    split
    · intro call hcall
      rcases List.mem_append.1 hcall with hcall | hcall
      · exact ensure_missing call hcall
      · exact ih call hcall
    · exact ensure_missing

theorem ensureAll_paths : ((ensureAll fs files paths).calls.map Mkdir.path).Sublist paths := by
  induction paths generalizing files with
  | nil => simp [ensureAll]
  | cons path rest ih =>
    rw [ensureAll]
    split
    · dsimp only
      rw [List.map_append]
      exact ensure_paths.append ih
    · exact ensure_paths.trans (List.singleton_sublist.2 List.mem_cons_self)

theorem ensureAll_ok : (ensureAll fs files paths).ok = true ↔
    ∀ call ∈ (ensureAll fs files paths).calls, call.made = true := by
  induction paths generalizing files with
  | nil => simp [ensureAll]
  | cons path rest ih =>
    rw [ensureAll]
    split
    · next hok =>
      dsimp only
      rw [List.forall_mem_append, ih]
      exact (and_iff_right (ensure_ok.1 hok)).symm
    · exact ensure_ok

theorem ensureAll_kept (haccess : fs.access files other = true) :
    fs.access (ensureAll fs files paths).files other = true := by
  induction paths generalizing files with
  | nil => exact haccess
  | cons path rest ih =>
    rw [ensureAll]
    split
    · exact ih (ensure_kept haccess)
    · exact ensure_kept haccess

theorem ensureAll_access (hok : (ensureAll fs files paths).ok = true) :
    ∀ path ∈ paths, fs.access (ensureAll fs files paths).files path = true := by
  induction paths generalizing files with
  | nil => simp
  | cons path rest ih =>
    rw [ensureAll] at hok ⊢
    split at hok
    · next hfirst =>
      rw [if_pos hfirst]
      intro path' hpath
      rcases List.mem_cons.1 hpath with rfl | hpath
      · exact ensureAll_kept (ensure_access hfirst)
      · exact ih hok path' hpath
    · next hfirst => exact absurd hok hfirst

/-- Nothing is made where nothing is missing. -/
theorem ensureAll_of_access (h : ∀ path ∈ paths, fs.access files path = true) :
    ensureAll fs files paths = ⟨true, files, []⟩ := by
  induction paths with
  | nil => rfl
  | cons path rest ih =>
    have hfirst : ensure fs files path = ⟨true, files, []⟩ := if_pos (h path List.mem_cons_self)
    rw [ensureAll, hfirst]
    simp only [if_true, List.nil_append]
    exact ih fun path' hpath ↦ h path' (List.mem_cons_of_mem _ hpath)

end

/-! ## The function makes the missing prefixes -/

/-- The path as the loop sees it. -/
def slashed (dirPath : List UInt8) : List UInt8 :=
  if dirPath.getLast? = some slash then dirPath else dirPath ++ [slash]

/-- The prefixes before the slashes at these indices. -/
def cutsAt (path : List UInt8) (indices : List ℕ) : List (List UInt8) :=
  (indices.filter fun i ↦ path[i]? = some slash).map path.take

/-- The prefixes of a path, shorter ones first. -/
def cuts (dirPath : List UInt8) : List (List UInt8) :=
  cutsAt (slashed dirPath) ((List.range (slashed dirPath).length).drop 1)

section

variable {fs : FileSystem σ} {files : σ} {path dirPath tail : List UInt8} {s : State σ}
  {write : ℕ → UInt8 → DirCmd σ Unit}

/-- An assignment inside of `DirName` that leaves it terminated is defined. -/
def Stores (write : ℕ → UInt8 → DirCmd σ Unit) : Prop :=
  ∀ i c s (post : Unit → State σ → Prop), i < s.dirName.length → 0 ∈ s.dirName.set i c →
    post () { s with dirName := s.dirName.set i c } → wp (write i c) post s

theorem stores_store : Stores (store : ℕ → UInt8 → DirCmd σ Unit) := by
  intro i c s post hi _ hpost
  unfold store
  simp only [wp_bind, wp_get, wp_require, wp_modify]
  exact ⟨hi, hpost⟩

theorem stores_storeTerminated : Stores (storeTerminated : ℕ → UInt8 → DirCmd σ Unit) := by
  intro i c s post hi hzero hpost
  unfold storeTerminated
  rw [wp_bind]
  apply stores_store i c s _ hi hzero
  simp only [wp_bind, wp_get, wp_require]
  exact ⟨hzero, hpost⟩

theorem storeTerminated_extends (i : ℕ) (c : UInt8) :
    Extends (storeTerminated i c : DirCmd σ Unit) (store i c) := by
  intro s outcome h
  have hwp : wp (storeTerminated i c) (fun r a ↦ (r, a) = outcome) s := ⟨_, _, h, rfl⟩
  unfold storeTerminated at hwp
  simp only [wp_bind, wp_get, wp_require] at hwp
  obtain ⟨result, after, hrun, -, rfl⟩ := hwp
  exact hrun

theorem createdirWith_extends {write' : ℕ → UInt8 → DirCmd σ Unit}
    (hwrite : ∀ i c, Extends (write i c) (write' i c)) (fs : FileSystem σ)
    (dirPath : List UInt8) :
    Extends (createdirWith write fs dirPath) (createdirWith write' fs dirPath) := by
  have hloop (indices : List ℕ) :
      Extends (createdirLoop fs write indices) (createdirLoop fs write' indices) := by
    induction indices with
    | nil => exact .refl _
    | cons i rest ih =>
      refine .bind (.refl _) fun c ↦ .ite (.bind (hwrite i 0) fun _ ↦ ?_) ih
      exact .bind (.refl _) fun goesOn ↦ .ite (.bind (hwrite i slash) fun _ ↦ ih) (.refl _)
  have hend : Extends (strlen >>= fun len ↦ createdirLoop fs write ((List.range len).drop 1))
      (strlen >>= fun len ↦ createdirLoop fs write' ((List.range len).drop 1)) :=
    .bind (.refl _) fun len ↦ hloop _
  refine .bind (.refl _) fun _ ↦ .bind (.refl _) fun _ ↦ .bind (.refl _) fun len ↦ ?_
  exact .bind (.refl _) fun c ↦ .ite (.bind (hwrite len slash) fun _ ↦ hend) hend

theorem not_wp_load {i : ℤ} (hi : i < 0) {post : UInt8 → State σ → Prop} :
    ¬wp (load i) post s := by
  unfold load
  simp only [wp_bind, wp_get, wp_lift, wp_require]
  rintro ⟨c, -, hle, -⟩
  omega

theorem wp_load {i : ℕ} {c : UInt8} (hc : s.dirName[i]? = some c)
    {post : UInt8 → State σ → Prop} : wp (load i) post s ↔ post c s := by
  unfold load
  simp [hc]

theorem wp_strlen (hpath : cstring s.dirName = some path) {post : ℕ → State σ → Prop} :
    wp strlen post s ↔ post path.length s := by
  unfold strlen
  simp [hpath]

theorem wp_makeMissing (hpath : cstring s.dirName = some path) {post : Bool → State σ → Prop} :
    wp (makeMissing fs) post s ↔ post (ensure fs s.files path).ok
      { s with
        files := (ensure fs s.files path).files
        calls := s.calls ++ (ensure fs s.files path).calls } := by
  unfold makeMissing
  simp only [wp_bind, wp_get, wp_lift, hpath, Option.some_inj, exists_eq_left']
  obtain ⟨haccess, heq⟩ | ⟨haccess, ⟨made, hmkdir, heq⟩ | ⟨hmkdir, heq⟩⟩ :=
    ensure_cases fs s.files path
  · simp [haccess, heq]
  · simp [haccess, hmkdir, heq]
  · simp [haccess, hmkdir, heq]

/-- The path is cut off at a slash. -/
theorem set_zero {i : ℕ} (hi : i < path.length) :
    (path ++ 0 :: tail).set i 0 = path.take i ++ 0 :: (path.drop (i + 1) ++ 0 :: tail) := by
  rw [List.set_append_left _ _ hi, List.set_eq_take_append_cons_drop, if_pos hi,
    List.append_assoc, List.cons_append]

/-- The slash is put back. -/
theorem set_slash {i : ℕ} (hslash : path[i]? = some slash) :
    ((path ++ 0 :: tail).set i 0).set i slash = path ++ 0 :: tail := by
  obtain ⟨hi, hget⟩ := List.getElem?_eq_some_iff.1 hslash
  rw [List.set_set, List.set_append_left _ _ hi, ← hget, List.set_getElem_self]

theorem cstring_set_zero (hpath : 0 ∉ path) {i : ℕ} (hi : i < path.length) :
    cstring ((path ++ 0 :: tail).set i 0) = some (path.take i) := by
  rw [set_zero hi]
  exact cstring_append (fun hmem ↦ hpath (List.mem_of_mem_take hmem)) _

theorem cutsAt_cons_slash {i : ℕ} (hslash : path[i]? = some slash) (rest : List ℕ) :
    cutsAt path (i :: rest) = path.take i :: cutsAt path rest := by
  simp [cutsAt, hslash]

theorem cutsAt_cons_other {i : ℕ} (hother : path[i]? ≠ some slash) (rest : List ℕ) :
    cutsAt path (i :: rest) = cutsAt path rest := by
  simp [cutsAt, hother]

/-- **The loop makes the missing ones of the prefixes**, and comes back. -/
theorem wp_createdirLoop (hwrite : Stores write) (hpath : 0 ∉ path) {indices : List ℕ}
    (hindices : ∀ i ∈ indices, i < path.length) (hname : s.dirName = path ++ 0 :: tail)
    {post : ℤ → State σ → Prop}
    (hpost : ∀ name, post (if (ensureAll fs s.files (cutsAt path indices)).ok then 0 else -1)
      ⟨name, (ensureAll fs s.files (cutsAt path indices)).files,
        s.calls ++ (ensureAll fs s.files (cutsAt path indices)).calls⟩) :
    wp (createdirLoop fs write indices) post s := by
  induction indices generalizing s with
  | nil =>
    have hnil := hpost s.dirName
    simp only [cutsAt, List.filter_nil, List.map_nil, ensureAll, if_true, List.append_nil] at hnil
    rw [createdirLoop, wp_pure]
    exact hnil
  | cons i rest ih =>
    have hi := hindices i List.mem_cons_self
    have hrest (j : ℕ) (hj : j ∈ rest) : j < path.length :=
      hindices j (List.mem_cons_of_mem _ hj)
    have hload : s.dirName[i]? = some path[i] := by
      rw [hname, List.getElem?_append_left hi, List.getElem?_eq_getElem hi]
    have hlength : i < s.dirName.length := by
      rw [hname, List.length_append]
      omega
    rw [createdirLoop, wp_bind, wp_load hload, wp_ite]
    split
    · next hslash =>
      have hget : path[i]? = some slash := by rw [List.getElem?_eq_getElem hi, hslash]
      have hcut : cstring (s.dirName.set i 0) = some (path.take i) := by
        rw [hname]
        exact cstring_set_zero hpath hi
      have hrestored : (s.dirName.set i 0).set i slash = path ++ 0 :: tail := by
        rw [hname, set_slash hget]
      rw [cutsAt_cons_slash hget, ensureAll] at hpost
      rw [wp_bind]
      apply hwrite i 0 s _ hlength (by simp [hname, set_zero hi])
      rw [wp_bind, wp_makeMissing hcut, wp_ite]
      split
      · next hok =>
        rw [if_pos hok] at hpost
        rw [wp_bind]
        apply hwrite i slash _ _ (by simpa using hlength) (by simp [hrestored])
        apply ih hrest hrestored
        intro name
        simp only [List.append_assoc]
        exact hpost name
      · next hno =>
        rw [if_neg hno] at hpost
        have hfailed := hpost (s.dirName.set i 0)
        rw [if_neg hno] at hfailed
        rw [wp_pure]
        exact hfailed
    · next hother =>
      have hget : path[i]? ≠ some slash := by
        rw [List.getElem?_eq_getElem hi, ne_eq, Option.some_inj]
        exact hother
      rw [cutsAt_cons_other hget] at hpost
      exact ih hrest hname hpost

theorem zero_ne_slash : (0 : UInt8) ≠ slash := by decide

theorem zero_notMem_slashed (hzero : 0 ∉ dirPath) : 0 ∉ slashed dirPath := by
  unfold slashed
  split
  · exact hzero
  · rw [List.mem_append, List.mem_singleton, not_or]
    exact ⟨hzero, zero_ne_slash⟩

/-- `DirName` holds the path, and may get a slash. -/
theorem wp_createdirWith_iff (hzero : 0 ∉ dirPath) (hlength : dirPath.length ≤ 255)
    {post : ℤ → State σ → Prop} : wp (createdirWith write fs dirPath) post s ↔
      wp (load (dirPath.length - 1)) (fun c s₁ ↦
        wp (if c ≠ slash then write dirPath.length slash else pure ()) (fun _ s₂ ↦
          wp strlen (fun len s₃ ↦
            wp (createdirLoop fs write ((List.range len).drop 1)) post s₃) s₂) s₁)
        { s with dirName := dirPath ++ 0 :: List.replicate (255 - dirPath.length) 0 } := by
  have hcopied : cstring (dirPath ++ 0 :: List.replicate (255 - dirPath.length) 0) =
      some dirPath := cstring_append hzero _
  have hrest : 256 - (dirPath.length + 1) = 255 - dirPath.length := by omega
  have hroom : dirPath.length + 1 ≤ 256 := by omega
  unfold createdirWith strcpy
  simp only [wp_bind, wp_modify, wp_get, wp_require, List.length_replicate, List.drop_replicate,
    hrest, hroom, true_and]
  rw [wp_strlen hcopied]
  apply wp_congr
  intro c s₁
  rw [wp_ite, wp_ite]
  split <;> simp only [wp_bind, wp_pure]

/-- The last character of the path. -/
theorem wp_load_last (hne : dirPath ≠ []) (hname : s.dirName = dirPath ++ 0 :: tail)
    {post : UInt8 → State σ → Prop} :
    wp (load (dirPath.length - 1)) post s ↔ post (dirPath.getLast hne) s := by
  have hpos := List.length_pos_iff.2 hne
  have hindex : ((dirPath.length : ℤ) - 1) = (dirPath.length - 1 : ℕ) := by omega
  rw [hindex]
  apply wp_load
  rw [hname, List.getElem?_append_left (by omega), List.getLast_eq_getElem,
    List.getElem?_eq_getElem]

theorem getLast?_eq_slash_iff (hne : dirPath ≠ []) :
    dirPath.getLast? = some slash ↔ dirPath.getLast hne = slash := by
  rw [List.getLast?_eq_some_getLast hne, Option.some_inj]

/-- **A path that fits with its slash** is handled as the list of its prefixes. -/
theorem wp_createdirWith (hwrite : Stores write) (hzero : 0 ∉ dirPath)
    (hlength : dirPath.length ≤ 255) (hne : dirPath ≠ [])
    (hfits : dirPath.length < 255 ∨ dirPath.getLast? = some slash) {post : ℤ → State σ → Prop}
    (hpost : ∀ name, post (if (ensureAll fs s.files (cuts dirPath)).ok then 0 else -1)
      ⟨name, (ensureAll fs s.files (cuts dirPath)).files,
        s.calls ++ (ensureAll fs s.files (cuts dirPath)).calls⟩) :
    wp (createdirWith write fs dirPath) post s := by
  have hloop (name tail : List UInt8) (hname : name = slashed dirPath ++ 0 :: tail) :
      wp strlen (fun len s' ↦ wp (createdirLoop fs write ((List.range len).drop 1)) post s')
        { s with dirName := name } := by
    have hnamed : cstring name = some (slashed dirPath) := by
      rw [hname]
      exact cstring_append (zero_notMem_slashed hzero) tail
    rw [wp_strlen hnamed]
    refine wp_createdirLoop hwrite (zero_notMem_slashed hzero) ?_ hname hpost
    exact fun i hi ↦ List.mem_range.1 (List.mem_of_mem_drop hi)
  rw [wp_createdirWith_iff hzero hlength, wp_load_last hne rfl, wp_ite]
  split
  · next hother =>
    have hlast := mt (getLast?_eq_slash_iff hne).1 hother
    have hslashed : slashed dirPath = dirPath ++ [slash] := if_neg hlast
    obtain ⟨n, hn⟩ : ∃ n, 255 - dirPath.length = n + 1 := by
      have hshort := hfits.resolve_right hlast
      exact ⟨254 - dirPath.length, by omega⟩
    have hname : (dirPath ++ 0 :: List.replicate (255 - dirPath.length) 0).set
        dirPath.length slash = slashed dirPath ++ 0 :: List.replicate n 0 := by
      rw [hn, hslashed, List.replicate_succ]
      simp
    apply hwrite
    · simp
    · dsimp only
      rw [hname]
      simp
    · exact hloop _ _ hname
  · next hslash =>
    have hslashed : slashed dirPath = dirPath :=
      if_pos ((getLast?_eq_slash_iff hne).2 (not_not.1 hslash))
    rw [wp_pure]
    exact hloop _ _ (by rw [hslashed])

/-- The last character of the empty path is outside of `DirName`. -/
theorem not_wp_empty {post : ℤ → State σ → Prop} : ¬wp (createdirWith write fs []) post s := by
  rw [wp_createdirWith_iff List.not_mem_nil (Nat.zero_le _)]
  exact not_wp_load (by decide)

/-- The slash takes the place of the last NUL. -/
theorem not_wp_full (hzero : 0 ∉ dirPath) (hlength : dirPath.length = 255)
    (hlast : dirPath.getLast? ≠ some slash) {post : ℤ → State σ → Prop} :
    ¬wp (createdir fs dirPath) post s := by
  have hne : dirPath ≠ [] := by
    rintro rfl
    cases hlength
  have hother := mt (getLast?_eq_slash_iff hne).2 hlast
  have hset : (dirPath ++ [0]).set 255 slash = dirPath ++ [slash] := by
    rw [← hlength]
    simp
  have hfull : 0 ∉ dirPath ++ [slash] := by
    rw [List.mem_append, List.mem_singleton, not_or]
    exact ⟨hzero, zero_ne_slash⟩
  unfold createdir
  rw [wp_createdirWith_iff hzero hlength.le, wp_load_last hne rfl, if_pos hother]
  unfold store strlen
  simp [hlength, hset, cstring_of_notMem hfull]

/-! ## The prefixes -/

theorem getElem?_slashed {i : ℕ} : (slashed dirPath)[i]? = some slash ↔
    dirPath[i]? = some slash ∨ i = dirPath.length ∧ dirPath.getLast? ≠ some slash := by
  unfold slashed
  split
  · next hlast => simp [hlast]
  · next hlast =>
    rcases Nat.lt_trichotomy i dirPath.length with hlt | rfl | hgt
    · rw [List.getElem?_append_left hlt]
      exact (or_iff_left fun heq ↦ hlt.ne heq.1).symm
    · simpa using hlast
    · rw [List.getElem?_eq_none (by simp; omega), List.getElem?_eq_none hgt.le]
      simp only [reduceCtorEq, false_or, false_iff, not_and]
      exact fun heq ↦ absurd heq hgt.ne'

theorem take_slashed {i : ℕ} (hi : i ≤ dirPath.length) :
    (slashed dirPath).take i = dirPath.take i := by
  unfold slashed
  split
  · rfl
  · rw [List.take_append_of_le_length hi]

theorem Cut.le {i : ℕ} (h : Cut dirPath i) : i ≤ dirPath.length := by
  obtain ⟨-, hslash | ⟨heq, -⟩⟩ := h
  · exact (List.getElem?_eq_some_iff.1 hslash).1.le
  · exact heq.le

theorem mem_cuts : path ∈ cuts dirPath ↔ ∃ i, Cut dirPath i ∧ path = dirPath.take i := by
  have hindices (i : ℕ) : i ∈ (List.range (slashed dirPath).length).drop 1 ↔
      0 < i ∧ i < (slashed dirPath).length := by
    rw [List.range_eq_range', List.drop_range', List.mem_range'_1]
    omega
  unfold cuts cutsAt
  simp only [List.mem_map, List.mem_filter, hindices, decide_eq_true_iff]
  constructor
  · rintro ⟨i, ⟨⟨hpos, -⟩, hslash⟩, rfl⟩
    have hcut : Cut dirPath i := ⟨hpos, getElem?_slashed.1 hslash⟩
    exact ⟨i, hcut, take_slashed hcut.le⟩
  · rintro ⟨i, hcut, rfl⟩
    have hslash := getElem?_slashed.2 hcut.2
    exact ⟨i, ⟨⟨hcut.1, (List.getElem?_eq_some_iff.1 hslash).1⟩, hslash⟩, take_slashed hcut.le⟩

theorem pairwise_cuts : (cuts dirPath).Pairwise fun path other ↦ path.length < other.length := by
  unfold cuts cutsAt
  rw [List.pairwise_map]
  have hindices : ((List.range (slashed dirPath).length).drop 1).Pairwise (· < ·) :=
    List.pairwise_lt_range.sublist (List.drop_sublist _ _)
  apply (hindices.filter _).imp_of_mem
  intro i j hi hj hlt
  have hlength (k : ℕ) (hk : k ∈ ((List.range (slashed dirPath).length).drop 1).filter
      fun i ↦ (slashed dirPath)[i]? = some slash) : ((slashed dirPath).take k).length = k := by
    have hrange := List.mem_range.1 (List.mem_of_mem_drop (List.mem_of_mem_filter hk))
    rw [List.length_take]
    omega
  rw [hlength i hi, hlength j hj]
  exact hlt

/-! ## Whole calls -/

/-- The outcome of a path that fits with its slash. -/
theorem exists_run (hzero : 0 ∉ dirPath) (hlength : dirPath.length ≤ 255) (hne : dirPath ≠ [])
    (hfits : dirPath.length < 255 ∨ dirPath.getLast? = some slash) (files : σ) :
    ∃ ret after, (createdir fs dirPath).run (start files) = some (ret, after) ∧
      (createdirWith storeTerminated fs dirPath).run (start files) = some (ret, after) ∧
      ret = (if (ensureAll fs files (cuts dirPath)).ok then 0 else -1) ∧
      after.files = (ensureAll fs files (cuts dirPath)).files ∧
      after.calls = (ensureAll fs files (cuts dirPath)).calls := by
  have hwp : wp (createdirWith storeTerminated fs dirPath) (fun ret after ↦
      ret = (if (ensureAll fs files (cuts dirPath)).ok then 0 else -1) ∧
        after.files = (ensureAll fs files (cuts dirPath)).files ∧
        after.calls = (ensureAll fs files (cuts dirPath)).calls) (start files) :=
    wp_createdirWith stores_storeTerminated hzero hlength hne hfits fun name ↦ ⟨rfl, rfl, rfl⟩
  obtain ⟨ret, after, hrun, hret, hfiles, hcalls⟩ := hwp
  exact ⟨ret, after, createdirWith_extends storeTerminated_extends fs dirPath _ _ hrun, hrun, hret,
    hfiles, hcalls⟩

theorem makes {ret : ℤ} {after : State σ} (hzero : 0 ∉ dirPath) (hlength : dirPath.length ≤ 255)
    (hne : dirPath ≠ []) (hfits : dirPath.length < 255 ∨ dirPath.getLast? = some slash)
    (hret : ret = if (ensureAll fs files (cuts dirPath)).ok then 0 else -1)
    (hfiles : after.files = (ensureAll fs files (cuts dirPath)).files)
    (hcalls : after.calls = (ensureAll fs files (cuts dirPath)).calls) :
    Makes fs dirPath ret after := by
  have hok : ret = 0 ↔ (ensureAll fs files (cuts dirPath)).ok = true := by
    rw [hret]
    split <;> simp [*]
  have hpaths : (after.calls.map Mkdir.path).Sublist (cuts dirPath) := by
    rw [hcalls]
    exact ensureAll_paths
  have haccess (hzero : ret = 0) : ∀ path ∈ cuts dirPath, fs.access after.files path = true := by
    rw [hfiles]
    exact ensureAll_access (hok.1 hzero)
  refine ⟨fun call hcall ↦ ?_, ?_, ?_, ?_, fun hret i hcut ↦ ?_, fun hret ↦ ?_⟩
  · exact mem_cuts.1 (hpaths.subset (List.mem_map_of_mem hcall))
  · rw [hcalls]
    exact ensureAll_missing
  · have hordered := pairwise_cuts.sublist hpaths
    rw [List.pairwise_map] at hordered ⊢
    exact hordered
  · rw [hok, hcalls]
    exact ensureAll_ok
  · exact haccess hret _ (mem_cuts.2 ⟨i, hcut, rfl⟩)
  · obtain ⟨ret', after', hrun, -, hret', -, hcalls'⟩ :=
      @exists_run σ fs dirPath hzero hlength hne hfits after.files
    rw [ensureAll_of_access (haccess hret)] at hret' hcalls'
    have hret' : ret' = 0 := hret'
    rw [hret'] at hrun
    exact ⟨after', hrun, hcalls'⟩

end

/-- **The missing prefixes are made, from a `DirName` that stays terminated, exactly when the path
is not empty and fits with its slash.** -/
theorem creates_iff {fs : FileSystem σ} {files : σ} {dirPath : List UInt8} (hzero : 0 ∉ dirPath)
    (hlength : dirPath.length ≤ 255) : Creates fs dirPath files ↔
      dirPath ≠ [] ∧ (dirPath.length < 255 ∨ dirPath.getLast? = some slash) := by
  constructor
  · rintro ⟨ret, after, hrun, -, -⟩
    have hwp : wp (createdir fs dirPath) (fun _ _ ↦ True) (start files) := ⟨_, _, hrun, trivial⟩
    refine ⟨?_, ?_⟩
    · rintro rfl
      exact not_wp_empty hwp
    · by_contra hno
      rw [not_or] at hno
      exact not_wp_full hzero (by omega) hno.2 hwp
  · rintro ⟨hne, hfits⟩
    obtain ⟨ret, after, hrun, hterminated, hret, hfiles, hcalls⟩ :=
      @exists_run σ fs dirPath hzero hlength hne hfits files
    exact ⟨ret, after, hrun, hterminated, makes hzero hlength hne hfits hret hfiles hcalls⟩

/-- A file system that keeps the paths that are there. -/
def listed : FileSystem (List (List UInt8)) where
  access files path := decide (path ∈ files)
  mkdir files path := if path ∈ files then none else some (path :: files)
  access_made := by
    intro files path made hmade
    split at hmade
    · cases hmade
    · cases hmade
      simp
  access_kept := by
    intro files path made other hmade haccess
    split at hmade
    · cases hmade
    · cases hmade
      simp only [decide_eq_true_iff] at haccess ⊢
      exact List.mem_cons_of_mem _ haccess

/-- `a/b`, where `a` is there. -/
theorem creates_iff_nested : Creates listed [97, slash, 98] [[97]] :=
  (creates_iff (by decide) (by decide)).2 ⟨by decide, by decide⟩

/-- A path of 255 characters without a slash at its end. -/
theorem not_creates_full : ¬Creates listed (List.replicate 255 97) [] := by
  intro hcreates
  obtain ⟨ret, after, hrun, -, -⟩ := hcreates
  refine @not_wp_full _ listed (List.replicate 255 97) (start []) ?_ ?_ ?_ (fun _ _ ↦ True)
    ⟨ret, after, hrun, trivial⟩
  · rw [List.mem_replicate]
    rintro ⟨-, hzero⟩
    exact absurd hzero (by decide)
  · rw [List.length_replicate]
  · rw [List.getLast?_replicate, if_neg (by decide), ne_eq, Option.some_inj]
    decide

end Zbaselib.Createdir
