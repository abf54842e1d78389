import Zbaselib.Lib.Memory

/-!
# File maps

`zbaselib_filemap_create` of the POSIX branch maps a part of a file.  What the
system answers to its calls is an argument, and the mappings of the process are
a heap of their own.
-/

namespace Zbaselib.Filemap

open Program Memory

/-! ## The system -/

/-- `struct stat`; no file has a negative length. -/
structure Stat where
  stSize : Int64
  nonneg : 0 ≤ stSize

/-- `st.st_size` where it meets a `size_t`. -/
def Stat.size (st : Stat) : UInt64 := st.stSize.toUInt64

def Stat.length (st : Stat) : ℕ := st.stSize.toNatClampNeg

/-- `struct _zbaselib_filemap` -/
structure Handle where
  data : Ptr
  size : UInt64

/-- Part of a file in the memory of the process. -/
structure Mapping where
  filename : List UInt8
  offset : UInt64
  size : UInt64

/-- What the process has besides its handles. -/
structure System where
  mappings : Heap Mapping
  descriptors : ℤ → Option (List UInt8)

abbrev MapCmd := HeapCmd Handle System

def MAP_FAILED : Ptr := 2 ^ 64 - 1

/-- The answers to `stat`, `calloc`, `open` and `mmap`.  A mapping that the system places is never
at `NULL`. -/
structure Answers where
  st : Option Stat
  thiz : Ptr
  fd : ℤ
  data : Ptr
  data_ne : data ≠ NULL

/-- `open(filename, O_RDONLY)` -/
def openFile (filename : List UInt8) (fd : ℤ) : MapCmd ℤ := do
  if 0 ≤ fd then
    modifyVars fun s ↦ { s with descriptors := Function.update s.descriptors fd (some filename) }
  return fd

def close (fd : ℤ) : MapCmd Unit :=
  modifyVars fun s ↦ { s with descriptors := Function.update s.descriptors fd none }

/-- `mmap(NULL, size, PROT_READ, MAP_PRIVATE, fd, offset)` -/
def mmap (size : UInt64) (fd : ℤ) (offset : UInt64) (data : Ptr) : MapCmd Ptr := do
  if data ≠ MAP_FAILED then
    let filename ← (← getVars).descriptors fd
    modifyVars fun s ↦ { s with mappings := s.mappings.insert data ⟨filename, offset, size⟩ }
  return data

/-- Only whole mappings are removed. -/
def munmap (data : Ptr) (size : UInt64) : MapCmd Unit := do
  let mapping ← (← getVars).mappings.cell data
  require (mapping.size = size)
  modifyVars fun s ↦ { s with mappings := s.mappings.erase data }

/-! ## The functions -/

/-- `(offset + size) < st.st_size ? size : st.st_size - offset` -/
def clamp (st : Stat) (offset size : UInt64) : UInt64 :=
  if offset + size < st.size then size else st.size - offset

/-- Opens the file, and maps it if the descriptor is above 0. -/
def mapFile (answers : Answers) (filename : List UInt8) (offset size : UInt64) (thiz : Ptr) :
    MapCmd Unit := do
  let fd ← openFile filename answers.fd
  if fd > 0 then
    update thiz fun f ↦ { f with size }
    let data ← mmap size fd offset answers.data
    update thiz fun f ↦ { f with data }
    close fd

/-- `if (thiz->data == NULL || thiz->data == MAP_FAILED) free(thiz);` -/
def freeUnmapped (thiz : Ptr) : MapCmd Unit := do
  let f ← load thiz
  if f.data = NULL ∨ f.data = MAP_FAILED then
    free thiz

/-- `zbaselib_filemap_create` -/
def filemapCreate (answers : Answers) (filename : Option (List UInt8)) (offset size : UInt64) :
    MapCmd Ptr :=
  match filename, answers.st with
  | some filename, some st =>
    if offset ≥ st.size then
      return NULL
    else do
      let thiz ← calloc answers.thiz ⟨NULL, 0⟩
      if thiz = NULL then
        return NULL
      else
        mapFile answers filename offset (clamp st offset size) thiz
        freeUnmapped thiz
        return thiz
  | _, _ => return NULL

/-- `zbaselib_filemap_data` -/
def filemapData (thiz : Ptr) : MapCmd Ptr :=
  if thiz = NULL then return NULL else return (← load thiz).data

/-- `zbaselib_filemap_size` -/
def filemapSize (thiz : Ptr) : MapCmd UInt64 :=
  if thiz = NULL then return 0 else return (← load thiz).size

/-- `zbaselib_filemap_destroy` -/
def filemapDestroy (thiz : Ptr) : MapCmd Unit := do
  if thiz ≠ NULL then
    let f ← load thiz
    munmap f.data f.size
    free thiz

/-! ## What they are to do -/

abbrev Process := Mem Handle System

/-- The handle is allocated, and its mapping is live and has what there is of the part. -/
def Maps (filename : List UInt8) (st : Stat) (offset size : UInt64) (thiz : Ptr) (m : Process) :
    Prop :=
  ∃ f, m.heap.cell thiz = some f ∧ m.vars.mappings.cell f.data = some ⟨filename, offset, f.size⟩ ∧
    offset.toNat < st.length ∧ f.size.toNat = min size.toNat (st.length - offset.toNat)

/-- The other functions may be called. -/
structure Safe (thiz : Ptr) (m : Process) : Prop where
  data : wp (filemapData thiz) (fun _ after ↦ after = m) m
  size : wp (filemapSize thiz) (fun _ after ↦ after = m) m
  destroy : wp (filemapDestroy thiz) (fun _ after ↦ after.heap.cell thiz = none) m

/-- What `zbaselib_filemap_create` returned. -/
structure Created (answers : Answers) (filename : Option (List UInt8)) (offset size : UInt64)
    (thiz : Ptr) (m : Process) : Prop where
  maps : thiz = NULL ∨ ∃ name st, filename = some name ∧ answers.st = some st ∧
    Maps name st offset size thiz m
  failed : answers.fd < 0 ∨ answers.data = MAP_FAILED → thiz = NULL
  safe : Safe thiz m

/-- It returns before it opens the file. -/
def Refuses (answers : Answers) (filename : Option (List UInt8)) (offset : UInt64) : Prop :=
  filename = none ∨ answers.thiz = NULL ∨ ∀ st, answers.st = some st → st.length ≤ offset.toNat

section

variable {answers : Answers} {filename : Option (List UInt8)} {name : List UInt8} {st : Stat}
  {offset size : UInt64} {thiz data : Ptr} {fd : ℤ} {m : Process}

/-! ## The part of the file -/

theorem Stat.toNat_size (st : Stat) : st.size.toNat = st.length :=
  Int64.toNat_toUInt64_of_le st.nonneg

theorem Stat.size_le : st.size ≤ offset ↔ st.length ≤ offset.toNat := by
  rw [UInt64.le_iff_toNat_le, st.toNat_size]

/-- The sum is compared correctly unless it wraps, and then never. -/
theorem toNat_clamp (hoffset : offset.toNat < st.length) :
    (clamp st offset size).toNat = min size.toNat (st.length - offset.toNat) ↔
      offset.toNat + size.toNat < 2 ^ 64 := by
  have hlength := st.size.toNat_lt
  have hsize := size.toNat_lt
  rw [st.toNat_size] at hlength
  have hrest : (st.size - offset).toNat = st.length - offset.toNat := by
    have hle : offset ≤ st.size := by
      rw [UInt64.le_iff_toNat_le, st.toNat_size]
      exact hoffset.le
    calc
      _ = st.size.toNat - offset.toNat := UInt64.toNat_sub_of_le _ _ hle
      _ = st.length - offset.toNat := by rw [st.toNat_size]
  have hsum : offset + size < st.size ↔ (offset.toNat + size.toNat) % 2 ^ 64 < st.length := by
    rw [UInt64.lt_iff_toNat_lt, UInt64.toNat_add, st.toNat_size]
  unfold clamp
  by_cases hless : offset + size < st.size
  · rw [if_pos hless]
    rw [hsum] at hless
    omega
  · rw [if_neg hless, hrest]
    rw [hsum] at hless
    omega

/-! ## The calls one by one -/

/-- The process after `open`. -/
def opened (name : List UInt8) (fd : ℤ) (s : System) : System :=
  if 0 ≤ fd then { s with descriptors := Function.update s.descriptors fd (some name) } else s

/-- The process after a descriptor was opened, its file mapped and the descriptor closed. -/
def mapped (name : List UInt8) (offset size : UInt64) (fd : ℤ) (data : Ptr) (s : System) :
    System where
  mappings := if data = MAP_FAILED then s.mappings else s.mappings.insert data ⟨name, offset, size⟩
  descriptors := Function.update s.descriptors fd none

@[simp]
theorem wp_openFile (post : ℤ → Process → Prop) :
    wp (openFile name fd) post m ↔ post fd { m with vars := opened name fd m.vars } := by
  unfold openFile opened
  by_cases hfd : 0 ≤ fd <;> simp [hfd]

@[simp]
theorem wp_close (post : Unit → Process → Prop) : wp (close fd) post m ↔
    post () { m with vars := { m.vars with
      descriptors := Function.update m.vars.descriptors fd none } } := by
  simp [close]

theorem wp_mmap (post : Ptr → Process → Prop) (hfd : m.vars.descriptors fd = some name) :
    wp (mmap size fd offset data) post m ↔
      post data { m with vars := { m.vars with
        mappings := if data = MAP_FAILED then m.vars.mappings
          else m.vars.mappings.insert data ⟨name, offset, size⟩ } } := by
  unfold mmap
  by_cases hdata : data = MAP_FAILED <;> simp [hdata, hfd]

/-- The record after both assignments, if the descriptor is above 0. -/
theorem wp_mapFile {f : Handle} (post : Unit → Process → Prop) (hf : m.heap.cell thiz = some f) :
    wp (mapFile answers name offset size thiz) post m ↔
      if 0 < answers.fd then
        post () ⟨(m.heap.update thiz fun f ↦ { f with size }).update thiz
          fun f ↦ { f with data := answers.data },
          mapped name offset size answers.fd answers.data m.vars⟩
      else post () ⟨m.heap, opened name answers.fd m.vars⟩ := by
  unfold mapFile
  by_cases hfd : 0 < answers.fd
  · have hopened : (opened name answers.fd m.vars).descriptors answers.fd = some name := by
      simp [opened, hfd.le]
    simp only [wp_bind, wp_openFile, wp_ite, gt_iff_lt, if_pos hfd, wp_update, hf]
    rw [wp_mmap _ hopened]
    simp [hf, mapped, opened, hfd.le]
  · simp [hfd]

theorem wp_freeUnmapped {f : Handle} (post : Unit → Process → Prop)
    (hf : m.heap.cell thiz = some f) : wp (freeUnmapped thiz) post m ↔
      if f.data = NULL ∨ f.data = MAP_FAILED then post () { m with heap := m.heap.erase thiz }
      else post () m := by
  have hne := Heap.ne_null_of_cell hf
  unfold freeUnmapped
  by_cases hdata : f.data = NULL ∨ f.data = MAP_FAILED <;> simp [hf, hdata, hne]

/-! ## Creating a handle -/

theorem wp_filemapCreate_refused (post : Ptr → Process → Prop)
    (h : Refuses answers filename offset) :
    wp (filemapCreate answers filename offset size) post m ↔ post NULL m := by
  unfold filemapCreate
  cases filename with
  | none => simp
  | some name =>
    cases hst : answers.st with
    | none => simp
    | some st =>
      by_cases hlarge : offset ≥ st.size
      · simp [hlarge]
      · obtain hname | hthiz | hoffset := h
        · cases hname
        · simp [hlarge, hthiz]
        · exact absurd (Stat.size_le.2 (hoffset st hst)) hlarge

theorem not_refuses (h : ¬Refuses answers filename offset) :
    ∃ name st, filename = some name ∧ answers.st = some st ∧ offset.toNat < st.length ∧
      answers.thiz ≠ NULL := by
  unfold Refuses at h
  push Not at h
  obtain ⟨hname, hthiz, st, hst, hoffset⟩ := h
  obtain ⟨name, hname⟩ := Option.ne_none_iff_exists'.1 hname
  exact ⟨name, st, hname, hst, hoffset, hthiz⟩

/-- The file is opened, and the handle freed again unless the file was mapped. -/
theorem wp_filemapCreate (post : Ptr → Process → Prop) (hst : answers.st = some st)
    (hoffset : offset.toNat < st.length) (hthiz : answers.thiz ≠ NULL)
    (hfresh : m.heap.cell answers.thiz = none) :
    wp (filemapCreate answers (some name) offset size) post m ↔
      if 0 < answers.fd then
        post answers.thiz
          { heap :=
              if answers.data = MAP_FAILED then m.heap
              else m.heap.insert answers.thiz ⟨answers.data, clamp st offset size⟩
            vars := mapped name offset (clamp st offset size) answers.fd answers.data m.vars }
      else post answers.thiz { m with vars := opened name answers.fd m.vars } := by
  have hlarge : ¬offset ≥ st.size := fun h ↦ absurd hoffset (Nat.not_lt.2 (Stat.size_le.1 h))
  unfold filemapCreate
  simp only [hst, if_neg hlarge, wp_bind, wp_calloc, if_neg hthiz, wp_ite, hfresh, true_and]
  rw [wp_mapFile _ (m.heap.cell_insert_self _ hthiz)]
  by_cases hfd : 0 < answers.fd
  · rw [if_pos hfd, if_pos hfd, Heap.update_insert, Heap.update_insert,
      wp_freeUnmapped _ (m.heap.cell_insert_self _ hthiz)]
    by_cases hdata : answers.data = MAP_FAILED
    · simp [hdata, Heap.erase_insert _ hfresh]
    · simp [hdata, answers.data_ne]
  · rw [if_neg hfd, if_neg hfd, wp_freeUnmapped _ (m.heap.cell_insert_self _ hthiz),
      if_pos (Or.inl rfl), Heap.erase_insert _ hfresh, wp_pure]

/-! ## Using a handle -/

@[simp]
theorem wp_filemapData (post : Ptr → Process → Prop) : wp (filemapData thiz) post m ↔
    if thiz = NULL then post NULL m
    else ∃ f, m.heap.cell thiz = some f ∧ post f.data m := by
  by_cases hthiz : thiz = NULL <;> simp [filemapData, hthiz]

@[simp]
theorem wp_filemapSize (post : UInt64 → Process → Prop) : wp (filemapSize thiz) post m ↔
    if thiz = NULL then post 0 m
    else ∃ f, m.heap.cell thiz = some f ∧ post f.size m := by
  by_cases hthiz : thiz = NULL <;> simp [filemapSize, hthiz]

theorem wp_filemapDestroy {f : Handle} {mapping : Mapping} (post : Unit → Process → Prop)
    (hf : m.heap.cell thiz = some f) (hmapping : m.vars.mappings.cell f.data = some mapping)
    (hsize : mapping.size = f.size) : wp (filemapDestroy thiz) post m ↔
      post () ⟨m.heap.erase thiz, { m.vars with mappings := m.vars.mappings.erase f.data }⟩ := by
  have hne := Heap.ne_null_of_cell hf
  simp [filemapDestroy, munmap, hf, hne, hmapping, hsize]

theorem safe_null (m : Process) : Safe NULL m where
  data := by simp
  size := by simp
  destroy := by simp [filemapDestroy, m.heap.cell_null]

theorem Maps.safe (h : Maps name st offset size thiz m) : Safe thiz m := by
  obtain ⟨f, hf, hmapping, -, -⟩ := h
  have hne := Heap.ne_null_of_cell hf
  refine ⟨by simp [hne, hf], by simp [hne, hf], ?_⟩
  rw [wp_filemapDestroy _ hf hmapping rfl]
  exact m.heap.cell_erase_self thiz

theorem mappings_mapped (hdata : data ≠ MAP_FAILED) (s : System) :
    (mapped name offset size fd data s).mappings = s.mappings.insert data ⟨name, offset, size⟩ :=
  if_neg hdata

/-- A handle that is destroyed leaves no trace, whatever its size. -/
theorem wp_filemapCreate_filemapDestroy (hfresh : m.heap.cell answers.thiz = none)
    (hmapping : m.vars.mappings.cell answers.data = none)
    (hclosed : m.vars.descriptors answers.fd = none)
    (h : Refuses answers filename offset ∨ 0 < answers.fd ∧ answers.data ≠ MAP_FAILED) :
    wp (do let thiz ← filemapCreate answers filename offset size; filemapDestroy thiz)
      (fun _ after ↦ after = m) m := by
  rw [wp_bind]
  by_cases hrefuses : Refuses answers filename offset
  · rw [wp_filemapCreate_refused _ hrefuses]
    simp [filemapDestroy]
  · obtain ⟨name, st, rfl, hst, hoffset, hthiz⟩ := not_refuses hrefuses
    obtain ⟨hfd, hdata⟩ := h.resolve_left hrefuses
    rw [wp_filemapCreate _ hst hoffset hthiz hfresh, if_pos hfd, if_neg hdata,
      wp_filemapDestroy _ (m.heap.cell_insert_self _ hthiz)]
    · have hdescriptors : Function.update m.vars.descriptors answers.fd none =
          m.vars.descriptors := by
        rw [← hclosed, Function.update_eq_self]
      rw [mappings_mapped hdata, Heap.erase_insert _ hfresh, Heap.erase_insert _ hmapping]
      unfold mapped
      rw [hdescriptors]
    · rw [mappings_mapped hdata]
      exact m.vars.mappings.cell_insert_self _ answers.data_ne
    · rfl

/-- A handle that was freed again. -/
theorem not_created_freed (hthiz : thiz ≠ NULL) (hfree : m.heap.cell thiz = none) :
    ¬Created answers filename offset size thiz m := by
  rintro ⟨hnull | ⟨name, st, -, -, f, hf, -⟩, -, -⟩
  · exact hthiz hnull
  · rw [hfree] at hf
    cases hf

theorem created_mapped (hst : answers.st = some st) (hoffset : offset.toNat < st.length)
    (hthiz : answers.thiz ≠ NULL) (hfd : 0 < answers.fd) (hdata : answers.data ≠ MAP_FAILED)
    (hcell : m.heap.cell answers.thiz = some ⟨answers.data, clamp st offset size⟩)
    (hmapping : m.vars.mappings.cell answers.data = some ⟨name, offset, clamp st offset size⟩) :
    Created answers (some name) offset size answers.thiz m ↔
      offset.toNat + size.toNat < 2 ^ 64 := by
  rw [← toNat_clamp hoffset]
  constructor
  · rintro ⟨hnull | ⟨name', st', -, hst', f, hf, -, -, hsize⟩, -, -⟩
    · exact absurd hnull hthiz
    · rw [hst] at hst'
      rw [hcell] at hf
      cases hst'
      cases hf
      exact hsize
  · intro hsize
    have hmaps : Maps name st offset size answers.thiz m :=
      ⟨_, hcell, hmapping, hoffset, hsize⟩
    refine ⟨Or.inr ⟨name, st, rfl, hst, hmaps⟩, ?_, hmaps.safe⟩
    rintro (hclosed | hfailed)
    · exact absurd hfd hclosed.asymm
    · exact absurd hfailed hdata

end

/-- **The handle is usable exactly when the call gives up early, or the file is mapped through a
descriptor above 0 and the sum of offset and size does not wrap.** -/
theorem created_iff {answers : Answers} {filename : Option (List UInt8)} {offset size : UInt64}
    {m : Process} (hfresh : m.heap.cell answers.thiz = none) :
    wp (filemapCreate answers filename offset size) (Created answers filename offset size) m ↔
      Refuses answers filename offset ∨
        0 < answers.fd ∧ answers.data ≠ MAP_FAILED ∧ offset.toNat + size.toNat < 2 ^ 64 := by
  by_cases hrefuses : Refuses answers filename offset
  · rw [wp_filemapCreate_refused _ hrefuses]
    exact ⟨fun _ ↦ Or.inl hrefuses, fun _ ↦ ⟨Or.inl rfl, fun _ ↦ rfl, safe_null m⟩⟩
  · obtain ⟨name, st, rfl, hst, hoffset, hthiz⟩ := not_refuses hrefuses
    rw [or_iff_right hrefuses, wp_filemapCreate _ hst hoffset hthiz hfresh]
    by_cases hfd : 0 < answers.fd
    · rw [if_pos hfd]
      by_cases hdata : answers.data = MAP_FAILED
      · rw [if_pos hdata]
        exact iff_of_false (not_created_freed hthiz hfresh) fun h ↦ h.2.1 hdata
      · rw [if_neg hdata, created_mapped hst hoffset hthiz hfd hdata
          (m.heap.cell_insert_self _ hthiz) ?_]
        · exact ⟨fun hsum ↦ ⟨hfd, hdata, hsum⟩, fun h ↦ h.2.2⟩
        · rw [mappings_mapped hdata]
          exact m.vars.mappings.cell_insert_self _ answers.data_ne
    · rw [if_neg hfd]
      exact iff_of_false (not_created_freed hthiz hfresh) fun h ↦ hfd h.1

/-- A process without handles. -/
def start : Process := ⟨Heap.empty, Heap.empty, fun _ ↦ none⟩

/-- A file of 10 bytes, with a handle at 8. -/
def tenBytes (fd : ℤ) : Answers where
  st := some ⟨10, by decide⟩
  thiz := 8
  fd := fd
  data := 4096
  data_ne := by decide

/-- The whole file is mapped through descriptor 3, with the size that is all ones. -/
theorem created_iff_whole : wp (filemapCreate (tenBytes 3) (some [97]) 0 (-1))
    (Created (tenBytes 3) (some [97]) 0 (-1)) start :=
  (created_iff rfl).2 (Or.inr ⟨by decide, by decide, by decide⟩)

/-- The file cannot be opened. -/
theorem not_created_unopened : ¬wp (filemapCreate (tenBytes (-1)) (some [97]) 0 (-1))
    (Created (tenBytes (-1)) (some [97]) 0 (-1)) start := by
  have hoffset : (0 : UInt64).toNat < Stat.length ⟨10, by decide⟩ := by decide
  rw [wp_filemapCreate _ rfl hoffset (by decide) rfl]
  exact not_created_freed (by decide) rfl

end Zbaselib.Filemap
