import Zbaselib.Lib.Sine
import Zbaselib.Md5.Model

/-!
# The rounds of MD5

RFC 1321 defines a block operation by 64 operations of one shape: a basic
function that changes every sixteen operations, the order in which the words of
the block are read, a rotation, and the first 32 binary digits of the sine of the
number of the operation.  The code has the operations written out, the words of
the state renamed from one to the next, and two of the basic functions in another
form.
-/

namespace Zbaselib.Md5

/-! ## The block operation of the RFC -/

/-- The basic function of operation `i`. -/
def basic (i : ℕ) (x y z : UInt32) : UInt32 :=
  if i < 16 then (x &&& y) ||| (~~~x &&& z)
  else if i < 32 then (x &&& z) ||| (y &&& ~~~z)
  else if i < 48 then x ^^^ y ^^^ z
  else y ^^^ (x ||| ~~~z)

/-- Which word of the block operation `i` reads. -/
def index (i : ℕ) : ℕ :=
  (if i < 16 then i else if i < 32 then 5 * i + 1 else if i < 48 then 3 * i + 5 else 7 * i) % 16

def amounts (i : ℕ) : List ℕ :=
  if i < 16 then [7, 12, 17, 22]
  else if i < 32 then [5, 9, 14, 20]
  else if i < 48 then [4, 11, 16, 23]
  else [6, 10, 15, 21]

/-- The rotation of operation `i`. -/
def amount (i : ℕ) : ℕ := (amounts i).getD (i % 4) 0

/-- The constant of operation `i`. -/
noncomputable def constant (i : ℕ) : UInt32 := .ofNat ⌊2 ^ 32 * |Real.sin (i + 1 : ℕ)|⌋₊

def rotateLeft (x : UInt32) (n : ℕ) : UInt32 := ⟨x.toBitVec.rotateLeft n⟩

/-- Operation `i` with the constant `t`; the words of the state change places. -/
def operate (p : List UInt8) (t : UInt32) (r : Regs) (i : ℕ) : Regs where
  a := r.d
  b := r.b + rotateLeft (r.a + basic i r.b r.c r.d + word p (index i) + t) (amount i)
  c := r.b
  d := r.c

/-- The block operation. -/
noncomputable def operation (saved : Regs) (p : List UInt8) : Regs :=
  let r := (List.range 64).foldl (fun r i ↦ operate p (constant i) r i) saved
  ⟨r.a + saved.a, r.b + saved.b, r.c + saved.c, r.d + saved.d⟩

/-! ## The basic functions -/

theorem F_eq (x y z : UInt32) : F x y z = (x &&& y) ||| (~~~x &&& z) := by
  unfold F
  rw [← UInt32.toBitVec_inj]
  ext k hk
  simp only [UInt32.toBitVec_xor, UInt32.toBitVec_and, UInt32.toBitVec_or, UInt32.toBitVec_not,
    BitVec.getElem_xor, BitVec.getElem_and, BitVec.getElem_or, BitVec.getElem_not]
  cases x.toBitVec[k] <;> cases y.toBitVec[k] <;> cases z.toBitVec[k] <;> rfl

theorem G_eq (x y z : UInt32) : G x y z = (x &&& z) ||| (y &&& ~~~z) := by
  unfold G
  rw [← UInt32.toBitVec_inj]
  ext k hk
  simp only [UInt32.toBitVec_xor, UInt32.toBitVec_and, UInt32.toBitVec_or, UInt32.toBitVec_not,
    BitVec.getElem_xor, BitVec.getElem_and, BitVec.getElem_or, BitVec.getElem_not]
  cases x.toBitVec[k] <;> cases y.toBitVec[k] <;> cases z.toBitVec[k] <;> rfl

/-- The name of the basic function of operation `i`. -/
def basicName (i : ℕ) : Fn :=
  if i < 16 then .F else if i < 32 then .G else if i < 48 then .H else .I

theorem eval_basicName (i : ℕ) (x y z : UInt32) : (basicName i).eval x y z = basic i x y z := by
  unfold basicName basic
  split_ifs
  · exact F_eq x y z
  · exact G_eq x y z
  · rfl
  · rfl

/-- Shifts and a mask make a rotation. -/
theorem shift_eq_rotateLeft {s : UInt32} (hpos : 0 < s.toNat) (hlt : s.toNat < 32) (x : UInt32) :
    x <<< s ||| (x &&& 0xffffffff) >>> (32 - s) = rotateLeft x s.toNat := by
  have hle : s ≤ 32 := by
    rw [UInt32.le_iff_toNat_le]
    exact hlt.le
  have hsub : (32 - s).toNat = 32 - s.toNat := UInt32.toNat_sub_of_le _ _ hle
  have hmask : x &&& 0xffffffff = x := by
    rw [← UInt32.toBitVec_inj]
    exact BitVec.and_allOnes
  have hleft : (x <<< s).toBitVec = x.toBitVec <<< s.toNat := by
    rw [UInt32.toBitVec_shiftLeft, BitVec.shiftLeft_eq', BitVec.toNat_umod]
    simp [Nat.mod_eq_of_lt hlt]
  have hright : (x >>> (32 - s)).toBitVec = x.toBitVec >>> (32 - s.toNat) := by
    rw [UInt32.toBitVec_shiftRight, BitVec.ushiftRight_eq', BitVec.toNat_umod,
      UInt32.toNat_toBitVec, hsub]
    exact congrArg _ (Nat.mod_eq_of_lt (Nat.sub_lt (by decide) hpos))
  rw [hmask, ← UInt32.toBitVec_inj, UInt32.toBitVec_or, hleft, hright, rotateLeft,
    BitVec.rotateLeft_def, Nat.mod_eq_of_lt hlt]

/-! ## The order of the words -/

/-- The name under which a step knows what the step before it knew as `k`. -/
def Reg.before : Reg → Reg
  | .a => .d
  | .b => .a
  | .c => .b
  | .d => .c

/-- The local variables in the order in which step `i` names them. -/
def Regs.named (r : Regs) (i : ℕ) : Regs where
  a := r.get (Reg.before^[i] .a)
  b := r.get (Reg.before^[i] .b)
  c := r.get (Reg.before^[i] .c)
  d := r.get (Reg.before^[i] .d)

/-- Step `i` of the code, with the constant `t`. -/
def template (t : UInt32) (i : ℕ) : Step where
  f := basicName i
  a := Reg.before^[i] .a
  b := Reg.before^[i] .b
  c := Reg.before^[i] .c
  d := Reg.before^[i] .d
  n := index i
  t := t
  s := .ofNat (amount i)

theorem Reg.before_injective : Function.Injective Reg.before := by
  intro k k'
  cases k <;> cases k' <;> decide

theorem Regs.get_set (r : Regs) (x : UInt32) (k k' : Reg) :
    (r.set x k).get k' = if k' = k then x else r.get k' := by
  cases k <;> cases k' <;> rfl

theorem Regs.get_set_before (r : Regs) (x : UInt32) (i : ℕ) (k k' : Reg) :
    (r.set x (Reg.before^[i] k)).get (Reg.before^[i] k') =
      if k' = k then x else r.get (Reg.before^[i] k') := by
  rw [Regs.get_set]
  simp only [(Reg.before_injective.iterate i).eq_iff]

theorem amount_bounds (i : ℕ) : 0 < amount i ∧ amount i < 32 := by
  have hmod : i % 4 < 4 := Nat.mod_lt _ (by decide)
  unfold amount amounts
  split_ifs <;> interval_cases i % 4 <;> decide

/-- **A step of the code is an operation of the RFC**, once the words have their places. -/
theorem named_run (p : List UInt8) (t : UInt32) (r : Regs) (i : ℕ) :
    (Step.run p r (template t i)).named (i + 1) = operate p t (r.named i) i := by
  obtain ⟨hpos, hlt⟩ := amount_bounds i
  have hamount : (UInt32.ofNat (amount i)).toNat = amount i :=
    UInt32.toNat_ofNat_of_lt' (hlt.trans (by decide))
  have hrotate := shift_eq_rotateLeft (s := .ofNat (amount i)) (by rwa [hamount])
    (by rwa [hamount])
  unfold Step.run Regs.named template operate
  simp only [Function.iterate_succ_apply, Reg.before, Regs.get_set_before, hrotate, hamount,
    eval_basicName, UInt32.add_assoc]
  simp [UInt32.add_comm (rotateLeft _ _)]

/-- The steps one after the other. -/
theorem named_foldl (p : List UInt8) (t : ℕ → UInt32) (r : Regs) (n : ℕ) :
    (((List.range n).map fun i ↦ template (t i) i).foldl (Step.run p) r).named n =
      (List.range n).foldl (fun r i ↦ operate p (t i) r i) r := by
  induction n with
  | zero => rfl
  | succ n ih =>
    rw [List.range_succ, List.map_append, List.foldl_append, List.foldl_append, ← ih]
    exact named_run p (t n) _ n

/-- After all steps the names are those from before. -/
theorem Regs.named_64 (r : Regs) : r.named 64 = r := rfl

/-! ## The constants -/

/-- The constants of the code, as they stand there. -/
def constants : List UInt32 := (round1 ++ round2 ++ round3 ++ round4).map Step.t

/-- The code is the written out loop, with its own constants. -/
theorem steps_eq : round1 ++ round2 ++ round3 ++ round4 =
    (List.range 64).map fun i ↦ template (constants.getD i 0) i := by
  decide +kernel

theorem digits_constants : ∀ i < 64, Sine.Digits 32 250 (i + 1) (constants.getD i 0).toNat := by
  decide +kernel

/-- The constants are digits of sines. -/
theorem constants_getD {i : ℕ} (hi : i < 64) : constants.getD i 0 = constant i := by
  rw [constant, Sine.floor_abs_sin (n := 250) (by omega) (digits_constants i hi),
    UInt32.ofNat_toNat]

/-- **The code computes the block operation of the RFC**, for every state and every block. -/
theorem transform_eq (saved : Regs) (p : List UInt8) : transform saved p = operation saved p := by
  have hconstants : (List.range 64).map (fun i ↦ template (constants.getD i 0) i) =
      (List.range 64).map fun i ↦ template (constant i) i :=
    List.map_congr_left fun i hi ↦ by rw [constants_getD (List.mem_range.1 hi)]
  have hsteps : (round1 ++ round2 ++ round3 ++ round4).foldl (Step.run p) saved =
      (List.range 64).foldl (fun r i ↦ operate p (constant i) r i) saved := by
    rw [steps_eq, hconstants, ← named_foldl p constant saved 64]
    exact (Regs.named_64 _).symm
  unfold transform operation
  rw [hsteps]

end Zbaselib.Md5
