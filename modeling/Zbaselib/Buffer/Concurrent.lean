import Zbaselib.Buffer.Refinement
import Zbaselib.Lib.Monitor

/-!
# Threads on one ring buffer

With `islock` every call of `zbaselib_buffer.c` takes the mutex around its code.
The code is given here access by access: each load and each store of a field of
the buffer is a step of its own, and a copy moves one byte at a time.  The
caller's block belongs to its thread.
-/

namespace Zbaselib.Buffer

open Program Block Transition Monitor Code

/-! ## The code between the lock and the unlock -/

/-- The bytes of `memcpy((char*)thiz->buffer + pos, wdata + j, n)`. -/
def storeBytes (wdata : List UInt8) (pos j : ℕ) : ℕ → Code State Unit
  | 0 => return ()
  | n + 1 => do
    store fun thiz ↦ { thiz with buffer := thiz.buffer.map (·.set pos (wdata.getD j 0)) }
    storeBytes wdata (pos + 1) (j + 1) n

/-- Both blocks must hold `n` bytes. -/
def copyTo (pos : ℕ) (wdata : List UInt8) (j n : ℕ) : Code State Unit := do
  loadIf (fun thiz ↦ pos + n ≤ (thiz.buffer.getD []).length ∧ j + n ≤ wdata.length) fun _ ↦ ()
  storeBytes wdata pos j n

/-- The bytes of `memcpy(rdata + i, (char*)thiz->buffer + pos, n)`. -/
def loadBytes (rdata : List UInt8) (i pos : ℕ) : ℕ → Code State (List UInt8)
  | 0 => return rdata
  | n + 1 => do
    let byte ← load fun thiz ↦ (thiz.buffer.getD []).getD pos 0
    loadBytes (rdata.set i byte) (i + 1) (pos + 1) n

def copyFrom (rdata : List UInt8) (i pos n : ℕ) : Code State (List UInt8) := do
  loadIf (fun thiz ↦ i + n ≤ rdata.length ∧ pos + n ≤ (thiz.buffer.getD []).length) fun _ ↦ ()
  loadBytes rdata i pos n

def writeStraight (wdata : List UInt8) (dataLen : UInt32) : Code State Unit := do
  let wpos ← load State.wpos
  copyTo wpos.toNat wdata 0 dataLen.toNat
  let wpos ← load State.wpos
  store fun thiz ↦ { thiz with wpos := wpos + dataLen }
  let wpos ← load State.wpos
  let bufferSize ← load State.bufferSize
  if wpos ≥ bufferSize then store fun thiz ↦ { thiz with wpos := 0 } else return ()

def writeWrapped (wdata : List UInt8) (dataLen : UInt32) : Code State Unit := do
  let wpos ← load State.wpos
  let bufferSize ← load State.bufferSize
  copyTo wpos.toNat wdata 0 (bufferSize - wpos).toNat
  let bufferSize ← load State.bufferSize
  let wpos ← load State.wpos
  copyTo 0 wdata (bufferSize - wpos).toNat (dataLen + wpos - bufferSize).toNat
  let wpos ← load State.wpos
  let bufferSize ← load State.bufferSize
  store fun thiz ↦ { thiz with wpos := dataLen + wpos - bufferSize }

def writeData (wdata : List UInt8) (dataLen : UInt32) : Code State Unit := do
  let wpos ← load State.wpos
  let bufferSize ← load State.bufferSize
  if wpos + dataLen ≤ bufferSize then writeStraight wdata dataLen else writeWrapped wdata dataLen

def moreBusy (dataLen : UInt32) : Code State Unit := do
  let busyNum ← load State.busyNum
  store fun thiz ↦ { thiz with busyNum := busyNum + dataLen }

def writeBody (wdata : List UInt8) (dataLen : UInt32) : Code State Result := do
  let bufferSize ← load State.bufferSize
  let busyNum ← load State.busyNum
  if dataLen > bufferSize - busyNum then
    return ⟨-2, none⟩
  else
    writeData wdata dataLen
    moreBusy dataLen
    return ⟨0, none⟩

def fetchStraight (rdata : List UInt8) (dataLen : UInt32) : Code State (List UInt8) := do
  let rpos ← load State.rpos
  copyFrom rdata 0 rpos.toNat dataLen.toNat

def fetchWrapped (rdata : List UInt8) (dataLen : UInt32) : Code State (List UInt8) := do
  let rpos ← load State.rpos
  let bufferSize ← load State.bufferSize
  let rdata ← copyFrom rdata 0 rpos.toNat (bufferSize - rpos).toNat
  let bufferSize ← load State.bufferSize
  let rpos ← load State.rpos
  copyFrom rdata (bufferSize - rpos).toNat 0 (dataLen + rpos - bufferSize).toNat

def passStraight (dataLen : UInt32) : Code State Unit := do
  let rpos ← load State.rpos
  store fun thiz ↦ { thiz with rpos := rpos + dataLen }
  let rpos ← load State.rpos
  let bufferSize ← load State.bufferSize
  if rpos = bufferSize then store fun thiz ↦ { thiz with rpos := 0 } else return ()

def passWrapped (dataLen : UInt32) : Code State Unit := do
  let rpos ← load State.rpos
  let bufferSize ← load State.bufferSize
  store fun thiz ↦ { thiz with rpos := dataLen + rpos - bufferSize }

def readStraight (rdata : List UInt8) (dataLen : UInt32) : Code State (List UInt8) := do
  let rdata ← fetchStraight rdata dataLen
  passStraight dataLen
  return rdata

def readWrapped (rdata : List UInt8) (dataLen : UInt32) : Code State (List UInt8) := do
  let rdata ← fetchWrapped rdata dataLen
  passWrapped dataLen
  return rdata

def readData (rdata : List UInt8) (dataLen : UInt32) : Code State (List UInt8) := do
  let rpos ← load State.rpos
  let bufferSize ← load State.bufferSize
  if rpos + dataLen ≤ bufferSize then readStraight rdata dataLen else readWrapped rdata dataLen

def lessBusy (dataLen : UInt32) : Code State Unit := do
  let busyNum ← load State.busyNum
  store fun thiz ↦ { thiz with busyNum := busyNum - dataLen }

def readBody (rdata : List UInt8) (dataLen : UInt32) : Code State Result := do
  let busyNum ← load State.busyNum
  if busyNum < dataLen then
    return ⟨-2, some rdata⟩
  else
    let rdata ← readData rdata dataLen
    lessBusy dataLen
    return ⟨0, some rdata⟩

def passData (dataLen : UInt32) : Code State Unit := do
  let rpos ← load State.rpos
  let bufferSize ← load State.bufferSize
  if rpos + dataLen ≤ bufferSize then passStraight dataLen else passWrapped dataLen

def skipBody (dataLen : UInt32) : Code State Result := do
  let busyNum ← load State.busyNum
  if busyNum < dataLen then
    return ⟨-2, none⟩
  else
    passData dataLen
    lessBusy dataLen
    return ⟨0, none⟩

def getData (rdata : List UInt8) (dataLen : UInt32) : Code State (List UInt8) := do
  let rpos ← load State.rpos
  let bufferSize ← load State.bufferSize
  if rpos + dataLen ≤ bufferSize then fetchStraight rdata dataLen else fetchWrapped rdata dataLen

def getBody (rdata : List UInt8) (dataLen : UInt32) : Code State Result := do
  let busyNum ← load State.busyNum
  if busyNum < dataLen then
    return ⟨-2, some rdata⟩
  else
    let rdata ← getData rdata dataLen
    return ⟨0, some rdata⟩

/-- `clear` looks at the pointer under the lock. -/
def clearBody : Code State Result := do
  let null ← load fun thiz ↦ thiz.buffer.isNone
  if null then
    return ⟨0, none⟩
  else
    store fun thiz ↦ { thiz with wpos := 0 }
    store fun thiz ↦ { thiz with rpos := 0 }
    store fun thiz ↦ { thiz with busyNum := 0 }
    return ⟨0, none⟩

def busynumBody : Code State Result := do
  let busyNum ← load State.busyNum
  return ⟨busyNum.toNat, none⟩

def isemptyBody : Code State Result := do
  let null ← load fun thiz ↦ thiz.buffer.isNone
  if null then
    return ⟨0, none⟩
  else
    let busyNum ← load State.busyNum
    return ⟨if busyNum = 0 then 1 else 0, none⟩

def isfullBody : Code State Result := do
  let null ← load fun thiz ↦ thiz.buffer.isNone
  if null then
    return ⟨0, none⟩
  else
    let busyNum ← load State.busyNum
    let bufferSize ← load State.bufferSize
    return ⟨if busyNum = bufferSize then 1 else 0, none⟩

/-! ## Requests -/

inductive Query
  | busynum
  | isempty
  | isfull

/-- A call whose blocks are as long as it says, or a query. -/
abbrev Request := {op : Op // Allowed op} ⊕ Query

def Request.run : Request → BufferCmd Result
  | .inl op => op.1.run
  | .inr .busynum => return ⟨(← busynum).toNat, none⟩
  | .inr .isempty => return ⟨← isempty, none⟩
  | .inr .isfull => return ⟨← isfull, none⟩

/-- The check in front of the lock, with what the call answers when it fails. -/
def refusal (null : Bool) : Request → Option Result
  | .inl ⟨.write _ dataLen, _⟩ | .inl ⟨.skip dataLen, _⟩ =>
    if null ∨ dataLen ≤ 0 then some ⟨-1, none⟩ else none
  | .inl ⟨.read rdata dataLen, _⟩ | .inl ⟨.get rdata dataLen, _⟩ =>
    if null ∨ dataLen ≤ 0 then some ⟨-1, some rdata⟩ else none
  | .inr .busynum => if null then some ⟨(-1 : UInt32).toNat, none⟩ else none
  | .inl ⟨.clear, _⟩ | .inr .isempty | .inr .isfull => none

def body : Request → Code State Result
  | .inl ⟨.write wdata dataLen, _⟩ => writeBody wdata dataLen
  | .inl ⟨.read rdata dataLen, _⟩ => readBody rdata dataLen
  | .inl ⟨.get rdata dataLen, _⟩ => getBody rdata dataLen
  | .inl ⟨.skip dataLen, _⟩ => skipBody dataLen
  | .inl ⟨.clear, _⟩ => clearBody
  | .inr .busynum => busynumBody
  | .inr .isempty => isemptyBody
  | .inr .isfull => isfullBody

/-! ## What the code does alone -/

theorem set_eq_splice {block : List UInt8} {i : ℕ} (h : i < block.length) (byte : UInt8) :
    block.set i byte = splice block i [byte] := by
  rw [List.set_eq_take_append_cons_drop, if_pos h, splice, List.append_assoc, List.singleton_append,
    List.length_singleton]

theorem take_drop_succ {data : List UInt8} {j n : ℕ} (h : j + (n + 1) ≤ data.length) :
    (data.drop j).take (n + 1) = data.getD j 0 :: (data.drop (j + 1)).take n := by
  rw [List.drop_eq_getElem_cons (show j < data.length by omega), List.take_succ_cons,
    List.getD_eq_getElem _ _ (by omega)]

/-- One byte, then the rest. -/
theorem splice_set {block data : List UInt8} {i j n : ℕ} (hblock : i + (n + 1) ≤ block.length)
    (hdata : j + (n + 1) ≤ data.length) :
    splice (block.set i (data.getD j 0)) (i + 1) ((data.drop (j + 1)).take n) =
      splice block i ((data.drop j).take (n + 1)) := by
  have hlen : ((data.drop (j + 1)).take n).length = n := by
    rw [List.length_take, List.length_drop]
    omega
  have hfits : i + [data.getD j 0].length + ((data.drop (j + 1)).take n).length ≤ block.length := by
    rw [List.length_singleton, hlen]
    omega
  rw [set_eq_splice (by omega), take_drop_succ hdata, ← List.singleton_append]
  exact splice_splice hfits

section

variable {b : State} {block : List UInt8}

theorem wp_storeBytes (hblock : b.buffer = some block) {wdata : List UInt8} {pos j n : ℕ}
    (hpos : pos + n ≤ block.length) (hj : j + n ≤ wdata.length) (post : Unit → State → Prop) :
    wp (storeBytes wdata pos j n).run post b ↔
      post () { b with buffer := some (splice block pos ((wdata.drop j).take n)) } := by
  induction n generalizing b block pos j with
  | zero =>
    rw [storeBytes, Code.wp_pure, List.take_zero, splice_nil, ← hblock]
  | succ n ih =>
    rw [storeBytes, Code.wp_bind, wp_store, hblock, Option.map_some,
      ih (b := { b with buffer := some (block.set pos (wdata.getD j 0)) }) rfl
        (by rw [List.length_set]; omega) (by omega), splice_set hpos hj]

theorem wp_copyTo (hblock : b.buffer = some block) (pos : ℕ) (wdata : List UInt8) (j n : ℕ)
    (post : Unit → State → Prop) :
    wp (copyTo pos wdata j n).run post b ↔
      (pos + n ≤ block.length ∧ j + n ≤ wdata.length) ∧
        post () { b with buffer := some (splice block pos ((wdata.drop j).take n)) } := by
  rw [copyTo, Code.wp_bind, wp_loadIf, hblock, Option.getD_some]
  exact and_congr_right fun h ↦ wp_storeBytes hblock h.1 h.2 post

theorem wp_loadBytes (hblock : b.buffer = some block) {rdata : List UInt8} {i pos n : ℕ}
    (hi : i + n ≤ rdata.length) (hpos : pos + n ≤ block.length) (post : List UInt8 → State → Prop) :
    wp (loadBytes rdata i pos n).run post b ↔
      post (splice rdata i ((block.drop pos).take n)) b := by
  induction n generalizing rdata i pos with
  | zero => rw [loadBytes, Code.wp_pure, List.take_zero, splice_nil]
  | succ n ih =>
    rw [loadBytes, Code.wp_bind, wp_load, hblock, Option.getD_some,
      ih (by rw [List.length_set]; omega) (by omega), splice_set hi hpos]

theorem wp_copyFrom (hblock : b.buffer = some block) (rdata : List UInt8) (i pos n : ℕ)
    (post : List UInt8 → State → Prop) :
    wp (copyFrom rdata i pos n).run post b ↔
      (i + n ≤ rdata.length ∧ pos + n ≤ block.length) ∧
        post (splice rdata i ((block.drop pos).take n)) b := by
  rw [copyFrom, Code.wp_bind, wp_loadIf, hblock, Option.getD_some]
  exact and_congr_right fun h ↦ wp_loadBytes hblock h.1 h.2 post

theorem wp_writeStraight (hblock : b.buffer = some block) (wdata : List UInt8) (dataLen : UInt32)
    (post : Unit → State → Prop) :
    wp (writeStraight wdata dataLen).run post b ↔
      (b.wpos.toNat + dataLen.toNat ≤ block.length ∧ dataLen.toNat ≤ wdata.length) ∧
        post () { b with
          buffer := some (splice block b.wpos.toNat (wdata.take dataLen.toNat))
          wpos := if b.wpos + dataLen ≥ b.bufferSize then 0 else b.wpos + dataLen } := by
  simp only [writeStraight, Code.wp_bind, wp_load, wp_copyTo hblock, wp_store, Code.wp_ite,
    Code.wp_pure, Nat.zero_add, List.drop_zero]
  refine and_congr_right fun _ ↦ ?_
  split <;> rfl

theorem wp_writeWrapped (hblock : b.buffer = some block) (wdata : List UInt8) (dataLen : UInt32)
    (post : Unit → State → Prop) :
    wp (writeWrapped wdata dataLen).run post b ↔
      wp (do
        let block ← memcpy block b.wpos.toNat wdata 0 (b.bufferSize - b.wpos).toNat
        memcpy block 0 wdata (b.bufferSize - b.wpos).toNat
          (dataLen + b.wpos - b.bufferSize).toNat)
        (fun block b ↦ post () { b with
          buffer := some block
          wpos := dataLen + b.wpos - b.bufferSize }) b := by
  simp only [writeWrapped, Code.wp_bind, wp_load, wp_copyTo hblock, Program.wp_bind, wp_memcpy,
    wp_store]
  refine and_congr_right fun _ ↦ ?_
  rw [wp_copyTo rfl]

theorem wp_writeBody (hblock : b.buffer = some block) {wdata : List UInt8} {dataLen : UInt32}
    (hlen : ¬dataLen ≤ 0) (post : Result → State → Prop) :
    wp (writeBody wdata dataLen).run post b ↔ wp (Op.write wdata dataLen).run post b := by
  simp only [writeBody, writeData, moreBusy, Code.wp_bind, wp_load, Code.wp_ite, wp_store,
    Code.wp_pure, Op.run, write, Program.wp_bind, Program.wp_pure, Program.wp_get, hblock,
    Program.wp_ite, if_neg hlen, wp_memcpy, Program.wp_set, wp_writeStraight hblock,
    wp_writeWrapped hblock, Nat.zero_add, List.drop_zero]

theorem wp_fetchStraight (hblock : b.buffer = some block) (rdata : List UInt8) (dataLen : UInt32)
    (post : List UInt8 → State → Prop) :
    wp (fetchStraight rdata dataLen).run post b ↔
      wp (memcpy rdata 0 block b.rpos.toNat dataLen.toNat) post b := by
  simp only [fetchStraight, Code.wp_bind, wp_load, wp_copyFrom hblock, wp_memcpy]

theorem wp_fetchWrapped (hblock : b.buffer = some block) (rdata : List UInt8) (dataLen : UInt32)
    (post : List UInt8 → State → Prop) :
    wp (fetchWrapped rdata dataLen).run post b ↔
      wp (do
        let rdata ← memcpy rdata 0 block b.rpos.toNat (b.bufferSize - b.rpos).toNat
        memcpy rdata (b.bufferSize - b.rpos).toNat block 0
          (dataLen + b.rpos - b.bufferSize).toNat) post b := by
  simp only [fetchWrapped, Code.wp_bind, wp_load, wp_copyFrom hblock, Program.wp_bind, wp_memcpy]

theorem wp_passStraight (dataLen : UInt32) (post : Unit → State → Prop) :
    wp (passStraight dataLen).run post b ↔
      post () { b with
        rpos := if b.rpos + dataLen = b.bufferSize then 0 else b.rpos + dataLen } := by
  simp only [passStraight, Code.wp_bind, wp_load, wp_store, Code.wp_ite, Code.wp_pure]
  split <;> rfl

theorem wp_passWrapped (dataLen : UInt32) (post : Unit → State → Prop) :
    wp (passWrapped dataLen).run post b ↔
      post () { b with rpos := dataLen + b.rpos - b.bufferSize } := by
  simp only [passWrapped, Code.wp_bind, wp_load, wp_store]

theorem wp_lessBusy (dataLen : UInt32) (post : Unit → State → Prop) :
    wp (lessBusy dataLen).run post b ↔ post () { b with busyNum := b.busyNum - dataLen } := by
  simp only [lessBusy, Code.wp_bind, wp_load, wp_store]

theorem wp_readBody (hblock : b.buffer = some block) {rdata : List UInt8} {dataLen : UInt32}
    (hlen : ¬dataLen ≤ 0) (post : Result → State → Prop) :
    wp (readBody rdata dataLen).run post b ↔ wp (Op.read rdata dataLen).run post b := by
  simp only [readBody, readData, readStraight, readWrapped, Code.wp_bind, wp_load, Code.wp_ite,
    Code.wp_pure, wp_fetchStraight hblock, wp_fetchWrapped hblock, wp_passStraight, wp_passWrapped,
    wp_lessBusy, Op.run, read, fetch, copyOut, advance, Program.wp_bind, Program.wp_pure,
    Program.wp_get, hblock, Program.wp_ite, if_neg hlen, wp_memcpy, Program.wp_set]
  -- the position moves in the branch of the copy here, and behind it in the model
  by_cases hfit : b.rpos + dataLen ≤ b.bufferSize <;> simp only [hfit, if_true, if_false]

theorem wp_getBody (hblock : b.buffer = some block) {rdata : List UInt8} {dataLen : UInt32}
    (hlen : ¬dataLen ≤ 0) (post : Result → State → Prop) :
    wp (getBody rdata dataLen).run post b ↔ wp (Op.get rdata dataLen).run post b := by
  simp only [getBody, getData, Code.wp_bind, wp_load, Code.wp_ite, Code.wp_pure,
    wp_fetchStraight hblock, wp_fetchWrapped hblock, Op.run, Buffer.get, fetch, copyOut,
    Program.wp_bind, Program.wp_pure, Program.wp_get, hblock, Program.wp_ite, if_neg hlen,
    wp_memcpy, Program.wp_set, id]

theorem wp_skipBody (hblock : b.buffer = some block) {dataLen : UInt32}
    (hlen : ¬dataLen ≤ 0) (post : Result → State → Prop) :
    wp (skipBody dataLen).run post b ↔ wp (Op.skip dataLen).run post b := by
  simp only [skipBody, passData, Code.wp_bind, wp_load, Code.wp_ite, Code.wp_pure, wp_passStraight,
    wp_passWrapped, wp_lessBusy, Op.run, skip, advance, Program.wp_bind, Program.wp_pure,
    Program.wp_get, hblock, Program.wp_ite, reduceCtorEq, false_or, if_neg hlen, Program.wp_set]
  by_cases hfit : b.rpos + dataLen ≤ b.bufferSize <;> simp only [hfit, if_true, if_false]

theorem wp_clearBody (post : Result → State → Prop) :
    wp clearBody.run post b ↔ wp Op.clear.run post b := by
  simp only [clearBody, Code.wp_bind, wp_load, Code.wp_ite, Code.wp_pure, wp_store, Op.run, clear,
    Program.wp_bind, Program.wp_pure, Program.wp_get, Program.wp_ite, Program.wp_set]
  cases b.buffer <;> simp

end

/-! ## The pointer stays -/

/-- Whether the buffer has a block, which is all that the checks in front of the lock read. -/
def null (b : State) : Bool := b.buffer.isNone

theorem keeps_storeBytes (wdata : List UInt8) (pos j n : ℕ) :
    (storeBytes wdata pos j n).Keeps null := by
  induction n generalizing pos j with
  | zero => exact .pure ()
  | succ n ih => exact .bind (.store fun _ ↦ Option.isNone_map) fun _ ↦ ih _ _

theorem keeps_copyTo (pos : ℕ) (wdata : List UInt8) (j n : ℕ) :
    (copyTo pos wdata j n).Keeps null :=
  .bind (.loadIf _ _) fun _ ↦ keeps_storeBytes wdata pos j n

theorem keeps_loadBytes (rdata : List UInt8) (i pos n : ℕ) :
    (loadBytes rdata i pos n).Keeps null := by
  induction n generalizing rdata i pos with
  | zero => exact .pure rdata
  | succ n ih => exact .bind (.load _) fun _ ↦ ih _ _ _

theorem keeps_copyFrom (rdata : List UInt8) (i pos n : ℕ) :
    (copyFrom rdata i pos n).Keeps null :=
  .bind (.loadIf _ _) fun _ ↦ keeps_loadBytes rdata i pos n

theorem keeps_writeBody (wdata : List UInt8) (dataLen : UInt32) :
    (writeBody wdata dataLen).Keeps null := by
  have hstraight : (writeStraight wdata dataLen).Keeps null :=
    .bind (.load _) fun _ ↦ .bind (keeps_copyTo _ _ _ _) fun _ ↦ .bind (.load _) fun _ ↦
      .bind (.store fun _ ↦ rfl) fun _ ↦ .bind (.load _) fun _ ↦ .bind (.load _) fun _ ↦
        .ite (.store fun _ ↦ rfl) (.pure _)
  have hwrapped : (writeWrapped wdata dataLen).Keeps null :=
    .bind (.load _) fun _ ↦ .bind (.load _) fun _ ↦ .bind (keeps_copyTo _ _ _ _) fun _ ↦
      .bind (.load _) fun _ ↦ .bind (.load _) fun _ ↦ .bind (keeps_copyTo _ _ _ _) fun _ ↦
        .bind (.load _) fun _ ↦ .bind (.load _) fun _ ↦ .store fun _ ↦ rfl
  have hdata : (writeData wdata dataLen).Keeps null :=
    .bind (.load _) fun _ ↦ .bind (.load _) fun _ ↦ .ite hstraight hwrapped
  have hmore : (moreBusy dataLen).Keeps null := .bind (.load _) fun _ ↦ .store fun _ ↦ rfl
  exact .bind (.load _) fun _ ↦ .bind (.load _) fun _ ↦ .ite (.pure _) <|
    .bind hdata fun _ ↦ .bind hmore fun _ ↦ .pure _

theorem keeps_fetchStraight (rdata : List UInt8) (dataLen : UInt32) :
    (fetchStraight rdata dataLen).Keeps null :=
  .bind (.load _) fun _ ↦ keeps_copyFrom _ _ _ _

theorem keeps_fetchWrapped (rdata : List UInt8) (dataLen : UInt32) :
    (fetchWrapped rdata dataLen).Keeps null :=
  .bind (.load _) fun _ ↦ .bind (.load _) fun _ ↦ .bind (keeps_copyFrom _ _ _ _) fun _ ↦
    .bind (.load _) fun _ ↦ .bind (.load _) fun _ ↦ keeps_copyFrom _ _ _ _

theorem keeps_passStraight (dataLen : UInt32) : (passStraight dataLen).Keeps null :=
  .bind (.load _) fun _ ↦ .bind (.store fun _ ↦ rfl) fun _ ↦ .bind (.load _) fun _ ↦
    .bind (.load _) fun _ ↦ .ite (.store fun _ ↦ rfl) (.pure _)

theorem keeps_passWrapped (dataLen : UInt32) : (passWrapped dataLen).Keeps null :=
  .bind (.load _) fun _ ↦ .bind (.load _) fun _ ↦ .store fun _ ↦ rfl

theorem keeps_lessBusy (dataLen : UInt32) : (lessBusy dataLen).Keeps null :=
  .bind (.load _) fun _ ↦ .store fun _ ↦ rfl

theorem keeps_readBody (rdata : List UInt8) (dataLen : UInt32) :
    (readBody rdata dataLen).Keeps null := by
  have hstraight : (readStraight rdata dataLen).Keeps null :=
    .bind (keeps_fetchStraight _ _) fun _ ↦ .bind (keeps_passStraight _) fun _ ↦ .pure _
  have hwrapped : (readWrapped rdata dataLen).Keeps null :=
    .bind (keeps_fetchWrapped _ _) fun _ ↦ .bind (keeps_passWrapped _) fun _ ↦ .pure _
  have hdata : (readData rdata dataLen).Keeps null :=
    .bind (.load _) fun _ ↦ .bind (.load _) fun _ ↦ .ite hstraight hwrapped
  exact .bind (.load _) fun _ ↦ .ite (.pure _) <|
    .bind hdata fun _ ↦ .bind (keeps_lessBusy _) fun _ ↦ .pure _

theorem keeps_getBody (rdata : List UInt8) (dataLen : UInt32) :
    (getBody rdata dataLen).Keeps null := by
  have hdata : (getData rdata dataLen).Keeps null :=
    .bind (.load _) fun _ ↦ .bind (.load _) fun _ ↦
      .ite (keeps_fetchStraight _ _) (keeps_fetchWrapped _ _)
  exact .bind (.load _) fun _ ↦ .ite (.pure _) <| .bind hdata fun _ ↦ .pure _

theorem keeps_skipBody (dataLen : UInt32) : (skipBody dataLen).Keeps null := by
  have hdata : (passData dataLen).Keeps null :=
    .bind (.load _) fun _ ↦ .bind (.load _) fun _ ↦
      .ite (keeps_passStraight _) (keeps_passWrapped _)
  exact .bind (.load _) fun _ ↦ .ite (.pure _) <|
    .bind hdata fun _ ↦ .bind (keeps_lessBusy _) fun _ ↦ .pure _

theorem keeps_clearBody : clearBody.Keeps null :=
  .bind (.load _) fun _ ↦ .ite (.pure _) <| .bind (.store fun _ ↦ rfl) fun _ ↦
    .bind (.store fun _ ↦ rfl) fun _ ↦ .bind (.store fun _ ↦ rfl) fun _ ↦ .pure _

theorem keeps_isemptyBody : isemptyBody.Keeps null :=
  .bind (.load _) fun _ ↦ .ite (.pure _) <| .bind (.load _) fun _ ↦ .pure _

theorem keeps_isfullBody : isfullBody.Keeps null :=
  .bind (.load _) fun _ ↦ .ite (.pure _) <| .bind (.load _) fun _ ↦ .bind (.load _) fun _ ↦ .pure _

theorem keeps_body (request : Request) : (body request).Keeps null := by
  rcases request with ⟨_ | _ | _ | _ | _, hop⟩ | _ | _ | _
  · exact keeps_writeBody _ _
  · exact keeps_readBody _ _
  · exact keeps_getBody _ _
  · exact keeps_skipBody _
  · exact keeps_clearBody
  · exact .bind (.load _) fun _ ↦ .pure _
  · exact keeps_isemptyBody
  · exact keeps_isfullBody

/-! ## The locked buffer -/

/-- The ring buffer as an object with a lock. -/
def locked : Object State Request Result where
  guard request b := refusal (null b) request
  body := body
  keeps request := (keeps_body request).comp refusal

section

variable {b : State}

theorem exists_buffer_of_not_null {dataLen : UInt32} (h : ¬(null b = true ∨ dataLen ≤ 0)) :
    (∃ block, b.buffer = some block) ∧ ¬dataLen ≤ 0 := by
  obtain ⟨hnull, hlen⟩ := not_or.1 h
  exact ⟨Option.ne_none_iff_exists'.1 (by simpa [null] using hnull), hlen⟩

/-- A call with the check of `write` and of `skip`, or with that of `read` and of `get`. -/
theorem wp_call_checked {request : Request} {dataLen : UInt32} {refused : Result}
    {post : Result → State → Prop}
    (hrefusal : refusal (null b) request =
      if null b ∨ dataLen ≤ 0 then some refused else none)
    (hnull : b.buffer = none → (wp request.run post b ↔ post refused b))
    (hzero : dataLen ≤ 0 → (wp request.run post b ↔ post refused b))
    (hbody : ∀ block, b.buffer = some block → ¬dataLen ≤ 0 →
      (wp (body request).run post b ↔ wp request.run post b)) :
    wp (locked.call request) post b ↔ wp request.run post b := by
  by_cases hcheck : null b = true ∨ dataLen ≤ 0
  · rw [if_pos hcheck] at hrefusal
    have hguard : locked.guard request b = some refused := hrefusal
    rw [wp_call_of_guard_eq_some hguard]
    rcases hcheck with h | h
    · exact (hnull (Option.isNone_iff_eq_none.1 h)).symm
    · exact (hzero h).symm
  · rw [if_neg hcheck] at hrefusal
    have hguard : locked.guard request b = none := hrefusal
    rw [wp_call_of_guard_eq_none hguard]
    obtain ⟨⟨block, hblock⟩, hlen⟩ := exists_buffer_of_not_null hcheck
    exact hbody block hblock hlen

/-- **Every call alone does what the model of the call does.** -/
theorem call_locked (request : Request) : locked.call request = request.run := by
  apply eq_of_wp_iff
  intro post b
  rcases request with ⟨op, hop⟩ | query
  · cases op with
    | write wdata dataLen =>
      exact wp_call_checked rfl (fun h ↦ by simp [Request.run, Op.run, write, h])
        (fun h ↦ by cases hb : b.buffer <;> simp [Request.run, Op.run, write, h, hb])
        fun block hblock hlen ↦ wp_writeBody hblock hlen post
    | read rdata dataLen =>
      exact wp_call_checked rfl (fun h ↦ by simp [Request.run, Op.run, read, fetch, h])
        (fun h ↦ by cases hb : b.buffer <;> simp [Request.run, Op.run, read, fetch, h, hb])
        fun block hblock hlen ↦ wp_readBody hblock hlen post
    | get rdata dataLen =>
      exact wp_call_checked rfl (fun h ↦ by simp [Request.run, Op.run, Buffer.get, fetch, h])
        (fun h ↦ by cases hb : b.buffer <;> simp [Request.run, Op.run, Buffer.get, fetch, h, hb])
        fun block hblock hlen ↦ wp_getBody hblock hlen post
    | skip dataLen =>
      exact wp_call_checked rfl (fun h ↦ by simp [Request.run, Op.run, skip, h])
        (fun h ↦ by simp [Request.run, Op.run, skip, h])
        fun block hblock hlen ↦ wp_skipBody hblock hlen post
    | clear =>
      have hguard : locked.guard (.inl ⟨.clear, hop⟩) b = none := rfl
      rw [wp_call_of_guard_eq_none hguard]
      exact wp_clearBody post
  · cases query with
    | busynum =>
      cases hb : b.buffer with
      | none =>
        have hrefusal : refusal (null b) (.inr .busynum) = some ⟨(-1 : UInt32).toNat, none⟩ := by
          rw [null, hb]
          rfl
        have hguard : locked.guard (.inr .busynum) b = _ := hrefusal
        rw [wp_call_of_guard_eq_some hguard]
        simp [Request.run, busynum, hb]
      | some block =>
        have hrefusal : refusal (null b) (.inr .busynum) = none := by
          rw [null, hb]
          rfl
        have hguard : locked.guard (.inr .busynum) b = none := hrefusal
        rw [wp_call_of_guard_eq_none hguard]
        simp [locked, body, busynumBody, Request.run, busynum, hb]
    | isempty =>
      have hguard : locked.guard (.inr .isempty) b = none := rfl
      rw [wp_call_of_guard_eq_none hguard]
      cases hb : b.buffer <;> simp [locked, body, isemptyBody, Request.run, isempty, hb]
    | isfull =>
      have hguard : locked.guard (.inr .isfull) b = none := rfl
      rw [wp_call_of_guard_eq_none hguard]
      cases hb : b.buffer <;> simp [locked, body, isfullBody, Request.run, isfull, hb]

end

/-! ## Threads on one queue -/

/-- What a query answers about the queue. -/
def Query.answer (size : ℕ) (queue : List UInt8) : Query → ℤ
  | .busynum => queue.length
  | .isempty => if queue = [] then 1 else 0
  | .isfull => if queue.length = size then 1 else 0

/-- A bounded queue that also answers queries. -/
def QueueStep (size : ℕ) : Request × Result → List UInt8 → List UInt8 → Prop
  | (.inl op, result), queue, queue' => SpecStep size (op.1, result) queue queue'
  | (.inr query, result), queue, queue' =>
    result = ⟨query.answer size queue, none⟩ ∧ queue' = queue

section

variable {size : ℕ} {b : State}

theorem wp_request (hsize : size ≤ 2 ^ 31) (h : WellFormed size b) (request : Request) :
    wp request.run (fun result b' ↦ WellFormed size b' ∧
      QueueStep size (request, result) (content b) (content b')) b := by
  obtain ⟨block, hblock, -⟩ := h.block
  have hempty : b.busyNum = 0 ↔ content b = [] := by
    rw [← List.length_eq_zero_iff, length_content]
    exact ⟨fun hzero ↦ by rw [hzero]; rfl, fun hzero ↦ UInt32.toNat_inj.1 hzero⟩
  have hfull : b.busyNum = b.bufferSize ↔ (content b).length = size := by
    rw [length_content, ← UInt32.toNat_inj, h.size_eq]
  rcases request with ⟨op, hop⟩ | query
  · exact wp_mono (wp_run hsize h hop) fun result b' ⟨h', hstep, _⟩ ↦ ⟨h', hstep⟩
  · cases query with
    | busynum =>
      simp only [Request.run, busynum, Program.wp_bind, Program.wp_pure, Program.wp_get, hblock,
        reduceCtorEq, if_false]
      exact ⟨h, by simp [Query.answer], rfl⟩
    | isempty =>
      simp only [Request.run, isempty, Program.wp_bind, Program.wp_pure, Program.wp_get, hblock,
        ne_eq, reduceCtorEq, not_false_eq_true, true_and, hempty]
      exact ⟨h, rfl, rfl⟩
    | isfull =>
      simp only [Request.run, isfull, Program.wp_bind, Program.wp_pure, Program.wp_get, hblock,
        ne_eq, reduceCtorEq, not_false_eq_true, true_and, hfull]
      exact ⟨h, rfl, rfl⟩

end

section

variable {τ : Type} [DecidableEq τ] {bufferSize : UInt32} {handle block : Bool} {b₀ : State}
  {labels : List (Option (Event τ Request Result))} {m : System State Request Result τ}

/-- The queue behind an interleaving. -/
theorem exists_queue_of_run (hpos : 0 < bufferSize.toNat) (hsize : bufferSize.toNat ≤ 2 ^ 31)
    (hcreate : create handle block bufferSize = some b₀)
    (hrun : Run (LockStep locked true) labels (System.init b₀) m) :
    ∃ b, Coherent locked m b ∧ WellFormed bufferSize.toNat b ∧
      Run (AtomicStep (QueueStep bufferSize.toNat)) labels (Atomic.init [])
        ⟨content b, m.pending⟩ := by
  obtain ⟨h₀, hempty⟩ := wellFormed_create hpos hcreate
  obtain ⟨b, hatomic, hcoherent⟩ := coherent_of_run hrun
  have hstep (label : Request × Result) (b b' : State) (queue : List UInt8)
      (hrel : WellFormed bufferSize.toNat b ∧ content b = queue) (hcall : locked.Call label b b') :
      ∃ queue', QueueStep bufferSize.toNat label queue queue' ∧
        WellFormed bufferSize.toNat b' ∧ content b' = queue' := by
    obtain ⟨h, rfl⟩ := hrel
    rw [Object.Call, call_locked] at hcall
    obtain ⟨h', hspec⟩ := wp_outcome (wp_request hsize h label.1) hcall
    exact ⟨content b', hspec, h', rfl⟩
  obtain ⟨queue, hqueue, h, rfl⟩ := AtomicStep.simulation _ hstep hatomic ⟨h₀, hempty⟩
  exact ⟨b, hcoherent, h, hqueue⟩

/-- **With the lock, the threads share one bounded queue.**  In every interleaving of their
accesses, what they see is what they see of a queue on which each call takes effect at one moment
between its invocation and its return.  The queue is what the buffer holds when no thread has the
lock, and the calls in the order of these moments are one run of the queue: it gives each thread
the answers it got, in its order. -/
theorem linearizable_of_run (hpos : 0 < bufferSize.toNat) (hsize : bufferSize.toNat ≤ 2 ^ 31)
    (hcreate : create handle block bufferSize = some b₀)
    (hrun : Run (LockStep locked true) labels (System.init b₀) m) :
    ∃ queue, Run (AtomicStep (QueueStep bufferSize.toNat)) labels (Atomic.init [])
        ⟨queue, m.pending⟩ ∧
      (m.owner = none → WellFormed bufferSize.toNat m.shared ∧ content m.shared = queue) ∧
      ∃ order : List (τ × Request × Result),
        Run (QueueStep bufferSize.toNat) (order.map Prod.snd) [] queue ∧
          ∀ t, ofThread t order = returned t labels ++ (m.pending t).effects := by
  obtain ⟨b, hcoherent, h, hqueue⟩ := exists_queue_of_run hpos hsize hcreate hrun
  obtain ⟨order, horder, hthreads⟩ := AtomicStep.exists_order hqueue
  refine ⟨content b, hqueue, fun hfree ↦ ?_, order, horder, fun t ↦ ?_⟩
  · rw [hcoherent.free hfree]
    exact ⟨h, rfl⟩
  · exact hthreads t

end

def oneByte : State := ⟨some [0], 1, 0, 0, 0⟩

theorem oneByte_create : create true true 1 = some oneByte := rfl

def writeOne : Request := .inl ⟨.write [7] 1, by decide⟩

/-- A write and a query that waits for it. -/
def sharedLabels : List (Option (Event Bool Request Result)) :=
  [some (.call true writeOne), some (.call false (.inr .busynum)), none, none, none, none] ++
    List.replicate 14 none ++ [some (.ret true writeOne ⟨0, none⟩), none, none, none,
      some (.ret false (.inr .busynum) ⟨1, none⟩)]

theorem shared_run : ∃ m, Run (LockStep locked true) sharedLabels (System.init oneByte) m :=
  ⟨_, .cons (.call rfl) <| .cons (.call rfl) <| .cons (.pass (t := true) rfl rfl) <|
    .cons (.pass (t := false) rfl rfl) <| .cons (.acquire (t := true) rfl fun _ ↦ rfl) <|
    .cons (.access (t := true) rfl rfl) <| .cons (.access (t := true) rfl rfl) <|
    .cons (.access (t := true) rfl rfl) <| .cons (.access (t := true) rfl rfl) <|
    .cons (.access (t := true) rfl rfl) <| .cons (.access (t := true) rfl rfl) <|
    .cons (.access (t := true) rfl rfl) <| .cons (.access (t := true) rfl rfl) <|
    .cons (.access (t := true) rfl rfl) <| .cons (.access (t := true) rfl rfl) <|
    .cons (.access (t := true) rfl rfl) <| .cons (.access (t := true) rfl rfl) <|
    .cons (.access (t := true) rfl rfl) <| .cons (.access (t := true) rfl rfl) <|
    .cons (.release (t := true) rfl) <| .cons (.ret rfl) <|
    .cons (.acquire (t := false) rfl fun _ ↦ rfl) <| .cons (.access (t := false) rfl rfl) <|
    .cons (.release (t := false) rfl) <| .cons (.ret rfl) (.nil _)⟩

theorem linearizable_of_run_shared :
    ∃ m queue, Run (LockStep locked true) sharedLabels (System.init oneByte) m ∧
      Run (AtomicStep (QueueStep 1)) sharedLabels (Atomic.init []) ⟨queue, m.pending⟩ := by
  obtain ⟨m, hrun⟩ := shared_run
  obtain ⟨queue, hqueue, -⟩ := linearizable_of_run (by decide) (by decide) oneByte_create hrun
  exact ⟨m, queue, hrun, hqueue⟩

section

variable {τ : Type} [DecidableEq τ] {bufferSize : UInt32} {handle block : Bool} {b₀ : State}
  {labels : List (Option (Event τ Request Result))} {m : System State Request Result τ}

/-- **No call is stuck.**  At most one thread is between the lock and the unlock, its next access is
defined, and from wherever an interleaving has led, every thread's call can still return. -/
theorem returns_of_run (hpos : 0 < bufferSize.toNat) (hsize : bufferSize.toNat ≤ 2 ^ 31)
    (hcreate : create handle block bufferSize = some b₀)
    (hrun : Run (LockStep locked true) labels (System.init b₀) m) :
    (∀ t u op op' rest rest', m.phase t = .inside op rest → m.phase u = .inside op' rest' → u = t) ∧
      (∀ t op rest, m.phase t = .inside op rest → wp rest.run (fun _ _ ↦ True) m.shared) ∧
        ∀ t, ∃ labels' m', Run (LockStep locked true) labels' m m' ∧ m'.phase t = .idle := by
  obtain ⟨b, hcoherent, h, -⟩ := exists_queue_of_run hpos hsize hcreate hrun
  have hcall (request : Request) (b : State) (h : WellFormed bufferSize.toNat b) :
      wp (locked.call request) (fun _ b' ↦ WellFormed bufferSize.toNat b') b := by
    rw [call_locked]
    exact wp_mono (wp_request hsize h request) fun _ _ hpost ↦ hpost.1
  exact ⟨fun t u op op' rest rest' ht hu ↦ hcoherent.eq_of_inside ht hu,
    fun t op rest ht ↦ defined_of_inside hcall hcoherent h ht,
    exists_idle hcall hcoherent h⟩

end

/-- The write is in its code, and the query waits. -/
theorem half_run : ∃ m op rest, Run (LockStep locked true) (sharedLabels.take 7)
    (System.init oneByte) m ∧ m.phase true = .inside op rest :=
  ⟨_, _, _, .cons (.call rfl) <| .cons (.call rfl) <| .cons (.pass (t := true) rfl rfl) <|
    .cons (.pass (t := false) rfl rfl) <| .cons (.acquire (t := true) rfl fun _ ↦ rfl) <|
    .cons (.access (t := true) rfl rfl) <| .cons (.access (t := true) rfl rfl) (.nil _), rfl⟩

theorem returns_of_run_half :
    ∃ m op rest, m.phase true = .inside op rest ∧
      ∀ t, ∃ labels' m', Run (LockStep locked true) labels' m m' ∧ m'.phase t = .idle := by
  obtain ⟨m, op, rest, hrun, hinside⟩ := half_run
  exact ⟨m, op, rest, hinside,
    (returns_of_run (by decide) (by decide) oneByte_create hrun).2.2⟩

end Zbaselib.Buffer
