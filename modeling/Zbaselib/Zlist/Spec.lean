import Zbaselib.Zlist.Model

/-!
# What a list is for

The abstract state is the sequence of the data, and nothing once the list is
destroyed.  An operation answers, gives data back to their owner through the
destroy function, and stores data.
-/

namespace Zbaselib.Zlist

open Memory

/-- A call on the client's list.  `addr` is the address of the node it makes. -/
inductive Op
  | addhead (addr data : Ptr)
  | addtail (addr data : Ptr)
  | add (addr data : Ptr) (index : ℤ)
  | delhead
  | deltail
  | del (index : ℤ)
  | delUseCond (cmp : Ptr → Bool)
  | sethead (data : Ptr)
  | settail (data : Ptr)
  | set (data : Ptr) (index : ℤ)
  | clear
  | destroy
  | size
  | empty
  | get (index : ℤ)
  | gethead
  | gettail
  | find (cmp : Ptr → Bool)

inductive Result
  | done
  | int (n : ℤ)
  | ptr (p : Ptr)
  | bool (b : Bool)
  deriving DecidableEq

/-- The first index at which the comparison holds, else `-1`. -/
def findIndex (cmp : Ptr → Bool) (items : List Ptr) : ℤ :=
  match items.findIdx? cmp with
  | some index => index
  | none => -1

/-- The outcome of an operation: the answer, the data that leave the list in the order in which
they leave, the data that enter it, and the sequence afterwards. -/
structure Outcome where
  result : Result
  left : List Ptr
  entered : List Ptr
  items : Option (List Ptr)

/-- An operation on a list with these data. -/
def specLive (op : Op) (items : List Ptr) : Outcome :=
  match op with
  | .addhead _ data => ⟨.done, [], [data], some (data :: items)⟩
  | .addtail _ data => ⟨.done, [], [data], some (items ++ [data])⟩
  | .add _ data index =>
      if 0 ≤ index ∧ index ≤ items.length then
        ⟨.int 0, [], [data], some (items.take index.toNat ++ data :: items.drop index.toNat)⟩
      else ⟨.int (-1), [], [], some items⟩
  | .delhead => ⟨.done, items.take 1, [], some (items.drop 1)⟩
  | .deltail =>
      ⟨.done, items.drop (items.length - 1), [], some (items.take (items.length - 1))⟩
  | .del index =>
      if 0 ≤ index ∧ index < items.length then
        ⟨.int 0, (items.drop index.toNat).take 1, [],
          some (items.take index.toNat ++ items.drop (index.toNat + 1))⟩
      else ⟨.int (-1), [], [], some items⟩
  | .delUseCond cmp =>
      if items = [] then ⟨.int (-1), [], [], some items⟩
      else ⟨.int (items.filter cmp).length, items.filter cmp, [],
        some (items.filter fun data ↦ !cmp data)⟩
  | .sethead data =>
      match items with
      | [] => ⟨.done, [], [], some []⟩
      | old :: rest => ⟨.done, [old], [data], some (data :: rest)⟩
  | .settail data =>
      if items = [] then ⟨.done, [], [], some []⟩
      else ⟨.done, items.drop (items.length - 1), [data],
        some (items.take (items.length - 1) ++ [data])⟩
  | .set data index =>
      if 0 ≤ index ∧ index < items.length then
        ⟨.int 0, (items.drop index.toNat).take 1, [data],
          some (items.take index.toNat ++ data :: items.drop (index.toNat + 1))⟩
      else ⟨.int (-1), [], [], some items⟩
  | .clear => ⟨.done, items.reverse, [], some []⟩
  | .destroy => ⟨.done, items.reverse, [], none⟩
  | .size => ⟨.int items.length, [], [], some items⟩
  | .empty => ⟨.bool (decide (items = [])), [], [], some items⟩
  | .get index =>
      ⟨.ptr (if 0 ≤ index then items.getD index.toNat NULL else NULL), [], [], some items⟩
  | .gethead => ⟨.ptr (items.headD NULL), [], [], some items⟩
  | .gettail => ⟨.ptr (items.getLastD NULL), [], [], some items⟩
  | .find cmp => ⟨.int (findIndex cmp items), [], [], some items⟩

/-- The datum in whose place an operation puts another. -/
def overwritten (op : Op) (items : List Ptr) : Ptr :=
  match op with
  | .sethead _ => items.headD NULL
  | .settail _ => items.getLastD NULL
  | .set _ index => if 0 ≤ index then items.getD index.toNat NULL else NULL
  | _ => NULL

section

variable {addr data old : Ptr} {index : ℤ} {items xs ys : List Ptr}

theorem specLive_add_out (h : index < 0 ∨ items.length < index) :
    specLive (.add addr data index) items = ⟨.int (-1), [], [], some items⟩ := by
  unfold specLive
  exact if_neg (by omega)

theorem specLive_add_in : specLive (.add addr data xs.length) (xs ++ ys) =
    ⟨.int 0, [], [data], some (xs ++ data :: ys)⟩ := by
  have hindex : 0 ≤ (xs.length : ℤ) ∧ (xs.length : ℤ) ≤ (xs ++ ys).length := by
    rw [List.length_append]
    omega
  unfold specLive
  dsimp only
  rw [if_pos hindex]
  simp

theorem specLive_del_out (h : index < 0 ∨ items.length ≤ index) :
    specLive (.del index) items = ⟨.int (-1), [], [], some items⟩ := by
  unfold specLive
  exact if_neg (by omega)

theorem index_in_range : 0 ≤ (xs.length : ℤ) ∧ (xs.length : ℤ) < (xs ++ old :: ys).length := by
  rw [List.length_append, List.length_cons]
  omega

theorem drop_length_succ : (xs ++ old :: ys).drop (xs.length + 1) = ys := by
  rw [← List.drop_drop, List.drop_left, List.drop_one, List.tail_cons]

theorem specLive_del_in : specLive (.del xs.length) (xs ++ old :: ys) =
    ⟨.int 0, [old], [], some (xs ++ ys)⟩ := by
  unfold specLive
  dsimp only
  rw [if_pos index_in_range, Int.toNat_natCast, drop_length_succ]
  simp

theorem specLive_deltail : specLive .deltail (xs ++ [old]) = ⟨.done, [old], [], some xs⟩ := by
  simp [specLive]

theorem specLive_settail : specLive (.settail data) (xs ++ [old]) =
    ⟨.done, [old], [data], some (xs ++ [data])⟩ := by
  simp [specLive]

theorem specLive_set_out (h : index < 0 ∨ items.length ≤ index) :
    specLive (.set data index) items = ⟨.int (-1), [], [], some items⟩ := by
  unfold specLive
  exact if_neg (by omega)

theorem specLive_set_in : specLive (.set data xs.length) (xs ++ old :: ys) =
    ⟨.int 0, [old], [data], some (xs ++ data :: ys)⟩ := by
  unfold specLive
  dsimp only
  rw [if_pos index_in_range, Int.toNat_natCast, drop_length_succ]
  simp

theorem specLive_get_out (h : index < 0 ∨ items.length ≤ index) :
    specLive (.get index) items = ⟨.ptr NULL, [], [], some items⟩ := by
  unfold specLive
  dsimp only
  split
  · rw [List.getD_eq_getElem?_getD, List.getElem?_eq_none (by omega)]
    rfl
  · rfl

theorem specLive_get_in : specLive (.get xs.length) (xs ++ old :: ys) =
    ⟨.ptr old, [], [], some (xs ++ old :: ys)⟩ := by
  simp [specLive]

end

/-- The answer to a call with a null list pointer. -/
def resultNull : Op → Result
  | .addhead _ _ | .addtail _ _ | .delhead | .deltail | .sethead _ | .settail _ | .clear
  | .destroy => .done
  | .add _ _ _ | .del _ | .delUseCond _ | .set _ _ | .size | .find _ => .int (-1)
  | .empty => .bool true
  | .get _ | .gethead | .gettail => .ptr NULL

def spec (op : Op) : Option (List Ptr) → Outcome
  | some items => specLive op items
  | none => ⟨resultNull op, [], [], none⟩

def SpecStep (label : Op × Result) (items items' : Option (List Ptr)) : Prop :=
  label.2 = (spec label.1 items).result ∧ items' = (spec label.1 items).items

/-- The number of positions that hold `p`. -/
def positions (p : Ptr) (items : Option (List Ptr)) : ℕ := (items.getD []).count p

/-- **Conservation.**  What was there or enters is what leaves or is there. -/
theorem spec_conserves (op : Op) (items : Option (List Ptr)) (p : Ptr) :
    positions p items + (spec op items).entered.count p =
      (spec op items).left.count p + positions p (spec op items).items := by
  obtain _ | items := items
  · rfl
  have hsplit (n : ℕ) : items.count p = (items.take n).count p + (items.drop n).count p := by
    rw [← List.count_append, List.take_append_drop]
  have hnext (n : ℕ) : (items.drop n).count p =
      ((items.drop n).take 1).count p + (items.drop (n + 1)).count p := by
    rw [← List.drop_drop, ← List.count_append, List.take_append_drop]
  unfold positions
  cases op with
  | addhead addr data => simp [spec, specLive, List.count_cons]
  | addtail addr data => simp [spec, specLive, List.count_append]
  | add addr data index =>
    have hindex := hsplit index.toNat
    simp only [spec, specLive]
    split
    · simp [List.count_append, List.count_cons]
      omega
    · simp
  | delhead =>
    have hindex := hsplit 1
    simpa [spec, specLive] using hindex
  | deltail =>
    have hindex := hsplit (items.length - 1)
    simp [spec, specLive]
    omega
  | del index =>
    have hindex := hsplit index.toNat
    have hone := hnext index.toNat
    simp only [spec, specLive]
    split
    · simp [List.count_append]
      omega
    · simp
  | delUseCond cmp =>
    simp only [spec, specLive]
    split
    · simp
    · have hfilter := List.countP_eq_countP_filter_add items (· == p) cmp
      simpa [List.count] using hfilter
  | sethead data =>
    simp only [spec, specLive]
    obtain _ | ⟨old, rest⟩ := items
    · simp
    · simp [List.count_cons]
      omega
  | settail data =>
    have hindex := hsplit (items.length - 1)
    simp only [spec, specLive]
    split
    · next hnil => simp [hnil]
    · simp [List.count_append]
      omega
  | set data index =>
    have hindex := hsplit index.toNat
    have hone := hnext index.toNat
    simp only [spec, specLive]
    split
    · simp [List.count_append, List.count_cons]
      omega
    · simp
  | clear => simp [spec, specLive]
  | destroy => simp [spec, specLive]
  | size | empty | get | gethead | gettail | find => simp [spec, specLive]

end Zbaselib.Zlist
