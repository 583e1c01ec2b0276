import Fws.Base.Search
import Fws.Networking.Platform

/-!
# Growable arrays (networking/vector.c)

The block has `elems.length` slots, which is what the source keeps in
`num_alloc_elems`: every function that changes one reallocates the other. The
element size is the size of the type.
-/

namespace Fws
open Base.Cells Base.Search

structure Vector (α : Type) where
  elems : List (Option α)
  numElems : ℕ
  room : 0 < elems.length
  fits : numElems ≤ elems.length

namespace Vector
variable {α : Type}

def numAllocElems (v : Vector α) : ℕ := v.elems.length

/-- The slots in use. -/
def contents (v : Vector α) : List (Option α) := v.elems.take v.numElems

def Inbounds (v : Vector α) (i : ℕ) : Prop := 0 ≤ cInt i ∧ i < v.numElems

def HasSpace (v : Vector α) : Prop := v.numElems + 1 ≤ v.numAllocElems

instance (v : Vector α) (i : ℕ) : Decidable (v.Inbounds i) :=
  inferInstanceAs (Decidable (_ ∧ _))

instance (v : Vector α) : Decidable v.HasSpace :=
  inferInstanceAs (Decidable (_ ≤ _))

end Vector

variable {α : Type}

def vectorInitSize : ℕ := 4

theorem initSize_pos (initSize : ℕ) :
    0 < if 0 < cInt initSize then initSize else vectorInitSize := by
  split
  · rename_i h
    rcases Nat.eq_zero_or_pos initSize with h0 | h0
    · rw [h0] at h
      exact absurd h (by decide)
    · exact h0
  · decide

def vectorInit (α : Type) (initSize : ℕ) : Vector α :=
  let numAllocElems := if 0 < cInt initSize then initSize else vectorInitSize
  { elems := List.replicate numAllocElems none
    numElems := 0
    room := by
      rw [List.length_replicate]
      exact initSize_pos initSize
    fits := Nat.zero_le _ }

def vectorGrow (v : Vector α) (size : ℕ) : Vector α :=
  let numAllocElems := if v.numAllocElems < size then size else v.numAllocElems * 2
  { elems := v.elems ++ List.replicate (numAllocElems - v.elems.length) none
    numElems := v.numElems
    room := by
      rw [List.length_append]
      exact Nat.add_pos_left v.room _
    fits := by
      rw [List.length_append]
      exact Nat.le_add_right_of_le v.fits }

def vectorReserve (v : Vector α) : Vector α := if v.HasSpace then v else vectorGrow v 0

theorem vectorGrow_contents (v : Vector α) (size : ℕ) :
    (vectorGrow v size).contents = v.contents := by
  simp only [Vector.contents, vectorGrow]
  rw [List.take_append_of_le_length v.fits]

theorem vectorGrow_numAllocElems (v : Vector α) (size : ℕ) :
    (vectorGrow v size).numAllocElems =
      if v.numAllocElems < size then size else v.numAllocElems * 2 := by
  have hroom : 0 < v.numAllocElems := v.room
  have hlen : (vectorGrow v size).numAllocElems = v.numAllocElems +
      ((if v.numAllocElems < size then size else v.numAllocElems * 2) - v.numAllocElems) := by
    rw [Vector.numAllocElems, vectorGrow, List.length_append, List.length_replicate]
    rfl
  rw [hlen]
  split <;> omega

theorem vectorGrow_hasSpace (v : Vector α) (size : ℕ) : (vectorGrow v size).HasSpace := by
  have hroom : 0 < v.numAllocElems := v.room
  have hfits : v.numElems ≤ v.numAllocElems := v.fits
  have hnum : (vectorGrow v size).numElems = v.numElems := rfl
  rw [Vector.HasSpace, vectorGrow_numAllocElems, hnum]
  split <;> omega

/-- Whatever size is asked for, making room leaves the slots in use as they are. -/
theorem reserved_contents (v : Vector α) (size : ℕ) :
    (if v.HasSpace then v else vectorGrow v size).contents = v.contents := by
  split
  · rfl
  · exact vectorGrow_contents v size

theorem reserved_hasSpace (v : Vector α) (size : ℕ) :
    (if v.HasSpace then v else vectorGrow v size).HasSpace := by
  split
  · assumption
  · exact vectorGrow_hasSpace v size

theorem vectorReserve_contents (v : Vector α) : (vectorReserve v).contents = v.contents :=
  reserved_contents v 0

theorem vectorReserve_hasSpace (v : Vector α) : (vectorReserve v).HasSpace :=
  reserved_hasSpace v 0

/- An index with a negative `int` value appends. -/
def vectorInsert (v : Vector α) (elem : α) (index : ℕ) : Vector α :=
  if -1 < cInt index then
    if v.Inbounds index then
      { v with
        elems := v.elems.set index (some elem)
        room := by
          rw [List.length_set]
          exact v.room
        fits := by
          rw [List.length_set]
          exact v.fits }
    else v
  else
    let w := vectorReserve v
    { elems := w.elems.set w.numElems (some elem)
      numElems := w.numElems + 1
      room := by
        rw [List.length_set]
        exact w.room
      fits := by
        rw [List.length_set]
        exact vectorReserve_hasSpace v }

/- The block of `vector_insert_at` with the elements from `index` on moved up. -/
def openSlot (v : Vector α) (index : ℕ) : List (Option α) :=
  if index < v.numElems then move v.elems (index + 1) index (v.numElems - index) else v.elems

theorem openSlot_length (v : Vector α) (index : ℕ) :
    (openSlot v index).length = v.elems.length := by
  unfold openSlot
  split
  · exact move_length _ _ _ _
  · rfl

-- The length is raised before `vector_insert` looks at the index.
def vectorInsertAt (v : Vector α) (elem : α) (index : ℕ) : Vector α :=
  if cInt index < 0 then v
  else
    let w := vectorReserve v
    vectorInsert
      { elems := openSlot w index
        numElems := w.numElems + 1
        room := by
          rw [openSlot_length]
          exact w.room
        fits := by
          rw [openSlot_length]
          exact vectorReserve_hasSpace v }
      elem index

def vectorPush (v : Vector α) (elem : α) : Vector α := vectorInsert v elem (2 ^ 64 - 1)

/- What is handed out and the vector that stays; `none` where the slot before
the block would be read. -/
def vectorPop (v : Vector α) : Option (Option α × Vector α) :=
  if 0 < v.numElems then
    some (v.elems[v.numElems - 1]?.join,
      { v with
        numElems := v.numElems - 1
        fits := Nat.le_trans (Nat.sub_le _ _) v.fits })
  else none

/- On an empty vector the count of slots to move wraps around: `none`. -/
def vectorShift (v : Vector α) : Option (Option α × Vector α) :=
  if 0 < v.numElems then
    some (v.elems[0]?.join,
      { elems := move v.elems 0 1 (v.numElems - 1)
        numElems := v.numElems - 1
        room := by
          rw [move_length]
          exact v.room
        fits := by
          rw [move_length]
          exact Nat.le_trans (Nat.sub_le _ _) v.fits })
  else none

def vectorReserveFront (v : Vector α) : Vector α :=
  if v.HasSpace then v else vectorGrow v (v.numElems + 1)

theorem vectorReserveFront_contents (v : Vector α) :
    (vectorReserveFront v).contents = v.contents :=
  reserved_contents v _

theorem vectorReserveFront_hasSpace (v : Vector α) : (vectorReserveFront v).HasSpace :=
  reserved_hasSpace v _

def vectorUnshift (v : Vector α) (elem : α) : Vector α :=
  let w := vectorReserveFront v
  { elems := (move w.elems 1 0 w.numElems).set 0 (some elem)
    numElems := w.numElems + 1
    room := by
      rw [List.length_set, move_length]
      exact w.room
    fits := by
      rw [List.length_set, move_length]
      exact vectorReserveFront_hasSpace v }

def vectorSwap (elems : List (Option α)) (index1 index2 : ℕ) : List (Option α) :=
  let tmp := elems[index1]?.join
  (elems.set index1 elems[index2]?.join).set index2 tmp

theorem vectorSwap_length (elems : List (Option α)) (index1 index2 : ℕ) :
    (vectorSwap elems index1 index2).length = elems.length := by
  simp only [vectorSwap, List.length_set]

/- No index is checked: `none` where a slot outside of the block is named. -/
def vectorTranspose (v : Vector α) (index1 index2 : ℕ) : Option (Vector α) :=
  if index1 < v.numAllocElems ∧ index2 < v.numAllocElems then
    some
      { v with
        elems := vectorSwap v.elems index1 index2
        room := by
          rw [vectorSwap_length]
          exact v.room
        fits := by
          rw [vectorSwap_length]
          exact v.fits }
  else none

/- `none` is a failing assertion; otherwise what the object behind `elem` holds
afterwards. -/
def vectorGet (v : Vector α) (index : ℕ) (elem : Option α) : Option (Option α) :=
  if 0 ≤ cInt index then
    if v.Inbounds index then some v.elems[index]?.join else some elem
  else none

def vectorRemove (v : Vector α) (index : ℕ) : Vector α :=
  if v.Inbounds index then
    { elems := move v.elems index (index + 1) (v.numElems - index + 1)
      numElems := v.numElems - 1
      room := by
        rw [move_length]
        exact v.room
      fits := by
        rw [move_length]
        exact Nat.le_trans (Nat.sub_le _ _) v.fits }
  else v

def vectorLength (v : Vector α) : ℕ := v.numElems

/-! ### What the operations do to the slots in use -/

theorem contents_length (v : Vector α) : v.contents.length = v.numElems := by
  rw [Vector.contents, List.length_take, min_eq_left v.fits]

theorem numElems_of_contents {v : Vector α} {xs : List α} (hv : v.contents = xs.map some) :
    v.numElems = xs.length := by
  rw [← contents_length, hv, List.length_map]

/-- The `int` cast of the bounds check passes every index of a list in range. -/
theorem inbounds_of_contents {v : Vector α} {xs : List α} (hv : v.contents = xs.map some)
    (hint : xs.length < 2 ^ 31) {i : ℕ} (hi : i < xs.length) : v.Inbounds i := by
  have hc : cInt i = i := cInt_of_range (by omega) (by omega)
  refine ⟨by rw [hc]; omega, ?_⟩
  rw [numElems_of_contents hv]
  exact hi

theorem contents_getElem? (v : Vector α) {i : ℕ} (h : i < v.numElems) :
    v.contents[i]? = v.elems[i]? := by
  rw [Vector.contents, List.getElem?_take_of_lt h]

/-- The slots in use are a list that has their number and agrees with each. -/
theorem contents_ext {v : Vector α} {cells : List (Option α)} (hlen : cells.length = v.numElems)
    (hat : ∀ j < v.numElems, v.elems[j]? = cells[j]?) : v.contents = cells := by
  apply List.ext_getElem?
  intro j
  by_cases hj : j < v.numElems
  · rw [contents_getElem? v hj, hat j hj]
  · rw [List.getElem?_eq_none (by rw [contents_length]; omega), List.getElem?_eq_none (by omega)]

@[simp] theorem vectorReserve_numElems (v : Vector α) :
    (vectorReserve v).numElems = v.numElems := by
  unfold vectorReserve
  split <;> rfl

@[simp] theorem vectorInit_contents (initSize : ℕ) : (vectorInit α initSize).contents = [] :=
  List.take_zero

theorem vectorPush_contents (v : Vector α) (elem : α) :
    (vectorPush v elem).contents = v.contents ++ [some elem] := by
  have hneg : ¬ -1 < cInt ((2 ^ 64 - 1 : ℕ) : ℤ) := by decide
  have hspace := vectorReserve_hasSpace v
  rw [vectorPush, vectorInsert, if_neg hneg, ← vectorReserve_contents v]
  simp only [Vector.contents]
  have hlt : (vectorReserve v).numElems < (vectorReserve v).elems.length := hspace
  rw [List.take_add_one, List.getElem?_set_self hlt, List.take_set_of_le (Nat.le_refl _)]
  rfl

theorem vectorRemove_contents (v : Vector α) (index : ℕ) (h : v.Inbounds index) :
    (vectorRemove v index).contents = v.contents.eraseIdx index := by
  have hfits := v.fits
  have hin := h.2
  rw [vectorRemove, if_pos h]
  apply contents_ext
  · rw [List.length_eraseIdx, contents_length, if_pos hin]
  · intro j hj
    dsimp only at hj ⊢
    rw [move_getElem? _ _ _ _ _ (by omega), List.getElem?_eraseIdx]
    by_cases hlt : j < index
    · rw [if_neg (by omega), if_pos hlt, contents_getElem? v (by omega)]
    · have hsrc : index + 1 + (j - index) = j + 1 := by omega
      rw [if_pos (by omega), if_neg hlt, hsrc, contents_getElem? v (by omega),
        some_join_getElem? _ (by omega)]

theorem vectorInsert_contents (v : Vector α) (elem : α) (index : ℕ) (h : v.Inbounds index) :
    (vectorInsert v elem index).contents = v.contents.set index (some elem) := by
  have hpos := h.1
  rw [vectorInsert, if_pos (by omega), if_pos h]
  exact List.take_set

theorem openSlot_getElem? (v : Vector α) (index : ℕ) {j : ℕ} (hj : j < v.elems.length) :
    (openSlot v index)[j]? =
      if index < j ∧ j ≤ v.numElems then v.elems[j - 1]? else v.elems[j]? := by
  unfold openSlot
  by_cases hin : index < v.numElems
  · rw [if_pos hin, move_getElem? _ _ _ _ _ hj]
    by_cases hmoved : index < j ∧ j ≤ v.numElems
    · have hsrc : index + (j - (index + 1)) = j - 1 := by omega
      rw [if_pos (by omega), if_pos hmoved, hsrc, some_join_getElem? _ (by omega)]
    · rw [if_neg (by omega), if_neg hmoved]
  · rw [if_neg hin, if_neg (by omega)]

theorem vectorInsertAt_contents (v : Vector α) (elem : α) (index : ℕ) (hint : 0 ≤ cInt index)
    (h : index ≤ v.numElems) :
    (vectorInsertAt v elem index).contents = v.contents.insertIdx index (some elem) := by
  have hspace : (vectorReserve v).numElems + 1 ≤ (vectorReserve v).elems.length :=
    vectorReserve_hasSpace v
  have hindex : index ≤ (vectorReserve v).numElems := by
    rw [vectorReserve_numElems]
    exact h
  rw [vectorInsertAt, if_neg (by omega), ← vectorReserve_contents v]
  dsimp only
  -- the raised length admits the index, also where it is the old length
  have hin : index < (vectorReserve v).numElems + 1 := by omega
  rw [vectorInsert, if_pos (by omega), if_pos ⟨hint, hin⟩]
  apply contents_ext
  · rw [List.length_insertIdx, contents_length, if_pos hindex]
  · intro j hj
    dsimp only at hj ⊢
    rcases Nat.lt_trichotomy j index with hlt | heq | hgt
    · rw [List.getElem?_set_ne (by omega), List.getElem?_insertIdx_of_lt hlt,
        openSlot_getElem? _ _ (by omega), if_neg (by omega), contents_getElem? _ (by omega)]
    · subst heq
      rw [List.getElem?_set_self (by rw [openSlot_length]; omega),
        List.getElem?_insertIdx_self, contents_length, if_pos hindex]
    · rw [List.getElem?_set_ne (by omega), List.getElem?_insertIdx_of_gt hgt,
        openSlot_getElem? _ _ (by omega), if_pos (by omega), contents_getElem? _ (by omega)]

theorem vectorPop_eq (v : Vector α) (h : 0 < v.numElems) :
    ∃ w, vectorPop v = some (v.contents[v.numElems - 1]?.join, w) ∧
      w.contents = v.contents.dropLast := by
  have hlast := contents_getElem? v (i := v.numElems - 1) (by omega)
  rw [vectorPop, if_pos h, hlast]
  refine ⟨_, rfl, contents_ext ?_ ?_⟩
  · rw [List.length_dropLast, contents_length]
  · intro j hj
    dsimp only at hj ⊢
    rw [List.getElem?_dropLast, contents_length, if_pos hj, contents_getElem? v (by omega)]

theorem vectorShift_eq (v : Vector α) (h : 0 < v.numElems) :
    ∃ w, vectorShift v = some (v.contents[0]?.join, w) ∧ w.contents = v.contents.tail := by
  have hfits := v.fits
  have hfirst := contents_getElem? v h
  rw [vectorShift, if_pos h, hfirst]
  refine ⟨_, rfl, contents_ext ?_ ?_⟩
  · rw [List.length_tail, contents_length]
  · intro j hj
    dsimp only at hj ⊢
    have hsrc : 1 + (j - 0) = j + 1 := by omega
    rw [move_getElem? _ _ _ _ _ (by omega), if_pos (by omega), hsrc, List.getElem?_tail,
      contents_getElem? v (by omega), some_join_getElem? _ (by omega)]

theorem vectorUnshift_contents (v : Vector α) (elem : α) :
    (vectorUnshift v elem).contents = some elem :: v.contents := by
  have hspace : (vectorReserveFront v).numElems + 1 ≤ (vectorReserveFront v).elems.length :=
    vectorReserveFront_hasSpace v
  rw [vectorUnshift, ← vectorReserveFront_contents v]
  apply contents_ext
  · rw [List.length_cons, contents_length]
  · intro j hj
    dsimp only at hj ⊢
    cases j with
    | zero =>
      rw [List.getElem?_set_self (by rw [move_length]; omega)]
      rfl
    | succ j =>
      have hsrc : 0 + (j + 1 - 1) = j := by omega
      rw [List.getElem?_set_ne (by omega), move_getElem? _ _ _ _ _ (by omega),
        if_pos (by omega), hsrc, List.getElem?_cons_succ, contents_getElem? _ (by omega),
        some_join_getElem? _ (by omega)]

theorem vectorTranspose_eq (v : Vector α) (index1 index2 : ℕ) (h1 : index1 < v.numElems)
    (h2 : index2 < v.numElems) :
    ∃ w, vectorTranspose v index1 index2 = some w ∧
      w.contents = vectorSwap v.contents index1 index2 := by
  have hfits : v.numElems ≤ v.numAllocElems := v.fits
  rw [vectorTranspose, if_pos ⟨by omega, by omega⟩]
  refine ⟨_, rfl, ?_⟩
  simp only [vectorSwap]
  rw [contents_getElem? v h1, contents_getElem? v h2]
  simp only [Vector.contents, List.take_set]

/-! ### Loops over a vector

`for(i=0; i<(int)vector_length(v); i++)` with a `vector_get` into an unset
pointer at the head of its body. -/

/- An unset pointer is not followed: `none`. -/
def vectorAt (v : Vector α) (i : ℕ) : Option α := (vectorGet v i none).join

def loopBound (v : Vector α) : ℕ := (cInt (vectorLength v)).toNat

/- The loop leaves at the first element that meets the test. -/
def vectorFind (v : Vector α) (test : α → Bool) : ℕ → ℕ → Option (Option (ℕ × α))
  | _, 0 => some none
  | i, n + 1 => do
    let conn ← vectorAt v i
    if test conn then some (some (i, conn)) else vectorFind v test (i + 1) n

def vectorFold {β : Type} (v : Vector α) (body : β → α → β) : β → ℕ → ℕ → Option β
  | acc, _, 0 => some acc
  | acc, i, n + 1 => do
    let conn ← vectorAt v i
    vectorFold v body (body acc conn) (i + 1) n

section
variable {v : Vector α} {xs : List α}

theorem vectorAt_eq (hv : v.contents = xs.map some) (hint : xs.length < 2 ^ 31) {i : ℕ}
    (hi : i < xs.length) : vectorAt v i = some xs[i] := by
  have hin := inbounds_of_contents hv hint hi
  rw [vectorAt, vectorGet, if_pos hin.1, if_pos hin, ← contents_getElem? v hin.2, hv,
    List.getElem?_map, List.getElem?_eq_getElem hi]
  rfl

theorem loopBound_eq (hv : v.contents = xs.map some) (hint : xs.length < 2 ^ 31) :
    loopBound v = xs.length := by
  rw [loopBound, vectorLength, numElems_of_contents hv, cInt_of_range (by omega) (by omega)]
  rfl

theorem vectorFind_from (hv : v.contents = xs.map some) (hint : xs.length < 2 ^ 31)
    (test : α → Bool) (n i : ℕ) (hi : i + n = xs.length) :
    vectorFind v test i n = some (firstMatch test i (xs.drop i)) := by
  induction n generalizing i with
  | zero =>
    rw [List.drop_of_length_le (by omega)]
    rfl
  | succ n ih =>
    have hlt : i < xs.length := by omega
    have hat := vectorAt_eq hv hint hlt
    rw [List.drop_eq_getElem_cons hlt, vectorFind, hat]
    simp only [Option.bind_eq_bind, Option.bind_some, firstMatch]
    by_cases ht : test xs[i] = true
    · rw [if_pos ht, if_pos ht]
    · rw [if_neg ht, if_neg ht]
      exact ih (i + 1) (by omega)

theorem vectorFind_all (hv : v.contents = xs.map some) (hint : xs.length < 2 ^ 31)
    (test : α → Bool) :
    vectorFind v test 0 (loopBound v) = some (firstMatch test 0 xs) := by
  have h := vectorFind_from hv hint test (loopBound v) 0
    (by rw [loopBound_eq hv hint, Nat.zero_add])
  simpa only [List.drop_zero] using h

theorem vectorFold_from {β : Type} (hv : v.contents = xs.map some) (hint : xs.length < 2 ^ 31)
    (body : β → α → β) (n i : ℕ) (acc : β) (hi : i + n = xs.length) :
    vectorFold v body acc i n = some ((xs.drop i).foldl body acc) := by
  induction n generalizing i acc with
  | zero =>
    rw [List.drop_of_length_le (by omega)]
    rfl
  | succ n ih =>
    have hlt : i < xs.length := by omega
    have hat := vectorAt_eq hv hint hlt
    rw [List.drop_eq_getElem_cons hlt, List.foldl_cons]
    simp only [vectorFold, hat, Option.bind_eq_bind, Option.bind_some]
    exact ih (i + 1) (body acc xs[i]) (by omega)

theorem vectorFold_all {β : Type} (hv : v.contents = xs.map some) (hint : xs.length < 2 ^ 31)
    (body : β → α → β) (acc : β) :
    vectorFold v body acc 0 (loopBound v) = some (xs.foldl body acc) := by
  have h := vectorFold_from hv hint body (loopBound v) 0 acc
    (by rw [loopBound_eq hv hint, Nat.zero_add])
  simpa only [List.drop_zero] using h

end

end Fws
