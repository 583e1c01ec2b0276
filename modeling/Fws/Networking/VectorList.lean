import Fws.Base.Runs
import Fws.Networking.Connection
import Fws.Networking.Vector

/-!
# Vectors as lists (networking/vector.c)

Histories of the operations of `vector.c`, beside the list that each of them is
meant to keep and the elements it is meant to hand out.
-/

namespace Fws
open Base.Cells Base.Runs

inductive VectorOp (α : Type) where
  | push (elem : α)
  | insert (elem : α) (index : ℕ)
  | insertAt (elem : α) (index : ℕ)
  | pop
  | shift
  | unshift (elem : α)
  | transpose (index1 index2 : ℕ)
  | get (index : ℕ)
  | remove (index : ℕ)

variable {α : Type}

/- The vector afterwards and what was handed out. An element is handed out into
an object that held nothing. -/
def vectorOp (v : Vector α) : VectorOp α → Option (Vector α × List (Option α))
  | .push elem => some (vectorPush v elem, [])
  | .insert elem index => some (vectorInsert v elem index, [])
  | .insertAt elem index => some (vectorInsertAt v elem index, [])
  | .pop => (vectorPop v).map fun r => (r.2, [r.1])
  | .shift => (vectorShift v).map fun r => (r.2, [r.1])
  | .unshift elem => some (vectorUnshift v elem, [])
  | .transpose index1 index2 => (vectorTranspose v index1 index2).map fun w => (w, [])
  | .get index => (vectorGet v index none).map fun elem => (v, [elem])
  | .remove index => some (vectorRemove v index, [])

/-- What each operation is for. -/
def listOp (xs : List α) : VectorOp α → Option (List α × List α)
  | .push elem => some (xs ++ [elem], [])
  | .insert elem index => if index < xs.length then some (xs.set index elem, []) else none
  | .insertAt elem index => if index ≤ xs.length then some (xs.insertIdx index elem, []) else none
  | .pop => xs.getLast?.map fun elem => (xs.dropLast, [elem])
  | .shift => xs.head?.map fun elem => (xs.tail, [elem])
  | .unshift elem => some (elem :: xs, [])
  | .transpose index1 index2 => do
    let elem1 ← xs[index1]?
    let elem2 ← xs[index2]?
    some ((xs.set index1 elem2).set index2 elem1, [])
  | .get index => xs[index]?.map fun elem => (xs, [elem])
  | .remove index => if index < xs.length then some (xs.eraseIdx index, []) else none

/- Lengths stay in the range of `int`. -/
def boundedListOp (xs : List α) (op : VectorOp α) : Option (List α × List α) :=
  if xs.length < 2 ^ 31 then listOp xs op else none

/-! ### One operation -/

theorem vectorOp_refines {v : Vector α} {xs ys out : List α} {op : VectorOp α}
    (hv : v.contents = xs.map some) (hint : xs.length < 2 ^ 31)
    (h : listOp xs op = some (ys, out)) :
    ∃ w, vectorOp v op = some (w, out.map some) ∧ w.contents = ys.map some := by
  have hlen := numElems_of_contents hv
  cases op with
  | push elem =>
    cases h
    refine ⟨_, rfl, ?_⟩
    rw [vectorPush_contents, hv, List.map_append]
    rfl
  | insert elem index =>
    rw [listOp, Option.ite_none_right_eq_some] at h
    obtain ⟨hi, he⟩ := h
    cases he
    refine ⟨_, rfl, ?_⟩
    rw [vectorInsert_contents v elem index (inbounds_of_contents hv hint hi), hv, List.map_set]
  | insertAt elem index =>
    rw [listOp, Option.ite_none_right_eq_some] at h
    obtain ⟨hi, he⟩ := h
    cases he
    have hpos : 0 ≤ cInt index := by
      rw [cInt_of_range (by omega) (by omega)]
      omega
    refine ⟨_, rfl, ?_⟩
    rw [vectorInsertAt_contents v elem index hpos (by omega), hv, List.map_insertIdx]
  | pop =>
    obtain ⟨elem, hlast, he⟩ := Option.map_eq_some_iff.mp h
    cases he
    have hpos : 0 < xs.length := List.length_pos_of_mem (List.mem_of_getLast? hlast)
    obtain ⟨w, hw, hcontents⟩ := vectorPop_eq v (by omega)
    refine ⟨w, ?_, ?_⟩
    · rw [vectorOp, hw, hv, hlen, List.getElem?_map, ← List.getLast?_eq_getElem?, hlast]
      rfl
    · rw [hcontents, hv, List.map_dropLast]
  | shift =>
    obtain ⟨elem, hhead, he⟩ := Option.map_eq_some_iff.mp h
    cases he
    have hpos : 0 < xs.length := List.length_pos_of_mem (List.mem_of_head? hhead)
    obtain ⟨w, hw, hcontents⟩ := vectorShift_eq v (by omega)
    refine ⟨w, ?_, ?_⟩
    · rw [vectorOp, hw, hv, List.getElem?_map, ← List.head?_eq_getElem?, hhead]
      rfl
    · rw [hcontents, hv, List.map_tail]
  | unshift elem =>
    cases h
    refine ⟨_, rfl, ?_⟩
    rw [vectorUnshift_contents, hv]
    rfl
  | transpose index1 index2 =>
    simp only [listOp, Option.bind_eq_bind, Option.bind_eq_some_iff] at h
    obtain ⟨elem1, h1, elem2, h2, he⟩ := h
    cases he
    obtain ⟨hi1, -⟩ := List.getElem?_eq_some_iff.mp h1
    obtain ⟨hi2, -⟩ := List.getElem?_eq_some_iff.mp h2
    obtain ⟨w, hw, hcontents⟩ := vectorTranspose_eq v index1 index2 (by omega) (by omega)
    refine ⟨w, ?_, ?_⟩
    · rw [vectorOp, hw]
      rfl
    · simp only [hcontents, hv, vectorSwap, List.getElem?_map, h1, h2, List.map_set]
      rfl
  | get index =>
    obtain ⟨elem, hat, he⟩ := Option.map_eq_some_iff.mp h
    cases he
    obtain ⟨hi, -⟩ := List.getElem?_eq_some_iff.mp hat
    have hin := inbounds_of_contents hv hint hi
    refine ⟨v, ?_, hv⟩
    rw [vectorOp, vectorGet, if_pos hin.1, if_pos hin, ← contents_getElem? v hin.2, hv,
      List.getElem?_map, hat]
    rfl
  | remove index =>
    rw [listOp, Option.ite_none_right_eq_some] at h
    obtain ⟨hi, he⟩ := h
    cases he
    refine ⟨_, rfl, ?_⟩
    rw [vectorRemove_contents v index (inbounds_of_contents hv hint hi), hv, List.eraseIdx_map]

/-- A block grows where there is no space, and then at most to twice the length. -/
theorem reserved_bound (v : Vector α) {size : ℕ} (hsize : size ≤ v.numElems + 1) :
    (if v.HasSpace then v else vectorGrow v size).numAllocElems ≤
      max v.numAllocElems (2 * v.numElems) := by
  have hroom : 0 < v.numAllocElems := v.room
  have hfits : v.numElems ≤ v.numAllocElems := v.fits
  by_cases h : v.HasSpace
  · rw [if_pos h]
    exact le_max_left _ _
  · rw [if_neg h, vectorGrow_numAllocElems]
    rw [Vector.HasSpace] at h
    split <;> omega

theorem vectorReserve_bound (v : Vector α) :
    (vectorReserve v).numAllocElems ≤ max v.numAllocElems (2 * v.numElems) :=
  reserved_bound v (Nat.zero_le _)

theorem vectorReserveFront_bound (v : Vector α) :
    (vectorReserveFront v).numAllocElems ≤ max v.numAllocElems (2 * v.numElems) :=
  reserved_bound v (Nat.le_refl _)

theorem vectorInsert_bound (v : Vector α) (elem : α) (index : ℕ) :
    (vectorInsert v elem index).numAllocElems ≤ max v.numAllocElems (2 * v.numElems) := by
  unfold vectorInsert
  split
  · split
    · rw [Vector.numAllocElems, List.length_set]
      exact le_max_left _ _
    · exact le_max_left _ _
  · rw [Vector.numAllocElems, List.length_set]
    exact vectorReserve_bound v

theorem vectorInsert_indexed {v : Vector α} (elem : α) {index : ℕ} (h : 0 ≤ cInt index) :
    (vectorInsert v elem index).numAllocElems = v.numAllocElems := by
  rw [vectorInsert, if_pos (by omega)]
  split
  · rw [Vector.numAllocElems, List.length_set]
    rfl
  · rfl

theorem vectorInsertAt_bound (v : Vector α) (elem : α) (index : ℕ) :
    (vectorInsertAt v elem index).numAllocElems ≤ max v.numAllocElems (2 * v.numElems) := by
  unfold vectorInsertAt
  split
  · exact le_max_left _ _
  · rename_i hneg
    dsimp only
    rw [vectorInsert_indexed elem (by omega), Vector.numAllocElems, openSlot_length]
    exact vectorReserve_bound v

theorem vectorOp_bound {v w : Vector α} {op : VectorOp α} {out : List (Option α)}
    (h : vectorOp v op = some (w, out)) :
    w.numAllocElems ≤ max v.numAllocElems (2 * v.numElems) := by
  cases op with
  | push elem =>
    simp only [vectorOp, Option.some.injEq, Prod.mk.injEq] at h
    obtain ⟨rfl, -⟩ := h
    exact vectorInsert_bound v elem _
  | insert elem index =>
    simp only [vectorOp, Option.some.injEq, Prod.mk.injEq] at h
    obtain ⟨rfl, -⟩ := h
    exact vectorInsert_bound v elem index
  | insertAt elem index =>
    simp only [vectorOp, Option.some.injEq, Prod.mk.injEq] at h
    obtain ⟨rfl, -⟩ := h
    exact vectorInsertAt_bound v elem index
  | pop =>
    obtain ⟨r, hr, he⟩ := Option.map_eq_some_iff.mp h
    obtain ⟨-, hr⟩ := Option.ite_none_right_eq_some.mp hr
    cases hr
    cases he
    exact le_max_left _ _
  | shift =>
    obtain ⟨r, hr, he⟩ := Option.map_eq_some_iff.mp h
    obtain ⟨-, hr⟩ := Option.ite_none_right_eq_some.mp hr
    cases hr
    cases he
    rw [Vector.numAllocElems, move_length]
    exact le_max_left _ _
  | unshift elem =>
    simp only [vectorOp, Option.some.injEq, Prod.mk.injEq] at h
    obtain ⟨rfl, -⟩ := h
    rw [Vector.numAllocElems, vectorUnshift, List.length_set, move_length]
    exact vectorReserveFront_bound v
  | transpose index1 index2 =>
    obtain ⟨r, hr, he⟩ := Option.map_eq_some_iff.mp h
    obtain ⟨-, hr⟩ := Option.ite_none_right_eq_some.mp hr
    cases hr
    cases he
    rw [Vector.numAllocElems, vectorSwap_length]
    exact le_max_left _ _
  | get index =>
    rw [vectorOp, Option.map_eq_some_iff] at h
    obtain ⟨elem, -, he⟩ := h
    cases he
    exact le_max_left _ _
  | remove index =>
    simp only [vectorOp, Option.some.injEq, Prod.mk.injEq] at h
    obtain ⟨rfl, -⟩ := h
    rw [vectorRemove]
    split
    · rw [Vector.numAllocElems, move_length]
      exact le_max_left _ _
    · exact le_max_left _ _

/-! ### Histories -/

/- A vector stands for a list; its number of slots is far from the end of `size_t`. -/
structure Stands (s : Vector α × List (Option α)) (t : List α × List α) : Prop where
  contents : s.1.contents = t.1.map some
  out : s.2 = t.2.map some
  alloc : s.1.numAllocElems < 2 ^ 32

theorem vectorInit_stands {initSize : ℕ} (h : initSize < 2 ^ 31) :
    Stands (vectorInit α initSize, []) ([], []) := by
  refine ⟨vectorInit_contents initSize, rfl, ?_⟩
  simp only [Vector.numAllocElems, vectorInit, List.length_replicate, vectorInitSize]
  split <;> omega

theorem vectorOp_stands (s : Vector α × List (Option α)) (t : List α × List α) (op : VectorOp α)
    (t' : List α × List α) (hs : Stands s t) (h : withLog boundedListOp t op = some t') :
    ∃ s', withLog vectorOp s op = some s' ∧ Stands s' t' := by
  obtain ⟨⟨ys, out⟩, hlist, he⟩ := Option.map_eq_some_iff.mp h
  cases he
  obtain ⟨hint, hlist⟩ := Option.ite_none_right_eq_some.mp hlist
  obtain ⟨w, hw, hcontents⟩ := vectorOp_refines hs.contents hint hlist
  have hlen := numElems_of_contents hs.contents
  have hbound := vectorOp_bound hw
  have halloc := hs.alloc
  refine ⟨(w, s.2 ++ out.map some), ?_, hcontents, ?_, ?_⟩
  · rw [withLog, hw]
    rfl
  · rw [hs.out, List.map_append]
  · show w.numAllocElems < 2 ^ 32
    omega

/-- After every history of operations in range, the slots in use are the list
that the operations make, what was handed out is what they take from it, growing
changes nothing of it, and the count of slots is positive and never exceeded. -/
theorem vector_refines_list {initSize : ℕ} (hinit : initSize < 2 ^ 31) (ops : List (VectorOp α))
    (xs out : List α) (hrun : exec (withLog boundedListOp) ([], []) ops = some (xs, out)) :
    ∃ v, exec (withLog vectorOp) (vectorInit α initSize, []) ops = some (v, out.map some) ∧
      v.contents = xs.map some ∧ vectorLength v = xs.length ∧
      (∀ size, (vectorGrow v size).contents = v.contents) ∧
      1 ≤ v.numAllocElems ∧ v.numElems ≤ v.numAllocElems ∧ v.numAllocElems < 2 ^ 32 := by
  obtain ⟨⟨v, cells⟩, hexec, hstands⟩ :=
    exec_simulates vectorOp_stands (vectorInit_stands hinit) hrun
  obtain ⟨hcontents, hout, halloc⟩ := hstands
  obtain rfl : cells = out.map some := hout
  exact ⟨v, hexec, hcontents, numElems_of_contents hcontents, vectorGrow_contents v, v.room, v.fits,
    halloc⟩

/- Growth from one slot, an insertion in the middle, and elements handed out at both ends. -/
theorem vector_refines_list_both_ends :
    ∃ v, exec (withLog vectorOp) (vectorInit ℕ 1, [])
        [.push 5, .unshift 4, .insertAt 7 1, .transpose 0 2, .get 1, .shift, .pop] =
          some (v, [7, 5, 4].map some) ∧
      v.contents = [7].map some ∧ vectorLength v = [7].length ∧
      (∀ size, (vectorGrow v size).contents = v.contents) ∧
      1 ≤ v.numAllocElems ∧ v.numElems ≤ v.numAllocElems ∧ v.numAllocElems < 2 ^ 32 :=
  vector_refines_list (by decide) _ _ _ rfl

/-! ### Indices that are not valid

`vector_insert` takes every index with a negative `int` value for the append
marker, and `vector_insert_at` has raised the length when `vector_insert` finds
the index out of range. -/

def Rejected (v : Vector α) : VectorOp α → Prop
  | .insert _ index => vectorLength v ≤ index ∧ index ≠ 2 ^ 64 - 1
  | .insertAt _ index => vectorLength v < index
  | .get index => vectorLength v ≤ index
  | .remove index => vectorLength v ≤ index
  | _ => False

/- The length, the slots and their number are the same after the call. -/
def LeftAlone (s : Vector α × List (Option α)) (op : VectorOp α) : Prop :=
  Rejected s.1 op → ∀ r, vectorOp s.1 op = some r → r.1 = s.1

def Guarded (s : Vector α × List (Option α)) (op : VectorOp α) : Prop :=
  Rejected s.1 op →
    match op with
    | .insert _ index => 0 ≤ cInt index
    | .insertAt _ index => cInt index < 0
    | _ => True

theorem vectorInsert_rejected {v : Vector α} (elem : α) {index : ℕ}
    (h : vectorLength v ≤ index) : vectorInsert v elem index = v ↔ 0 ≤ cInt index := by
  constructor
  · intro hsame
    by_contra hneg
    rw [vectorInsert, if_neg (by omega)] at hsame
    have hnum : (vectorReserve v).numElems + 1 = v.numElems := congrArg Vector.numElems hsame
    rw [vectorReserve_numElems] at hnum
    omega
  · intro hpos
    have hout : ¬ v.Inbounds index := fun hin => absurd hin.2 (Nat.not_lt.mpr h)
    rw [vectorInsert, if_pos (by omega), if_neg hout]

theorem vectorInsertAt_rejected {v : Vector α} (elem : α) {index : ℕ}
    (h : vectorLength v < index) : vectorInsertAt v elem index = v ↔ cInt index < 0 := by
  constructor
  · intro hsame
    by_contra hpos
    have hout : ¬ index < (vectorReserve v).numElems + 1 := by
      rw [vectorReserve_numElems]
      exact Nat.not_lt.mpr h
    rw [vectorInsertAt, if_neg hpos] at hsame
    dsimp only at hsame
    rw [vectorInsert, if_pos (by omega), if_neg (fun hin => hout hin.2)] at hsame
    have hnum : (vectorReserve v).numElems + 1 = v.numElems := congrArg Vector.numElems hsame
    rw [vectorReserve_numElems] at hnum
    omega
  · intro hneg
    rw [vectorInsertAt, if_pos hneg]

theorem vectorRemove_rejected {v : Vector α} {index : ℕ} (h : vectorLength v ≤ index) :
    vectorRemove v index = v := by
  have hout : ¬ v.Inbounds index := fun hin => absurd hin.2 (Nat.not_lt.mpr h)
  rw [vectorRemove, if_neg hout]

theorem leftAlone_iff (s : Vector α × List (Option α)) (op : VectorOp α) :
    LeftAlone s op ↔ Guarded s op := by
  apply imp_congr_right
  intro hrejected
  cases op with
  | insert elem index =>
    show (∀ r, some (vectorInsert s.1 elem index, []) = some r → r.1 = s.1) ↔ 0 ≤ cInt index
    rw [← vectorInsert_rejected elem hrejected.1]
    simp
  | insertAt elem index =>
    show (∀ r, some (vectorInsertAt s.1 elem index, []) = some r → r.1 = s.1) ↔ cInt index < 0
    rw [← vectorInsertAt_rejected elem hrejected]
    simp
  | get index =>
    refine iff_of_true ?_ trivial
    intro r hr
    rw [vectorOp, Option.map_eq_some_iff] at hr
    obtain ⟨elem, -, he⟩ := hr
    cases he
    rfl
  | remove index =>
    refine iff_of_true ?_ trivial
    intro r hr
    rw [vectorOp, Option.some.injEq] at hr
    obtain rfl := hr
    dsimp only
    rw [vectorRemove_rejected hrejected]
  | _ => exact hrejected.elim

/-- Over every history of operations, the calls with an index that is not valid
change nothing exactly where `vector_insert` gets an index with a non-negative
`int` value and `vector_insert_at` one with a negative `int` value. -/
theorem rejected_left_alone_iff (initSize : ℕ) (ops : List (VectorOp α)) :
    Along (withLog vectorOp) LeftAlone (vectorInit α initSize, []) ops ↔
      Along (withLog vectorOp) Guarded (vectorInit α initSize, []) ops := by
  apply along_congr (I := fun _ => True) (fun _ _ _ _ _ _ => trivial) _ trivial
  intro s op _ _ _
  exact leftAlone_iff s op

/- One past the length of an empty vector: an element that holds nothing becomes visible. -/
theorem insert_past_length_shows_unset_element :
    ¬ ∀ (initSize : ℕ) (ops : List (VectorOp Connection)),
      Along (withLog vectorOp) LeftAlone (vectorInit Connection initSize, []) ops := by
  intro h
  have hrun := h 0 [.insertAt ⟨4, some 0⟩ 1]
  obtain ⟨hbad, -⟩ := hrun (vectorInsertAt (vectorInit Connection 0) ⟨4, some 0⟩ 1, []) rfl
  have hpast : vectorLength (vectorInit Connection 0) < 1 := by decide
  have hsame := hbad hpast (vectorInsertAt (vectorInit Connection 0) ⟨4, some 0⟩ 1, []) rfl
  exact absurd (congrArg vectorLength hsame) (by decide)

end Fws
