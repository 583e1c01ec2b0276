import Fws.Base.Digits
import Mathlib.Data.List.Basic

/-!
# Memory blocks with indeterminate cells

A block is a list of cells; `none` is a cell that was allocated and never
stored to. `overwrite` is a store of several cells at an offset, `defined`
reads a block whose cells have all been stored to.
-/

namespace Base.Cells
open Base.Digits

variable {α : Type}

def overwrite (xs : List α) (p : ℕ) (ys : List α) : List α :=
  xs.take p ++ ys ++ xs.drop (p + ys.length)

theorem overwrite_length (xs ys : List α) (p : ℕ) (h : p + ys.length ≤ xs.length) :
    (overwrite xs p ys).length = xs.length := by
  simp only [overwrite, List.length_append, List.length_take, List.length_drop]
  omega

/-- A store that exactly fills the tail of a block replaces that tail. -/
theorem overwrite_tail (xs zs ys : List α) (h : zs.length = ys.length) :
    overwrite (xs ++ zs) xs.length ys = xs ++ ys := by
  have hdrop : (xs ++ zs).drop (xs.length + ys.length) = [] := by
    apply List.drop_of_length_le
    simp only [List.length_append, h]
    exact Nat.le_refl _
  rw [overwrite, hdrop, List.append_nil, List.take_left' rfl]

/-- What was stored is read at the offset it was stored at, whatever is behind. -/
theorem overwrite_read (xs ys zs : List α) (p : ℕ) (h : p ≤ xs.length) :
    ((overwrite xs p ys ++ zs).drop p).take ys.length = ys := by
  have hp : (xs.take p).length = p := List.length_take_of_le h
  rw [overwrite, List.append_assoc, List.append_assoc, List.drop_left' hp, List.take_left' rfl]

theorem overwrite_getLast? (xs ys : List α) (p : ℕ) (h : p + ys.length < xs.length) :
    (overwrite xs p ys).getLast? = xs.getLast? := by
  have hne : xs.drop (p + ys.length) ≠ [] := by
    intro hnil
    have := List.drop_eq_nil_iff.mp hnil
    omega
  rw [overwrite, List.getLast?_append_of_ne_nil _ hne, List.getLast?_drop]
  split
  · omega
  · rfl

def defined : List (Option α) → Option (List α)
  | [] => some []
  | none :: _ => none
  | some x :: xs => (defined xs).map (x :: ·)

@[simp] theorem defined_map_some (xs : List α) : defined (xs.map some) = some xs := by
  induction xs with
  | nil => rfl
  | cons x xs ih => simp only [List.map_cons, defined, ih, Option.map_some]

theorem defined_eq_some {cells : List (Option α)} {xs : List α} (h : defined cells = some xs) :
    cells = xs.map some := by
  induction cells generalizing xs with
  | nil =>
    cases h
    rfl
  | cons cell cells ih =>
    cases cell with
    | none => cases h
    | some x =>
      obtain ⟨ys, hys, rfl⟩ := Option.map_eq_some_iff.mp h
      rw [List.map_cons, ← ih hys]

theorem overwrite_drop (xs ys zs : List α) (p : ℕ) (h : p ≤ xs.length) :
    (overwrite xs p ys ++ zs).drop (p + ys.length) = xs.drop (p + ys.length) ++ zs := by
  have hlen : (xs.take p ++ ys).length = p + ys.length := by
    rw [List.length_append, List.length_take_of_le h]
  rw [overwrite, List.append_assoc, List.drop_left' hlen]

/-- Up to a cell that was not stored to, only what stands before it can be read. -/
theorem take_unset_iff (pre post : List (Option α)) (xs : List α) :
    (pre ++ none :: post).take xs.length = xs.map some ↔ pre.take xs.length = xs.map some := by
  by_cases hle : xs.length ≤ pre.length
  · rw [List.take_append_of_le_length hle]
  · constructor
    · intro h
      have hcell : ((pre ++ none :: post).take xs.length)[pre.length]? = some none := by
        rw [List.getElem?_take, if_pos (by omega), List.getElem?_append_right (Nat.le_refl _),
          Nat.sub_self, List.getElem?_cons_zero]
      rw [h, List.getElem?_map] at hcell
      obtain ⟨x, -, hx⟩ := Option.map_eq_some_iff.mp hcell
      cases hx
    · intro h
      have hlen := congrArg List.length h
      rw [List.length_take, List.length_map] at hlen
      omega

/- Moves `n` cells inside a block. What lies outside of the block is read as
unset, and is not stored to. -/
def move (cells : List (Option α)) (dst src n : ℕ) : List (Option α) :=
  cells.mapIdx fun j c => if dst ≤ j ∧ j < dst + n then cells[src + (j - dst)]?.join else c

@[simp] theorem move_length (cells : List (Option α)) (dst src n : ℕ) :
    (move cells dst src n).length = cells.length := by
  simp only [move, List.length_mapIdx]

theorem move_getElem? (cells : List (Option α)) (dst src n j : ℕ) (h : j < cells.length) :
    (move cells dst src n)[j]? =
      if dst ≤ j ∧ j < dst + n then some cells[src + (j - dst)]?.join else cells[j]? := by
  rw [move, List.getElem?_mapIdx, List.getElem?_eq_getElem h, Option.map_some]
  split <;> rfl

/-- A cell of the block, as what a read of it gives. -/
theorem some_join_getElem? (cells : List (Option α)) {j : ℕ} (h : j < cells.length) :
    some cells[j]?.join = cells[j]? := by
  rw [List.getElem?_eq_getElem h]
  rfl

/- A fresh object of `n` bytes of which the first were stored to; the others
keep whatever the memory held. -/
def fill (got : Bytes) (n : ℕ) (held : ℕ → Byte) : Bytes :=
  got.take n ++ (List.range (n - got.length)).map fun i => held (got.length + i)

@[simp] theorem fill_length (got : Bytes) (n : ℕ) (held : ℕ → Byte) :
    (fill got n held).length = n := by
  simp only [fill, List.length_append, List.length_take, List.length_map, List.length_range]
  omega

theorem fill_all (got : Bytes) (held : ℕ → Byte) : fill got got.length held = got := by
  simp [fill]

end Base.Cells
