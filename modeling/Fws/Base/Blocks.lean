import Fws.Base.Accounts

/-!
# Blocks of a heap

A heap is the log of what was done to its blocks, the latest first. A block is
named by how many were allocated before it, so that no name comes twice.
-/

namespace Base.Blocks
open Base.Accounts

abbrev Heap := List (Entry ℕ)

def allocates : Entry ℕ → Bool
  | .opened _ => true
  | _ => false

def releases : Entry ℕ → Bool
  | .closed _ => true
  | _ => false

def allocations (h : Heap) : ℕ := h.countP allocates

def frees (h : Heap) : ℕ := h.countP releases

def malloc (h : Heap) : ℕ × Heap := (allocations h, .opened (allocations h) :: h)

def use (p : ℕ) (h : Heap) : Heap := .used p :: h

def free (p : ℕ) (h : Heap) : Heap := .closed p :: h

/- Pointers that may be `NULL`. -/
def usePointer (p : Option ℕ) (h : Heap) : Heap :=
  match p with
  | none => h
  | some p => use p h

def freePointer (p : Option ℕ) (h : Heap) : Heap :=
  match p with
  | none => h
  | some p => free p h

section
variable (p : ℕ) (h : Heap)

@[simp] theorem allocations_malloc : allocations (malloc h).2 = allocations h + 1 :=
  List.countP_cons_of_pos rfl

@[simp] theorem allocations_use : allocations (use p h) = allocations h :=
  List.countP_cons_of_neg Bool.false_ne_true

@[simp] theorem allocations_free : allocations (free p h) = allocations h :=
  List.countP_cons_of_neg Bool.false_ne_true

@[simp] theorem frees_malloc : frees (malloc h).2 = frees h :=
  List.countP_cons_of_neg Bool.false_ne_true

@[simp] theorem frees_use : frees (use p h) = frees h :=
  List.countP_cons_of_neg Bool.false_ne_true

@[simp] theorem frees_free : frees (free p h) = frees h + 1 :=
  List.countP_cons_of_pos rfl

end

/- The live blocks are these, and all that was used or freed was live. -/
structure Owns (live : List ℕ) (h : Heap) : Prop where
  balanced : Balanced live h
  named : ∀ p ∈ live, p < allocations h
  counted : allocations h = frees h + live.length

theorem Owns.start : Owns [] [] where
  balanced := .start
  named := fun _ hp => absurd hp List.not_mem_nil
  counted := rfl

section
variable {live : List ℕ} {h : Heap}

theorem Owns.allocated (hown : Owns live h) : Owns ((malloc h).1 :: live) (malloc h).2 where
  balanced := by
    have hfresh : (malloc h).1 ∉ live := fun hp => Nat.lt_irrefl _ (hown.named _ hp)
    exact (hown.balanced.opened hfresh).perm (List.perm_append_singleton _ _)
  named := by
    intro p hp
    rw [allocations_malloc]
    rcases List.mem_cons.mp hp with rfl | hp
    · exact Nat.lt_succ_self _
    · exact Nat.lt_succ_of_lt (hown.named p hp)
  counted := by
    have hcount := hown.counted
    rw [allocations_malloc, frees_malloc, List.length_cons]
    omega

theorem Owns.used (hown : Owns live h) {p : ℕ} (hp : p ∈ live) : Owns live (use p h) where
  balanced := hown.balanced.used hp
  named := by
    rw [allocations_use]
    exact hown.named
  counted := by
    rw [allocations_use, frees_use]
    exact hown.counted

/-- Freeing the block behind the latest ones in `pre`. -/
theorem Owns.freed (pre : List ℕ) {p : ℕ} (hown : Owns (pre ++ p :: live) h) :
    Owns (pre ++ live) (free p h) where
  balanced := hown.balanced.closed
  named := by
    intro q hq
    rw [allocations_free]
    apply hown.named
    rcases List.mem_append.mp hq with hq | hq
    · exact List.mem_append_left _ hq
    · exact List.mem_append_right _ (List.mem_cons_of_mem p hq)
  counted := by
    have hcount := hown.counted
    rw [List.length_append, List.length_cons] at hcount
    rw [allocations_free, frees_free, List.length_append]
    omega

theorem Owns.usedPointer (hown : Owns live h) {p : Option ℕ} (hp : p.toList ⊆ live) :
    Owns live (usePointer p h) := by
  cases p with
  | none => exact hown
  | some p => exact hown.used (hp (List.mem_singleton_self p))

theorem Owns.freedPointer (pre : List ℕ) {p : Option ℕ}
    (hown : Owns (pre ++ (p.toList ++ live)) h) : Owns (pre ++ live) (freePointer p h) := by
  cases p with
  | none => exact hown
  | some p => exact hown.freed pre

end

end Base.Blocks
