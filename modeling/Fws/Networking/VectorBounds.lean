import Fws.Base.Runs
import Fws.Networking.Connection
import Fws.Networking.Vector

/-!
# The slots a removal touches (networking/vector.c)

`vector_remove` moves one element more than there are behind the removed one
and the one after them. Whether that stays inside of the block depends on how
full the block is.
-/

namespace Fws
open Base.Runs

variable {α : Type}

/- The number of elements that `vector_remove` moves. -/
def moveCount (v : Vector α) (index : ℕ) : ℕ := v.numElems - index + 1

def readSlots (v : Vector α) (index : ℕ) : List ℕ := List.range' (index + 1) (moveCount v index)

def writtenSlots (v : Vector α) (index : ℕ) : List ℕ := List.range' index (moveCount v index)

/-! ### Histories -/

inductive VectorEvent (α : Type) where
  | push (elem : α)
  | remove (index : ℕ)

/- Only removals in range are made. -/
def vectorStep (v : Vector α) : VectorEvent α → Option (Vector α)
  | .push elem => some (vectorPush v elem)
  | .remove index => if v.Inbounds index then some (vectorRemove v index) else none

/- Every slot that the call reads or writes is one of the block. -/
def Contained (v : Vector α) : VectorEvent α → Prop
  | .push _ => True
  | .remove index =>
    ∀ slot ∈ readSlots v index ++ writtenSlots v index, slot < v.numAllocElems

/- At a removal two slots of the block are free. -/
def HasSlack (v : Vector α) : VectorEvent α → Prop
  | .push _ => True
  | .remove _ => v.numElems + 2 ≤ v.numAllocElems

theorem remove_contained_iff {v : Vector α} {index : ℕ} (h : v.Inbounds index) :
    Contained v (.remove index) ↔ HasSlack v (.remove index) := by
  have hin := h.2
  simp only [Contained, HasSlack]
  constructor
  · intro hall
    -- the last slot that is read lies two behind the last one in use
    have hlast : v.numElems + 1 ∈ readSlots v index ++ writtenSlots v index := by
      apply List.mem_append_left
      rw [readSlots, moveCount, List.mem_range'_1]
      omega
    have hlt := hall _ hlast
    omega
  · intro hslack slot hslot
    rcases List.mem_append.mp hslot with hread | hwritten
    · rw [readSlots, moveCount, List.mem_range'_1] at hread
      omega
    · rw [writtenSlots, moveCount, List.mem_range'_1] at hwritten
      omega

/-- Over every history of pushes and removals, the removals stay inside of the
block exactly where each is made with two slots free. -/
theorem removes_contained_iff (es : List (VectorEvent α)) :
    Along vectorStep Contained (vectorInit α 0) es ↔
      Along vectorStep HasSlack (vectorInit α 0) es := by
  apply along_congr (I := fun _ => True) (fun _ _ _ _ _ _ => trivial) _ trivial
  intro v e w _ hstep
  cases e with
  | push elem => exact Iff.rfl
  | remove index =>
    apply remove_contained_iff
    by_contra hout
    rw [vectorStep, if_neg hout] at hstep
    cases hstep

/- Three connections in a block of four slots, of which the first is removed. -/
def threeConnections : Vector Connection :=
  vectorPush (vectorPush (vectorPush (vectorInit Connection 0) ⟨4, some 0⟩) ⟨5, some 1⟩) ⟨6, some 2⟩

theorem third_connection_overruns :
    ¬ ∀ es : List (VectorEvent Connection),
      Along vectorStep Contained (vectorInit Connection 0) es := by
  intro h
  have hrun := h [.push ⟨4, some 0⟩, .push ⟨5, some 1⟩, .push ⟨6, some 2⟩, .remove 0]
  have hin : threeConnections.Inbounds 0 := by decide
  have hremove : vectorStep threeConnections (.remove 0) =
      some (vectorRemove threeConnections 0) := by
    rw [vectorStep, if_pos hin]
  obtain ⟨hbad, -⟩ := (((hrun _ rfl).2 _ rfl).2 _ rfl).2 _ hremove
  exact absurd (hbad 4 (by decide)) (by decide)

end Fws
