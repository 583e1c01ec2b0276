import Mathlib.Data.List.Basic

/-!
# First matches

A linear search with the index where it stops.
-/

namespace Base.Search

variable {α : Type}

def firstMatch (test : α → Bool) : ℕ → List α → Option (ℕ × α)
  | _, [] => none
  | i, x :: xs => if test x then some (i, x) else firstMatch test (i + 1) xs

theorem firstMatch_snd (test : α → Bool) (xs : List α) (i : ℕ) :
    (firstMatch test i xs).map Prod.snd = xs.find? test := by
  induction xs generalizing i with
  | nil => rfl
  | cons x xs ih =>
    unfold firstMatch
    by_cases hx : test x = true
    · rw [if_pos hx, List.find?_cons_of_pos hx]
      rfl
    · rw [if_neg hx, List.find?_cons_of_neg hx]
      exact ih (i + 1)

theorem firstMatch_split (test : α → Bool) (pre post : List α) (x : α) (i : ℕ)
    (hx : test x = true) (hpre : ∀ y ∈ pre, test y = false) :
    firstMatch test i (pre ++ x :: post) = some (i + pre.length, x) := by
  induction pre generalizing i with
  | nil => rw [List.nil_append, firstMatch, if_pos hx, List.length_nil, Nat.add_zero]
  | cons y pre ih =>
    have hy : ¬ test y = true := by
      rw [hpre y (List.mem_cons_self ..)]
      decide
    rw [List.cons_append, firstMatch, if_neg hy,
      ih (i + 1) (fun z hz => hpre z (List.mem_cons_of_mem _ hz)), List.length_cons]
    congr 2
    omega

/-- A match is met by the test, and nothing in front of it is. -/
theorem firstMatch_some {test : α → Bool} {xs : List α} {start i : ℕ} {x : α}
    (h : firstMatch test start xs = some (i, x)) :
    start ≤ i ∧ xs[i - start]? = some x ∧ test x = true ∧
      ∀ j < i - start, ∀ y, xs[j]? = some y → test y = false := by
  induction xs generalizing start with
  | nil => cases h
  | cons z zs ih =>
    unfold firstMatch at h
    by_cases hz : test z = true
    · rw [if_pos hz] at h
      cases h
      rw [Nat.sub_self]
      exact ⟨Nat.le_refl _, rfl, hz, fun j hj => absurd hj (Nat.not_lt_zero j)⟩
    · rw [if_neg hz] at h
      obtain ⟨hle, hx, ht, hpre⟩ := ih h
      have hidx : i - start = (i - (start + 1)) + 1 := by omega
      rw [hidx, List.getElem?_cons_succ]
      refine ⟨by omega, hx, ht, ?_⟩
      intro j hj y hy
      cases j with
      | zero =>
        cases hy
        exact Bool.eq_false_iff.mpr hz
      | succ j => exact hpre j (by omega) y hy

theorem firstMatch_none {test : α → Bool} {xs : List α} {start : ℕ}
    (h : firstMatch test start xs = none) : ∀ x ∈ xs, test x = false := by
  induction xs generalizing start with
  | nil =>
    intro x hx
    exact absurd hx List.not_mem_nil
  | cons z zs ih =>
    unfold firstMatch at h
    by_cases hz : test z = true
    · rw [if_pos hz] at h
      cases h
    · rw [if_neg hz] at h
      intro x hx
      rcases List.mem_cons.mp hx with rfl | hx
      · exact Bool.eq_false_iff.mpr hz
      · exact ih h x hx

end Base.Search
