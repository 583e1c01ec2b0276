import Mathlib.Data.List.Count

/-!
# Resources that are opened, used and closed

A log of what was done to resources, the latest entry first. The name of a
resource may be opened again after it was closed, and a log may use and close
names that were open before it began.
-/

namespace Base.Accounts

inductive Entry (ρ : Type) where
  | opened (r : ρ)
  | used (r : ρ)
  | closed (r : ρ)
  deriving DecidableEq

variable {ρ : Type} [DecidableEq ρ]

def openings (r : ρ) (log : List (Entry ρ)) : ℕ := log.count (.opened r)

def closings (r : ρ) (log : List (Entry ρ)) : ℕ := log.count (.closed r)

/- What the log opened is used and closed while it is open. -/
def Entry.Proper (log : List (Entry ρ)) : Entry ρ → Prop
  | .opened r => closings r log = openings r log
  | .used r => openings r log ≠ 0 → closings r log < openings r log
  | .closed r => openings r log ≠ 0 → closings r log < openings r log

def Proper : List (Entry ρ) → Prop
  | [] => True
  | e :: log => e.Proper log ∧ Proper log

/- Every opening has had its closing. -/
def AllClosed (log : List (Entry ρ)) : Prop :=
  ∀ r, openings r log ≠ 0 → closings r log = openings r log

/- The open resources are these. -/
structure Balanced (live : List ρ) (log : List (Entry ρ)) : Prop where
  balance : ∀ r, openings r log = closings r log + live.count r
  proper : Proper log

/-! ### Counting -/

section
variable (r s : ρ) (log : List (Entry ρ))

@[simp] theorem openings_opened :
    openings r (.opened s :: log) = openings r log + if s = r then 1 else 0 := by
  simp [openings, List.count_cons]

@[simp] theorem openings_used : openings r (.used s :: log) = openings r log := by
  simp [openings]

@[simp] theorem openings_closed : openings r (.closed s :: log) = openings r log := by
  simp [openings]

@[simp] theorem closings_opened : closings r (.opened s :: log) = closings r log := by
  simp [closings]

@[simp] theorem closings_used : closings r (.used s :: log) = closings r log := by
  simp [closings]

@[simp] theorem closings_closed :
    closings r (.closed s :: log) = closings r log + if s = r then 1 else 0 := by
  simp [closings, List.count_cons]

end

/-! ### One entry -/

section
variable {live : List ρ} {log : List (Entry ρ)} {r : ρ}

theorem Balanced.start : Balanced ([] : List ρ) [] where
  balance := fun _ => rfl
  proper := trivial

theorem Balanced.perm (h : Balanced live log) {live' : List ρ} (hperm : live.Perm live') :
    Balanced live' log where
  balance := by
    intro r
    rw [← hperm.count_eq r]
    exact h.balance r
  proper := h.proper

theorem Balanced.open_lt (h : Balanced live log) (hr : r ∈ live) :
    closings r log < openings r log := by
  have hcount := List.count_pos_iff.mpr hr
  have hbalance := h.balance r
  omega

theorem Balanced.opened (h : Balanced live log) (hr : r ∉ live) :
    Balanced (live ++ [r]) (.opened r :: log) := by
  have hnone := List.count_eq_zero.mpr hr
  constructor
  · intro s
    have hbalance := h.balance s
    rw [openings_opened, closings_opened, List.count_append, List.count_singleton]
    by_cases hs : r = s
    · rw [if_pos hs, if_pos (beq_iff_eq.mpr hs)]
      omega
    · rw [if_neg hs, if_neg (mt beq_iff_eq.mp hs)]
      omega
  · refine ⟨?_, h.proper⟩
    have hbalance := h.balance r
    show closings r log = openings r log
    omega

theorem Balanced.used (h : Balanced live log) (hr : r ∈ live) : Balanced live (.used r :: log) where
  balance := by
    intro s
    rw [openings_used, closings_used]
    exact h.balance s
  proper := ⟨fun _ => h.open_lt hr, h.proper⟩

/-- A use of what was opened and is not open any more. -/
theorem Balanced.not_used (h : Balanced live log) (hr : r ∉ live) (hopen : openings r log ≠ 0) :
    ¬ Proper (.used r :: log) := by
  intro hproper
  have hlt : closings r log < openings r log := hproper.1 hopen
  have hbalance := h.balance r
  rw [List.count_eq_zero.mpr hr] at hbalance
  omega

theorem Balanced.closed {pre post : List ρ} (h : Balanced (pre ++ r :: post) log) :
    Balanced (pre ++ post) (.closed r :: log) := by
  have hmem : r ∈ pre ++ r :: post := List.mem_append_right _ (List.mem_cons_self ..)
  refine ⟨?_, fun _ => h.open_lt hmem, h.proper⟩
  intro s
  have hbalance := h.balance s
  rw [List.count_append, List.count_cons] at hbalance
  rw [openings_closed, closings_closed, List.count_append]
  by_cases hs : r = s
  · rw [if_pos (beq_iff_eq.mpr hs)] at hbalance
    rw [if_pos hs]
    omega
  · rw [if_neg (mt beq_iff_eq.mp hs)] at hbalance
    rw [if_neg hs]
    omega

theorem Balanced.used_all {new : List (Entry ρ)} (h : Balanced live log)
    (hnew : ∀ e ∈ new, ∃ r ∈ live, e = .used r) : Balanced live (new ++ log) := by
  induction new with
  | nil => exact h
  | cons e new ih =>
    obtain ⟨r, hr, rfl⟩ := hnew e (List.mem_cons_self ..)
    exact (ih fun e he => hnew e (List.mem_cons_of_mem _ he)).used hr

/-! ### The end of a log -/

theorem Balanced.allClosed_iff (h : Balanced live log) : AllClosed log ↔ live = [] := by
  constructor
  · intro hall
    apply List.eq_nil_iff_forall_not_mem.mpr
    intro r hr
    have hlt := h.open_lt hr
    have heq := hall r (by omega)
    omega
  · intro hlive r _
    have hbalance := h.balance r
    rw [hlive, List.count_nil] at hbalance
    exact hbalance.symm

/-- Closing what was open before the log began. -/
theorem Balanced.foreign_closed_iff (h : Balanced live log) (hr : openings r log = 0) :
    (AllClosed (.closed r :: log) ∧ Proper (.closed r :: log)) ↔ live = [] := by
  have hsame : AllClosed (.closed r :: log) ↔ AllClosed log := by
    apply forall_congr'
    intro s
    rw [openings_closed, closings_closed]
    apply imp_congr_right
    intro hs
    have hne : r ≠ s := by
      intro he
      exact hs (he ▸ hr)
    rw [if_neg hne, Nat.add_zero]
  have hproper : Proper (.closed r :: log) := ⟨fun hopen => absurd hr hopen, h.proper⟩
  rw [and_iff_left hproper, hsame, h.allClosed_iff]

end

end Base.Accounts
