import Mathlib.Data.List.Induction
import Mathlib.Logic.Basic

/-!
# Runs of a partial step function

A system is a function that answers an event with the next state, or with
nothing where the event is not possible. A run is the iteration of that
function over a list of events. The rules here carry an invariant, or a
relation to a second system, from one step to every run.
-/

namespace Base.Runs

variable {σ τ ε : Type}

def exec (f : σ → ε → Option σ) : σ → List ε → Option σ
  | s, [] => some s
  | s, e :: es => (f s e).bind fun t => exec f t es

@[simp] theorem exec_nil (f : σ → ε → Option σ) (s : σ) : exec f s [] = some s := rfl

theorem exec_append (f : σ → ε → Option σ) (s : σ) (es fs : List ε) :
    exec f s (es ++ fs) = (exec f s es).bind fun t => exec f t fs := by
  induction es generalizing s with
  | nil => rfl
  | cons e es ih =>
    simp only [List.cons_append, exec]
    cases f s e with
    | none => rfl
    | some t => exact ih t

theorem exec_snoc (f : σ → ε → Option σ) (s : σ) (es : List ε) (e : ε) :
    exec f s (es ++ [e]) = (exec f s es).bind fun t => f t e := by
  rw [exec_append]
  cases exec f s es with
  | none => rfl
  | some t => simp only [Option.bind_some, exec, Option.bind_fun_some]

theorem exec_snoc_eq_some {f : σ → ε → Option σ} {s u : σ} {es : List ε} {e : ε}
    (h : exec f s (es ++ [e]) = some u) : ∃ t, exec f s es = some t ∧ f t e = some u := by
  rw [exec_snoc] at h
  exact Option.bind_eq_some_iff.mp h

/-- An invariant of the steps holds after every run. -/
theorem exec_invariant {f : σ → ε → Option σ} {I : σ → Prop}
    (hstep : ∀ s e t, I s → f s e = some t → I t) {s t : σ} {es : List ε}
    (hs : I s) (hrun : exec f s es = some t) : I t := by
  induction es generalizing s with
  | nil =>
    cases hrun
    exact hs
  | cons e es ih =>
    obtain ⟨u, hu, hrest⟩ := Option.bind_eq_some_iff.mp hrun
    exact ih (hstep s e u hs hu) hrest

/- The steps of `f` beside everything they gave out so far. -/
def withLog {ω : Type} (f : σ → ε → Option (σ × List ω)) (s : σ × List ω) (e : ε) :
    Option (σ × List ω) :=
  (f s.1 e).map fun r => (r.1, s.2 ++ r.2)

/-- Where every step of `g` is matched by one of `f`, so is every run. -/
theorem exec_simulates {f : σ → ε → Option σ} {g : τ → ε → Option τ} {R : σ → τ → Prop}
    (hstep : ∀ s t e t', R s t → g t e = some t' → ∃ s', f s e = some s' ∧ R s' t')
    {s : σ} {t t' : τ} {es : List ε} (hr : R s t) (hrun : exec g t es = some t') :
    ∃ s', exec f s es = some s' ∧ R s' t' := by
  induction es generalizing s t with
  | nil =>
    cases hrun
    exact ⟨s, rfl, hr⟩
  | cons e es ih =>
    obtain ⟨u', hu', hrest⟩ := Option.bind_eq_some_iff.mp hrun
    obtain ⟨u, hu, hru⟩ := hstep s t e u' hr hu'
    obtain ⟨s', hs', hrs⟩ := ih hru hrest
    refine ⟨s', ?_, hrs⟩
    rw [exec, hu, Option.bind_some, hs']

theorem exec_withLog_prefix {ω : Type} {f : σ → ε → Option (σ × List ω)} {s t : σ}
    {before log out : List ω} {es : List ε} (h : exec (withLog f) (s, log) es = some (t, out)) :
    exec (withLog f) (s, before ++ log) es = some (t, before ++ out) := by
  induction es generalizing s log with
  | nil =>
    cases h
    rfl
  | cons e es ih =>
    obtain ⟨⟨u, log'⟩, hu, hrest⟩ := Option.bind_eq_some_iff.mp h
    obtain ⟨⟨v, given⟩, hv, he⟩ := Option.map_eq_some_iff.mp hu
    cases he
    have hstep : withLog f (s, before ++ log) e = some (v, before ++ (log ++ given)) := by
      simp only [withLog, hv, Option.map_some, List.append_assoc]
    rw [exec, hstep, Option.bind_some]
    exact ih hrest

/-- What no step restores was there before the run, if it is there in the end. -/
theorem exec_withLog_back {ω : Type} {f : σ → ε → Option (σ × List ω)} {J : σ → Prop}
    (hback : ∀ s e t out, f s e = some (t, out) → J t → J s) {s t : σ} {log out : List ω}
    {es : List ε} (hrun : exec (withLog f) (s, log) es = some (t, out)) (ht : J t) : J s := by
  by_contra hs
  refine exec_invariant (I := fun p => ¬ J p.1) ?_ hs hrun ht
  intro p e q hp hq hj
  obtain ⟨⟨u, given⟩, hu, he⟩ := Option.map_eq_some_iff.mp hq
  cases he
  exact hp (hback p.1 e u given hu hj)

/-- Where every step of `g` that meets `P` and leaves `J` is matched by a run of `f`
that gives out what is seen of the step, so is every run of `g` of such steps. -/
theorem exec_refines {δ ω ω' : Type} {f : σ → ε → Option (σ × List ω)}
    {g : τ → δ → Option (τ × List ω')} {see : ω' → Option ω} {R : σ → τ → Prop} {P : δ → Prop}
    {J : τ → Prop} (hback : ∀ t d t' out, g t d = some (t', out) → J t' → J t)
    (hstep : ∀ s t d t' out, R s t → P d → g t d = some (t', out) → J t' →
      ∃ es s', exec (withLog f) (s, []) es = some (s', out.filterMap see) ∧ R s' t')
    {s : σ} {t t' : τ} {ds : List δ} {log log' : List ω'} (hr : R s t) (hds : ∀ d ∈ ds, P d)
    (hrun : exec (withLog g) (t, log) ds = some (t', log')) (hlast : J t') :
    ∃ es s', exec (withLog f) (s, log.filterMap see) es = some (s', log'.filterMap see) ∧
      R s' t' := by
  induction ds generalizing s t log with
  | nil =>
    cases hrun
    exact ⟨[], s, rfl, hr⟩
  | cons d ds ih =>
    obtain ⟨⟨u, next⟩, hu, hrest⟩ := Option.bind_eq_some_iff.mp hrun
    obtain ⟨⟨v, out⟩, hv, he⟩ := Option.map_eq_some_iff.mp hu
    cases he
    have hj := exec_withLog_back hback hrest hlast
    obtain ⟨es, s₁, hmatch, hr₁⟩ := hstep s t d v out hr (hds d (List.mem_cons_self ..)) hv hj
    obtain ⟨fs, s₂, hfs, hr₂⟩ := ih hr₁ (fun d' hd' => hds d' (List.mem_cons_of_mem _ hd')) hrest
    refine ⟨es ++ fs, s₂, ?_, hr₂⟩
    have hfirst : exec (withLog f) (s, log.filterMap see ++ []) es =
        some (s₁, log.filterMap see ++ out.filterMap see) := exec_withLog_prefix hmatch
    rw [List.append_nil] at hfirst
    rw [exec_append, hfirst, Option.bind_some, ← List.filterMap_append]
    exact hfs

/- Every step that the run takes meets `P`, in the state it is taken in. -/
def Along (f : σ → ε → Option σ) (P : σ → ε → Prop) : σ → List ε → Prop
  | _, [] => True
  | s, e :: es => ∀ t, f s e = some t → P s e ∧ Along f P t es

/-- Two properties of steps hold along the same runs where an invariant, which
steps with the second one keep, makes them equivalent. -/
theorem along_congr {f : σ → ε → Option σ} {I : σ → Prop} {P Q : σ → ε → Prop}
    (hstep : ∀ s e t, I s → Q s e → f s e = some t → I t)
    (hiff : ∀ s e t, I s → f s e = some t → (P s e ↔ Q s e)) {s : σ} (hs : I s) (es : List ε) :
    Along f P s es ↔ Along f Q s es := by
  induction es generalizing s with
  | nil => exact Iff.rfl
  | cons e es ih =>
    apply forall_congr'
    intro t
    apply imp_congr_right
    intro ht
    constructor
    · intro hboth
      obtain ⟨hp, hrest⟩ := hboth
      have hq := (hiff s e t hs ht).mp hp
      exact ⟨hq, (ih (hstep s e t hs hq ht)).mp hrest⟩
    · intro hboth
      obtain ⟨hq, hrest⟩ := hboth
      exact ⟨(hiff s e t hs ht).mpr hq, (ih (hstep s e t hs hq ht)).mpr hrest⟩

/-- A property of states that a step keeps exactly where it meets `P` is left by
the runs that meet `P` in every step. -/
theorem exec_iff_along {f : σ → ε → Option σ} {I J : σ → Prop} {P : σ → ε → Prop}
    (hstep : ∀ s e t, I s → f s e = some t → I t)
    (hiff : ∀ s e t, I s → f s e = some t → (J t ↔ J s ∧ P s e)) {s t : σ} {es : List ε}
    (hs : I s) (hrun : exec f s es = some t) : J t ↔ J s ∧ Along f P s es := by
  induction es generalizing s with
  | nil =>
    cases hrun
    exact (and_iff_left trivial).symm
  | cons e es ih =>
    obtain ⟨u, hu, hrest⟩ := Option.bind_eq_some_iff.mp hrun
    rw [ih (hstep s e u hs hu) hrest, hiff s e u hs hu, and_assoc]
    apply and_congr_right
    intro _
    constructor
    · intro hsplit t' ht'
      obtain ⟨hp, halong⟩ := hsplit
      obtain rfl := Option.some.inj (hu.symm.trans ht')
      exact ⟨hp, halong⟩
    · intro halong
      exact halong u hu

/-- A property of states that no step restores holds at the end of a run just
when every step of it left it in place. -/
theorem along_iff_last {f : σ → ε → Option σ} {I J : σ → Prop} {P : σ → ε → Prop}
    (hstep : ∀ s e t, I s → f s e = some t → I t ∧ (J t → J s))
    (hiff : ∀ s e t, I s → J s → f s e = some t → (P s e ↔ J t)) {s t : σ} {es : List ε}
    (hs : I s) (hj : J s) (hrun : exec f s es = some t) : Along f P s es ↔ J t := by
  have hback := exec_iff_along (f := f) (I := I) (J := J)
    (P := fun s e => ∀ t, f s e = some t → J t) (fun s e t hi ht => (hstep s e t hi ht).1) ?_ hs
    hrun
  · rw [hback, and_iff_right hj]
    refine along_congr (I := fun s => I s ∧ J s) ?_ ?_ ⟨hs, hj⟩ es
    · intro s e t hi hpost ht
      exact ⟨(hstep s e t hi.1 ht).1, hpost t ht⟩
    · intro s e t hi ht
      rw [hiff s e t hi.1 hi.2 ht]
      constructor
      · intro hjt t' ht'
        obtain rfl := Option.some.inj (ht.symm.trans ht')
        exact hjt
      · exact fun hpost => hpost t ht
  · intro s e t hi ht
    constructor
    · intro hjt
      refine ⟨(hstep s e t hi ht).2 hjt, ?_⟩
      intro t' ht'
      obtain rfl := Option.some.inj (ht.symm.trans ht')
      exact hjt
    · exact fun h => h.2 t ht

def Reachable (f : σ → ε → Option σ) (s t : σ) : Prop := ∃ es, exec f s es = some t

theorem Reachable.invariant {f : σ → ε → Option σ} {I : σ → Prop}
    (hstep : ∀ s e t, I s → f s e = some t → I t) {s t : σ}
    (hs : I s) (h : Reachable f s t) : I t := by
  obtain ⟨es, hrun⟩ := h
  exact exec_invariant hstep hs hrun

end Base.Runs
