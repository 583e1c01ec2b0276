import Fws.Base.Runs
import Mathlib.Logic.Function.Basic

/-!
# Atomic calls

Callers that wait for the result of one call at a time, and a service that
performs each call at a single moment. A call without a result is lost, and its
caller with it.
-/

namespace Base.Calls
open Base.Runs

variable {C Q R E : Type}

inductive Phase (Q R : Type) where
  | idle
  | waiting (q : Q)
  | done (r : R)
  | lost

inductive Event (C Q : Type) where
  | call (c : C) (q : Q)
  | perform (c : C)
  | finish (c : C)

inductive Label (C Q R E : Type) where
  | called (c : C) (q : Q)
  | invoked (c : C) (e : E)
  | returned (c : C) (r : R)
  deriving DecidableEq

/- The result of each call, and what performing it sets off. -/
structure Service (Q R E : Type) where
  result : Q → Option R
  effects : Q → List E

def Service.performed (S : Service Q R E) (q : Q) : Phase Q R :=
  match S.result q with
  | none => .lost
  | some r => .done r

def Label.caller : Label C Q R E → C
  | .called c _ | .invoked c _ | .returned c _ => c

section
variable [DecidableEq C] (S : Service Q R E)

def step (s : C → Phase Q R) : Event C Q → Option ((C → Phase Q R) × List (Label C Q R E))
  | .call c q =>
    match s c with
    | .idle => some (Function.update s c (.waiting q), [.called c q])
    | _ => none
  | .perform c =>
    match s c with
    | .waiting q =>
      some (Function.update s c (S.performed q), (S.effects q).map fun e => .invoked c e)
    | _ => none
  | .finish c =>
    match s c with
    | .done r => some (Function.update s c .idle, [.returned c r])
    | _ => none

/-! ### What a log says about a caller -/

def calls (c : C) (log : List (Label C Q R E)) : List Q :=
  log.filterMap fun l =>
    match l with
    | .called d q => if d = c then some q else none
    | _ => none

def results (c : C) (log : List (Label C Q R E)) : List R :=
  log.filterMap fun l =>
    match l with
    | .returned d r => if d = c then some r else none
    | _ => none

def invocations (c : C) (log : List (Label C Q R E)) : List E :=
  log.filterMap fun l =>
    match l with
    | .invoked d e => if d = c then some e else none
    | _ => none

section
variable (c d : C) (log : List (Label C Q R E)) (q : Q) (r : R) (es : List E)

theorem calls_append (out : List (Label C Q R E)) :
    calls c (log ++ out) = calls c log ++ calls c out := List.filterMap_append

theorem results_append (out : List (Label C Q R E)) :
    results c (log ++ out) = results c log ++ results c out := List.filterMap_append

theorem invocations_append (out : List (Label C Q R E)) :
    invocations c (log ++ out) = invocations c log ++ invocations c out := List.filterMap_append

@[simp] theorem calls_called :
    calls c [(.called d q : Label C Q R E)] = if d = c then [q] else [] := by
  by_cases h : d = c <;> simp [calls, h]

@[simp] theorem calls_returned : calls c [(.returned d r : Label C Q R E)] = [] := rfl

@[simp] theorem results_called : results c [(.called d q : Label C Q R E)] = [] := rfl

@[simp] theorem results_returned :
    results c [(.returned d r : Label C Q R E)] = if d = c then [r] else [] := by
  by_cases h : d = c <;> simp [results, h]

@[simp] theorem invocations_called : invocations c [(.called d q : Label C Q R E)] = [] := rfl

@[simp] theorem invocations_returned : invocations c [(.returned d r : Label C Q R E)] = [] := rfl

@[simp] theorem calls_invoked :
    calls c (es.map fun e => (.invoked d e : Label C Q R E)) = [] := by
  simp [calls]

@[simp] theorem results_invoked :
    results c (es.map fun e => (.invoked d e : Label C Q R E)) = [] := by
  simp [results]

@[simp] theorem invocations_invoked :
    invocations c (es.map fun e => (.invoked d e : Label C Q R E)) = if d = c then es else [] := by
  by_cases h : d = c
  · simp only [invocations, List.filterMap_map, Function.comp_def, if_pos h]
    exact List.filterMap_some
  · simp [invocations, h]

end

/-! ### The account of a caller -/

/- Requests, results and effects so far, by what the caller waits for. -/
inductive Account : Phase Q R → List Q → List R → List E → Prop where
  | idle (qs : List Q) (rs : List R) (h : qs.map S.result = rs.map some) :
      Account .idle qs rs (qs.flatMap S.effects)
  | waiting (qs : List Q) (rs : List R) (q : Q) (h : qs.map S.result = rs.map some) :
      Account (.waiting q) (qs ++ [q]) rs (qs.flatMap S.effects)
  | done (qs : List Q) (rs : List R) (q : Q) (r : R) (h : qs.map S.result = rs.map some)
      (hr : S.result q = some r) :
      Account (.done r) (qs ++ [q]) rs ((qs ++ [q]).flatMap S.effects)
  | lost (qs : List Q) (rs : List R) (q : Q) (h : qs.map S.result = rs.map some)
      (hr : S.result q = none) :
      Account .lost (qs ++ [q]) rs ((qs ++ [q]).flatMap S.effects)

def Accounted (s : (C → Phase Q R) × List (Label C Q R E)) : Prop :=
  ∀ c, Account S (s.1 c) (calls c s.2) (results c s.2) (invocations c s.2)

variable {S}

theorem Account.call {qs : List Q} {rs : List R} {es : List E} (h : Account S .idle qs rs es)
    (q : Q) : Account S (.waiting q) (qs ++ [q]) rs es := by
  cases h with
  | idle qs rs h => exact .waiting qs rs q h

theorem Account.perform {q : Q} {qs : List Q} {rs : List R} {es : List E}
    (h : Account S (.waiting q) qs rs es) :
    Account S (S.performed q) qs rs (es ++ S.effects q) := by
  cases h with
  | waiting qs rs q h =>
    have heffects : qs.flatMap S.effects ++ S.effects q = (qs ++ [q]).flatMap S.effects := by
      rw [List.flatMap_append, List.flatMap_singleton]
    rw [heffects]
    unfold Service.performed
    rcases hr : S.result q with _ | r
    · exact .lost qs rs q h hr
    · exact .done qs rs q r h hr

theorem Account.finish {r : R} {qs : List Q} {rs : List R} {es : List E}
    (h : Account S (.done r) qs rs es) : Account S .idle qs (rs ++ [r]) es := by
  cases h with
  | done qs rs q r h hr =>
    refine .idle (qs ++ [q]) (rs ++ [r]) ?_
    rw [List.map_append, List.map_append, h, List.map_singleton, List.map_singleton, hr]

theorem step_accounted (s : (C → Phase Q R) × List (Label C Q R E)) (e : Event C Q)
    (t : (C → Phase Q R) × List (Label C Q R E)) (hs : Accounted S s)
    (h : withLog (step S) s e = some t) : Accounted S t := by
  obtain ⟨⟨u, out⟩, hu, rfl⟩ := Option.map_eq_some_iff.mp h
  intro c
  have hc := hs c
  cases e with
  | call d q =>
    rcases hd : s.1 d with _ | p | r | _ <;> simp only [step, hd] at hu <;> cases hu
    by_cases hcd : d = c
    · subst hcd
      rw [hd] at hc
      simpa [calls_append, results_append, invocations_append] using hc.call q
    · simpa [calls_append, results_append, invocations_append, hcd, Function.update_of_ne,
        Ne.symm hcd] using hc
  | perform d =>
    rcases hd : s.1 d with _ | p | r | _ <;> simp only [step, hd] at hu <;> cases hu
    by_cases hcd : d = c
    · subst hcd
      rw [hd] at hc
      simpa [calls_append, results_append, invocations_append] using hc.perform
    · simpa [calls_append, results_append, invocations_append, hcd, Function.update_of_ne,
        Ne.symm hcd] using hc
  | finish d =>
    rcases hd : s.1 d with _ | p | r | _ <;> simp only [step, hd] at hu <;> cases hu
    by_cases hcd : d = c
    · subst hcd
      rw [hd] at hc
      simpa [calls_append, results_append, invocations_append] using hc.finish
    · simpa [calls_append, results_append, invocations_append, hcd, Function.update_of_ne,
        Ne.symm hcd] using hc

theorem Account.prefixes {p : Phase Q R} {qs : List Q} {rs : List R} {es : List E}
    (h : Account S p qs rs es) :
    ∃ served performed, served <+: performed ∧ performed <+: qs ∧
      qs.length ≤ served.length + 1 ∧ served.map S.result = rs.map some ∧
      es = performed.flatMap S.effects := by
  have hone : ∀ (qs : List Q) (q : Q), (qs ++ [q]).length ≤ qs.length + 1 := by
    intro qs q
    exact Nat.le_of_eq List.length_append
  cases h with
  | idle qs rs h =>
    exact ⟨qs, qs, List.prefix_refl _, List.prefix_refl _, Nat.le_succ _, h, rfl⟩
  | waiting qs rs q h =>
    exact ⟨qs, qs, List.prefix_refl _, List.prefix_append _ _, hone qs q, h, rfl⟩
  | done qs rs q r h hr =>
    exact ⟨qs, qs ++ [q], List.prefix_append _ _, List.prefix_refl _, hone qs q, h, rfl⟩
  | lost qs rs q h hr =>
    exact ⟨qs, qs ++ [q], List.prefix_append _ _, List.prefix_refl _, hone qs q, h, rfl⟩

/-- The results a caller has got are those of its calls in their order, all but
perhaps the last one, and the effects are those of the calls performed, once each. -/
theorem calls_in_order {s : C → Phase Q R} {log : List (Label C Q R E)} {es : List (Event C Q)}
    (hrun : exec (withLog (step S)) (fun _ => .idle, []) es = some (s, log)) (c : C) :
    ∃ served performed, served <+: performed ∧ performed <+: calls c log ∧
      (calls c log).length ≤ served.length + 1 ∧
      served.map S.result = (results c log).map some ∧
      invocations c log = performed.flatMap S.effects := by
  have hstart : Accounted S ((fun _ => .idle, []) : (C → Phase Q R) × List (Label C Q R E)) :=
    fun _ => .idle [] [] rfl
  exact (exec_invariant step_accounted hstart hrun c).prefixes

/-! ### Calls of one kind -/

section
variable {P V W : Type} {made : P → Option Q} {effect : P → V} {result : P → W} {view : E → V}
  {look : R → W}

theorem made_each {ps : List P} {qs : List Q}
    (heach : ∀ p ∈ ps, ∀ q, made p = some q →
      (S.effects q).map view = [effect p] ∧ (S.result q).map look = some (result p))
    (hqs : qs.map some = ps.map made) :
    (qs.flatMap S.effects).map view = ps.map effect ∧
      (qs.map S.result).map (Option.map look) = (ps.map result).map some := by
  induction ps generalizing qs with
  | nil =>
    rw [List.map_nil, List.map_eq_nil_iff] at hqs
    subst hqs
    exact ⟨rfl, rfl⟩
  | cons p ps ih =>
    obtain ⟨q, qs', rfl, hq, hqs'⟩ := List.map_eq_cons_iff.mp hqs
    obtain ⟨heffects, hresult⟩ := heach p (List.mem_cons_self ..) q hq.symm
    obtain ⟨hrest, hresults⟩ := ih (fun p' hp' => heach p' (List.mem_cons_of_mem _ hp')) hqs'
    constructor
    · rw [List.flatMap_cons, List.map_append, heffects, hrest]
      rfl
    · rw [List.map_cons, List.map_cons, hresult, hresults]
      rfl

theorem made_take {ps : List P} {qs pre : List Q} (hqs : qs.map some = ps.map made)
    (hpre : pre <+: qs) : pre.map some = (ps.take pre.length).map made := by
  rw [List.map_take, ← hqs, ← List.map_take, ← List.prefix_iff_eq_take.mp hpre]

/-- A caller all of whose calls have one effect and one result each gets the
results of the first of them, and those performed have had their effects. -/
theorem requests_in_order {s : C → Phase Q R} {log : List (Label C Q R E)} {es : List (Event C Q)}
    (hrun : exec (withLog (step S)) (fun _ => .idle, []) es = some (s, log)) {c : C} {ps : List P}
    (heach : ∀ p ∈ ps, ∀ q, made p = some q →
      (S.effects q).map view = [effect p] ∧ (S.result q).map look = some (result p))
    (hcalls : (calls c log).map some = ps.map made) :
    ∃ returned performed, returned ≤ performed ∧ performed ≤ ps.length ∧
      ps.length ≤ returned + 1 ∧ (results c log).map look = (ps.take returned).map result ∧
      (invocations c log).map view = (ps.take performed).map effect := by
  obtain ⟨served, performed, hserved, hperformed, hlast, hresults, heffects⟩ :=
    calls_in_order hrun c
  have hlen : (calls c log).length = ps.length := by
    have hsame := congrArg List.length hcalls
    rwa [List.length_map, List.length_map] at hsame
  have heach' : ∀ n, ∀ p ∈ ps.take n, ∀ q, made p = some q →
      (S.effects q).map view = [effect p] ∧ (S.result q).map look = some (result p) :=
    fun n p hp => heach p (List.mem_of_mem_take hp)
  obtain ⟨-, hreturned⟩ := made_each (heach' _) (made_take hcalls (hserved.trans hperformed))
  obtain ⟨hinvoked, -⟩ := made_each (heach' _) (made_take hcalls hperformed)
  refine ⟨served.length, performed.length, hserved.length_le, hlen ▸ hperformed.length_le,
    hlen ▸ hlast, ?_, ?_⟩
  · apply (List.map_inj_right (fun _ _ => Option.some.inj)).mp
    rw [← hreturned, hresults, List.map_map, List.map_map]
    rfl
  · rw [heffects, hinvoked]

end

end

end Base.Calls
