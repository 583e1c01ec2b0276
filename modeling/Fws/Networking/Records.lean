import Fws.Networking.Moves

/-!
# The life of the address records

A record is allocated by the accept call, shared by the table and the caller,
and released when either of the two closing paths destroys the table's entry.
-/

namespace Fws
open Base.Digits Base.Runs

/- A call that releases or reads a record finds it unreleased. -/
def Call.Unreleased (calls : Calls) : Call → Prop
  | .free p => .free p ∉ calls
  | .read p => .free p ∉ calls
  | _ => True

instance (calls : Calls) : (call : Call) → Decidable (call.Unreleased calls)
  | .free p => inferInstanceAs (Decidable (.free p ∉ calls))
  | .read p => inferInstanceAs (Decidable (.free p ∉ calls))
  | .recv _ | .send _ | .select _ _ | .accept _ | .close _ | .malloc _ => .isTrue trivial

/- No record is released twice, and none is read after its release. -/
def RecordsSafe : Calls → Prop
  | [] => True
  | call :: calls => call.Unreleased calls ∧ RecordsSafe calls

instance : (calls : Calls) → Decidable (RecordsSafe calls)
  | [] => .isTrue trivial
  | _ :: calls =>
    have : Decidable (RecordsSafe calls) := instDecidableRecordsSafe calls
    inferInstanceAs (Decidable (_ ∧ _))

variable {κ : Type}

def infos (conns : List Connection) : List ℕ := conns.filterMap Connection.info

/- The records of the table: distinct, allocated and not released. -/
structure RecordLedger (conns : List Connection) (calls : Calls) : Prop where
  distinct : (infos conns).Nodup
  named : ∀ p ∈ infos conns, p < records calls
  unreleased : ∀ p ∈ infos conns, .free p ∉ calls
  released : ∀ p, .free p ∈ calls → p < records calls

section
variable {sockets : List ℤ} {new calls : Calls}

theorem quiet_free (hquiet : ∀ call ∈ new, call.Quiet sockets) (p : ℕ) :
    .free p ∈ new ++ calls ↔ .free p ∈ calls := by
  constructor
  · intro hmem
    rcases List.mem_append.mp hmem with hmem | hmem
    · exact absurd (hquiet _ hmem) id
    · exact hmem
  · exact List.mem_append_right new

theorem quiet_safe (hquiet : ∀ call ∈ new, call.Quiet sockets) :
    RecordsSafe (new ++ calls) ↔ RecordsSafe calls := by
  induction new with
  | nil => exact Iff.rfl
  | cons call new ih =>
    have hcall := hquiet call (List.mem_cons_self ..)
    have hsafe : call.Unreleased (new ++ calls) := by
      cases call with
      | free p => exact absurd hcall id
      | read p => exact absurd hcall id
      | _ => trivial
    have hrest := ih (fun c hc => hquiet c (List.mem_cons_of_mem _ hc))
    show call.Unreleased (new ++ calls) ∧ RecordsSafe (new ++ calls) ↔ _
    rw [and_iff_right hsafe, hrest]

theorem records_le_append (new calls : Calls) : records calls ≤ records (new ++ calls) := by
  rw [records, records, List.countP_append]
  exact Nat.le_add_left _ _

theorem RecordLedger.quiet {conns : List Connection} (h : RecordLedger conns calls)
    (hquiet : ∀ call ∈ new, call.Quiet sockets) : RecordLedger conns (new ++ calls) where
  distinct := h.distinct
  named := fun p hp => lt_of_lt_of_le (h.named p hp) (records_le_append new calls)
  unreleased := by
    intro p hp
    rw [quiet_free hquiet]
    exact h.unreleased p hp
  released := by
    intro p hp
    rw [quiet_free hquiet] at hp
    exact lt_of_lt_of_le (h.released p hp) (records_le_append new calls)

end

section
variable {conns : List Connection} {calls : Calls}

theorem RecordLedger.next_unreleased (h : RecordLedger conns calls) :
    .free (records calls) ∉ calls := by
  intro hmem
  exact lt_irrefl _ (h.released _ hmem)

/- The new record gets the next name. -/
theorem RecordLedger.join (h : RecordLedger conns calls) (clientSocket maxfds : ℤ)
    (fds : Finset ℤ) :
    RecordLedger (conns ++ [⟨clientSocket, some (records calls)⟩])
      (.read (records calls) :: .accept (some clientSocket) :: .malloc (records calls) ::
        .select maxfds fds :: calls) := by
  have hcount : records (.read (records calls) :: .accept (some clientSocket) ::
      .malloc (records calls) :: .select maxfds fds :: calls) = records calls + 1 := by
    simp only [records_cons, Call.allocates]
    rfl
  have hinfos : infos (conns ++ [⟨clientSocket, some (records calls)⟩]) =
      infos conns ++ [records calls] := by
    simp only [infos, List.filterMap_append, List.filterMap_cons, List.filterMap_nil]
  refine ⟨?_, ?_, ?_, ?_⟩
  · rw [hinfos]
    refine List.Nodup.append h.distinct (List.nodup_singleton _) ?_
    intro p hp hpn
    rw [List.mem_singleton.mp hpn] at hp
    exact lt_irrefl _ (h.named _ hp)
  · rw [hinfos, hcount]
    intro p hp
    rcases List.mem_append.mp hp with hp | hp
    · exact Nat.lt_succ_of_lt (h.named p hp)
    · rw [List.mem_singleton.mp hp]
      exact Nat.lt_succ_self _
  · rw [hinfos]
    intro p hp
    simp only [List.mem_cons, reduceCtorEq, false_or]
    rcases List.mem_append.mp hp with hp | hp
    · exact h.unreleased p hp
    · rw [List.mem_singleton.mp hp]
      exact h.next_unreleased
  · rw [hcount]
    intro p hp
    simp only [List.mem_cons, reduceCtorEq, false_or] at hp
    exact Nat.lt_succ_of_lt (h.released p hp)

theorem infos_split (pre post : List Connection) {conn : Connection} {info : ℕ}
    (hinfo : conn.info = some info) :
    (infos (pre ++ conn :: post)).Perm (info :: infos (pre ++ post)) := by
  have hall : infos (pre ++ conn :: post) = infos pre ++ info :: infos post := by
    simp only [infos, List.filterMap_append, List.filterMap_cons, hinfo]
  have hrest : infos (pre ++ post) = infos pre ++ infos post := by
    simp only [infos, List.filterMap_append]
  rw [hall, hrest]
  exact List.perm_middle

/- The released record leaves the table with its connection. -/
theorem RecordLedger.close {pre post : List Connection} {conn : Connection} {info : ℕ}
    (h : RecordLedger (pre ++ conn :: post) calls) (hinfo : conn.info = some info) :
    RecordLedger (pre ++ post) (.read info :: .close conn.socket :: .free info :: calls) := by
  have hperm := infos_split pre post hinfo
  obtain ⟨hout, hdistinct⟩ := List.nodup_cons.mp (hperm.nodup_iff.mp h.distinct)
  have hsub : ∀ p ∈ infos (pre ++ post), p ∈ infos (pre ++ conn :: post) := fun p hp =>
    hperm.symm.subset (List.mem_cons_of_mem _ hp)
  have hmem : info ∈ infos (pre ++ conn :: post) := hperm.symm.subset (List.mem_cons_self ..)
  have hcount : records (.read info :: .close conn.socket :: .free info :: calls) =
      records calls := by
    simp only [records_cons, Call.allocates]
    rfl
  refine ⟨hdistinct, ?_, ?_, ?_⟩
  · rw [hcount]
    exact fun p hp => h.named p (hsub p hp)
  · intro p hp hfree
    simp only [List.mem_cons, reduceCtorEq, false_or, Call.free.injEq] at hfree
    rcases hfree with rfl | hfree
    · exact hout hp
    · exact h.unreleased p (hsub p hp) hfree
  · rw [hcount]
    intro p hp
    simp only [List.mem_cons, reduceCtorEq, false_or, Call.free.injEq] at hp
    rcases hp with rfl | hp
    · exact h.named _ hmem
    · exact h.released p hp

/-- Every step keeps the ledger, and exactly the closing ones read a released record. -/
theorem RecordLedger.moved {listening : ℤ} {conns' : List Connection} {calls' : Calls}
    {closing : Bool} (h : RecordLedger conns calls)
    (hmoved : Moved listening conns calls closing conns' calls') :
    RecordLedger conns' calls' ∧
      (RecordsSafe calls' ↔ RecordsSafe calls ∧ closing = false) := by
  cases hmoved with
  | quiet new hquiet =>
    refine ⟨h.quiet hquiet, ?_⟩
    rw [quiet_safe hquiet, and_iff_left rfl]
  | joined clientSocket maxfds fds hfresh =>
    refine ⟨h.join clientSocket maxfds fds, ?_⟩
    simp [RecordsSafe, Call.Unreleased, h.next_unreleased]
  | closed pre post conn info new hconns hinfo hquiet =>
    subst hconns
    refine ⟨(h.quiet hquiet).close hinfo, ?_⟩
    simp [RecordsSafe, Call.Unreleased]

end

/-! ### The end of a server -/

theorem destroy_fold (M : Machine κ) (conns : List Connection) (k : κ × Calls) :
    (conns.foldl (fun k conn => connectionDestroy (traced M) conn k) k).2 =
      ((infos conns).map Call.free).reverse ++ k.2 := by
  induction conns generalizing k with
  | nil => rfl
  | cons conn conns ih =>
    rw [List.foldl_cons, ih]
    rcases hinfo : conn.info with _ | info
    · simp only [connectionDestroy, infos, List.filterMap_cons, hinfo]
    · simp only [connectionDestroy, infos, List.filterMap_cons, hinfo, List.map_cons,
        List.reverse_cons, List.append_assoc, List.singleton_append]
      rfl

/-- Destroying a server releases the records of its table and closes no
descriptor but its own. -/
theorem serverDestroy_calls (M : Machine κ) {server : Server} {conns : List Connection}
    (h : TableOk server conns) (k : κ × Calls) :
    ∃ rv k', serverDestroy (traced M) server k = some (rv, k') ∧
      k'.2 = .close server.socket :: (((infos conns).map Call.free).reverse ++ k.2) := by
  have hlow := h.listener.1
  have hvalid : server.socket ≠ invalidSocket := by
    unfold invalidSocket
    omega
  have hfold := destroy_fold M conns k
  simp only [serverDestroy, vectorFold_all h.contents h.holds.bound, Option.bind_eq_bind,
    Option.bind_some, if_pos hvalid]
  generalize conns.foldl (fun k conn => connectionDestroy (traced M) conn k) k = k₁ at hfold
  rcases hclose : (traced M).closesocket k₁ server.socket with ⟨_ | _, k₂⟩
  · refine ⟨-1, k₂, rfl, ?_⟩
    rw [← hfold]
    exact (congrArg (fun r => r.2.2) hclose).symm
  · refine ⟨0, k₂, rfl, ?_⟩
    rw [← hfold]
    exact (congrArg (fun r => r.2.2) hclose).symm

theorem free_all_safe {ps : List ℕ} {calls : Calls} (hn : ps.Nodup)
    (hps : ∀ p ∈ ps, .free p ∉ calls) :
    RecordsSafe ((ps.map Call.free).reverse ++ calls) ↔ RecordsSafe calls := by
  induction ps generalizing calls with
  | nil => exact Iff.rfl
  | cons p ps ih =>
    obtain ⟨hp, hn⟩ := List.nodup_cons.mp hn
    have hfree := hps p (List.mem_cons_self ..)
    rw [List.map_cons, List.reverse_cons, List.append_assoc, List.singleton_append, ih hn]
    · exact and_iff_right hfree
    · intro q hq
      simp only [List.mem_cons, Call.free.injEq, not_or]
      constructor
      · intro he
        exact hp (he ▸ hq)
      · exact hps q (List.mem_cons_of_mem _ hq)

/- The calls of a run: those up to a state of it, with those of the destruction
where this ends the run. -/
def RunCalls (M : Machine κ) (s : TableRun (κ × Calls)) (calls : Calls) : Prop :=
  calls = s.k.2 ∨ ∃ rv k, serverDestroy (traced M) s.server s.k = some (rv, k) ∧ calls = k.2

theorem run_ledger {M : Machine κ} {openFds : κ → Finset ℤ} (laws : KernelLaws M openFds)
    (s : TableRun (κ × Calls)) (e : TableEvent) (t : TableRun (κ × Calls))
    (hs : ∃ conns, RunTracked openFds s conns ∧ RecordLedger conns s.k.2)
    (hstep : tableStep (traced M) s e = some t) :
    (∃ conns, RunTracked openFds t conns ∧ RecordLedger conns t.k.2) ∧
      (RecordsSafe t.k.2 ↔ RecordsSafe s.k.2 ∧ closes (traced M) s e = false) := by
  obtain ⟨conns, htracked, hledger⟩ := hs
  obtain ⟨conns', htracked', -, hmoved⟩ := tableStep_moved laws htracked hstep
  obtain ⟨hledger', hsafe⟩ := hledger.moved hmoved
  exact ⟨⟨conns', htracked', hledger'⟩, hsafe⟩

theorem RecordLedger.start : RecordLedger [] [] where
  distinct := List.nodup_nil
  named := fun _ hp => absurd hp List.not_mem_nil
  unreleased := fun _ hp => absurd hp List.not_mem_nil
  released := fun _ hp => absurd hp List.not_mem_nil

/-- The records are safe in the runs that close no connection: the address is
printed after the record was released. -/
theorem records_safe_iff {M : Machine κ} {openFds : κ → Finset ℤ} (laws : KernelLaws M openFds)
    {port backlog : ℤ} {k : κ} {k' : κ × Calls} {server : Server}
    (hcreate : serverCreate (traced M) port backlog (k, []) = (some server, k'))
    {es : List TableEvent} {s : TableRun (κ × Calls)}
    (hrun : exec (tableStep (traced M)) ⟨server, [], k'⟩ es = some s) {calls : Calls}
    (hcalls : RunCalls M s calls) :
    RecordsSafe calls ↔
      Along (tableStep (traced M)) (fun s e => closes (traced M) s e = false)
        ⟨server, [], k'⟩ es := by
  obtain ⟨htracked, hnone⟩ := Tracked.create laws hcreate
  have hledger : RecordLedger [] k'.2 := hnone ▸ RecordLedger.start
  have hstart : ∃ conns, RunTracked openFds ⟨server, [], k'⟩ conns ∧ RecordLedger conns k'.2 :=
    ⟨[], ⟨htracked, fun c hc => absurd hc List.not_mem_nil⟩, hledger⟩
  have hempty : RecordsSafe k'.2 := by
    rw [hnone]
    exact trivial
  have hinv := exec_invariant (fun s e t hs ht => (run_ledger laws s e t hs ht).1) hstart hrun
  have hsafe := exec_iff_along (J := fun s => RecordsSafe s.k.2)
    (fun s e t hs ht => (run_ledger laws s e t hs ht).1)
    (fun s e t hs ht => (run_ledger laws s e t hs ht).2) hstart hrun
  dsimp only at hsafe
  rw [← and_iff_right hempty (b := Along _ _ _ _), ← hsafe]
  rcases hcalls with rfl | ⟨rv, k₁, hdestroy, rfl⟩
  · exact Iff.rfl
  · obtain ⟨conns, htracked', hledger'⟩ := hinv
    obtain ⟨rv', k₂, hdestroy', hall⟩ := serverDestroy_calls M htracked'.tracked.ok s.k
    obtain ⟨-, rfl⟩ := Prod.mk.inj (Option.some.inj (hdestroy.symm.trans hdestroy'))
    rw [hall]
    show True ∧ RecordsSafe _ ↔ _
    rw [true_and]
    exact free_all_safe hledger'.distinct hledger'.unreleased

/- The server of a small kernel, and what is left of a run on it. -/
def smallStart : TableRun (Finset ℤ × Calls) := ⟨oneClientServer, [], {3}, []⟩

theorem smallKernel_create (clients : List ℤ) :
    serverCreate (traced (smallKernel clients)) 80 5 (∅, []) =
      (some oneClientServer, ({3}, [])) := rfl

theorem records_safe_one_accept :
    ∃ s, exec (tableStep (traced (smallKernel [4]))) smallStart [.accept] = some s ∧
      (RecordsSafe s.k.2 ↔
        Along (tableStep (traced (smallKernel [4])))
          (fun s e => closes (traced (smallKernel [4])) s e = false) smallStart [.accept]) := by
  have hsome : (exec (tableStep (traced (smallKernel [4]))) smallStart [.accept]).isSome = true := by
    decide +kernel
  obtain ⟨s, hs⟩ := Option.isSome_iff_exists.mp hsome
  exact ⟨s, hs, records_safe_iff (smallKernel_laws (by decide)) (smallKernel_create [4]) hs
    (Or.inl rfl)⟩

/- A client is accepted and its connection closed. -/
theorem closing_reads_released_record :
    ¬ ∀ (M : Machine (Finset ℤ)) (openFds : Finset ℤ → Finset ℤ), KernelLaws M openFds →
      ∀ (port backlog : ℤ) (k : Finset ℤ) (k' : Finset ℤ × Calls) (server : Server),
      serverCreate (traced M) port backlog (k, []) = (some server, k') →
      ∀ (es : List TableEvent) (s : TableRun (Finset ℤ × Calls)),
      exec (tableStep (traced M)) ⟨server, [], k'⟩ es = some s → RecordsSafe s.k.2 := by
  intro h
  have hrun : (exec (tableStep (traced (smallKernel [4]))) smallStart
      [.accept, .close ⟨4, some 0⟩]).map (fun s => decide (RecordsSafe s.k.2)) = some false := by
    decide +kernel
  obtain ⟨s, hs, hunsafe⟩ := Option.map_eq_some_iff.mp hrun
  have hsafe := h (smallKernel [4]) id (smallKernel_laws (by decide)) 80 5 ∅ _ _
    (smallKernel_create [4]) _ s hs
  exact of_decide_eq_false hunsafe hsafe

end Fws
