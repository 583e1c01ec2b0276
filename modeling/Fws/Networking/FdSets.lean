import Fws.Networking.Records

/-!
# The bits of a descriptor set

An `fd_set` has `FD_SETSIZE` bits. `server.c` applies `FD_SET`, `FD_CLR` and
`FD_ISSET` to whatever descriptors it has.
-/

namespace Fws
open Base.Digits Base.Runs

def FdFits (fd : ℤ) : Prop := 0 ≤ fd ∧ fd < fdSetsize

instance (fd : ℤ) : Decidable (FdFits fd) := inferInstanceAs (Decidable (_ ∧ _))

variable {κ : Type}

/-! ### What the macros are applied to, in the order of the source -/

def serverCreateFds (M : Machine κ) (k : κ) : List ℤ := (M.socket k).1.toList

/- The loop over the table leaves at the first socket that is set. -/
def testedFds (v : Vector Connection) (active : Finset ℤ) : ℕ → ℕ → Option (List ℤ)
  | _, 0 => some []
  | i, n + 1 => do
    let conn ← vectorAt v i
    if conn.socket ∈ active then some [conn.socket]
    else do
      let rest ← testedFds v active (i + 1) n
      some (conn.socket :: rest)

def serverAcceptFds (M : Machine κ) (server : Server) (k : κ) : Option (List ℤ) :=
  if server.status = 0 then some []
  else do
    let connections := server.connections
    let maxfds ← vectorFold connections maxFd server.socket 0 (loopBound connections)
    match M.select k (maxfds + 1) server.readFdset with
    | (.error, _) => some []
    | (.timeout, _) => some []
    | (.ready activeFdset, k) =>
      if server.socket ∈ activeFdset then
        let (_, k) := M.mallocInfo k
        match M.accept k server.socket with
        | (none, _) => some [server.socket]
        | (some clientSocket, _) => some [server.socket, clientSocket]
      else do
        let tested ← testedFds connections activeFdset 0 (loopBound connections)
        some (server.socket :: tested)

def serverCloseFds (connection : Connection) : List ℤ := [connection.socket]

def stepFds (M : Machine κ) (s : TableRun κ) : TableEvent → Option (List ℤ)
  | .accept => serverAcceptFds M s.server s.k
  | .close c => some (serverCloseFds c)
  | .recv c =>
    match connectionRecv M c s.k with
    | (some _, _) => some []
    | (none, _) => some (serverCloseFds c)

/-! ### They are sockets of the server -/

theorem testedFds_from {v : Vector Connection} {conns : List Connection}
    (hv : v.contents = conns.map some) (hint : conns.length < 2 ^ 31) (active : Finset ℤ)
    (n i : ℕ) (hi : i + n = conns.length) :
    ∃ fds, testedFds v active i n = some fds ∧ fds ⊆ conns.map Connection.socket := by
  induction n generalizing i with
  | zero => exact ⟨[], rfl, List.nil_subset _⟩
  | succ n ih =>
    have hlt : i < conns.length := by omega
    have hat := vectorAt_eq hv hint hlt
    have hmem : conns[i].socket ∈ conns.map Connection.socket :=
      List.mem_map_of_mem (List.getElem_mem hlt)
    simp only [testedFds, hat, Option.bind_eq_bind, Option.bind_some]
    by_cases hset : conns[i].socket ∈ active
    · rw [if_pos hset]
      refine ⟨_, rfl, ?_⟩
      exact List.cons_subset.mpr ⟨hmem, List.nil_subset _⟩
    · obtain ⟨rest, hrest, hsub⟩ := ih (i + 1) (by omega)
      rw [if_neg hset, hrest]
      exact ⟨_, rfl, List.cons_subset.mpr ⟨hmem, hsub⟩⟩

/-- An accept call touches sockets that it leaves in the server, and the new one
is among them. -/
theorem serverAcceptFds_spec {M : Machine κ} {server : Server} {conns conns' : List Connection}
    {k : κ} {r : Accepted κ} (h : server.Holds conns) (hr : serverAccept M server k = some r)
    (hconns' : r.server.connections.contents = conns'.map some) :
    ∃ fds, serverAcceptFds M server k = some fds ∧ fds ⊆ serverFds server conns' ∧
      ∀ c ∈ conns', c ∉ conns → c.socket ∈ fds := by
  obtain ⟨r', hr', hcase⟩ := serverAccept_case (M := M) (k := k) h
  obtain rfl := Option.some.inj (hr.symm.trans hr')
  have hinj : Function.Injective (List.map (some : Connection → Option Connection)) :=
    List.map_injective_iff.mpr (Option.some_injective _)
  have hlisten : [server.socket] ⊆ serverFds server conns' :=
    List.cons_subset.mpr ⟨List.mem_cons_self .., List.nil_subset _⟩
  have harg : conns.foldl maxFd server.socket + 1 = selectArg server conns := rfl
  have hsame : server.connections.contents = conns'.map some → ∀ fds : List ℤ,
      ∀ c ∈ conns', c ∉ conns → c.socket ∈ fds := by
    intro hcontents fds c hc hnot
    rw [h.contents] at hcontents
    rw [hinj hcontents] at hnot
    exact absurd hc hnot
  cases hcase with
  | stopped hstatus =>
    exact ⟨[], if_pos hstatus, List.nil_subset _, hsame hconns' _⟩
  | unready reported k₁ hrunning hsel hnone =>
    refine ⟨[], ?_, List.nil_subset _, hsame hconns' _⟩
    simp only [serverAcceptFds, if_neg hrunning, vectorFold_all h.contents h.bound,
      Option.bind_eq_bind, Option.bind_some, harg, hsel]
    cases reported with
    | ready active => exact absurd rfl (hnone active)
    | error => rfl
    | timeout => rfl
  | refused active k₁ k₂ hrunning hsel hready ha =>
    refine ⟨[server.socket], ?_, hlisten, hsame hconns' _⟩
    simp only [serverAcceptFds, if_neg hrunning, vectorFold_all h.contents h.bound,
      Option.bind_eq_bind, Option.bind_some, harg, hsel, if_pos hready, ha]
  | joined active clientSocket k₁ k₂ hrunning hsel hready ha =>
    have hpush := vectorPush_holds h ⟨clientSocket, some (M.mallocInfo k₁).1⟩
    rw [hpush] at hconns'
    obtain rfl := hinj hconns'
    refine ⟨[server.socket, clientSocket], ?_, ?_, ?_⟩
    · simp only [serverAcceptFds, if_neg hrunning, vectorFold_all h.contents h.bound,
        Option.bind_eq_bind, Option.bind_some, harg, hsel, if_pos hready, ha]
    · apply List.cons_subset.mpr
      refine ⟨List.mem_cons_self .., List.cons_subset.mpr ⟨?_, List.nil_subset _⟩⟩
      apply List.mem_cons_of_mem
      rw [List.map_append]
      exact List.mem_append_right _ (List.mem_singleton_self _)
    · intro c hc hnot
      rcases List.mem_append.mp hc with hc | hc
      · exact absurd hc hnot
      · rw [List.mem_singleton.mp hc]
        exact List.mem_cons_of_mem _ (List.mem_singleton_self _)
  | picked active k₁ hrunning hsel hready =>
    obtain ⟨tested, htested, hsub⟩ := testedFds_from h.contents h.bound active
      (loopBound server.connections) 0 (by rw [loopBound_eq h.contents h.bound, Nat.zero_add])
    refine ⟨server.socket :: tested, ?_, ?_, hsame hconns' _⟩
    · simp only [serverAcceptFds, if_neg hrunning, vectorFold_all h.contents h.bound,
        Option.bind_eq_bind, Option.bind_some, harg, hsel, if_neg hready, htested]
    · have hcontents := h.contents.symm.trans hconns'
      rw [hinj hcontents] at hsub
      apply List.cons_subset.mpr
      exact ⟨List.mem_cons_self .., fun x hx => List.mem_cons_of_mem _ (hsub hx)⟩

/-! ### The runs that stay inside the set -/

def AcceptedFit (calls : Calls) : Prop := ∀ c, .accept (some c) ∈ calls → FdFits c

/- The macros of a step stay inside the set, and a new client outside of it is
turned away. -/
structure FdSafe (M : Machine κ) (s : TableRun (κ × Calls)) (e : TableEvent) : Prop where
  inside : ∃ fds, stepFds (traced M) s e = some fds ∧ ∀ fd ∈ fds, FdFits fd
  refused : e = .accept → ∀ r, serverAccept (traced M) s.server s.k = some r →
    ∀ new c, r.k.2 = new ++ s.k.2 → .accept (some c) ∈ new → ¬ FdFits c →
      r.rv ≠ 0 ∧ r.server = s.server

/- The descriptors of the server came from the kernel. -/
structure FdsKnown (openFds : κ → Finset ℤ) (listening : ℤ) (s : TableRun (κ × Calls))
    (conns : List Connection) : Prop where
  tracked : RunTracked openFds s conns
  socket : s.server.socket = listening
  accepted : ∀ c ∈ conns, .accept (some c.socket) ∈ s.k.2

section
variable {M : Machine κ} {openFds : κ → Finset ℤ} {listening : ℤ} {s t : TableRun (κ × Calls)}
  {conns : List Connection}

theorem FdsKnown.moved {conns' : List Connection} {closing : Bool}
    (h : FdsKnown openFds listening s conns) (htracked : RunTracked openFds t conns')
    (hsocket : t.server.socket = s.server.socket)
    (hmoved : Moved s.server.socket conns s.k.2 closing conns' t.k.2) :
    FdsKnown openFds listening t conns' :=
  ⟨htracked, hsocket.trans h.socket, hmoved.all_accepted h.accepted⟩

/-- A step touches sockets that are the server's before or after it, those that
join it among them. -/
theorem stepFds_spec {conns' : List Connection} (h : RunTracked openFds s conns)
    (h' : RunTracked openFds t conns') {e : TableEvent}
    (hstep : tableStep (traced M) s e = some t)
    (hmoved : Moved s.server.socket conns s.k.2 (closes (traced M) s e) conns' t.k.2) :
    ∃ fds, stepFds (traced M) s e = some fds ∧
      (∀ fd ∈ fds, fd ∈ serverFds s.server (conns ++ conns')) ∧
      ∀ c ∈ conns', c ∉ conns → c.socket ∈ fds := by
  have hleft : ∀ c ∈ conns, c.socket ∈ serverFds s.server (conns ++ conns') := fun c hc =>
    List.mem_cons_of_mem _ (List.mem_map_of_mem (List.mem_append_left _ hc))
  have hgone : ∀ c ∈ conns, closes (traced M) s e = true →
      (∀ fd ∈ serverCloseFds c, fd ∈ serverFds s.server (conns ++ conns')) ∧
        ∀ d ∈ conns', d ∉ conns → d.socket ∈ serverCloseFds c := by
    intro c hc hclosing
    constructor
    · intro fd hfd
      rw [List.mem_singleton.mp hfd]
      exact hleft c hc
    · intro d hd hout
      rw [hclosing] at hmoved
      exact absurd (hmoved.closed_subset d hd) hout
  cases e with
  | accept =>
    obtain ⟨r, hr, hstep⟩ := Option.bind_eq_some_iff.mp hstep
    obtain rfl := Option.some.inj hstep
    obtain ⟨fds, hfds, hsub, hnew⟩ := serverAcceptFds_spec h.tracked.ok.holds hr
      h'.tracked.ok.contents
    refine ⟨fds, hfds, ?_, hnew⟩
    intro fd hfd
    have hmem := hsub hfd
    simp only [serverFds, List.map_append, List.mem_cons, List.mem_append] at hmem ⊢
    exact hmem.imp_right Or.inr
  | close c =>
    have hc : c ∈ s.held := tableStep_held (Or.inl rfl) hstep
    exact ⟨_, rfl, hgone c (h.held c hc) rfl⟩
  | recv c =>
    have hc : c ∈ s.held := tableStep_held (Or.inr rfl) hstep
    rcases hr : connectionRecv (traced M) c s.k with ⟨_ | message, k₁⟩
    · refine ⟨serverCloseFds c, ?_, hgone c (h.held c hc) ?_⟩
      · simp only [stepFds, hr]
      · simp only [closes, hr, Option.isNone_none]
    · simp only [tableStep, if_pos hc, serverRecvMsg, hr, Option.bind_eq_bind, Option.bind_some,
        Option.some.injEq] at hstep
      subst hstep
      refine ⟨[], ?_, fun fd hfd => absurd hfd List.not_mem_nil, ?_⟩
      · simp only [stepFds, hr]
      · intro d hd hout
        have hsame := h.tracked.ok.contents.symm.trans h'.tracked.ok.contents
        rw [List.map_injective_iff.mpr (Option.some_injective _) hsame] at hout
        exact absurd hd hout

/-- In a state whose descriptors fit, a step is safe just when those after it fit. -/
theorem fdSafe_iff (laws : KernelLaws M openFds) (h : FdsKnown openFds listening s conns)
    (hlisten : FdFits listening) (hfit : AcceptedFit s.k.2) {e : TableEvent}
    (hstep : tableStep (traced M) s e = some t) : FdSafe M s e ↔ AcceptedFit t.k.2 := by
  obtain ⟨conns', htracked, hsocket, hmoved⟩ := tableStep_moved laws h.tracked hstep
  have h' := h.moved htracked hsocket hmoved
  obtain ⟨fds, hfds, hsub, hnew⟩ := stepFds_spec h.tracked htracked hstep hmoved
  constructor
  · intro hsafe c hc
    obtain ⟨fds', hfds', hinside⟩ := hsafe.inside
    obtain rfl := Option.some.inj (hfds.symm.trans hfds')
    rcases (hmoved.accepted c).mp hc with hc | ⟨conn, hin, hout, rfl⟩
    · exact hfit c hc
    · exact hinside _ (hnew conn hin hout)
  · intro hfit'
    refine ⟨⟨fds, hfds, ?_⟩, ?_⟩
    · intro fd hfd
      rcases List.mem_cons.mp (hsub fd hfd) with rfl | hmem
      · rw [h.socket]
        exact hlisten
      · obtain ⟨c, hc, rfl⟩ := List.mem_map.mp hmem
        rcases List.mem_append.mp hc with hc | hc
        · exact hfit _ (h.accepted c hc)
        · exact hfit' _ (h'.accepted c hc)
    · intro he r hr new c hcalls hc hout
      -- the call's descriptors are those of the state it leaves
      subst he
      obtain ⟨r', hr', hstep⟩ := Option.bind_eq_some_iff.mp hstep
      obtain rfl := Option.some.inj (hr.symm.trans hr')
      obtain rfl := Option.some.inj hstep
      apply absurd (hfit' c _) hout
      show .accept (some c) ∈ r.k.2
      rw [hcalls]
      exact List.mem_append_left _ hc

end

/-- The macros stay inside the set in the runs where the kernel never hands out
a descriptor outside of it: the source has no check. -/
theorem descriptors_fit_iff {M : Machine κ} {openFds : κ → Finset ℤ} (laws : KernelLaws M openFds)
    {port backlog : ℤ} {k : κ} {k' : κ × Calls} {server : Server}
    (hcreate : serverCreate (traced M) port backlog (k, []) = (some server, k'))
    {es : List TableEvent} {s : TableRun (κ × Calls)}
    (hrun : exec (tableStep (traced M)) ⟨server, [], k'⟩ es = some s) :
    ((∀ fd ∈ serverCreateFds (traced M) (k, []), FdFits fd) ∧
      Along (tableStep (traced M)) (FdSafe M) ⟨server, [], k'⟩ es) ↔
      FdFits server.socket ∧ ∀ c, .accept (some c) ∈ s.k.2 → FdFits c := by
  obtain ⟨htracked, hnone⟩ := Tracked.create laws hcreate
  obtain ⟨k₁, k₂, hsocket, -, -, -⟩ := serverCreate_some hcreate
  have hstart : FdsKnown openFds server.socket ⟨server, [], k'⟩ [] :=
    ⟨⟨htracked, fun c hc => absurd hc List.not_mem_nil⟩, rfl,
      fun c hc => absurd hc List.not_mem_nil⟩
  have hempty : AcceptedFit k'.2 := by
    rw [hnone]
    exact fun c hc => absurd hc List.not_mem_nil
  have hlisten : (∀ fd ∈ serverCreateFds (traced M) (k, []), FdFits fd) ↔ FdFits server.socket := by
    rw [serverCreateFds, hsocket, Option.toList_some, List.forall_mem_singleton]
  rw [hlisten]
  apply and_congr_right
  intro hfits
  refine along_iff_last (J := fun s => AcceptedFit s.k.2)
    (I := fun s => ∃ conns, FdsKnown openFds server.socket s conns) ?_ ?_ ⟨[], hstart⟩ hempty hrun
  · intro s e t hs ht
    obtain ⟨conns, h⟩ := hs
    obtain ⟨conns', htracked, hsame, hmoved⟩ := tableStep_moved laws h.tracked ht
    refine ⟨⟨conns', h.moved htracked hsame hmoved⟩, ?_⟩
    intro hfit c hc
    exact hfit c ((hmoved.accepted c).mpr (Or.inl hc))
  · intro s e t hs hfit ht
    obtain ⟨conns, h⟩ := hs
    exact fdSafe_iff laws h hfits hfit ht

theorem descriptors_fit_one_client :
    ∃ s, exec (tableStep (traced (smallKernel [4]))) smallStart [.accept] = some s ∧
      (((∀ fd ∈ serverCreateFds (traced (smallKernel [4])) (∅, []), FdFits fd) ∧
        Along (tableStep (traced (smallKernel [4]))) (FdSafe (smallKernel [4])) smallStart [.accept]) ↔
        FdFits 3 ∧ ∀ c, .accept (some c) ∈ s.k.2 → FdFits c) := by
  have hsome : (exec (tableStep (traced (smallKernel [4]))) smallStart [.accept]).isSome = true := by
    decide +kernel
  obtain ⟨s, hs⟩ := Option.isSome_iff_exists.mp hsome
  exact ⟨s, hs, descriptors_fit_iff (smallKernel_laws (by decide)) (smallKernel_create [4]) hs⟩

/- With 1024 descriptors open, the next client is given the first one outside. -/
theorem client_outside_fd_set :
    ¬ ∀ (M : Machine (Finset ℤ)) (openFds : Finset ℤ → Finset ℤ), KernelLaws M openFds →
      ∀ (port backlog : ℤ) (k : Finset ℤ) (k' : Finset ℤ × Calls) (server : Server),
      serverCreate (traced M) port backlog (k, []) = (some server, k') →
      ∀ (es : List TableEvent) (s : TableRun (Finset ℤ × Calls)),
      exec (tableStep (traced M)) ⟨server, [], k'⟩ es = some s →
      Along (tableStep (traced M)) (FdSafe M) ⟨server, [], k'⟩ es := by
  intro h
  have hfds : stepFds (traced (smallKernel [1024])) smallStart .accept = some [3, 1024] := by
    decide +kernel
  have hsome : (exec (tableStep (traced (smallKernel [1024]))) smallStart [.accept]).isSome =
      true := by
    decide +kernel
  obtain ⟨s, hs⟩ := Option.isSome_iff_exists.mp hsome
  have halong := h (smallKernel [1024]) id (smallKernel_laws (by decide)) 80 5 ∅ _ _
    (smallKernel_create [1024]) [.accept] s hs
  obtain ⟨t, ht, -⟩ := Option.bind_eq_some_iff.mp hs
  obtain ⟨fds, hfds', hinside⟩ := (halong t ht).1.inside
  obtain rfl := Option.some.inj (hfds.symm.trans hfds')
  have houtside : ¬ FdFits 1024 := by decide
  exact houtside (hinside 1024 (List.mem_cons_of_mem _ (List.mem_singleton_self _)))

end Fws
