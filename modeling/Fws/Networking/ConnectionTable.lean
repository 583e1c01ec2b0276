import Fws.Base.Runs
import Fws.Networking.Table

/-!
# The connection table over whole runs

A run of a server makes accept, close and receive calls in any order. The
close and receive calls are made on connections that an accept call handed out
and that have not been closed since.
-/

namespace Fws
open Base.Digits Base.Cells Base.Runs

structure TableRun (κ : Type) where
  server : Server
  held : List Connection
  k : κ

inductive TableEvent where
  | accept
  | close (connection : Connection)
  | recv (connection : Connection)

variable {κ : Type}

def withoutSocket (held : List Connection) (socket : ℤ) : List Connection :=
  held.filter fun c => decide (c.socket ≠ socket)

def tableStep (M : Machine κ) (s : TableRun κ) : TableEvent → Option (TableRun κ)
  | .accept => do
    let r ← serverAccept M s.server s.k
    some ⟨r.server, r.stored.toList ++ s.held, r.k⟩
  | .close c =>
    if c ∈ s.held then do
      let (server, _, k) ← serverCloseConnection M s.server c s.k
      some ⟨server, withoutSocket s.held c.socket, k⟩
    else none
  | .recv c =>
    if c ∈ s.held then do
      let (message, server, _, k) ← serverRecvMsg M s.server c s.k
      match message with
      | some _ => some ⟨server, s.held, k⟩
      | none => some ⟨server, withoutSocket s.held c.socket, k⟩
    else none

/-- Connections are closed and received from only while they are held. -/
theorem tableStep_held {M : Machine κ} {s t : TableRun κ} {e : TableEvent} {c : Connection}
    (he : e = .close c ∨ e = .recv c) (hstep : tableStep M s e = some t) : c ∈ s.held := by
  by_contra hc
  rcases he with rfl | rfl
  · rw [tableStep, if_neg hc] at hstep
    cases hstep
  · rw [tableStep, if_neg hc] at hstep
    cases hstep

theorem withoutSocket_subset {held conns conns' : List Connection} {socket : ℤ}
    (hheld : ∀ c ∈ held, c ∈ conns) (hkeep : ∀ c ∈ conns, c.socket ≠ socket → c ∈ conns') :
    ∀ c ∈ withoutSocket held socket, c ∈ conns' := by
  intro c hc
  obtain ⟨hc, hne⟩ := List.mem_filter.mp hc
  exact hkeep c (hheld c hc) (of_decide_eq_true hne)

/-! ### The invariant -/

structure TableInv (openFds : κ → Finset ℤ) (listening : ℤ) (s : TableRun κ)
    (conns : List Connection) : Prop extends TableBelow fdSetsize s.server conns where
  socket : s.server.socket = listening
  opened : ∀ fd ∈ serverFds s.server conns, fd ∈ openFds s.k
  held : ∀ c ∈ s.held, c ∈ conns

section
variable {M : Machine κ} {openFds : κ → Finset ℤ} {listening : ℤ}

theorem TableInv.holds {s : TableRun κ} {conns : List Connection}
    (h : TableInv openFds listening s conns) : s.server.Holds conns :=
  h.toTableBelow.holds (by decide)

theorem serverCreate_inv (laws : DescriptorLaws fdSetsize M openFds) {port backlog : ℤ} {k k' : κ}
    {server : Server} (h : serverCreate M port backlog k = (some server, k')) :
    TableInv openFds server.socket ⟨server, [], k'⟩ [] := by
  refine ⟨.create h, rfl, ?_, fun _ hc => absurd hc List.not_mem_nil⟩
  intro fd hfd
  rw [List.mem_singleton.mp hfd]
  exact laws.created h

/- Nothing but the machine moves on. -/
theorem TableInv.advance {s : TableRun κ} {conns : List Connection} {k : κ}
    (h : TableInv openFds listening s conns) (hk : openFds s.k ⊆ openFds k) :
    TableInv openFds listening ⟨s.server, s.held, k⟩ conns :=
  ⟨h.toTableBelow, h.socket, fun fd hfd => hk (h.opened fd hfd), h.held⟩

theorem TableInv.join {s : TableRun κ} {conns : List Connection} {clientSocket : ℤ} {p : ℕ} {k : κ}
    (h : TableInv openFds listening s conns) (hk : openFds s.k ⊆ openFds k)
    (hrange : 0 ≤ clientSocket ∧ clientSocket < fdSetsize) (hfresh : clientSocket ∉ openFds s.k)
    (hopen : clientSocket ∈ openFds k) :
    TableInv openFds listening
      ⟨{ s.server with
          readFdset := insert clientSocket s.server.readFdset
          connections := vectorPush s.server.connections ⟨clientSocket, some p⟩ },
        ⟨clientSocket, some p⟩ :: s.held, k⟩ (conns ++ [⟨clientSocket, some p⟩]) := by
  have hnew : clientSocket ∉ serverFds s.server conns := fun hmem => hfresh (h.opened _ hmem)
  refine ⟨h.toTableBelow.join p hrange hnew, h.socket, ?_, ?_⟩
  · intro fd hfd
    have hsplit : fd ∈ serverFds s.server conns ++ [clientSocket] :=
        serverFds_push s.server _ p ▸ hfd
    rcases List.mem_append.mp hsplit with hfd | hfd
    · exact hk (h.opened fd hfd)
    · rw [List.mem_singleton.mp hfd]
      exact hopen
  · intro c hc
    rcases List.mem_cons.mp hc with rfl | hc
    · exact List.mem_append_right _ (List.mem_singleton_self _)
    · exact List.mem_append_left _ (h.held c hc)

theorem TableInv.accept (laws : DescriptorLaws fdSetsize M openFds) {s : TableRun κ}
    {conns : List Connection} (h : TableInv openFds listening s conns) :
    ∃ r conns', serverAccept M s.server s.k = some r ∧
      TableInv openFds listening ⟨r.server, r.stored.toList ++ s.held, r.k⟩ conns' := by
  obtain ⟨r, hr, hout⟩ := serverAccept_outcome (M := M) (k := s.k) h.holds
  have hsel := fun n => laws.select_keeps s.k n s.server.readFdset
  cases hout with
  | stopped hstatus => exact ⟨_, conns, hr, h⟩
  | unready maxfds => exact ⟨_, conns, hr, h.advance (hsel maxfds)⟩
  | refused maxfds k₁ k₂ hk ha =>
    have hk₁ : openFds s.k ⊆ openFds k₁ := hk ▸ hsel maxfds
    have hk₂ := laws.accept_keeps (M.mallocInfo k₁).2 s.server.socket
    rw [ha] at hk₂
    exact ⟨_, conns, hr, h.advance ((hk₁.trans (laws.mallocInfo_keeps k₁)).trans hk₂)⟩
  | joined maxfds clientSocket k₁ k₂ hk ha =>
    have hk₁ : openFds s.k ⊆ openFds (M.mallocInfo k₁).2 :=
      (hk ▸ hsel maxfds : openFds s.k ⊆ openFds k₁).trans (laws.mallocInfo_keeps k₁)
    have hk₂ := laws.accept_keeps (M.mallocInfo k₁).2 s.server.socket
    rw [ha] at hk₂
    have hread := laws.readInfo_keeps k₂ (M.mallocInfo k₁).1
    obtain ⟨hlo, hhi, hfresh, hopen⟩ := laws.accept_fresh _ _ _ _ ha
    exact ⟨_, _, hr, h.join ((hk₁.trans hk₂).trans hread) ⟨hlo, hhi⟩
      (fun hmem => hfresh (hk₁ hmem)) (hread hopen)⟩
  | picked maxfds active k₁ stored hk hlisten hfirst =>
    have hk₁ : openFds s.k ⊆ openFds k₁ := by
      have := hsel maxfds
      rwa [hk] at this
    refine ⟨_, conns, hr, { h.advance hk₁ with held := ?_ }⟩
    intro c hc
    rcases List.mem_append.mp hc with hc | hc
    · have hstored : stored = some c := by simpa using hc
      rw [hfirst] at hstored
      exact List.mem_of_find?_eq_some hstored
    · exact h.held c hc

theorem TableInv.close (laws : DescriptorLaws fdSetsize M openFds) {s : TableRun κ}
    {conns : List Connection} (h : TableInv openFds listening s conns) {c : Connection}
    (hc : c ∈ s.held) :
    ∃ server k conns', serverCloseConnection M s.server c s.k = some (server, ⟨0, none⟩, k) ∧
      TableInv openFds listening ⟨server, withoutSocket s.held c.socket, k⟩ conns' := by
  obtain ⟨pre, post, rfl⟩ := List.append_of_mem (h.held c hc)
  obtain ⟨server', info, -, hbelow, hsocket, -, -, hclose⟩ :=
    h.toTableBelow.close M h.holds s.k
  refine ⟨server', _, pre ++ post, hclose, hbelow, hsocket.trans h.socket, ?_,
    withoutSocket_subset h.held without_keeps⟩
  -- every descriptor but the closed one survives the three calls
  intro fd hfd
  have hfd' : fd ∈ serverFds s.server (pre ++ post) := by
    rw [serverFds, ← hsocket]
    exact hfd
  obtain ⟨hne, hin⟩ := h.toTableBelow.others hfd'
  have hfree := laws.freeInfo_keeps s.k info (h.opened fd hin)
  exact laws.readInfo_keeps _ _ (laws.close_keeps _ _ (Finset.mem_erase.mpr ⟨hne, hfree⟩))

theorem TableInv.recv (laws : DescriptorLaws fdSetsize M openFds) {s t : TableRun κ}
    {conns : List Connection} (h : TableInv openFds listening s conns) {c : Connection}
    (hstep : tableStep M s (.recv c) = some t) : ∃ conns', TableInv openFds listening t conns' := by
  have hc : c ∈ s.held := tableStep_held (Or.inr rfl) hstep
  have hkeeps := connectionRecv_subset laws.recv_keeps c s.k
  rcases hr : connectionRecv M c s.k with ⟨_ | message, k₁⟩
  · rw [hr] at hkeeps
    obtain ⟨server, k₂, conns', hclose, hinv⟩ := (h.advance hkeeps).close laws (c := c) hc
    simp only [tableStep, if_pos hc, serverRecvMsg, hr, hclose, Option.bind_eq_bind,
      Option.bind_some, Option.some.injEq] at hstep
    exact ⟨conns', hstep ▸ hinv⟩
  · rw [hr] at hkeeps
    simp only [tableStep, if_pos hc, serverRecvMsg, hr, Option.bind_eq_bind, Option.bind_some,
      Option.some.injEq] at hstep
    exact ⟨conns, hstep ▸ h.advance hkeeps⟩

theorem tableStep_inv (laws : DescriptorLaws fdSetsize M openFds) (s : TableRun κ) (e : TableEvent)
    (t : TableRun κ) (hs : ∃ conns, TableInv openFds listening s conns)
    (hstep : tableStep M s e = some t) : ∃ conns, TableInv openFds listening t conns := by
  obtain ⟨conns, h⟩ := hs
  cases e with
  | accept =>
    obtain ⟨r, conns', hr, hinv⟩ := h.accept laws
    simp only [tableStep, hr, Option.bind_eq_bind, Option.bind_some, Option.some.injEq] at hstep
    exact ⟨conns', hstep ▸ hinv⟩
  | close c =>
    have hc : c ∈ s.held := tableStep_held (Or.inl rfl) hstep
    obtain ⟨server, k₁, conns', hclose, hinv⟩ := h.close laws hc
    simp only [tableStep, if_pos hc, hclose, Option.bind_eq_bind, Option.bind_some,
      Option.some.injEq] at hstep
    exact ⟨conns', hstep ▸ hinv⟩
  | recv c => exact h.recv laws hstep

/-- After every run the table holds distinct sockets, the watched set is the
listening socket with exactly those, and the next accept call, where it fails,
leaves both and the caller's connection alone. -/
theorem connection_table_invariant (laws : DescriptorLaws fdSetsize M openFds)
    {port backlog : ℤ} {k k' : κ} {server : Server}
    (hcreate : serverCreate M port backlog k = (some server, k'))
    {s : TableRun κ} (hrun : Reachable (tableStep M) ⟨server, [], k'⟩ s) :
    ∃ conns : List Connection,
      s.server.connections.contents = conns.map some ∧
      (conns.map Connection.socket).Nodup ∧
      s.server.readFdset = insert server.socket (conns.map Connection.socket).toFinset ∧
      ∃ r, serverAccept M s.server s.k = some r ∧
        (r.rv = -1 → r.stored = none ∧ r.server = s.server) := by
  obtain ⟨conns, h⟩ := hrun.invariant
    (I := fun t => ∃ conns, TableInv openFds server.socket t conns)
    (tableStep_inv laws) ⟨[], serverCreate_inv laws hcreate⟩
  obtain ⟨r, -, hr, -⟩ := h.accept laws
  have hfds := h.fdset
  rw [serverFds, h.socket, List.toFinset_cons] at hfds
  exact ⟨conns, h.contents, h.sockets_nodup, hfds, r, hr, serverAccept_err hr⟩

end

def oneClientServer : Server := ⟨3, 1, {3}, vectorInit Connection 0⟩

theorem smallKernel_created (clients : List ℤ) :
    serverCreate (smallKernel clients) 80 5 ∅ = (some oneClientServer, {3}) := rfl

/- Two clients join, the first is gone when it is received from, and its
descriptor is handed out again. -/
def rejoining : List TableEvent := [.accept, .accept, .recv ⟨4, some 0⟩, .accept]

theorem connection_table_rejoined :
    ∃ s, exec (tableStep (smallKernel [4, 5])) ⟨oneClientServer, [], {3}⟩ rejoining = some s ∧
      s.server.connections.contents = [some ⟨5, some 0⟩, some ⟨4, some 0⟩] ∧
      ∃ conns : List Connection,
        s.server.connections.contents = conns.map some ∧
        (conns.map Connection.socket).Nodup ∧
        s.server.readFdset =
          insert oneClientServer.socket (conns.map Connection.socket).toFinset ∧
        ∃ r, serverAccept (smallKernel [4, 5]) s.server s.k = some r ∧
          (r.rv = -1 → r.stored = none ∧ r.server = s.server) := by
  have hrun : (exec (tableStep (smallKernel [4, 5])) ⟨oneClientServer, [], {3}⟩ rejoining).map
      (fun s => s.server.connections.contents) =
        some [some ⟨5, some 0⟩, some ⟨4, some 0⟩] := by decide +kernel
  obtain ⟨s, hs, hcontents⟩ := Option.map_eq_some_iff.mp hrun
  exact ⟨s, hs, hcontents, connection_table_invariant (smallKernel_descriptors (by decide))
    (smallKernel_created [4, 5]) ⟨rejoining, hs⟩⟩

end Fws
