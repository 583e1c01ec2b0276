import Fws.Networking.Server

/-!
# A table of connections and its descriptors

What every call keeps of a server, whatever the limit on its descriptors: they
are distinct, the watched set is made of them, and each connection has its
record.
-/

namespace Fws
open Base.Digits

variable {κ : Type}

def serverFds (server : Server) (conns : List Connection) : List ℤ :=
  server.socket :: conns.map Connection.socket

structure TableBelow (limit : ℤ) (server : Server) (conns : List Connection) : Prop where
  contents : server.connections.contents = conns.map some
  nodup : (serverFds server conns).Nodup
  fdset : server.readFdset = (serverFds server conns).toFinset
  range : ∀ conn ∈ conns, 0 ≤ conn.socket ∧ conn.socket < limit
  info : ∀ conn ∈ conns, ∃ p, conn.info = some p

/- The listening descriptor is below the limit, too. -/
structure ListeningTable (limit : ℤ) (server : Server) (conns : List Connection) : Prop
    extends TableBelow limit server conns where
  listener : 0 ≤ server.socket ∧ server.socket < limit

section
variable {limit : ℤ} {server : Server} {conns : List Connection}

theorem TableBelow.sockets_nodup (h : TableBelow limit server conns) :
    (conns.map Connection.socket).Nodup :=
  (List.nodup_cons.mp h.nodup).2

theorem TableBelow.apart (h : TableBelow limit server conns) {conn : Connection}
    (hc : conn ∈ conns) : conn.socket ≠ server.socket := by
  intro he
  apply (List.nodup_cons.mp h.nodup).1
  rw [← he]
  exact List.mem_map_of_mem hc

theorem TableBelow.watched (h : TableBelow limit server conns) {conn : Connection}
    (hc : conn ∈ conns) : conn.socket ∈ server.readFdset := by
  rw [h.fdset, List.mem_toFinset]
  exact List.mem_cons_of_mem _ (List.mem_map_of_mem hc)

theorem TableBelow.length_le (h : TableBelow limit server conns) :
    conns.length ≤ limit.toNat := by
  have hrange : ∀ s ∈ conns.map Connection.socket, 0 ≤ s ∧ s < limit := by
    intro s hs
    obtain ⟨conn, hconn, rfl⟩ := List.mem_map.mp hs
    exact h.range conn hconn
  have hlen := descriptors_length_le h.sockets_nodup hrange
  rwa [List.length_map] at hlen

theorem TableBelow.holds (h : TableBelow limit server conns) (hlimit : limit < 2 ^ 31) :
    server.Holds conns := by
  have hlen := h.length_le
  exact ⟨h.contents, by omega⟩

theorem ListeningTable.range_all (h : ListeningTable limit server conns) :
    ∀ s ∈ serverFds server conns, 0 ≤ s ∧ s < limit := by
  intro s hs
  rcases List.mem_cons.mp hs with rfl | hs
  · exact h.listener
  · obtain ⟨conn, hconn, rfl⟩ := List.mem_map.mp hs
    exact h.range conn hconn

/-- The listening descriptor is one more, so the table stays below the limit. -/
theorem ListeningTable.holds (h : ListeningTable limit server conns) (hlimit : limit ≤ 2 ^ 31) :
    server.Holds conns := by
  have hlen := descriptors_length_le h.nodup h.range_all
  rw [serverFds, List.length_cons, List.length_map] at hlen
  exact ⟨h.contents, by omega⟩

theorem TableBelow.create {M : Machine κ} {port backlog : ℤ} {k k' : κ}
    (h : serverCreate M port backlog k = (some server, k')) : TableBelow limit server [] := by
  obtain ⟨hholds, hfds, -⟩ := serverCreate_holds h
  exact ⟨hholds.contents, List.nodup_singleton _, hfds, fun _ hc => absurd hc List.not_mem_nil,
    fun _ hc => absurd hc List.not_mem_nil⟩

theorem serverFds_push (server : Server) (s : ℤ) (p : ℕ) :
    serverFds server (conns ++ [⟨s, some p⟩]) = serverFds server conns ++ [s] := by
  simp only [serverFds, List.map_append, List.map_cons, List.map_nil, List.cons_append]

theorem TableBelow.join (h : TableBelow limit server conns) {s : ℤ} (p : ℕ)
    (hs : 0 ≤ s ∧ s < limit) (hnew : s ∉ serverFds server conns) :
    TableBelow limit { server with
      readFdset := insert s server.readFdset
      connections := vectorPush server.connections ⟨s, some p⟩ } (conns ++ [⟨s, some p⟩]) := by
  have hfds : serverFds { server with
      readFdset := insert s server.readFdset
      connections := vectorPush server.connections ⟨s, some p⟩ } (conns ++ [⟨s, some p⟩]) =
      serverFds server conns ++ [s] := serverFds_push server s p
  refine ⟨?_, ?_, ?_, ?_, ?_⟩
  · rw [vectorPush_contents, h.contents, List.map_append]
    rfl
  · rw [hfds]
    refine List.Nodup.append h.nodup (List.nodup_singleton s) ?_
    intro x hx hxs
    rw [List.mem_singleton.mp hxs] at hx
    exact hnew hx
  · rw [hfds, List.toFinset_append, Finset.union_comm, ← h.fdset]
    rfl
  · intro conn hconn
    rcases List.mem_append.mp hconn with hconn | hconn
    · exact h.range conn hconn
    · rw [List.mem_singleton.mp hconn]
      exact hs
  · intro conn hconn
    rcases List.mem_append.mp hconn with hconn | hconn
    · exact h.info conn hconn
    · rw [List.mem_singleton.mp hconn]
      exact ⟨p, rfl⟩

theorem ListeningTable.join (h : ListeningTable limit server conns) {s : ℤ} (p : ℕ)
    (hs : 0 ≤ s ∧ s < limit) (hnew : s ∉ serverFds server conns) :
    ListeningTable limit { server with
      readFdset := insert s server.readFdset
      connections := vectorPush server.connections ⟨s, some p⟩ } (conns ++ [⟨s, some p⟩]) :=
  ⟨h.toTableBelow.join p hs hnew, h.listener⟩

/-- Closing a connection of the table takes it, and nothing else, out of the table. -/
theorem TableBelow.close (M : Machine κ) {pre post : List Connection} {conn : Connection}
    (h : TableBelow limit server (pre ++ conn :: post))
    (hholds : server.Holds (pre ++ conn :: post)) (k : κ) :
    ∃ server' info, conn.info = some info ∧ TableBelow limit server' (pre ++ post) ∧
      server'.socket = server.socket ∧ server'.status = server.status ∧
      server'.readFdset = server.readFdset.erase conn.socket ∧
      serverCloseConnection M server conn k = some (server', ⟨0, none⟩,
        M.readInfo (M.closesocket (M.freeInfo k info) conn.socket).2 info) := by
  have hmem : conn ∈ pre ++ conn :: post := List.mem_append_right _ (List.mem_cons_self ..)
  obtain ⟨info, hinfo⟩ := h.info conn hmem
  obtain ⟨-, -, hothers⟩ := split_nodup h.sockets_nodup
  have hvalid : conn.socket ≠ invalidSocket := by
    have hlow := (h.range conn hmem).1
    unfold invalidSocket
    omega
  obtain ⟨server', hholds', hsocket, hstatus, hfds, hclose⟩ :=
    serverCloseConnection_holds (M := M) (k := k) hholds
      (fun c hc => (hothers c (List.mem_append_left _ hc)).1) hinfo
  rw [if_pos hvalid] at hclose
  have hperm : (serverFds server (pre ++ conn :: post)).Perm
      (conn.socket :: serverFds server' (pre ++ post)) := by
    rw [serverFds, serverFds, hsocket, List.map_append, List.map_cons, List.map_append]
    exact (List.perm_middle.cons server.socket).trans (List.Perm.swap ..)
  obtain ⟨hout, hrest⟩ := List.nodup_cons.mp (hperm.nodup_iff.mp h.nodup)
  refine ⟨server', info, hinfo, ⟨hholds'.contents, hrest, ?_, ?_, ?_⟩, hsocket, hstatus, hfds,
    hclose⟩
  · rw [hfds, h.fdset, List.toFinset_eq_of_perm _ _ hperm, List.toFinset_cons,
      Finset.erase_insert]
    rwa [List.mem_toFinset]
  · exact fun c hc => h.range c (hothers c hc).2
  · exact fun c hc => h.info c (hothers c hc).2

theorem ListeningTable.close (M : Machine κ) {pre post : List Connection} {conn : Connection}
    (h : ListeningTable limit server (pre ++ conn :: post)) (hlimit : limit ≤ 2 ^ 31) (k : κ) :
    ∃ server' info, conn.info = some info ∧ ListeningTable limit server' (pre ++ post) ∧
      server'.socket = server.socket ∧ server'.status = server.status ∧
      server'.readFdset = server.readFdset.erase conn.socket ∧
      serverCloseConnection M server conn k = some (server', ⟨0, none⟩,
        M.readInfo (M.closesocket (M.freeInfo k info) conn.socket).2 info) := by
  obtain ⟨server', info, hinfo, hbelow, hsocket, hrest⟩ :=
    h.toTableBelow.close M (h.holds hlimit) k
  exact ⟨server', info, hinfo, ⟨hbelow, hsocket ▸ h.listener⟩, hsocket, hrest⟩

/-- What stays open when one connection of a table is closed. -/
theorem TableBelow.others {pre post : List Connection} {conn : Connection}
    (h : TableBelow limit server (pre ++ conn :: post)) {s : ℤ}
    (hs : s ∈ serverFds server (pre ++ post)) :
    s ≠ conn.socket ∧ s ∈ serverFds server (pre ++ conn :: post) := by
  have hmem : conn ∈ pre ++ conn :: post := List.mem_append_right _ (List.mem_cons_self ..)
  obtain ⟨-, -, hothers⟩ := split_nodup h.sockets_nodup
  rcases List.mem_cons.mp hs with rfl | hs
  · exact ⟨(h.apart hmem).symm, List.mem_cons_self ..⟩
  · obtain ⟨c, hc, rfl⟩ := List.mem_map.mp hs
    obtain ⟨hne, hin⟩ := hothers c hc
    exact ⟨hne, List.mem_cons_of_mem _ (List.mem_map_of_mem hin)⟩

end

/-! ### What the kernel promises about descriptors -/

/-- `openFds` are the descriptors the process has open. `accept` answers with
one below the limit that was not among them, and only `closesocket` takes one
away. -/
structure DescriptorLaws (limit : ℤ) (M : Machine κ) (openFds : κ → Finset ℤ) : Prop where
  socket_opens : ∀ k s k', M.socket k = (some s, k') → s ∈ openFds k'
  bind_keeps : ∀ k s port, openFds k ⊆ openFds (M.bind k s port).2
  listen_keeps : ∀ k s backlog, openFds k ⊆ openFds (M.listen k s backlog).2
  accept_fresh : ∀ k s c k', M.accept k s = (some c, k') →
    0 ≤ c ∧ c < limit ∧ c ∉ openFds k ∧ c ∈ openFds k'
  accept_keeps : ∀ k s, openFds k ⊆ openFds (M.accept k s).2
  select_keeps : ∀ k n fds, openFds k ⊆ openFds (M.select k n fds).2
  recv_keeps : ∀ k s n, openFds k ⊆ openFds (M.recv k s n).2
  mallocInfo_keeps : ∀ k, openFds k ⊆ openFds (M.mallocInfo k).2
  freeInfo_keeps : ∀ k p, openFds k ⊆ openFds (M.freeInfo k p)
  readInfo_keeps : ∀ k p, openFds k ⊆ openFds (M.readInfo k p)
  close_keeps : ∀ k s, (openFds k).erase s ⊆ openFds (M.closesocket k s).2

theorem DescriptorLaws.created {limit : ℤ} {M : Machine κ} {openFds : κ → Finset ℤ}
    (laws : DescriptorLaws limit M openFds) {port backlog : ℤ} {k k' : κ} {server : Server}
    (h : serverCreate M port backlog k = (some server, k')) : server.socket ∈ openFds k' := by
  obtain ⟨k₁, k₂, hs, hb, hl, -⟩ := serverCreate_some h
  have h1 := laws.socket_opens k server.socket k₁ hs
  have h2 := laws.bind_keeps k₁ server.socket (port % 2 ^ 16)
  have h3 := laws.listen_keeps k₂ server.socket backlog
  rw [hb] at h2
  rw [hl] at h3
  exact h3 (h2 h1)

/- A kernel that listens on 3 and hands out the first of some other descriptors
that is free. Every watched descriptor is always ready, and nothing is ever
received. -/
def smallKernel (clients : List ℤ) : Machine (Finset ℤ) :=
  { inertMachine (Finset ℤ) .little (fun _ _ => 0) with
    socket := fun k => (some 3, insert 3 k)
    bind := fun k _ _ => (true, k)
    listen := fun k _ _ => (true, k)
    select := fun k _ fds => if fds = ∅ then (.timeout, k) else (.ready fds, k)
    accept := fun k _ =>
      match clients.find? fun client => decide (client ∉ k) with
      | none => (none, k)
      | some client => (some client, insert client k)
    closesocket := fun k s => (true, k.erase s) }

theorem smallKernel_descriptors {limit : ℤ} {clients : List ℤ}
    (hclients : ∀ client ∈ clients, 0 ≤ client ∧ client < limit) :
    DescriptorLaws limit (smallKernel clients) id where
  socket_opens := by
    intro k s k' h
    cases h
    exact Finset.mem_insert_self 3 k
  bind_keeps := fun k _ _ => Finset.Subset.refl k
  listen_keeps := fun k _ _ => Finset.Subset.refl k
  accept_fresh := by
    intro k s c k' h
    simp only [smallKernel] at h
    rcases hfind : clients.find? fun client => decide (client ∉ k) with _ | client
    · rw [hfind] at h
      cases h
    · rw [hfind] at h
      cases h
      obtain ⟨hlow, hhigh⟩ := hclients c (List.mem_of_find?_eq_some hfind)
      have hfree := List.find?_some hfind
      exact ⟨hlow, hhigh, of_decide_eq_true hfree, Finset.mem_insert_self c k⟩
  accept_keeps := by
    intro k s
    simp only [smallKernel]
    split
    · exact Finset.Subset.refl k
    · exact Finset.subset_insert _ k
  select_keeps := by
    intro k n fds
    simp only [smallKernel]
    split_ifs
    · exact Finset.Subset.refl k
    · exact Finset.Subset.refl k
  recv_keeps := fun k _ _ => Finset.Subset.refl k
  mallocInfo_keeps := fun k => Finset.Subset.refl k
  freeInfo_keeps := fun k _ => Finset.Subset.refl k
  readInfo_keeps := fun k _ => Finset.Subset.refl k
  close_keeps := fun k s => Finset.Subset.refl (k.erase s)

end Fws
