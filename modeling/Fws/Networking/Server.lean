import Fws.Networking.Vector
import Fws.Networking.Connection
import Mathlib.Data.Int.Interval
import Mathlib.Data.Finset.Card

/-!
# The server side (networking/server.c)

A function whose result is an `Option` is `none` where the source follows a
pointer that is unset or `NULL`.
-/

namespace Fws
open Base.Digits Base.Cells Base.Search

structure Server where
  socket : ℤ
  status : ℤ
  readFdset : Finset ℤ
  connections : Vector Connection

variable {κ : Type}

def serverCreate (M : Machine κ) (port backlog : ℤ) (k : κ) : Option Server × κ :=
  let connections := vectorInit Connection 0
  match M.socket k with
  | (none, k) => (none, k)
  | (some socket, k) =>
    match M.bind k socket (port % 2 ^ 16) with
    | (false, k) => (none, k)
    | (true, k) =>
      match M.listen k socket backlog with
      | (false, k) => (none, k)
      | (true, k) => (some ⟨socket, 1, {socket}, connections⟩, k)

def serverDestroy (M : Machine κ) (server : Server) (k : κ) : Option (ℤ × κ) := do
  let connections := server.connections
  let k ← vectorFold connections (fun k conn => connectionDestroy M conn k) k 0
    (loopBound connections)
  if server.socket ≠ invalidSocket then
    match M.closesocket k server.socket with
    | (false, k) => some (-1, k)
    | (true, k) => some (0, k)
  else some (0, k)

/- What a call of `server_accept` leaves: its return value, what it stored to
the caller's connection (nothing, or both fields), the server and the machine. -/
structure Accepted (κ : Type) where
  rv : ℤ
  stored : Option Connection
  server : Server
  k : κ

def maxFd (maxfds : ℤ) (conn : Connection) : ℤ :=
  if cUint maxfds < cUint conn.socket then conn.socket else maxfds

def serverAccept (M : Machine κ) (server : Server) (k : κ) : Option (Accepted κ) :=
  if server.status = 0 then some ⟨-1, none, server, k⟩
  else do
    let connections := server.connections
    let maxfds ← vectorFold connections maxFd server.socket 0 (loopBound connections)
    match M.select k (maxfds + 1) server.readFdset with
    | (.error, k) => some ⟨-1, none, server, k⟩
    | (.timeout, k) => some ⟨-1, none, server, k⟩
    | (.ready activeFdset, k) =>
      if server.socket ∈ activeFdset then
        let (clientInfo, k) := M.mallocInfo k
        match M.accept k server.socket with
        | (none, k) => some ⟨-1, none, server, k⟩
        | (some clientSocket, k) =>
          let conn : Connection := ⟨clientSocket, some clientInfo⟩
          let readFdset := insert clientSocket server.readFdset
          let k := M.readInfo k clientInfo
          some ⟨0, some conn,
            { server with readFdset := readFdset, connections := vectorPush connections conn }, k⟩
      else do
        let found ← vectorFind connections (fun conn => decide (conn.socket ∈ activeFdset)) 0
          (loopBound connections)
        some ⟨0, found.map Prod.snd, server, k⟩

/- The caller's connection is zeroed. -/
def serverCloseConnection (M : Machine κ) (server : Server) (connection : Connection) (k : κ) :
    Option (Server × Connection × κ) := do
  let found ← vectorFind server.connections
    (fun conn => decide (conn.socket = connection.socket)) 0 (loopBound server.connections)
  let (connections, k) :=
    match found with
    | none => (server.connections, k)
    | some (i, conn) => (vectorRemove server.connections i, connectionDestroy M conn k)
  let readFdset := server.readFdset.erase connection.socket
  let k :=
    if connection.socket ≠ invalidSocket then (M.closesocket k connection.socket).2 else k
  let info ← connection.info
  let k := M.readInfo k info
  some ({ server with readFdset := readFdset, connections := connections }, ⟨0, none⟩, k)

def serverRecvMsg (M : Machine κ) (server : Server) (connection : Connection) (k : κ) :
    Option (Option Message × Server × Connection × κ) :=
  match connectionRecv M connection k with
  | (some message, k) => some (some message, server, connection, k)
  | (none, k) => do
    let (server, connection, k) ← serverCloseConnection M server connection k
    some (none, server, connection, k)

/- The result of `connection_send` is dropped. -/
def serverSendMsg (M : Machine κ) (message : Message) (connection : Connection) (k : κ) :
    Option (ℤ × κ) := do
  let (_, k) ← connectionSend M connection message k
  some (0, k)

/-! ### What each call does to a table of connections -/

/-- The slots in use hold exactly these connections. -/
structure Server.Holds (server : Server) (conns : List Connection) : Prop where
  contents : server.connections.contents = conns.map some
  bound : conns.length < 2 ^ 31

section
variable {M : Machine κ} {server : Server} {conns : List Connection} {k : κ}

/-- A server that was created has gone through all three calls. -/
theorem serverCreate_some {port backlog : ℤ} {k' : κ}
    (h : serverCreate M port backlog k = (some server, k')) :
    ∃ k₁ k₂, M.socket k = (some server.socket, k₁) ∧
      M.bind k₁ server.socket (port % 2 ^ 16) = (true, k₂) ∧
      M.listen k₂ server.socket backlog = (true, k') ∧
      server = ⟨server.socket, 1, {server.socket}, vectorInit Connection 0⟩ := by
  unfold serverCreate at h
  rcases hs : M.socket k with ⟨_ | socket, k₁⟩
  · rw [hs] at h
    cases h
  · rcases hb : M.bind k₁ socket (port % 2 ^ 16) with ⟨_ | _, k₂⟩
    · simp only [hs, hb] at h
      cases h
    · rcases hl : M.listen k₂ socket backlog with ⟨_ | _, k₃⟩
      · simp only [hs, hb, hl] at h
        cases h
      · simp only [hs, hb, hl] at h
        cases h
        exact ⟨k₁, k₂, rfl, hb, hl, rfl⟩

theorem serverCreate_holds {port backlog : ℤ} {k' : κ}
    (h : serverCreate M port backlog k = (some server, k')) :
    server.Holds [] ∧ server.readFdset = {server.socket} ∧ server.status = 1 := by
  obtain ⟨k₁, k₂, -, -, -, hserver⟩ := serverCreate_some h
  rw [hserver]
  exact ⟨⟨vectorInit_contents 0, by decide⟩, rfl, rfl⟩

theorem vectorPush_holds (h : server.Holds conns) (conn : Connection) :
    (vectorPush server.connections conn).contents = (conns ++ [conn]).map some := by
  rw [vectorPush_contents, h.contents, List.map_append]
  rfl

theorem vectorRemove_holds {pre post : List Connection} {conn : Connection}
    (h : server.Holds (pre ++ conn :: post)) :
    (vectorRemove server.connections pre.length).contents = (pre ++ post).map some := by
  have hlt : pre.length < (pre ++ conn :: post).length := by
    rw [List.length_append, List.length_cons]
    omega
  have hin := inbounds_of_contents h.contents h.bound hlt
  have herase : (pre ++ conn :: post).eraseIdx pre.length = pre ++ post := by
    rw [List.eraseIdx_append_of_length_le (Nat.le_refl _), Nat.sub_self, List.eraseIdx_cons_zero]
  rw [vectorRemove_contents _ _ hin, h.contents, ← herase, ← List.eraseIdx_map]

theorem without_subset {pre post : List Connection} {conn : Connection} :
    ∀ c ∈ pre ++ post, c ∈ pre ++ conn :: post := by
  intro c hc
  rcases List.mem_append.mp hc with hc | hc
  · exact List.mem_append_left _ hc
  · exact List.mem_append_right _ (List.mem_cons_of_mem _ hc)

theorem without_keeps {pre post : List Connection} {conn : Connection} :
    ∀ c ∈ pre ++ conn :: post, c.socket ≠ conn.socket → c ∈ pre ++ post := by
  intro c hc hne
  rcases List.mem_append.mp hc with hc | hc
  · exact List.mem_append_left _ hc
  · rcases List.mem_cons.mp hc with rfl | hc
    · exact absurd rfl hne
    · exact List.mem_append_right _ hc

/-- Taking a connection out of a table with distinct sockets leaves the others,
and no other one has its socket. -/
theorem split_nodup {pre post : List Connection} {conn : Connection}
    (h : ((pre ++ conn :: post).map Connection.socket).Nodup) :
    ((pre ++ post).map Connection.socket).Nodup ∧
      conn.socket ∉ (pre ++ post).map Connection.socket ∧
      ∀ d ∈ pre ++ post, d.socket ≠ conn.socket ∧ d ∈ pre ++ conn :: post := by
  rw [List.map_append, List.map_cons, List.nodup_middle, List.nodup_cons, ← List.map_append] at h
  obtain ⟨hout, hrest⟩ := h
  refine ⟨hrest, hout, ?_⟩
  intro d hd
  refine ⟨?_, without_subset d hd⟩
  intro he
  exact hout (he ▸ List.mem_map_of_mem hd)

/-- Distinct descriptors are no more than there are. -/
theorem descriptors_length_le {fds : List ℤ} {bound : ℤ} (hn : fds.Nodup)
    (hr : ∀ s ∈ fds, 0 ≤ s ∧ s < bound) : fds.length ≤ bound.toNat := by
  have hsub : fds.toFinset ⊆ Finset.Ico 0 bound := by
    intro s hs
    exact Finset.mem_Ico.mpr (hr s (List.mem_toFinset.mp hs))
  have hcard := Finset.card_le_card hsub
  rw [List.toFinset_card_of_nodup hn, Int.card_Ico, sub_zero] at hcard
  exact hcard

/-- A call that returns `-1` changes nothing but the machine. -/
theorem serverAccept_err {r : Accepted κ} (h : serverAccept M server k = some r)
    (hrv : r.rv = -1) : r.stored = none ∧ r.server = server := by
  unfold serverAccept at h
  by_cases hstatus : server.status = 0
  · rw [if_pos hstatus] at h
    cases h
    exact ⟨rfl, rfl⟩
  · rw [if_neg hstatus] at h
    obtain ⟨maxfds, -, h⟩ := Option.bind_eq_some_iff.mp h
    rcases hsel : M.select k (maxfds + 1) server.readFdset with ⟨_ | _ | active, k₁⟩
    · simp only [hsel] at h
      cases h
      exact ⟨rfl, rfl⟩
    · simp only [hsel] at h
      cases h
      exact ⟨rfl, rfl⟩
    · by_cases hlisten : server.socket ∈ active
      · simp only [hsel, if_pos hlisten] at h
        rcases hacc : M.accept (M.mallocInfo k₁).2 server.socket with ⟨_ | clientSocket, k₂⟩
        · simp only [hacc] at h
          cases h
          exact ⟨rfl, rfl⟩
        · simp only [hacc] at h
          cases h
          exact absurd hrv (by simp)
      · simp only [hsel, if_neg hlisten] at h
        obtain ⟨found, -, h⟩ := Option.bind_eq_some_iff.mp h
        cases h
        exact absurd hrv (by simp)

/- The first argument of `select`. -/
def selectArg (server : Server) (conns : List Connection) : ℤ :=
  conns.foldl maxFd server.socket + 1

/-- Every way that `server_accept` goes on a table, with what it asks of the system. -/
inductive AcceptCase (M : Machine κ) (server : Server) (conns : List Connection) (k : κ) :
    Accepted κ → Prop where
  | stopped (h : server.status = 0) : AcceptCase M server conns k ⟨-1, none, server, k⟩
  | unready (reported : SelectResult) (k₁ : κ) (hrunning : server.status ≠ 0)
      (hsel : M.select k (selectArg server conns) server.readFdset = (reported, k₁))
      (hnone : ∀ active, reported ≠ .ready active) :
      AcceptCase M server conns k ⟨-1, none, server, k₁⟩
  | refused (active : Finset ℤ) (k₁ k₂ : κ) (hrunning : server.status ≠ 0)
      (hsel : M.select k (selectArg server conns) server.readFdset = (.ready active, k₁))
      (hlisten : server.socket ∈ active)
      (ha : M.accept (M.mallocInfo k₁).2 server.socket = (none, k₂)) :
      AcceptCase M server conns k ⟨-1, none, server, k₂⟩
  | joined (active : Finset ℤ) (clientSocket : ℤ) (k₁ k₂ : κ) (hrunning : server.status ≠ 0)
      (hsel : M.select k (selectArg server conns) server.readFdset = (.ready active, k₁))
      (hlisten : server.socket ∈ active)
      (ha : M.accept (M.mallocInfo k₁).2 server.socket = (some clientSocket, k₂)) :
      AcceptCase M server conns k
        ⟨0, some ⟨clientSocket, some (M.mallocInfo k₁).1⟩,
          { server with
            readFdset := insert clientSocket server.readFdset
            connections := vectorPush server.connections
              ⟨clientSocket, some (M.mallocInfo k₁).1⟩ },
          M.readInfo k₂ (M.mallocInfo k₁).1⟩
  | picked (active : Finset ℤ) (k₁ : κ) (hrunning : server.status ≠ 0)
      (hsel : M.select k (selectArg server conns) server.readFdset = (.ready active, k₁))
      (hlisten : server.socket ∉ active) :
      AcceptCase M server conns k
        ⟨0, conns.find? fun conn => decide (conn.socket ∈ active), server, k₁⟩

theorem serverAccept_case (h : server.Holds conns) :
    ∃ r, serverAccept M server k = some r ∧ AcceptCase M server conns k r := by
  unfold serverAccept
  by_cases hstatus : server.status = 0
  · rw [if_pos hstatus]
    exact ⟨_, rfl, .stopped hstatus⟩
  · rw [if_neg hstatus]
    simp only [Option.bind_eq_bind, vectorFold_all h.contents h.bound, Option.bind_some]
    have harg : conns.foldl maxFd server.socket + 1 = selectArg server conns := rfl
    rw [harg]
    rcases hsel : M.select k (selectArg server conns) server.readFdset with
      ⟨_ | _ | active, k₁⟩
    · exact ⟨_, rfl, .unready .error k₁ hstatus hsel (by simp)⟩
    · exact ⟨_, rfl, .unready .timeout k₁ hstatus hsel (by simp)⟩
    · by_cases hlisten : server.socket ∈ active
      · simp only [if_pos hlisten]
        rcases hacc : M.accept (M.mallocInfo k₁).2 server.socket with ⟨_ | clientSocket, k₂⟩
        · exact ⟨_, rfl, .refused active k₁ k₂ hstatus hsel hlisten hacc⟩
        · exact ⟨_, rfl, .joined active clientSocket k₁ k₂ hstatus hsel hlisten hacc⟩
      · simp only [if_neg hlisten]
        rw [vectorFind_all h.contents h.bound, Option.bind_some, firstMatch_snd]
        exact ⟨_, rfl, .picked active k₁ hstatus hsel hlisten⟩

/-- What `server_accept` can do on a table: fail, take in a new connection, or
hand out one of the table whose descriptor was reported. -/
inductive AcceptOutcome (M : Machine κ) (server : Server) (conns : List Connection) (k : κ) :
    Accepted κ → Prop where
  | stopped (h : server.status = 0) : AcceptOutcome M server conns k ⟨-1, none, server, k⟩
  | unready (maxfds : ℤ) :
      AcceptOutcome M server conns k ⟨-1, none, server, (M.select k maxfds server.readFdset).2⟩
  | refused (maxfds : ℤ) (k₁ k₂ : κ) (hk : k₁ = (M.select k maxfds server.readFdset).2)
      (ha : M.accept (M.mallocInfo k₁).2 server.socket = (none, k₂)) :
      AcceptOutcome M server conns k ⟨-1, none, server, k₂⟩
  | joined (maxfds clientSocket : ℤ) (k₁ k₂ : κ)
      (hk : k₁ = (M.select k maxfds server.readFdset).2)
      (ha : M.accept (M.mallocInfo k₁).2 server.socket = (some clientSocket, k₂)) :
      AcceptOutcome M server conns k
        ⟨0, some ⟨clientSocket, some (M.mallocInfo k₁).1⟩,
          { server with
            readFdset := insert clientSocket server.readFdset
            connections := vectorPush server.connections
              ⟨clientSocket, some (M.mallocInfo k₁).1⟩ },
          M.readInfo k₂ (M.mallocInfo k₁).1⟩
  | picked (maxfds : ℤ) (active : Finset ℤ) (k₁ : κ) (stored : Option Connection)
      (hk : M.select k maxfds server.readFdset = (.ready active, k₁))
      (hlisten : server.socket ∉ active)
      (hfirst : stored = conns.find? fun conn => decide (conn.socket ∈ active)) :
      AcceptOutcome M server conns k ⟨0, stored, server, k₁⟩

theorem serverAccept_outcome (h : server.Holds conns) :
    ∃ r, serverAccept M server k = some r ∧ AcceptOutcome M server conns k r := by
  obtain ⟨r, hr, hcase⟩ := serverAccept_case (M := M) (k := k) h
  refine ⟨r, hr, ?_⟩
  have hstate : ∀ {reported k₁},
      M.select k (selectArg server conns) server.readFdset = (reported, k₁) →
      k₁ = (M.select k (selectArg server conns) server.readFdset).2 := by
    intro reported k₁ hsel
    rw [hsel]
  cases hcase with
  | stopped hstatus => exact .stopped hstatus
  | unready reported k₁ hrunning hsel hnone =>
    rw [hstate hsel]
    exact .unready _
  | refused active k₁ k₂ hrunning hsel hlisten ha => exact .refused _ k₁ k₂ (hstate hsel) ha
  | joined active clientSocket k₁ k₂ hrunning hsel hlisten ha =>
    exact .joined _ clientSocket k₁ k₂ (hstate hsel) ha
  | picked active k₁ hrunning hsel hlisten => exact .picked _ active k₁ _ hsel hlisten rfl

/-- Closing a connection of a table with distinct sockets takes it, and nothing
else, out of the table. -/
theorem serverCloseConnection_holds {pre post : List Connection} {conn : Connection} {info : ℕ}
    (h : server.Holds (pre ++ conn :: post))
    (hpre : ∀ c ∈ pre, c.socket ≠ conn.socket) (hinfo : conn.info = some info) :
    ∃ server', server'.Holds (pre ++ post) ∧ server'.socket = server.socket ∧
      server'.status = server.status ∧
      server'.readFdset = server.readFdset.erase conn.socket ∧
      serverCloseConnection M server conn k = some (server', ⟨0, none⟩,
        M.readInfo (if conn.socket ≠ invalidSocket then
          (M.closesocket (M.freeInfo k info) conn.socket).2 else M.freeInfo k info) info) := by
  have hfind : vectorFind server.connections
      (fun c => decide (c.socket = conn.socket)) 0 (loopBound server.connections) =
        some (some (pre.length, conn)) := by
    rw [vectorFind_all h.contents h.bound, firstMatch_split _ pre post conn 0 (by simp)
      (by simpa using hpre), Nat.zero_add]
  have hbound := h.bound
  rw [List.length_append, List.length_cons] at hbound
  have hcontents := vectorRemove_holds h
  refine ⟨⟨server.socket, server.status, server.readFdset.erase conn.socket,
    vectorRemove server.connections pre.length⟩, ⟨?_, ?_⟩, rfl, rfl, rfl, ?_⟩
  · dsimp only
    exact hcontents
  · rw [List.length_append]
    omega
  · simp only [serverCloseConnection, hfind, Option.bind_eq_bind, Option.bind_some, hinfo,
      connectionDestroy]

end

end Fws
