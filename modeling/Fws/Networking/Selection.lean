import Fws.Networking.Tracking

/-!
# What an accept call selects

The descriptor that `select` is asked up to, and the connection that the caller
is given.
-/

namespace Fws
open Base.Search

variable {κ : Type}

/- Among descriptors the comparison as `unsigned int` is the usual one. -/
theorem maxFd_eq {maxfds : ℤ} {conn : Connection} (h : 0 ≤ maxfds ∧ maxfds < fdLimit)
    (hc : 0 ≤ conn.socket ∧ conn.socket < fdLimit) :
    maxFd maxfds conn = max maxfds conn.socket := by
  unfold fdLimit at h hc
  have hleft : cUint maxfds = maxfds := Int.emod_eq_of_lt h.1 (by omega)
  have hright : cUint conn.socket = conn.socket := Int.emod_eq_of_lt hc.1 (by omega)
  rw [maxFd, hleft, hright]
  split <;> omega

theorem foldl_maxFd {conns : List Connection} {maxfds : ℤ} (h : 0 ≤ maxfds ∧ maxfds < fdLimit)
    (hconns : ∀ c ∈ conns, 0 ≤ c.socket ∧ c.socket < fdLimit) :
    maxfds ≤ conns.foldl maxFd maxfds ∧ ∀ c ∈ conns, c.socket ≤ conns.foldl maxFd maxfds := by
  induction conns generalizing maxfds with
  | nil => exact ⟨le_refl _, fun c hc => absurd hc List.not_mem_nil⟩
  | cons c conns ih =>
    have hc := hconns c (List.mem_cons_self ..)
    have hmax : maxFd maxfds c = max maxfds c.socket := maxFd_eq h hc
    have hrange : 0 ≤ max maxfds c.socket ∧ max maxfds c.socket < fdLimit :=
      ⟨le_max_of_le_left h.1, max_lt h.2 hc.2⟩
    obtain ⟨hle, hrest⟩ := ih hrange (fun d hd => hconns d (List.mem_cons_of_mem _ hd))
    rw [List.foldl_cons, hmax]
    refine ⟨le_trans (le_max_left _ _) hle, ?_⟩
    intro d hd
    rcases List.mem_cons.mp hd with rfl | hd
    · exact le_trans (le_max_right _ _) hle
    · exact hrest d hd

theorem lt_selectArg {server : Server} {conns : List Connection} (h : TableOk server conns) {d : ℤ}
    (hd : d ∈ server.readFdset) : d < selectArg server conns := by
  obtain ⟨hle, hrest⟩ := foldl_maxFd h.listener h.range
  rw [h.fdset, List.mem_toFinset] at hd
  apply Int.lt_add_one_of_le
  rcases List.mem_cons.mp hd with rfl | hd
  · exact hle
  · obtain ⟨c, hc, rfl⟩ := List.mem_map.mp hd
    exact hrest c hc

/- The new connection is the last of the table and the caller's. -/
structure TookIn (server : Server) (conns : List Connection) (r : Accepted (κ × Calls)) :
    Prop where
  joined : ∃ clientSocket info, Call.accept (some clientSocket) ∈ r.k.2 ∧
    r.stored = some ⟨clientSocket, some info⟩ ∧
    r.server.connections.contents = (conns ++ [(⟨clientSocket, some info⟩ : Connection)]).map some ∧
    r.server.readFdset = insert clientSocket server.readFdset
  socket : r.server.socket = server.socket
  status : r.server.status = server.status

/- The caller's is the first of the table that is ready. -/
structure Picked (server : Server) (conns : List Connection) (active : Finset ℤ)
    (r : Accepted (κ × Calls)) : Prop where
  first : ∃ pre conn post, conns = pre ++ conn :: post ∧ (∀ c ∈ pre, c.socket ∉ active) ∧
    conn.socket ∈ active ∧ r.stored = some conn
  server : r.server = server

theorem picked_of_ready {server : Server} {conns : List Connection} (h : TableOk server conns)
    {active : Finset ℤ} (hne : active.Nonempty) (hsub : active ⊆ server.readFdset)
    (hlisten : server.socket ∉ active) (k : κ × Calls) :
    Picked server conns active
      ⟨0, conns.find? fun conn => decide (conn.socket ∈ active), server, k⟩ := by
  obtain ⟨d, hd⟩ := hne
  have hmem := hsub hd
  rw [h.fdset, List.mem_toFinset] at hmem
  -- the reported descriptor is not the listening one, so it is one of the table
  have hready : ∃ conn ∈ conns, decide (conn.socket ∈ active) = true := by
    rcases List.mem_cons.mp hmem with rfl | hmem
    · exact absurd hd hlisten
    · obtain ⟨c, hc, rfl⟩ := List.mem_map.mp hmem
      exact ⟨c, hc, decide_eq_true hd⟩
  rcases hfind : conns.find? fun conn => decide (conn.socket ∈ active) with _ | conn
  · obtain ⟨c, hc, htest⟩ := hready
    exact absurd htest (List.find?_eq_none.mp hfind c hc)
  · obtain ⟨htest, pre, post, hsplit, hpre⟩ := List.find?_eq_some_iff_append.mp hfind
    refine ⟨⟨pre, conn, post, hsplit, ?_, of_decide_eq_true htest, hfind⟩, rfl⟩
    intro c hc hactive
    have hfalse := hpre c hc
    simp [hactive] at hfalse

/-- `select` is asked about every watched descriptor, and an accept call that
succeeds hands out the new connection or the first one that is ready. -/
theorem accept_selects_tracked (M : Machine κ) {server : Server} {conns : List Connection}
    (h : TableOk server conns) (k : κ)
    (hreports : ∀ n active k', M.select k n server.readFdset = (.ready active, k') →
      active.Nonempty ∧ active ⊆ server.readFdset) :
    ∃ r, serverAccept (traced M) server (k, []) = some r ∧
      (∀ maxfds fds, .select maxfds fds ∈ r.k.2 →
        fds = server.readFdset ∧ ∀ d ∈ fds, d < maxfds) ∧
      (r.rv = 0 → ∃ maxfds active k', M.select k maxfds server.readFdset = (.ready active, k') ∧
        ((server.socket ∈ active ∧ TookIn server conns r) ∨
          (server.socket ∉ active ∧ Picked server conns active r))) := by
  obtain ⟨r, hr, hcase⟩ := serverAccept_traced M h.holds (k, [])
  have hone : (-1 : ℤ) ≠ 0 := by decide
  have hasked : ∀ maxfds fds, maxfds = selectArg server conns ∧ fds = server.readFdset →
      fds = server.readFdset ∧ ∀ d ∈ fds, d < maxfds := by
    intro maxfds fds harg
    obtain ⟨rfl, rfl⟩ := harg
    exact ⟨rfl, fun d hd => lt_selectArg h hd⟩
  refine ⟨r, hr, ?_⟩
  cases hcase with
  | failed new k' hquiet hselect =>
    refine ⟨?_, fun hrv => absurd hrv hone⟩
    intro maxfds fds hcall
    rw [List.append_nil] at hcall
    exact hasked maxfds fds (hselect maxfds fds hcall)
  | joined active clientSocket k₁ k₂ hsel hlisten ha =>
    refine ⟨?_, fun _ => ⟨_, active, k₁, hsel, Or.inl ⟨hlisten, ⟨⟨clientSocket, records [], ?_, rfl,
      vectorPush_holds h.holds _, rfl⟩, rfl, rfl⟩⟩⟩⟩
    · intro maxfds fds hcall
      exact hasked maxfds fds (by simpa using hcall)
    · exact List.mem_cons_of_mem _ (List.mem_cons_self ..)
  | picked active k₁ hsel hlisten =>
    obtain ⟨hne, hsub⟩ := hreports _ _ _ hsel
    refine ⟨?_, fun _ => ⟨_, active, k₁, hsel,
      Or.inr ⟨hlisten, picked_of_ready h hne hsub hlisten _⟩⟩⟩
    intro maxfds fds hcall
    exact hasked maxfds fds (by simpa using hcall)

/- Three clients are connected, and the two that came last have sent something. -/
def threeClients : Server :=
  ⟨3, 1, {3, 4, 5, 6}, vectorPush (vectorPush (vectorPush (vectorInit Connection 0) ⟨4, some 0⟩)
    ⟨6, some 1⟩) ⟨5, some 2⟩⟩

def lastTwoReady : Machine (Finset ℤ) :=
  { smallKernel [] with select := fun k _ _ => (.ready {5, 6}, k) }

theorem threeClients_ok :
    TableOk threeClients [⟨4, some 0⟩, ⟨6, some 1⟩, ⟨5, some 2⟩] := by
  refine ⟨⟨by decide, by decide, by decide, by decide, ?_⟩, by decide⟩
  intro conn hconn
  simp only [List.mem_cons, List.not_mem_nil, or_false] at hconn
  rcases hconn with rfl | rfl | rfl
  · exact ⟨0, rfl⟩
  · exact ⟨1, rfl⟩
  · exact ⟨2, rfl⟩

/- The first of the two in the table is picked, although its descriptor is the
higher one. -/
theorem accept_selects_second_of_three :
    ∃ r, serverAccept (traced lastTwoReady) threeClients ({3, 4, 5, 6}, []) = some r ∧
      (r.rv = 0 ∧ r.stored = some ⟨6, some 1⟩) ∧
      (∀ maxfds fds, .select maxfds fds ∈ r.k.2 →
        fds = threeClients.readFdset ∧ ∀ d ∈ fds, d < maxfds) ∧
      (r.rv = 0 → ∃ maxfds active k',
        lastTwoReady.select {3, 4, 5, 6} maxfds threeClients.readFdset = (.ready active, k') ∧
        ((threeClients.socket ∈ active ∧
            TookIn threeClients [⟨4, some 0⟩, ⟨6, some 1⟩, ⟨5, some 2⟩] r) ∨
          (threeClients.socket ∉ active ∧
            Picked threeClients [⟨4, some 0⟩, ⟨6, some 1⟩, ⟨5, some 2⟩] active r))) := by
  have hreports : ∀ n active k',
      lastTwoReady.select {3, 4, 5, 6} n threeClients.readFdset = (.ready active, k') →
      active.Nonempty ∧ active ⊆ threeClients.readFdset := by
    intro n active k' hsel
    cases hsel
    exact ⟨by decide, by decide⟩
  have hpicks : (serverAccept (traced lastTwoReady) threeClients ({3, 4, 5, 6}, [])).map
      (fun r => (r.rv, r.stored)) = some (0, some ⟨6, some 1⟩) := by decide +kernel
  obtain ⟨r, hr, hasked, hselects⟩ :=
    accept_selects_tracked lastTwoReady threeClients_ok {3, 4, 5, 6} hreports
  rw [hr, Option.map_some, Option.some.injEq, Prod.mk.injEq] at hpicks
  exact ⟨r, hr, hpicks, hasked, hselects⟩

end Fws
