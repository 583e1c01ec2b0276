import Fws.Networking.Server

/-!
# The calls of a run

A machine that keeps what it is asked for, the latest call first. The records
that hold peer addresses are named by the order of their allocation, so that a
name is never given twice.
-/

namespace Fws
open Base.Digits

inductive Call where
  | recv (socket : ℤ)
  | send (socket : ℤ)
  | select (maxfds : ℤ) (fds : Finset ℤ)
  | accept (clientSocket : Option ℤ)
  | close (socket : ℤ)
  | malloc (info : ℕ)
  | free (info : ℕ)
  | read (info : ℕ)
  deriving DecidableEq

abbrev Calls := List Call

def Call.allocates : Call → Bool
  | .malloc _ => true
  | _ => false

def records (calls : Calls) : ℕ := calls.countP Call.allocates

theorem records_cons (call : Call) (calls : Calls) :
    records (call :: calls) = records calls + if call.allocates then 1 else 0 :=
  List.countP_cons

variable {κ : Type}

def traced (M : Machine κ) : Machine (κ × Calls) where
  order := M.order
  held k := M.held k.1
  recv k s n :=
    let (got, k') := M.recv k.1 s n
    (got, k', .recv s :: k.2)
  send k s bs :=
    let (count, k') := M.send k.1 s bs
    (count, k', .send s :: k.2)
  socket k :=
    let (s, k') := M.socket k.1
    (s, k', k.2)
  bind k s port :=
    let (ok, k') := M.bind k.1 s port
    (ok, k', k.2)
  listen k s backlog :=
    let (ok, k') := M.listen k.1 s backlog
    (ok, k', k.2)
  select k maxfds fds :=
    let (reported, k') := M.select k.1 maxfds fds
    (reported, k', .select maxfds fds :: k.2)
  accept k s :=
    let (clientSocket, k') := M.accept k.1 s
    (clientSocket, k', .accept clientSocket :: k.2)
  closesocket k s :=
    let (ok, k') := M.closesocket k.1 s
    (ok, k', .close s :: k.2)
  mallocInfo k := (records k.2, (M.mallocInfo k.1).2, .malloc (records k.2) :: k.2)
  freeInfo k info := (M.freeInfo k.1 info, .free info :: k.2)
  readInfo k info := (M.readInfo k.1 info, .read info :: k.2)

/- Calls that neither open nor close a descriptor, nor release or read a record;
what they transfer goes over one of these sockets. -/
def Call.Quiet (sockets : List ℤ) : Call → Prop
  | .recv s => s ∈ sockets
  | .send s => s ∈ sockets
  | .select _ _ => True
  | .accept clientSocket => clientSocket = none
  | .malloc _ => True
  | _ => False

theorem Call.Quiet.mono {sockets sockets' : List ℤ} (hsub : sockets ⊆ sockets') {call : Call}
    (h : call.Quiet sockets) : call.Quiet sockets' := by
  cases call with
  | recv s => exact hsub h
  | send s => exact hsub h
  | _ => exact h

section
variable {M : Machine κ} {k k' : κ × Calls}

theorem traced_select {maxfds : ℤ} {fds : Finset ℤ} {reported : SelectResult}
    (h : (traced M).select k maxfds fds = (reported, k')) :
    M.select k.1 maxfds fds = (reported, k'.1) ∧ k'.2 = .select maxfds fds :: k.2 := by
  obtain ⟨hreported, rfl⟩ := Prod.mk.inj h
  exact ⟨Prod.ext hreported rfl, rfl⟩

theorem traced_accept {s : ℤ} {clientSocket : Option ℤ}
    (h : (traced M).accept k s = (clientSocket, k')) :
    M.accept k.1 s = (clientSocket, k'.1) ∧ k'.2 = .accept clientSocket :: k.2 := by
  obtain ⟨rfl, rfl⟩ := Prod.mk.inj h
  exact ⟨rfl, rfl⟩

end

section
variable (M : Machine κ) (c : Connection)

/-- A receive is one call or two on its socket. -/
theorem connectionRecv_calls (k : κ × Calls) :
    ∃ new : Calls, (connectionRecv (traced M) c k).2.2 = new ++ .recv c.socket :: k.2 ∧
      ∀ call ∈ new, call = .recv c.socket := by
  refine connectionRecv_lift (R := fun k' : κ × Calls => ∃ new : Calls,
    k'.2 = new ++ .recv c.socket :: k.2 ∧ ∀ call ∈ new, call = .recv c.socket) ?_ ?_
  · exact ⟨[], rfl, fun _ h => absurd h List.not_mem_nil⟩
  · intro k₁ n hcalled
    obtain ⟨new, hcalls, hnew⟩ := hcalled
    refine ⟨.recv c.socket :: new, ?_, ?_⟩
    · show .recv c.socket :: k₁.2 = _
      rw [hcalls, List.cons_append]
    · intro call hcall
      rcases List.mem_cons.mp hcall with rfl | hcall
      · rfl
      · exact hnew call hcall

theorem connectionSend_calls {m : Message} {k k' : κ × Calls} {rv : ℤ}
    (h : connectionSend (traced M) c m k = some (rv, k')) :
    ∃ new : Calls, k'.2 = new ++ k.2 ∧ ∀ call ∈ new, call = .send c.socket := by
  refine connectionSend_lift (R := fun k' : κ × Calls => ∃ new : Calls, k'.2 = new ++ k.2 ∧
    ∀ call ∈ new, call = .send c.socket) ?_ ?_ h
  · intro k₁ bs hcalled
    obtain ⟨new, hcalls, hnew⟩ := hcalled
    refine ⟨.send c.socket :: new, ?_, ?_⟩
    · show .send c.socket :: k₁.2 = _
      rw [hcalls, List.cons_append]
    · intro call hcall
      rcases List.mem_cons.mp hcall with rfl | hcall
      · rfl
      · exact hnew call hcall
  · exact ⟨[], rfl, fun _ h => absurd h List.not_mem_nil⟩

end

/-! ### The calls of an accept -/

inductive TracedAccept (M : Machine κ) (server : Server) (conns : List Connection)
    (k : κ × Calls) : Accepted (κ × Calls) → Prop where
  | failed (new : Calls) (k' : κ) (hquiet : ∀ call ∈ new, call.Quiet [])
      (hselect : ∀ maxfds fds, .select maxfds fds ∈ new →
        maxfds = selectArg server conns ∧ fds = server.readFdset) :
      TracedAccept M server conns k ⟨-1, none, server, k', new ++ k.2⟩
  | joined (active : Finset ℤ) (clientSocket : ℤ) (k₁ k₂ : κ)
      (hsel : M.select k.1 (selectArg server conns) server.readFdset = (.ready active, k₁))
      (hlisten : server.socket ∈ active)
      (ha : M.accept (M.mallocInfo k₁).2 server.socket = (some clientSocket, k₂)) :
      TracedAccept M server conns k
        ⟨0, some ⟨clientSocket, some (records k.2)⟩,
          { server with
            readFdset := insert clientSocket server.readFdset
            connections := vectorPush server.connections ⟨clientSocket, some (records k.2)⟩ },
          M.readInfo k₂ (records k.2),
          .read (records k.2) :: .accept (some clientSocket) :: .malloc (records k.2) ::
            .select (selectArg server conns) server.readFdset :: k.2⟩
  | picked (active : Finset ℤ) (k₁ : κ)
      (hsel : M.select k.1 (selectArg server conns) server.readFdset = (.ready active, k₁))
      (hlisten : server.socket ∉ active) :
      TracedAccept M server conns k
        ⟨0, conns.find? fun conn => decide (conn.socket ∈ active), server, k₁,
          .select (selectArg server conns) server.readFdset :: k.2⟩

theorem serverAccept_traced (M : Machine κ) {server : Server} {conns : List Connection}
    (h : server.Holds conns) (k : κ × Calls) :
    ∃ r, serverAccept (traced M) server k = some r ∧ TracedAccept M server conns k r := by
  obtain ⟨r, hr, hcase⟩ := serverAccept_case (M := traced M) (k := k) h
  refine ⟨r, hr, ?_⟩
  cases hcase with
  | stopped hstatus =>
    exact .failed [] k.1 (fun _ hc => absurd hc List.not_mem_nil)
      (fun _ _ hc => absurd hc List.not_mem_nil)
  | unready reported k₁ hrunning hsel hnone =>
    obtain ⟨-, hcalls⟩ := traced_select hsel
    obtain ⟨k', calls⟩ := k₁
    dsimp only at hcalls
    subst hcalls
    refine .failed [.select (selectArg server conns) server.readFdset] k' ?_ ?_
    · intro call hc
      rw [List.mem_singleton.mp hc]
      exact trivial
    · intro maxfds fds hc
      exact Call.select.inj (List.mem_singleton.mp hc)
  | refused active k₁ k₂ hrunning hsel hlisten ha =>
    obtain ⟨-, hcalls⟩ := traced_select hsel
    obtain ⟨-, hcalls'⟩ := traced_accept ha
    obtain ⟨k', calls⟩ := k₁
    obtain ⟨k'', calls'⟩ := k₂
    dsimp only [traced] at hcalls hcalls'
    subst hcalls hcalls'
    refine .failed [.accept none, .malloc _, .select (selectArg server conns) server.readFdset]
      k'' ?_ ?_
    · intro call hc
      rcases List.mem_cons.mp hc with rfl | hc
      · exact rfl
      · rcases List.mem_cons.mp hc with rfl | hc
        · exact trivial
        · rw [List.mem_singleton.mp hc]
          exact trivial
    · intro maxfds fds hc
      simpa using hc
  | joined active clientSocket k₁ k₂ hrunning hsel hlisten ha =>
    obtain ⟨hsel', hcalls⟩ := traced_select hsel
    obtain ⟨ha', hcalls'⟩ := traced_accept ha
    obtain ⟨k', calls⟩ := k₁
    obtain ⟨k'', calls'⟩ := k₂
    dsimp only [traced] at hcalls hcalls' hsel' ha'
    subst hcalls hcalls'
    have hname : records (.select (selectArg server conns) server.readFdset :: k.2) =
        records k.2 := records_cons _ _
    have hjoined := TracedAccept.joined (k := k) active clientSocket k' k'' hsel' hlisten ha'
    rw [← hname] at hjoined
    exact hjoined
  | picked active k₁ hrunning hsel hlisten =>
    obtain ⟨hsel', hcalls⟩ := traced_select hsel
    obtain ⟨k', calls⟩ := k₁
    dsimp only at hcalls hsel'
    subst hcalls
    exact .picked active k' hsel' hlisten

end Fws
