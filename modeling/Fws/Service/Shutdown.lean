import Fws.Base.Accounts
import Fws.Networking.Records
import Fws.Service.Current

/-!
# The end of a session (fws/fws.c, networking/client.c)

`fws_done` releases the records of the table, and closes no descriptor but the
listening one.
-/

namespace Fws
open Base.Digits Base.Runs Base.Accounts

variable {κ : Type}

def clientDestroy (M : Machine κ) (client : Client) (k : κ) : Option (ℤ × κ) :=
  if client.connection.socket ≠ invalidSocket then do
    let info ← client.connection.info
    let k := M.readInfo k info
    match M.closesocket k client.connection.socket with
    | (false, k) => some (-1, k)
    | (true, k) => some (0, connectionDestroy M client.connection k)
  else some (0, connectionDestroy M client.connection k)

/- A peer that is `NULL` is an error of both functions it is handed to. -/
def fwsDone (M : Machine κ) (ctx : FwsCtx) (k : κ) : Option (ℤ × κ) :=
  match ctx.peer with
  | .server none => some (retErr, k)
  | .server (some server) => do
    let (rv, k) ← serverDestroy M server k
    some (if rv ≠ 0 then retErr else retOk, k)
  | .client none => some (retErr, k)
  | .client (some client) => do
    let (rv, k) ← clientDestroy M client k
    some (if rv ≠ 0 then retErr else retOk, k)
  | .idle => some (retOk, k)

/- What a call does to a descriptor that is accepted. -/
def Call.entry : Call → Option (Entry ℤ)
  | .accept clientSocket => clientSocket.map .opened
  | .recv s => some (.used s)
  | .send s => some (.used s)
  | .close s => some (.closed s)
  | _ => none

def entries (calls : Calls) : List (Entry ℤ) := calls.filterMap Call.entry

/- Each descriptor that was accepted has been closed as often as it was
accepted, and was received from, sent to and closed only while it was open. -/
def ClosedOnce (calls : Calls) : Prop := AllClosed (entries calls) ∧ Proper (entries calls)

theorem quiet_entries {sockets : List ℤ} {new : Calls} (hquiet : ∀ call ∈ new, call.Quiet sockets) :
    ∀ e ∈ entries new, ∃ s ∈ sockets, e = .used s := by
  intro e he
  obtain ⟨call, hcall, hentry⟩ := List.mem_filterMap.mp he
  have hq := hquiet call hcall
  cases call with
  | recv s => exact ⟨s, hq, (Option.some.inj hentry).symm⟩
  | send s => exact ⟨s, hq, (Option.some.inj hentry).symm⟩
  | accept clientSocket =>
    obtain rfl : clientSocket = none := hq
    cases hentry
  | select maxfds fds => cases hentry
  | malloc p => cases hentry
  | close s => exact absurd hq id
  | free p => exact absurd hq id
  | read p => exact absurd hq id

theorem entries_append (new calls : Calls) :
    entries (new ++ calls) = entries new ++ entries calls :=
  List.filterMap_append

/-- The open descriptors that were accepted are those of the table. -/
theorem Moved.balanced {listening : ℤ} {conns conns' : List Connection} {calls calls' : Calls}
    {closing : Bool} (hmoved : Moved listening conns calls closing conns' calls')
    (h : Balanced (conns.map Connection.socket) (entries calls)) :
    Balanced (conns'.map Connection.socket) (entries calls') := by
  cases hmoved with
  | quiet new hquiet =>
    rw [entries_append]
    exact h.used_all (quiet_entries hquiet)
  | joined clientSocket maxfds fds hfresh =>
    rw [List.map_append]
    exact h.opened (fun hmem => hfresh (List.mem_cons_of_mem _ hmem))
  | closed pre post conn info new hconns hinfo hquiet =>
    have hquieted := h.used_all (quiet_entries hquiet)
    rw [← entries_append, hconns, List.map_append, List.map_cons] at hquieted
    rw [List.map_append]
    exact hquieted.closed

theorem opened_mem_entries {calls : Calls} {s : ℤ} (h : .opened s ∈ entries calls) :
    .accept (some s) ∈ calls := by
  obtain ⟨call, hcall, hentry⟩ := List.mem_filterMap.mp h
  cases call with
  | accept clientSocket =>
    obtain ⟨s', rfl, hopened⟩ := Option.map_eq_some_iff.mp hentry
    obtain rfl := Entry.opened.inj hopened
    exact hcall
  | recv s' => cases hentry
  | send s' => cases hentry
  | close s' => cases hentry
  | select maxfds fds => cases hentry
  | malloc p => cases hentry
  | free p => cases hentry
  | read p => cases hentry

theorem free_entries (ps : List ℕ) (calls : Calls) :
    entries ((ps.map Call.free).reverse ++ calls) = entries calls := by
  have hnone : entries (ps.map Call.free).reverse = [] := by
    apply List.filterMap_eq_nil_iff.mpr
    intro call hcall
    obtain ⟨p, -, rfl⟩ := List.mem_map.mp (List.mem_reverse.mp hcall)
    rfl
  rw [entries_append, hnone, List.nil_append]

/- The descriptors of the table are the open ones, and the listening one was
not accepted. -/
structure SessionBalanced (openFds : κ → Finset ℤ) (listening : ℤ) (s : Session (κ × Calls))
    (server : Server) (conns : List Connection) : Prop where
  ok : SessionOk openFds s server conns
  socket : server.socket = listening
  balanced : Balanced (conns.map Connection.socket) (entries s.k.2)
  apart : .accept (some listening) ∉ s.k.2

section
variable {M : Machine κ} {openFds : κ → Finset ℤ} {listening : ℤ} {s t : Session (κ × Calls)}
  {server : Server} {conns : List Connection}

theorem SessionBalanced.step (laws : KernelLaws M openFds)
    (h : SessionBalanced openFds listening s server conns) {e : SessionEvent}
    (hstep : sessionStep (traced M) s e = some t) :
    ∃ server' conns', SessionBalanced openFds listening t server' conns' := by
  obtain ⟨server', conns', hmoved⟩ := h.ok.step laws hstep
  obtain ⟨closing, hcalls⟩ := hmoved.moved
  refine ⟨server', conns', hmoved.ok, hmoved.socket.trans h.socket, hcalls.balanced h.balanced, ?_⟩
  intro hmem
  rcases (hcalls.accepted listening).mp hmem with hmem | ⟨conn, hin, -, hsocket⟩
  · exact h.apart hmem
  · apply hmoved.ok.tracked.ok.apart hin
    rw [hsocket, hmoved.socket, h.socket]

/-- Destroying the server leaves the descriptors of its table open. -/
theorem SessionBalanced.done_iff (h : SessionBalanced openFds listening s server conns) {rv : ℤ}
    {k : κ × Calls} (hdone : fwsDone (traced M) s.ctx s.k = some (rv, k)) :
    ClosedOnce k.2 ↔ s.ctx.table = [] := by
  obtain ⟨rv', k', hdestroy, hcalls⟩ := serverDestroy_calls M h.ok.tracked.ok s.k
  have hk : k'.2 = k.2 := by
    simp only [fwsDone, h.ok.peer, hdestroy, Option.bind_eq_bind, Option.bind_some,
      Option.some.injEq, Prod.mk.injEq] at hdone
    rw [hdone.2]
  have hentries : entries k.2 = .closed server.socket :: entries s.k.2 := by
    rw [← hk, hcalls, ← free_entries (infos conns) s.k.2]
    rfl
  have hnever : openings server.socket (entries s.k.2) = 0 := by
    apply List.count_eq_zero.mpr
    intro hmem
    rw [h.socket] at hmem
    exact h.apart (opened_mem_entries hmem)
  have htable : s.ctx.table = conns.map some := by
    simp only [FwsCtx.table, h.ok.peer, h.ok.tracked.ok.contents]
  rw [ClosedOnce, hentries, h.balanced.foreign_closed_iff hnever, htable, List.map_eq_nil_iff,
    List.map_eq_nil_iff]

end

/-- Every accepted descriptor is closed once in the sessions that end with
nobody connected: shutting down closes none of them. -/
theorem closed_once_iff {M : Machine κ} {openFds : κ → Finset ℤ} (laws : KernelLaws M openFds)
    {funcs : List FuncEntry} {port backlog : ℤ} {k : κ} {ctx : FwsCtx} {k' : κ × Calls}
    (hbind : fwsServerBind (traced M) (fwsServerSetFuncList fwsInit funcs) port backlog (k, []) =
      (retOk, ctx, k'))
    {es : List SessionEvent} {s : Session (κ × Calls)}
    (hrun : exec (sessionStep (traced M)) ⟨ctx, none, k'⟩ es = some s) {k'' : κ × Calls}
    (hdone : fwsDone (traced M) s.ctx s.k = some (retOk, k'')) :
    ClosedOnce k''.2 ↔ s.ctx.table = [] := by
  obtain ⟨server, hok, hcalls⟩ := SessionOk.start laws hbind
  have hstart : SessionBalanced openFds server.socket ⟨ctx, none, k'⟩ server [] := by
    refine ⟨hok, rfl, ?_, ?_⟩
    · dsimp only
      rw [hcalls]
      exact Balanced.start
    · dsimp only
      rw [hcalls]
      exact List.not_mem_nil
  have hinv := exec_invariant
    (I := fun s => ∃ server' conns, SessionBalanced openFds server.socket s server' conns)
    (fun s e t hs ht => ?_) ⟨server, [], hstart⟩ hrun
  · obtain ⟨server', conns, h⟩ := hinv
    exact h.done_iff hdone
  · obtain ⟨server', conns, h⟩ := hs
    exact h.step laws ht

/- The client was found to be gone before the shutdown. -/
theorem closed_once_gone_client :
    ∃ s k, exec (sessionStep (traced (smallKernel [4]))) ⟨boundCtx [], none, ({3}, [])⟩
        [.accept, .serve] = some s ∧
      fwsDone (traced (smallKernel [4])) s.ctx s.k = some (retOk, k) ∧
      (ClosedOnce k.2 ↔ s.ctx.table = []) := by
  have hrun : ((exec (sessionStep (traced (smallKernel [4]))) ⟨boundCtx [], none, ({3}, [])⟩
      [.accept, .serve]).bind fun s => (fwsDone (traced (smallKernel [4])) s.ctx s.k).map Prod.fst) =
        some retOk := by
    decide +kernel
  obtain ⟨s, hs, hdone⟩ := Option.bind_eq_some_iff.mp hrun
  obtain ⟨⟨rv, k⟩, hdone, rfl⟩ := Option.map_eq_some_iff.mp hdone
  exact ⟨s, k, hs, hdone, closed_once_iff (smallKernel_laws (by decide)) (smallKernel_bind [4] [])
    hs hdone⟩

/- A client is still connected at the shutdown. -/
theorem connected_client_is_left_open :
    ¬ ∀ (M : Machine (Finset ℤ)) (openFds : Finset ℤ → Finset ℤ), KernelLaws M openFds →
      ∀ (funcs : List FuncEntry) (port backlog : ℤ) (k : Finset ℤ) (ctx : FwsCtx)
        (k' : Finset ℤ × Calls),
      fwsServerBind (traced M) (fwsServerSetFuncList fwsInit funcs) port backlog (k, []) =
        (retOk, ctx, k') →
      ∀ (es : List SessionEvent) (s : Session (Finset ℤ × Calls)),
      exec (sessionStep (traced M)) ⟨ctx, none, k'⟩ es = some s →
      ∀ k'', fwsDone (traced M) s.ctx s.k = some (retOk, k'') → AllClosed (entries k''.2) := by
  intro h
  have hrun : ((exec (sessionStep (traced (smallKernel [4]))) ⟨boundCtx [], none, ({3}, [])⟩
      [.accept]).bind fun s => (fwsDone (traced (smallKernel [4])) s.ctx s.k).map fun p =>
        (p.1, openings 4 (entries p.2.2), closings 4 (entries p.2.2))) =
        some (retOk, 1, 0) := by
    decide +kernel
  obtain ⟨s, hs, hdone⟩ := Option.bind_eq_some_iff.mp hrun
  obtain ⟨⟨rv, k⟩, hdone, hcounts⟩ := Option.map_eq_some_iff.mp hdone
  obtain ⟨rfl, hcounts⟩ := Prod.mk.inj hcounts
  obtain ⟨hopened, hclosed⟩ := Prod.mk.inj hcounts
  have hall := h (smallKernel [4]) id (smallKernel_laws (by decide)) [] 80 5 ∅ _ _
    (smallKernel_bind [4] []) [.accept] s hs k hdone
  have heq := hall 4 (by rw [hopened]; exact one_ne_zero)
  rw [hopened, hclosed] at heq
  cases heq

end Fws
