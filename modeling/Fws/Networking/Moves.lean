import Fws.Base.Runs
import Fws.Networking.ConnectionTable
import Fws.Networking.Tracking

/-!
# The server as its connections and its calls

An abstract server: a list of connections and the calls so far. It transfers,
takes in a connection or closes one, and this is all that the functions of
`server.c` do to a tracked table.
-/

namespace Fws
open Base.Digits Base.Runs

/- A closed connection has its record released and its descriptor closed; the
record is read once more for the message. -/
inductive Moved (listening : ℤ) (conns : List Connection) (calls : Calls) :
    Bool → List Connection → Calls → Prop where
  | quiet (new : Calls) (hquiet : ∀ call ∈ new, call.Quiet (conns.map Connection.socket)) :
      Moved listening conns calls false conns (new ++ calls)
  | joined (clientSocket maxfds : ℤ) (fds : Finset ℤ)
      (hfresh : clientSocket ∉ listening :: conns.map Connection.socket) :
      Moved listening conns calls false (conns ++ [⟨clientSocket, some (records calls)⟩])
        (.read (records calls) :: .accept (some clientSocket) :: .malloc (records calls) ::
          .select maxfds fds :: calls)
  | closed (pre post : List Connection) (conn : Connection) (info : ℕ) (new : Calls)
      (hconns : conns = pre ++ conn :: post) (hinfo : conn.info = some info)
      (hquiet : ∀ call ∈ new, call.Quiet (conns.map Connection.socket)) :
      Moved listening conns calls true (pre ++ post)
        (.read info :: .close conn.socket :: .free info :: (new ++ calls))

/-! ### What a move does to the accepted descriptors -/

theorem quiet_accept {sockets : List ℤ} {new calls : Calls} {c : ℤ}
    (hquiet : ∀ call ∈ new, call.Quiet sockets) :
    .accept (some c) ∈ new ++ calls ↔ .accept (some c) ∈ calls := by
  constructor
  · intro hmem
    rcases List.mem_append.mp hmem with hmem | hmem
    · exact absurd (hquiet _ hmem) (Option.some_ne_none c)
    · exact hmem
  · exact List.mem_append_right new

theorem Moved.closed_subset {listening : ℤ} {conns conns' : List Connection}
    {calls calls' : Calls} (h : Moved listening conns calls true conns' calls') :
    ∀ c ∈ conns', c ∈ conns := by
  cases h with
  | closed pre post conn info new hconns hinfo hquiet =>
    rw [hconns]
    exact without_subset

/-- A descriptor is accepted with the connection that joins, and in no other way. -/
theorem Moved.accepted {listening : ℤ} {conns conns' : List Connection} {calls calls' : Calls}
    {closing : Bool} (h : Moved listening conns calls closing conns' calls') (c : ℤ) :
    .accept (some c) ∈ calls' ↔
      .accept (some c) ∈ calls ∨ ∃ conn ∈ conns', conn ∉ conns ∧ conn.socket = c := by
  cases h with
  | quiet new hquiet =>
    rw [quiet_accept hquiet]
    constructor
    · exact Or.inl
    · intro hcase
      rcases hcase with hmem | ⟨conn, hin, hout, -⟩
      · exact hmem
      · exact absurd hin hout
  | joined clientSocket maxfds fds hfresh =>
    simp only [List.mem_cons, reduceCtorEq, false_or, Call.accept.injEq, Option.some.injEq]
    constructor
    · intro hcase
      rcases hcase with rfl | hmem
      · refine Or.inr ⟨_, List.mem_append_right _ (List.mem_singleton_self _), ?_, rfl⟩
        intro hmem
        exact hfresh (List.mem_cons_of_mem _ (List.mem_map_of_mem hmem))
      · exact Or.inl hmem
    · intro hcase
      rcases hcase with hmem | ⟨conn, hin, hout, hsocket⟩
      · exact Or.inr hmem
      · rcases List.mem_append.mp hin with hin | hin
        · exact absurd hin hout
        · rw [List.mem_singleton.mp hin] at hsocket
          exact Or.inl hsocket.symm
  | closed pre post conn info new hconns hinfo hquiet =>
    have hsub : ∀ d ∈ pre ++ post, d ∈ conns := by
      rw [hconns]
      exact without_subset
    simp only [List.mem_cons, reduceCtorEq, false_or]
    rw [quiet_accept hquiet]
    constructor
    · exact Or.inl
    · intro hcase
      rcases hcase with hmem | ⟨d, hin, hout, -⟩
      · exact hmem
      · exact absurd (hsub d hin) hout

theorem Moved.all_accepted {listening : ℤ} {conns conns' : List Connection} {calls calls' : Calls}
    {closing : Bool} (h : Moved listening conns calls closing conns' calls')
    (hconns : ∀ c ∈ conns, .accept (some c.socket) ∈ calls) :
    ∀ c ∈ conns', .accept (some c.socket) ∈ calls' := by
  intro c hc
  rw [h.accepted]
  by_cases hold : c ∈ conns
  · exact Or.inl (hconns c hold)
  · exact Or.inr ⟨c, hc, hold, rfl⟩

/-! ### The calls on a table -/

variable {κ : Type}

/- A table whose sockets the kernel knows as open. -/
structure Tracked (openFds : κ → Finset ℤ) (server : Server) (conns : List Connection) (k : κ) :
    Prop where
  ok : TableOk server conns
  opened : ∀ s ∈ serverFds server conns, s ∈ openFds k

/- What an accept call leaves, and what it hands out. -/
structure AcceptEffect (openFds : κ → Finset ℤ) (server : Server) (conns : List Connection)
    (k : κ × Calls) (r : Accepted (κ × Calls)) (conns' : List Connection) : Prop where
  tracked : Tracked openFds r.server conns' r.k.1
  socket : r.server.socket = server.socket
  moved : Moved server.socket conns k.2 false conns' r.k.2
  kept : ∀ c ∈ conns, c ∈ conns'
  stored : ∀ c, r.stored = some c → c ∈ conns'
  hands : r.rv = 0 → r.stored ≠ none
  joined : ∀ c ∈ conns', c ∉ conns → r.stored = some c

/- What closing `conn` leaves, of the calls and of those since `calls`. -/
structure CloseEffect (openFds : κ → Finset ℤ) (server : Server) (conns : List Connection)
    (calls : Calls) (conn : Connection) (k : κ × Calls) (server' : Server)
    (conns' : List Connection) (k' : κ × Calls) : Prop where
  tracked : Tracked openFds server' conns' k'.1
  socket : server'.socket = server.socket
  moved : Moved server.socket conns calls true conns' k'.2
  kept : ∀ c ∈ conns, c.socket ≠ conn.socket → c ∈ conns'
  gone : conn ∉ conns'
  grows : ∃ before : Calls, k'.2 = before ++ k.2

section
variable {M : Machine κ} {openFds : κ → Finset ℤ} {server : Server} {conns : List Connection}

theorem Tracked.advance {k k' : κ} (h : Tracked openFds server conns k)
    (hk : openFds k ⊆ openFds k') : Tracked openFds server conns k' :=
  ⟨h.ok, fun s hs => hk (h.opened s hs)⟩

theorem connectionRecv_opened (laws : KernelLaws M openFds) (c : Connection) (k : κ) :
    openFds k ⊆ openFds (connectionRecv M c k).2 :=
  connectionRecv_subset laws.recv_keeps c k

theorem connectionSend_opened (laws : KernelLaws M openFds) {c : Connection} {m : Message}
    {k k' : κ} {rv : ℤ} (h : connectionSend M c m k = some (rv, k')) : openFds k ⊆ openFds k' := by
  refine connectionSend_lift (R := fun k' => openFds k ⊆ openFds k') ?_ (Finset.Subset.refl _) h
  intro k₁ bs hk₁
  exact hk₁.trans (laws.send_keeps k₁ c.socket bs)

theorem connectionRecv_quiet (M : Machine κ) {c : Connection} (hc : c ∈ conns) (k : κ × Calls) :
    ∃ new : Calls, (connectionRecv (traced M) c k).2.2 = new ++ k.2 ∧
      ∀ call ∈ new, call.Quiet (conns.map Connection.socket) := by
  obtain ⟨new, hcalls, hnew⟩ := connectionRecv_calls M c k
  refine ⟨new ++ [.recv c.socket], ?_, ?_⟩
  · rw [hcalls, List.append_assoc, List.singleton_append]
  · intro call hcall
    have hrecv : call = .recv c.socket := by
      rcases List.mem_append.mp hcall with hcall | hcall
      · exact hnew call hcall
      · exact List.mem_singleton.mp hcall
    rw [hrecv]
    exact List.mem_map_of_mem hc

theorem serverAccept_opened (laws : KernelLaws M openFds) (h : server.Holds conns) {k : κ}
    {r : Accepted κ} (hr : serverAccept M server k = some r) : openFds k ⊆ openFds r.k := by
  obtain ⟨r', hr', hcase⟩ := serverAccept_case (M := M) (k := k) h
  obtain rfl := Option.some.inj (hr.symm.trans hr')
  have hsel := laws.select_keeps k (selectArg server conns) server.readFdset
  cases hcase with
  | stopped hstatus => exact Finset.Subset.refl _
  | unready reported k₁ hrunning hs hnone =>
    rw [hs] at hsel
    exact hsel
  | refused active k₁ k₂ hrunning hs hlisten ha =>
    have hacc := laws.accept_keeps (M.mallocInfo k₁).2 server.socket
    rw [hs] at hsel
    rw [ha] at hacc
    exact (hsel.trans (laws.mallocInfo_keeps k₁)).trans hacc
  | joined active clientSocket k₁ k₂ hrunning hs hlisten ha =>
    have hacc := laws.accept_keeps (M.mallocInfo k₁).2 server.socket
    rw [hs] at hsel
    rw [ha] at hacc
    exact ((hsel.trans (laws.mallocInfo_keeps k₁)).trans hacc).trans (laws.readInfo_keeps k₂ _)
  | picked active k₁ hrunning hs hlisten =>
    rw [hs] at hsel
    exact hsel

theorem Tracked.accept (laws : KernelLaws M openFds) {k : κ × Calls}
    (h : Tracked openFds server conns k.1) :
    ∃ r conns', serverAccept (traced M) server k = some r ∧
      AcceptEffect openFds server conns k r conns' := by
  obtain ⟨r, hr, hcase⟩ := serverAccept_traced M h.ok.holds k
  have hkeeps := serverAccept_opened laws.traced h.ok.holds hr
  have hone : (-1 : ℤ) ≠ 0 := by decide
  cases hcase with
  | failed new k' hquiet hselect =>
    refine ⟨_, conns, hr, ?_⟩
    exact
      { tracked := h.advance hkeeps
        socket := rfl
        moved := .quiet new fun call hcall => (hquiet call hcall).mono (List.nil_subset _)
        kept := fun _ hc => hc
        stored := fun _ hc => absurd hc.symm (Option.some_ne_none _)
        hands := fun hrv => absurd hrv hone
        joined := fun _ hc hout => absurd hc hout }
  | joined active clientSocket k₁ k₂ hsel hlisten ha =>
    have hk₁ := laws.select_keeps k.1 (selectArg server conns) server.readFdset
    rw [hsel] at hk₁
    obtain ⟨hlow, hhigh, hfresh, hopen⟩ := laws.accept_fresh _ _ _ _ ha
    have hnew : clientSocket ∉ serverFds server conns := by
      intro hmem
      exact hfresh (laws.mallocInfo_keeps k₁ (hk₁ (h.opened _ hmem)))
    refine ⟨_, conns ++ [⟨clientSocket, some (records k.2)⟩], hr, ?_⟩
    refine
      { tracked := ⟨h.ok.join (records k.2) ⟨hlow, hhigh⟩ hnew, ?_⟩
        socket := rfl
        moved := .joined clientSocket _ _ hnew
        kept := fun _ hc => List.mem_append_left _ hc
        stored := ?_
        hands := fun _ => Option.some_ne_none _
        joined := ?_ }
    · intro s hs
      have hsplit : s ∈ serverFds server conns ++ [clientSocket] := by
        simpa only [serverFds, List.map_append, List.map_cons, List.map_nil,
          List.cons_append] using hs
      rcases List.mem_append.mp hsplit with hs | hs
      · exact hkeeps (h.opened s hs)
      · rw [List.mem_singleton.mp hs]
        exact laws.readInfo_keeps k₂ _ hopen
    · intro c hc
      obtain rfl := Option.some.inj hc
      exact List.mem_append_right _ (List.mem_singleton_self _)
    · intro c hc hout
      rcases List.mem_append.mp hc with hc | hc
      · exact absurd hc hout
      · rw [List.mem_singleton.mp hc]
  | picked active k₁ hsel hlisten =>
    obtain ⟨hne, hsub⟩ := laws.select_reports _ _ _ _ _ hsel
    refine ⟨_, conns, hr, ?_⟩
    refine
      { tracked := h.advance hkeeps
        socket := rfl
        moved := .quiet [_] ?_
        kept := fun _ hc => hc
        stored := fun _ hc => List.mem_of_find?_eq_some hc
        hands := ?_
        joined := fun _ hc hout => absurd hc hout }
    · intro call hcall
      rw [List.mem_singleton.mp hcall]
      exact trivial
    · -- the reported descriptor belongs to a connection of the table
      intro _ hnone
      obtain ⟨s, hs⟩ := hne
      have hmem := hsub hs
      rw [h.ok.fdset, List.mem_toFinset] at hmem
      rcases List.mem_cons.mp hmem with rfl | hmem
      · exact hlisten hs
      · obtain ⟨c, hc, rfl⟩ := List.mem_map.mp hmem
        exact absurd (decide_eq_true hs) (List.find?_eq_none.mp hnone c hc)

/-- Closing a connection of the table, after calls that it is quiet about. -/
theorem Tracked.close (laws : KernelLaws M openFds) {k : κ × Calls}
    (h : Tracked openFds server conns k.1) {conn : Connection} (hc : conn ∈ conns)
    {calls new : Calls} (hcalls : k.2 = new ++ calls)
    (hquiet : ∀ call ∈ new, call.Quiet (conns.map Connection.socket)) :
    ∃ server' conns' k', serverCloseConnection (traced M) server conn k =
        some (server', ⟨0, none⟩, k') ∧
      CloseEffect openFds server conns calls conn k server' conns' k' := by
  obtain ⟨pre, post, rfl⟩ := List.append_of_mem hc
  obtain ⟨server', info, hinfo, hok, hsocket, -, -, hclose⟩ := h.ok.close (traced M) k
  obtain ⟨-, hout, -⟩ := split_nodup h.ok.sockets_nodup
  refine ⟨server', pre ++ post, _, hclose, ?_⟩
  refine
    { tracked := ⟨hok, ?_⟩
      socket := hsocket
      moved := ?_
      kept := without_keeps
      gone := fun hmem => hout (List.mem_map_of_mem hmem)
      grows := ⟨[.read info, .close conn.socket, .free info], rfl⟩ }
  · intro s hs
    have hs' : s ∈ serverFds server (pre ++ post) := by
      rw [serverFds, ← hsocket]
      exact hs
    obtain ⟨hne, hin⟩ := h.ok.toTableBelow.others hs'
    have hfree := laws.freeInfo_keeps k.1 info (h.opened s hin)
    have hclosed := laws.close_keeps (M.freeInfo k.1 info) conn.socket
      (Finset.mem_erase.mpr ⟨hne, hfree⟩)
    exact laws.readInfo_keeps _ info hclosed
  · have hall : ((traced M).readInfo ((traced M).closesocket ((traced M).freeInfo k info)
        conn.socket).2 info).2 =
        .read info :: .close conn.socket :: .free info :: (new ++ calls) := by
      rw [← hcalls]
      rfl
    rw [hall]
    exact .closed pre post conn info new rfl hinfo hquiet

theorem Tracked.create (laws : KernelLaws M openFds) {port backlog : ℤ} {k : κ}
    {k' : κ × Calls} (h : serverCreate (traced M) port backlog (k, []) = (some server, k')) :
    Tracked openFds server [] k'.1 ∧ k'.2 = [] := by
  obtain ⟨k₁, k₂, hs, hb, hl, -⟩ := serverCreate_some h
  constructor
  · refine ⟨⟨.create h, laws.traced.socket_range _ _ _ hs⟩, ?_⟩
    intro s hmem
    rw [List.mem_singleton.mp hmem]
    exact laws.traced.toDescriptorLaws.created h
  · have hcalls : k₁.2 = [] := (congrArg (fun r => r.2.2) hs).symm
    have hcalls' : k₂.2 = k₁.2 := (congrArg (fun r => r.2.2) hb).symm
    have hcalls'' : k'.2 = k₂.2 := (congrArg (fun r => r.2.2) hl).symm
    rw [hcalls'', hcalls', hcalls]

end

/-! ### Runs of the calls -/

/- The event takes a connection out of the table. -/
def closes (M : Machine κ) (s : TableRun κ) : TableEvent → Bool
  | .accept => false
  | .close _ => true
  | .recv c => (connectionRecv M c s.k).1.isNone

structure RunTracked (openFds : κ → Finset ℤ) (s : TableRun (κ × Calls))
    (conns : List Connection) : Prop where
  tracked : Tracked openFds s.server conns s.k.1
  held : ∀ c ∈ s.held, c ∈ conns

section
variable {M : Machine κ} {openFds : κ → Finset ℤ} {s t : TableRun (κ × Calls)}
  {conns : List Connection}

/-- The table's runs are runs of the abstract server. -/
theorem tableStep_moved (laws : KernelLaws M openFds) (h : RunTracked openFds s conns)
    {e : TableEvent} (hstep : tableStep (traced M) s e = some t) :
    ∃ conns', RunTracked openFds t conns' ∧ t.server.socket = s.server.socket ∧
      Moved s.server.socket conns s.k.2 (closes (traced M) s e) conns' t.k.2 := by
  cases e with
  | accept =>
    obtain ⟨r, conns', hr, heffect⟩ := h.tracked.accept laws
    simp only [tableStep, hr, Option.bind_eq_bind, Option.bind_some, Option.some.injEq] at hstep
    subst hstep
    refine ⟨conns', ⟨heffect.tracked, ?_⟩, heffect.socket, heffect.moved⟩
    intro c hc
    rcases List.mem_append.mp hc with hc | hc
    · exact heffect.stored c (Option.mem_toList.mp hc)
    · exact heffect.kept c (h.held c hc)
  | close c =>
    have hc : c ∈ s.held := tableStep_held (Or.inl rfl) hstep
    obtain ⟨server', conns', k', hclose, heffect⟩ :=
      h.tracked.close laws (h.held c hc) (List.nil_append s.k.2).symm
        (fun _ hcall => absurd hcall List.not_mem_nil)
    simp only [tableStep, if_pos hc, hclose, Option.bind_eq_bind, Option.bind_some,
      Option.some.injEq] at hstep
    subst hstep
    exact ⟨conns', ⟨heffect.tracked, withoutSocket_subset h.held heffect.kept⟩, heffect.socket,
      heffect.moved⟩
  | recv c =>
    have hc : c ∈ s.held := tableStep_held (Or.inr rfl) hstep
    have hopened := connectionRecv_opened laws.traced c s.k
    obtain ⟨new, hcalls, hquiet⟩ := connectionRecv_quiet M (h.held c hc) s.k
    rcases hr : connectionRecv (traced M) c s.k with ⟨_ | message, k₁⟩
    · have hclosing : closes (traced M) s (.recv c) = true := by
        rw [closes, hr]
        rfl
      rw [hr] at hopened hcalls
      obtain ⟨server', conns', k', hclose, heffect⟩ :=
        (h.tracked.advance hopened).close laws (h.held c hc) hcalls hquiet
      simp only [tableStep, if_pos hc, serverRecvMsg, hr, hclose, Option.bind_eq_bind,
        Option.bind_some, Option.some.injEq] at hstep
      subst hstep
      rw [hclosing]
      exact ⟨conns', ⟨heffect.tracked, withoutSocket_subset h.held heffect.kept⟩, heffect.socket,
        heffect.moved⟩
    · have hopen : closes (traced M) s (.recv c) = false := by
        rw [closes, hr]
        rfl
      rw [hr] at hopened hcalls
      simp only [tableStep, if_pos hc, serverRecvMsg, hr, Option.bind_eq_bind, Option.bind_some,
        Option.some.injEq] at hstep
      subst hstep
      dsimp only at hcalls
      rw [hopen, hcalls]
      exact ⟨conns, ⟨h.tracked.advance hopened, h.held⟩, rfl, .quiet new hquiet⟩

end

end Fws
