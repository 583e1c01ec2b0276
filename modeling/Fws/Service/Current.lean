import Fws.Networking.Records
import Fws.Networking.Selection
import Fws.Service.Session

/-!
# The current connection (fws/fws.c)

`fws_server_serve` takes a context whose `client_conn.socket` is zero for one
without a connection.
-/

namespace Fws
open Base.Digits Base.Runs

variable {κ : Type}

/- A serve receives from the connection that was handed out, and turns down only
a context that has none. -/
structure ServesCurrent (M : Machine κ) (s : Session (κ × Calls)) : Prop where
  receives : ∀ c, s.current = some c → ∀ r, fwsServerServe (traced M) s.ctx s.k = some r →
    ∃ new : Calls, r.k.2 = new ++ .recv c.socket :: s.k.2
  refuses : ∀ r, fwsServerServe (traced M) s.ctx s.k = some r → r.ret = retErr →
    r.k.2 = s.k.2 → s.current = none

/- So it is after the step, with the connection that an accept call has just
handed out. -/
def HandsOver (M : Machine κ) (s : Session (κ × Calls)) (e : SessionEvent) : Prop :=
  ∀ t, sessionStep (traced M) s e = some t → ServesCurrent M t ∧
    (e = .accept → ∀ ctx k, fwsServerAccept (traced M) s.ctx s.k = some (retOk, ctx, k) →
      t.current = some ctx.clientConn)

section
variable {M : Machine κ} {openFds : κ → Finset ℤ} {s t : Session (κ × Calls)} {server : Server}
  {conns : List Connection}

theorem SessionOk.current_iff (h : SessionOk openFds s server conns) {c : Connection} :
    s.current = some c ↔ s.handed = some c ∧ c ∈ conns := by
  have htable : ∀ c, some c ∈ s.ctx.table ↔ c ∈ conns := by
    intro c
    simp only [FwsCtx.table, h.peer, h.tracked.ok.contents, List.mem_map, Option.some.injEq,
      exists_eq_right]
  simp only [Session.current, Option.filter_eq_some_iff, htable, decide_eq_true_eq]

theorem SessionOk.current_client (h : SessionOk openFds s server conns) {c : Connection}
    (hc : s.current = some c) : s.ctx.clientConn = c ∧ c ∈ conns := by
  obtain ⟨hhanded, hmem⟩ := h.current_iff.mp hc
  rcases h.client with ⟨-, hclient⟩ | ⟨-, hgone⟩
  · exact ⟨Option.some.inj (hclient.symm.trans hhanded), hmem⟩
  · exact absurd hmem (hgone c hhanded).2

theorem SessionOk.servesCurrent_iff (laws : KernelLaws M openFds)
    (h : SessionOk openFds s server conns) :
    ServesCurrent M s ↔ ∀ c, s.current = some c → c.socket ≠ 0 := by
  have hlonger : ∀ (new : Calls) call, s.k.2 ≠ new ++ call :: s.k.2 := by
    intro new call he
    have hlen := congrArg List.length he
    simp only [List.length_append, List.length_cons] at hlen
    omega
  constructor
  · intro hserves c hc hzero
    obtain ⟨hclient, -⟩ := h.current_client hc
    obtain ⟨new, hnew⟩ := hserves.receives c hc _
      (fwsServerServe_refused (traced M) (hclient ▸ hzero))
    exact hlonger _ _ hnew
  · intro hsockets
    have hreceives : ∀ c, s.current = some c → ∀ r,
        fwsServerServe (traced M) s.ctx s.k = some r →
        ∃ new : Calls, r.k.2 = new ++ .recv c.socket :: s.k.2 := by
      intro c hc r hr
      obtain ⟨rfl, hmem⟩ := h.current_client hc
      obtain ⟨server', conns', heffect⟩ := h.tracked.serve laws h.peer (hsockets _ hc) hmem hr
      exact heffect.receives
    refine ⟨hreceives, ?_⟩
    intro r hr _ hcalls
    rcases hcurrent : s.current with _ | c
    · rfl
    · obtain ⟨new, hnew⟩ := hreceives c hcurrent r hr
      exact absurd (hcalls.symm.trans hnew) (hlonger _ _)

/- The sockets of the table came from the kernel. -/
structure SessionKnown (openFds : κ → Finset ℤ) (s : Session (κ × Calls)) (server : Server)
    (conns : List Connection) : Prop where
  ok : SessionOk openFds s server conns
  accepted : ∀ c ∈ conns, .accept (some c.socket) ∈ s.k.2

theorem SessionKnown.step (laws : KernelLaws M openFds) (h : SessionKnown openFds s server conns)
    {e : SessionEvent} (hstep : sessionStep (traced M) s e = some t) :
    ∃ server' conns', SessionKnown openFds t server' conns' ∧
      (∀ c ∈ conns', c ∉ conns → t.handed = some c) ∧ ∀ c, .accept (some c) ∈ t.k.2 ↔
        .accept (some c) ∈ s.k.2 ∨ ∃ conn ∈ conns', conn ∉ conns ∧ conn.socket = c := by
  obtain ⟨server', conns', hmoved⟩ := h.ok.step laws hstep
  obtain ⟨closing, hcalls⟩ := hmoved.moved
  exact ⟨server', conns', ⟨hmoved.ok, hcalls.all_accepted h.accepted⟩, hmoved.joined,
    hcalls.accepted⟩

/-- A step hands over a connection just when zero is not accepted in it. -/
theorem handsOver_iff (laws : KernelLaws M openFds) (h : SessionKnown openFds s server conns)
    (hzero : .accept (some 0) ∉ s.k.2) {e : SessionEvent}
    (hstep : sessionStep (traced M) s e = some t) : HandsOver M s e ↔ .accept (some 0) ∉ t.k.2 := by
  obtain ⟨server', conns', hknown, hjoined, haccepted⟩ := h.step laws hstep
  constructor
  · intro hover hmem
    rcases (haccepted 0).mp hmem with hmem | ⟨conn, hin, hout, hsocket⟩
    · exact hzero hmem
    · have hcurrent := hknown.ok.current_iff.mpr ⟨hjoined conn hin hout, hin⟩
      exact (hknown.ok.servesCurrent_iff laws).mp (hover t hstep).1 conn hcurrent hsocket
  · intro hnone t' ht'
    obtain rfl := Option.some.inj (hstep.symm.trans ht')
    constructor
    · apply (hknown.ok.servesCurrent_iff laws).mpr
      intro c hc hsocket
      apply hnone
      rw [← hsocket]
      exact hknown.accepted c (hknown.ok.current_client hc).2
    · intro he ctx k hr
      subst he
      simp only [sessionStep, hr, Option.bind_eq_bind, Option.bind_some, if_pos,
        Option.some.injEq] at hstep
      subst hstep
      rcases hknown.ok.client with ⟨hmem, -⟩ | ⟨hclient, hgone⟩
      · exact hknown.ok.current_iff.mpr ⟨rfl, hmem⟩
      · exact absurd hclient (hgone ctx.clientConn rfl).1

end

/-- Every accepted connection is served just when zero is never one of the
descriptors that are accepted. -/
theorem accepted_is_served_iff {M : Machine κ} {openFds : κ → Finset ℤ}
    (laws : KernelLaws M openFds) {funcs : List FuncEntry} {port backlog : ℤ} {k : κ}
    {ctx : FwsCtx} {k' : κ × Calls}
    (hbind : fwsServerBind (traced M) (fwsServerSetFuncList fwsInit funcs) port backlog (k, []) =
      (retOk, ctx, k'))
    {es : List SessionEvent} {s : Session (κ × Calls)}
    (hrun : exec (sessionStep (traced M)) ⟨ctx, none, k'⟩ es = some s) :
    (ServesCurrent M ⟨ctx, none, k'⟩ ∧
      Along (sessionStep (traced M)) (HandsOver M) ⟨ctx, none, k'⟩ es) ↔
      .accept (some 0) ∉ s.k.2 := by
  obtain ⟨server, hok, hcalls⟩ := SessionOk.start laws hbind
  have hnone : .accept (some 0) ∉ k'.2 := by
    rw [hcalls]
    exact List.not_mem_nil
  have hstart : ServesCurrent M ⟨ctx, none, k'⟩ := by
    apply (hok.servesCurrent_iff laws).mpr
    intro c hc
    cases hc
  rw [and_iff_right hstart]
  refine along_iff_last (J := fun s => .accept (some 0) ∉ s.k.2)
    (I := fun s => ∃ server conns, SessionKnown openFds s server conns) ?_ ?_
    ⟨server, [], hok, fun c hc => absurd hc List.not_mem_nil⟩ hnone hrun
  · intro s e t hs ht
    obtain ⟨server, conns, h⟩ := hs
    obtain ⟨server', conns', hknown, -, haccepted⟩ := h.step laws ht
    exact ⟨⟨server', conns', hknown⟩, fun hout hmem => hout ((haccepted 0).mpr (Or.inl hmem))⟩
  · intro s e t hs hzero ht
    obtain ⟨server, conns, h⟩ := hs
    exact handsOver_iff laws h hzero ht

/- The context of a server that was bound on a small kernel. -/
def boundCtx (funcs : List FuncEntry) : FwsCtx :=
  ⟨.server (some oneClientServer), funcs, ⟨0, none⟩⟩

theorem smallKernel_bind (clients : List ℤ) (funcs : List FuncEntry) :
    fwsServerBind (traced (smallKernel clients)) (fwsServerSetFuncList fwsInit funcs) 80 5 (∅, []) =
      (retOk, boundCtx funcs, ({3}, [])) := rfl

theorem accepted_is_served_four :
    ∃ s, exec (sessionStep (traced (smallKernel [4]))) ⟨boundCtx [], none, ({3}, [])⟩
        [.accept, .serve] = some s ∧
      ((ServesCurrent (smallKernel [4]) ⟨boundCtx [], none, ({3}, [])⟩ ∧
        Along (sessionStep (traced (smallKernel [4]))) (HandsOver (smallKernel [4]))
          ⟨boundCtx [], none, ({3}, [])⟩ [.accept, .serve]) ↔ .accept (some 0) ∉ s.k.2) := by
  have hsome : (exec (sessionStep (traced (smallKernel [4]))) ⟨boundCtx [], none, ({3}, [])⟩
      [.accept, .serve]).isSome = true := by
    decide +kernel
  obtain ⟨s, hs⟩ := Option.isSome_iff_exists.mp hsome
  exact ⟨s, hs, accepted_is_served_iff (smallKernel_laws (by decide)) (smallKernel_bind [4] []) hs⟩

/- Standard input was closed, and the first client is given its number. -/
theorem client_at_zero_is_refused :
    ¬ ∀ (M : Machine (Finset ℤ)) (openFds : Finset ℤ → Finset ℤ), KernelLaws M openFds →
      ∀ (funcs : List FuncEntry) (port backlog : ℤ) (k : Finset ℤ) (ctx : FwsCtx)
        (k' : Finset ℤ × Calls),
      fwsServerBind (traced M) (fwsServerSetFuncList fwsInit funcs) port backlog (k, []) =
        (retOk, ctx, k') →
      ∀ (es : List SessionEvent) (s : Session (Finset ℤ × Calls)),
      exec (sessionStep (traced M)) ⟨ctx, none, k'⟩ es = some s → ServesCurrent M s := by
  intro h
  have hrun : (exec (sessionStep (traced (smallKernel [0]))) ⟨boundCtx [], none, ({3}, [])⟩
      [.accept]).map (fun s => (s.current, s.ctx.clientConn)) =
        some (some ⟨0, some 0⟩, ⟨0, some 0⟩) := by
    decide +kernel
  obtain ⟨s, hs, hcurrent⟩ := Option.map_eq_some_iff.mp hrun
  obtain ⟨hcurrent, hclient⟩ := Prod.mk.inj hcurrent
  have hserves := h (smallKernel [0]) id (smallKernel_laws (by decide)) [] 80 5 ∅ _ _
    (smallKernel_bind [0] []) [.accept] s hs
  have hzero : s.ctx.clientConn.socket = 0 := congrArg Connection.socket hclient
  have hnone := hserves.refuses _ (fwsServerServe_refused (traced (smallKernel [0])) hzero) rfl rfl
  rw [hnone] at hcurrent
  cases hcurrent

/-! ### A peer that is gone -/

/- What a serve leaves that found its connection gone: the other connections, in
their order. -/
structure Dropped (ctx : FwsCtx) (server : Server) (others : List Connection) (socket : ℤ)
    (r : Serve (κ × Calls)) : Prop where
  table : ∃ server', r.ctx.peer = .server (some server') ∧
    server'.connections.contents = others.map some ∧
    server'.readFdset = server.readFdset.erase socket ∧ server'.socket = server.socket ∧
    server'.status = server.status
  closed : ∀ s, r.k.2.count (.close s) = if socket = s then 1 else 0
  client : r.ctx.clientConn = ⟨0, none⟩
  funcs : r.ctx.funcList = ctx.funcList

/-- A serve that cannot receive drops its connection and does nothing else. -/
theorem peer_drop_removes_one (M : Machine κ) {ctx : FwsCtx} {server : Server}
    {pre post : List Connection} {conn : Connection} (h : TableOk server (pre ++ conn :: post))
    (hpeer : ctx.peer = .server (some server)) (hclient : ctx.clientConn = conn) (k : κ)
    (hfails : (connectionRecv (traced M) conn (k, [])).1 = none) :
    ∃ r, fwsServerServe (traced M) ctx (k, []) = some r ∧ r.ret = retErr ∧
      r.served.called = none ∧ r.sent = [] ∧ (∀ s, .send s ∉ r.k.2) ∧
      (.recv conn.socket ∈ r.k.2 ↔ conn.socket ≠ 0) ∧
      (.recv conn.socket ∈ r.k.2 → Dropped ctx server (pre ++ post) conn.socket r) := by
  subst hclient
  by_cases hopen : ctx.clientConn.socket = 0
  · have hnever : .recv ctx.clientConn.socket ∉ ([] : Calls) := List.not_mem_nil
    refine ⟨_, fwsServerServe_refused (traced M) hopen, rfl, rfl, rfl,
      fun _ => List.not_mem_nil, ?_, fun hmem => absurd hmem hnever⟩
    exact ⟨fun hmem => absurd hmem hnever, fun hne => absurd hopen hne⟩
  · obtain ⟨new, hcalls, hnew⟩ := connectionRecv_calls M ctx.clientConn (k, [])
    rcases hrecv : connectionRecv (traced M) ctx.clientConn (k, []) with ⟨_ | message, k₁⟩
    · rw [hrecv] at hcalls
      dsimp only at hcalls
      have honly : ∀ call ∈ k₁.2, call = .recv ctx.clientConn.socket := by
        intro call hcall
        rw [hcalls] at hcall
        rcases List.mem_append.mp hcall with hcall | hcall
        · exact hnew call hcall
        · exact List.mem_singleton.mp hcall
      obtain ⟨server', info, hinfo, hok, hsocket, hstatus, hfds, hclose⟩ :=
        h.close (traced M) k₁
      refine ⟨_, fwsServerServe_closed hopen hpeer hrecv hclose, rfl, rfl, rfl, ?_, ?_, fun _ =>
        ⟨⟨server', rfl, hok.contents, hfds, hsocket, hstatus⟩, ?_, rfl, rfl⟩⟩
      · intro s hsend
        change .send s ∈ Call.read info :: .close _ :: .free info :: k₁.2 at hsend
        simp only [List.mem_cons, reduceCtorEq, false_or] at hsend
        cases honly _ hsend
      · apply iff_of_true _ hopen
        change .recv _ ∈ Call.read info :: .close _ :: .free info :: k₁.2
        rw [hcalls]
        simp only [List.mem_cons, List.mem_append, true_or, or_true]
      · intro s
        have hnone : k₁.2.count (.close s) = 0 := by
          apply List.count_eq_zero.mpr
          intro hmem
          cases honly _ hmem
        change (Call.read info :: .close _ :: .free info :: k₁.2).count (.close s) = _
        simp [List.count_cons, hnone]
    · rw [hrecv] at hfails
      cases hfails

/- The second of three connections in the table is the current one, and it is gone. -/
theorem peer_drop_second_of_three :
    let conn : Connection := ⟨6, some 1⟩
    let ctx : FwsCtx := ⟨.server (some threeClients), [], conn⟩
    ∃ r, fwsServerServe (traced (smallKernel [])) ctx ({3, 4, 5, 6}, []) = some r ∧
      r.ret = retErr ∧ r.served.called = none ∧ r.sent = [] ∧ (∀ s, .send s ∉ r.k.2) ∧
      Dropped ctx threeClients [⟨4, some 0⟩, ⟨5, some 2⟩] 6 r := by
  intro conn ctx
  have hok : TableOk threeClients ([⟨4, some 0⟩] ++ conn :: [⟨5, some 2⟩]) := threeClients_ok
  have hpeer : ctx.peer = .server (some threeClients) := rfl
  obtain ⟨r, hr, hret, hcalled, hsent, hsend, hrecv, hdropped⟩ :=
    peer_drop_removes_one (smallKernel []) hok hpeer rfl {3, 4, 5, 6} rfl
  exact ⟨r, hr, hret, hcalled, hsent, hsend, hdropped (hrecv.mpr (by decide))⟩

end Fws
