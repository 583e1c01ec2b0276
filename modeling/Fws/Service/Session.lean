import Fws.Networking.Moves
import Fws.Service.Serve

/-!
# A session of the server (fws/fws.c)

`fws_server_accept` and `fws_server_serve` in any order, on a server that was
bound.
-/

namespace Fws
open Base.Digits Base.Runs

/- `handed` is a record only: the connection that the last accept call to
succeed handed out. -/
structure Session (κ : Type) where
  ctx : FwsCtx
  handed : Option Connection
  k : κ

inductive SessionEvent where
  | accept
  | serve
  deriving DecidableEq

variable {κ : Type}

def sessionStep (M : Machine κ) (s : Session κ) : SessionEvent → Option (Session κ)
  | .accept => do
    let (ret, ctx, k) ← fwsServerAccept M s.ctx s.k
    some ⟨ctx, if ret = retOk then some ctx.clientConn else s.handed, k⟩
  | .serve => do
    let r ← fwsServerServe M s.ctx s.k
    some ⟨r.ctx, s.handed, r.k⟩

def FwsCtx.table (ctx : FwsCtx) : List (Option Connection) :=
  match ctx.peer with
  | .server (some server) => server.connections.contents
  | _ => []

/- The connection that was handed out, while it is in the table. -/
def Session.current (s : Session κ) : Option Connection :=
  s.handed.filter fun c => decide (some c ∈ s.ctx.table)

/-! ### One serve -/

section
variable {M : Machine κ} {openFds : κ → Finset ℤ} {ctx : FwsCtx} {server : Server}
  {conns : List Connection}

theorem serverSendMsg_calls {c : Connection} {m : Message} {k k' : κ × Calls} {rv : ℤ}
    (h : serverSendMsg (traced M) m c k = some (rv, k')) :
    ∃ new : Calls, k'.2 = new ++ k.2 ∧ ∀ call ∈ new, call = .send c.socket := by
  obtain ⟨⟨rv', k''⟩, hsend, h⟩ := Option.bind_eq_some_iff.mp h
  obtain ⟨-, rfl⟩ := Prod.mk.inj (Option.some.inj h)
  exact connectionSend_calls M c hsend

theorem serverSendMsg_opened (laws : KernelLaws M openFds) {c : Connection} {m : Message}
    {k k' : κ} {rv : ℤ} (h : serverSendMsg M m c k = some (rv, k')) :
    openFds k ⊆ openFds k' := by
  obtain ⟨⟨rv', k''⟩, hsend, h⟩ := Option.bind_eq_some_iff.mp h
  obtain ⟨-, rfl⟩ := Prod.mk.inj (Option.some.inj h)
  exact connectionSend_opened laws hsend

/- The current connection is served, or found to be gone and dropped. -/
structure ServeEffect (openFds : κ → Finset ℤ) (ctx : FwsCtx) (server : Server)
    (conns : List Connection) (k : κ × Calls) (r : Serve (κ × Calls)) (server' : Server)
    (conns' : List Connection) : Prop where
  peer : r.ctx.peer = .server (some server')
  tracked : Tracked openFds server' conns' r.k.1
  socket : server'.socket = server.socket
  moved : ∃ closing, Moved server.socket conns k.2 closing conns' r.k.2
  kept : ∀ c ∈ conns', c ∈ conns
  receives : ∃ new : Calls, r.k.2 = new ++ .recv ctx.clientConn.socket :: k.2
  client : (r.ctx.clientConn = ctx.clientConn ∧ conns' = conns) ∨
    (r.ctx.clientConn = ⟨0, none⟩ ∧ ctx.clientConn ∉ conns')

theorem Tracked.serve (laws : KernelLaws M openFds) {k : κ × Calls}
    (h : Tracked openFds server conns k.1) (hpeer : ctx.peer = .server (some server))
    (hopen : ctx.clientConn.socket ≠ 0) (hc : ctx.clientConn ∈ conns) {r : Serve (κ × Calls)}
    (hr : fwsServerServe (traced M) ctx k = some r) :
    ∃ server' conns', ServeEffect openFds ctx server conns k r server' conns' := by
  have hopened := connectionRecv_opened laws.traced ctx.clientConn k
  obtain ⟨first, hfirst, -⟩ := connectionRecv_calls M ctx.clientConn k
  obtain ⟨new, hcalls, hquiet⟩ := connectionRecv_quiet M hc k
  rcases hrecv : connectionRecv (traced M) ctx.clientConn k with ⟨_ | message, k₁⟩
  · rw [hrecv] at hopened hfirst hcalls
    dsimp only at hopened hfirst hcalls
    obtain ⟨server', conns', k', hclose, hdropped⟩ :=
      (h.advance hopened).close laws hc hcalls hquiet
    rw [fwsServerServe_closed hopen hpeer hrecv hclose] at hr
    obtain rfl := Option.some.inj hr
    obtain ⟨before, hbefore⟩ := hdropped.grows
    refine ⟨server', conns', ?_⟩
    refine
      { peer := rfl
        tracked := hdropped.tracked
        socket := hdropped.socket
        moved := ⟨true, hdropped.moved⟩
        kept := hdropped.moved.closed_subset
        receives := ⟨before ++ first, ?_⟩
        client := Or.inr ⟨rfl, hdropped.gone⟩ }
    rw [hbefore, hfirst, List.append_assoc]
  · rw [hrecv] at hopened hfirst hcalls
    dsimp only at hopened hfirst hcalls
    obtain ⟨msgIn, rfl, -⟩ := connectionRecv_some hrecv
    obtain ⟨env, served, -, -, hctx, -, -, hsent⟩ := fwsServerServe_some hopen hpeer hrecv hr
    have hsends : openFds k₁.1 ⊆ openFds r.k.1 ∧
        ∃ after : Calls, r.k.2 = after ++ k₁.2 ∧
          ∀ call ∈ after, call = .send ctx.clientConn.socket := by
      split at hsent
      · rw [hsent]
        exact ⟨Finset.Subset.refl _, [], rfl, fun _ hcall => absurd hcall List.not_mem_nil⟩
      · exact ⟨serverSendMsg_opened laws.traced hsent, serverSendMsg_calls hsent⟩
    obtain ⟨hkeeps, after, hafter, hsend⟩ := hsends
    refine ⟨server, conns, ?_⟩
    refine
      { peer := ?_
        tracked := h.advance (hopened.trans hkeeps)
        socket := rfl
        moved := ⟨false, ?_⟩
        kept := fun c hc => hc
        receives := ⟨after ++ first, ?_⟩
        client := Or.inl ⟨?_, rfl⟩ }
    · rw [hctx, hpeer]
    · rw [hafter, hcalls, ← List.append_assoc]
      refine .quiet (after ++ new) ?_
      intro call hcall
      rcases List.mem_append.mp hcall with hcall | hcall
      · rw [hsend call hcall]
        exact List.mem_map_of_mem hc
      · exact hquiet call hcall
    · rw [hafter, hfirst, List.append_assoc]
    · rw [hctx]

theorem fwsServerServe_refused (M : Machine κ) {k : κ} (hzero : ctx.clientConn.socket = 0) :
    fwsServerServe M ctx k = some ⟨retErr, ⟨retErr, none, none, none⟩, [], ctx, k⟩ :=
  if_pos hzero

/-! ### The steps of a session -/

theorem serverAccept_refused {M : Machine κ} {k : κ} {r : Accepted κ} (h : server.Holds conns)
    (hr : serverAccept M server k = some r) (hrv : r.rv ≠ 0) :
    r.stored = none ∧ r.server = server := by
  obtain ⟨r', hr', hcase⟩ := serverAccept_case (M := M) (k := k) h
  obtain rfl := Option.some.inj (hr.symm.trans hr')
  cases hcase with
  | stopped => exact ⟨rfl, rfl⟩
  | unready => exact ⟨rfl, rfl⟩
  | refused => exact ⟨rfl, rfl⟩
  | joined => exact absurd rfl hrv
  | picked => exact absurd rfl hrv

theorem fwsServerAccept_eq {M : Machine κ} {k : κ} {r : Accepted κ}
    (hpeer : ctx.peer = .server (some server)) (hr : serverAccept M server k = some r) :
    fwsServerAccept M ctx k = some (if r.rv ≠ 0 then retErr else retOk,
      { ctx with
        peer := .server (some r.server)
        clientConn := r.stored.getD ctx.clientConn }, r.k) := by
  simp only [fwsServerAccept, hpeer, hr, Option.bind_eq_bind, Option.bind_some]

/- The context's connection is the one handed out last, until it is dropped. -/
structure SessionOk (openFds : κ → Finset ℤ) (s : Session (κ × Calls)) (server : Server)
    (conns : List Connection) : Prop where
  peer : s.ctx.peer = .server (some server)
  tracked : Tracked openFds server conns s.k.1
  client : (s.ctx.clientConn ∈ conns ∧ s.handed = some s.ctx.clientConn) ∨
    (s.ctx.clientConn = ⟨0, none⟩ ∧ ∀ c, s.handed = some c → c ≠ ⟨0, none⟩ ∧ c ∉ conns)

/- One step of a session, from one table to the next. -/
structure SessionMoved (openFds : κ → Finset ℤ) (s : Session (κ × Calls)) (server : Server)
    (conns : List Connection) (t : Session (κ × Calls)) (server' : Server)
    (conns' : List Connection) : Prop where
  ok : SessionOk openFds t server' conns'
  socket : server'.socket = server.socket
  moved : ∃ closing, Moved server.socket conns s.k.2 closing conns' t.k.2
  joined : ∀ c ∈ conns', c ∉ conns → t.handed = some c

variable {s t : Session (κ × Calls)}

theorem SessionOk.accept (laws : KernelLaws M openFds) (h : SessionOk openFds s server conns)
    (hstep : sessionStep (traced M) s .accept = some t) :
    ∃ server' conns', SessionMoved openFds s server conns t server' conns' := by
  obtain ⟨r, conns', hr, heffect⟩ := h.tracked.accept laws
  simp only [sessionStep, fwsServerAccept_eq h.peer hr, Option.bind_eq_bind, Option.bind_some,
    Option.some.injEq] at hstep
  by_cases hrv : r.rv = 0
  · rw [if_neg (not_not.mpr hrv), if_pos rfl] at hstep
    obtain ⟨c, hc⟩ := Option.ne_none_iff_exists'.mp (heffect.hands hrv)
    rw [hc, Option.getD_some] at hstep
    subst hstep
    refine ⟨r.server, conns', ⟨rfl, heffect.tracked, Or.inl ⟨heffect.stored c hc, rfl⟩⟩,
      heffect.socket, ⟨false, heffect.moved⟩, ?_⟩
    intro d hd hout
    exact hc.symm.trans (heffect.joined d hd hout)
  · obtain ⟨hnone, hserver⟩ := serverAccept_refused h.tracked.ok.holds hr hrv
    have hsame : conns' = conns := by
      have hcontents := heffect.tracked.ok.contents.symm.trans (hserver ▸ h.tracked.ok.contents)
      exact List.map_injective_iff.mpr (Option.some_injective _) hcontents
    have herr : (retErr : ℤ) ≠ retOk := by decide
    rw [if_pos hrv, if_neg herr, hnone, Option.getD_none] at hstep
    subst hstep hsame
    exact ⟨r.server, _, ⟨rfl, heffect.tracked, h.client⟩, heffect.socket, ⟨false, heffect.moved⟩,
      fun d hd hout => absurd hd hout⟩

theorem SessionOk.serve (laws : KernelLaws M openFds) (h : SessionOk openFds s server conns)
    (hstep : sessionStep (traced M) s .serve = some t) :
    ∃ server' conns', SessionMoved openFds s server conns t server' conns' := by
  obtain ⟨r, hr, hstep⟩ := Option.bind_eq_some_iff.mp hstep
  obtain rfl := Option.some.inj hstep
  by_cases hopen : s.ctx.clientConn.socket = 0
  · rw [fwsServerServe_refused (traced M) hopen] at hr
    obtain rfl := Option.some.inj hr
    exact ⟨server, conns, ⟨h.peer, h.tracked, h.client⟩, rfl,
      ⟨false, .quiet [] fun _ hcall => absurd hcall List.not_mem_nil⟩,
      fun c hc hout => absurd hc hout⟩
  · rcases h.client with ⟨hc, hhanded⟩ | ⟨hzero, -⟩
    · obtain ⟨server', conns', heffect⟩ := h.tracked.serve laws h.peer hopen hc hr
      refine ⟨server', conns', ⟨heffect.peer, heffect.tracked, ?_⟩, heffect.socket, heffect.moved,
        fun c hc hout => absurd (heffect.kept c hc) hout⟩
      rcases heffect.client with ⟨hsame, rfl⟩ | ⟨hzero, hout⟩
      · left
        rw [hsame]
        exact ⟨hc, hhanded⟩
      · right
        refine ⟨hzero, ?_⟩
        intro c hc
        obtain rfl := Option.some.inj (hhanded.symm.trans hc)
        exact ⟨fun he => hopen (congrArg Connection.socket he), hout⟩
    · rw [hzero] at hopen
      exact absurd rfl hopen

theorem SessionOk.step (laws : KernelLaws M openFds) (h : SessionOk openFds s server conns)
    {e : SessionEvent} (hstep : sessionStep (traced M) s e = some t) :
    ∃ server' conns', SessionMoved openFds s server conns t server' conns' := by
  cases e with
  | accept => exact h.accept laws hstep
  | serve => exact h.serve laws hstep

/-- A session begins with nobody connected. -/
theorem SessionOk.start (laws : KernelLaws M openFds) {funcs : List FuncEntry} {port backlog : ℤ}
    {k : κ} {k' : κ × Calls}
    (hbind : fwsServerBind (traced M) (fwsServerSetFuncList fwsInit funcs) port backlog (k, []) =
      (retOk, ctx, k')) :
    ∃ server, SessionOk openFds ⟨ctx, none, k'⟩ server [] ∧ k'.2 = [] := by
  unfold fwsServerBind at hbind
  have herr : (retErr : ℤ) ≠ retOk := by decide
  rcases hcreate : serverCreate (traced M) port backlog (k, []) with ⟨_ | server, k₁⟩
  · rw [hcreate] at hbind
    exact absurd (Prod.mk.inj hbind).1 herr
  · rw [hcreate] at hbind
    obtain ⟨-, hctx⟩ := Prod.mk.inj hbind
    obtain ⟨rfl, rfl⟩ := Prod.mk.inj hctx
    obtain ⟨htracked, hnone⟩ := Tracked.create laws hcreate
    refine ⟨server, ⟨rfl, htracked, Or.inr ⟨rfl, ?_⟩⟩, hnone⟩
    intro c hc
    cases hc

end

end Fws
