import Fws.Service.Callers

/-!
# Many callers and one server

Clients that make calls, and others that send what they like, on the server's
loop. To its callers the server is a service that performs each call at once, as
long as its process lives and the network moves what belongs to a call whole.
-/

namespace Fws
open Base.Digits Base.Cells Base.Tlv Base.Runs Base.Calls

abbrev RpcLabel := Label ℕ (Bytes × Bytes) (ℤ × Option Bytes) (ℕ × Bytes)

/- `running` is the server's process, `serving` its next call. `calling` is the
return code of a call that has sent its request; `closed` tells whose connection
the server has closed. -/
structure Rpc where
  ctx : FwsCtx
  net : Net
  running : Bool
  serving : Bool
  calling : ℕ → Option ℤ
  closed : ℕ → Bool

/- How the bytes move in a step is the network's choice. -/
inductive RpcEvent where
  | connect (c : ℕ)
  | send (c : ℕ) (bs : Bytes)
  | call (c : ℕ) (wire : Wire) (messageType : CString) (inMsg : Bytes)
  | finish (c : ℕ) (wire : Wire)
  | hangup (c : ℕ)
  | accept (selected : SelectResult) (fresh : Option ℤ)
  | serve (wire : Wire)

/- One of the two receives of `connection_recv` would wait. The second one does so
for a size of 0, too. -/
def recvWaits (M : Machine Net) (waits : Net → Bool) (net : Net) (s : ℤ) : Bool :=
  waits net ||
    match M.recv net s 4 with
    | (none, _) => false
    | (some _, net) => waits net

theorem recvWaits_false {M : Machine Net} {waits : Net → Bool} {net : Net} {s : ℤ}
    (h : recvWaits M waits net s = false) : waits net = false :=
  (Bool.or_eq_false_iff.mp h).1

def Net.stalls (M : Machine Net) (net : Net) (s : ℤ) : Bool :=
  recvWaits M (fun net => net.blocks s) net s

/- Whose connection the next serve is for. -/
def Rpc.current (s : Rpc) : Option ℕ :=
  if s.ctx.clientConn.socket = 0 then none else s.net.fds s.ctx.clientConn.socket

def Rpc.closing (s : Rpc) (net : Net) (c : ℕ) : Bool :=
  s.closed c || (decide (s.current = some c) && (net.fds s.ctx.clientConn.socket).isNone)

def Rpc.invoked (s : Rpc) (served : Served) : List RpcLabel :=
  match s.current, served.called with
  | some c, some e => [.invoked c e]
  | _, _ => []

/- The callback did not return, or the response to a client that has hung up raised
SIGPIPE. -/
def Rpc.broken (s : Rpc) (fatal : ℕ × Bytes → Bool) (wire : Wire) (r : Serve Net) : Bool :=
  r.served.called.any fatal || (wire.pipe && decide (r.sent ≠ []) && s.current.any s.net.hung)

/- `FD_SET` was called for a descriptor beyond the set. -/
def overrun (fresh : Option ℤ) (net : Net) : Bool :=
  fresh.any fun fd => decide (fdSetsize ≤ fd) && (net.fds fd).isSome

/- The server's process has ended, and with it every connection. -/
def Rpc.dead (s : Rpc) : Rpc :=
  { s with running := false, closed := fun c => s.closed c || decide (c ∈ s.net.known) }

section
variable (listening : ℤ) (order : ByteOrder) (held : Net → ℕ → Byte) (fatal : ℕ × Bytes → Bool)
  (callers : ℕ → Option Caller)

/- The clients in `callers` make calls, one at a time, and hang up only between
them; any other client may send any bytes. A callback ends the process on what is
`fatal` to it. -/
def rpcStep (s : Rpc) : RpcEvent → Option (Rpc × List RpcLabel)
  | .connect c =>
    if s.running = false ∨ c ∈ s.net.known then none
    else
      some ({ s with
        net := { s.net with known := c :: s.net.known, pending := s.net.pending ++ [c] } }, [])
  | .send c bs =>
    if (callers c).isNone = true ∧ c ∈ s.net.known ∧ s.net.hung c = false then
      some ({ s with net := s.net.setInbox c (s.net.inbox c ++ bs) }, [])
    else none
  | .call c wire messageType inMsg =>
    match callers c with
    | none => none
    | some caller =>
      if s.calling c = none ∧ c ∈ s.net.known ∧ s.net.hung c = false then do
        let (ret, net) ←
          sendRequest (caller.machine wire c) caller.client messageType inMsg s.net
        some ({ s with net := net, calling := Function.update s.calling c (some ret) },
          [.called c (messageType.text, inMsg)])
      else none
  | .finish c wire =>
    match callers c, s.calling c with
    | some caller, some ret =>
      if recvWaits (caller.machine wire c)
          (fun net => decide (net.outbox c = [] ∧ s.closed c = false)) s.net
          caller.client.connection.socket = false then do
        let r ← awaitResponse (caller.machine wire c) caller.client ret s.net
        some ({ s with net := r.k, calling := Function.update s.calling c none },
          [.returned c (r.ret, r.out)])
      else none
    | _, _ => none
  | .hangup c =>
    if c ∈ s.net.known ∧ s.calling c = none then
      some ({ s with net := { s.net with hung := Function.update s.net.hung c true } }, [])
    else none
  | .accept selected fresh =>
    if s.running = true ∧ s.serving = false ∧
        s.net.mayReport listening (watched s.ctx) selected = true ∧
        s.net.unused listening fresh = true then do
      let (_, ctx, net) ← fwsServerAccept (netMachine listening order held) s.ctx
        { s.net with selected := selected, fresh := fresh }
      some (if overrun fresh net then s.dead
        else { s with ctx := ctx, net := net, serving := true }, [])
    else none
  | .serve wire =>
    if s.running = true ∧ s.serving = true ∧ (s.ctx.clientConn.socket = 0 ∨
        s.net.stalls (wireMachine listening order held wire) s.ctx.clientConn.socket =
          false) then do
      let r ← fwsServerServe (wireMachine listening order held wire) s.ctx s.net
      some (if s.broken fatal wire r then s.dead
        else { s with ctx := r.ctx, net := r.k, serving := false, closed := s.closing r.k },
        s.invoked r.served)
    else none

def rpcStart (funcs : List FuncEntry) (port backlog : ℤ) : Rpc :=
  let (_, ctx, net) := fwsServerBind (netMachine listening order held)
    (fwsServerSetFuncList fwsInit funcs) port backlog startNet
  ⟨ctx, net, true, false, fun _ => none, fun _ => false⟩

/- What the results of the callers rest on: calls within the bounds, and a network
that moves the bytes of a caller whole. -/
def RpcEvent.Orderly : RpcEvent → Prop
  | .call c wire messageType inMsg => wire.Whole c ∧ CallBounds messageType inMsg
  | .finish c wire => wire.Whole c
  | .serve wire => ∀ c, (callers c).isSome = true → wire.Whole c
  | _ => True

/- What the callers see and what is done for them. -/
def seen (l : RpcLabel) : Option RpcLabel := if (callers l.caller).isSome then some l else none

end

/-! ### What a step can be -/

section
variable {listening : ℤ} {order : ByteOrder} {held : Net → ℕ → Byte} {fatal : ℕ × Bytes → Bool}
  {callers : ℕ → Option Caller} {s : Rpc}

/- A step that was made: what the results need of its guards, and what it leaves. -/
inductive RpcMove (listening : ℤ) (order : ByteOrder) (held : Net → ℕ → Byte)
    (fatal : ℕ × Bytes → Bool) (callers : ℕ → Option Caller) (s : Rpc) :
    RpcEvent → Rpc → List RpcLabel → Prop
  | connect (c : ℕ) (hnew : c ∉ s.net.known) :
      RpcMove listening order held fatal callers s (.connect c)
        { s with net := { s.net with
          known := c :: s.net.known, pending := s.net.pending ++ [c] } } []
  | send (c : ℕ) (bs : Bytes) (hother : (callers c).isNone = true) :
      RpcMove listening order held fatal callers s (.send c bs)
        { s with net := s.net.setInbox c (s.net.inbox c ++ bs) } []
  | call (c : ℕ) (wire : Wire) (messageType : CString) (inMsg : Bytes) (caller : Caller) (ret : ℤ)
      (net : Net) (hcaller : callers c = some caller) (hidle : s.calling c = none)
      (hopen : s.net.hung c = false)
      (hsend : sendRequest (caller.machine wire c) caller.client messageType inMsg s.net =
        some (ret, net)) :
      RpcMove listening order held fatal callers s (.call c wire messageType inMsg)
        { s with net := net, calling := Function.update s.calling c (some ret) }
        [.called c (messageType.text, inMsg)]
  | finish (c : ℕ) (wire : Wire) (caller : Caller) (ret : ℤ) (r : Called Net)
      (hcaller : callers c = some caller) (hcalling : s.calling c = some ret)
      (hready : s.net.outbox c ≠ [] ∨ s.closed c = true)
      (hawait : awaitResponse (caller.machine wire c) caller.client ret s.net = some r) :
      RpcMove listening order held fatal callers s (.finish c wire)
        { s with net := r.k, calling := Function.update s.calling c none }
        [.returned c (r.ret, r.out)]
  | hangup (c : ℕ) (hidle : s.calling c = none) :
      RpcMove listening order held fatal callers s (.hangup c)
        { s with net := { s.net with hung := Function.update s.net.hung c true } } []
  | accept (selected : SelectResult) (fresh : Option ℤ) (ret : ℤ) (ctx : FwsCtx) (net : Net)
      (hrunning : s.running = true) (hserving : s.serving = false)
      (hunused : s.net.unused listening fresh = true)
      (haccept : fwsServerAccept (netMachine listening order held) s.ctx
        { s.net with selected := selected, fresh := fresh } = some (ret, ctx, net)) :
      RpcMove listening order held fatal callers s (.accept selected fresh)
        (if overrun fresh net then s.dead else { s with ctx := ctx, net := net, serving := true })
        []
  | serve (wire : Wire) (r : Serve Net) (hrunning : s.running = true) (hserving : s.serving = true)
      (hgoes : s.ctx.clientConn.socket = 0 ∨
        s.net.stalls (wireMachine listening order held wire) s.ctx.clientConn.socket = false)
      (hserve : fwsServerServe (wireMachine listening order held wire) s.ctx s.net = some r) :
      RpcMove listening order held fatal callers s (.serve wire)
        (if s.broken fatal wire r then s.dead
          else { s with ctx := r.ctx, net := r.k, serving := false, closed := s.closing r.k })
        (s.invoked r.served)

theorem rpcStep_move {e : RpcEvent} {t : Rpc} {out : List RpcLabel}
    (hstep : rpcStep listening order held fatal callers s e = some (t, out)) :
    RpcMove listening order held fatal callers s e t out := by
  cases e with
  | connect c =>
    simp only [rpcStep] at hstep
    by_cases hc : s.running = false ∨ c ∈ s.net.known
    · rw [if_pos hc] at hstep
      cases hstep
    · rw [if_neg hc] at hstep
      cases hstep
      exact .connect c fun hknown => hc (Or.inr hknown)
  | send c bs =>
    simp only [rpcStep] at hstep
    by_cases hc : (callers c).isNone = true ∧ c ∈ s.net.known ∧ s.net.hung c = false
    · rw [if_pos hc] at hstep
      cases hstep
      exact .send c bs hc.1
    · rw [if_neg hc] at hstep
      cases hstep
  | call c wire messageType inMsg =>
    rcases hcaller : callers c with _ | caller
    · simp only [rpcStep, hcaller] at hstep
      cases hstep
    · simp only [rpcStep, hcaller] at hstep
      by_cases hc : s.calling c = none ∧ c ∈ s.net.known ∧ s.net.hung c = false
      · rw [if_pos hc] at hstep
        obtain ⟨⟨ret, net⟩, hsend, ht⟩ := Option.bind_eq_some_iff.mp hstep
        cases ht
        exact .call c wire messageType inMsg caller ret net hcaller hc.1 hc.2.2 hsend
      · rw [if_neg hc] at hstep
        cases hstep
  | finish c wire =>
    rcases hcaller : callers c with _ | caller
    · simp only [rpcStep, hcaller] at hstep
      cases hstep
    · rcases hcalling : s.calling c with _ | ret
      · simp only [rpcStep, hcaller, hcalling] at hstep
        cases hstep
      · simp only [rpcStep, hcaller, hcalling] at hstep
        by_cases hc : recvWaits (caller.machine wire c)
            (fun net => decide (net.outbox c = [] ∧ s.closed c = false)) s.net
            caller.client.connection.socket = false
        · rw [if_pos hc] at hstep
          obtain ⟨r, hawait, ht⟩ := Option.bind_eq_some_iff.mp hstep
          cases ht
          have hready := of_decide_eq_false (recvWaits_false hc)
          rw [not_and_or, Bool.not_eq_false] at hready
          exact .finish c wire caller ret r hcaller hcalling hready hawait
        · rw [if_neg hc] at hstep
          cases hstep
  | hangup c =>
    simp only [rpcStep] at hstep
    by_cases hc : c ∈ s.net.known ∧ s.calling c = none
    · rw [if_pos hc] at hstep
      cases hstep
      exact .hangup c hc.2
    · rw [if_neg hc] at hstep
      cases hstep
  | accept selected fresh =>
    simp only [rpcStep] at hstep
    by_cases hc : s.running = true ∧ s.serving = false ∧
        s.net.mayReport listening (watched s.ctx) selected = true ∧
        s.net.unused listening fresh = true
    · rw [if_pos hc] at hstep
      obtain ⟨⟨ret, ctx, net⟩, haccept, ht⟩ := Option.bind_eq_some_iff.mp hstep
      cases ht
      exact .accept selected fresh ret ctx net hc.1 hc.2.1 hc.2.2.2 haccept
    · rw [if_neg hc] at hstep
      cases hstep
  | serve wire =>
    simp only [rpcStep] at hstep
    by_cases hc : s.running = true ∧ s.serving = true ∧ (s.ctx.clientConn.socket = 0 ∨
        s.net.stalls (wireMachine listening order held wire) s.ctx.clientConn.socket = false)
    · rw [if_pos hc] at hstep
      obtain ⟨r, hserve, ht⟩ := Option.bind_eq_some_iff.mp hstep
      cases ht
      exact .serve wire r hc.1 hc.2.1 hc.2.2 hserve
    · rw [if_neg hc] at hstep
      cases hstep

end

/-! ### The invariant -/

/- What concerns one client. -/
structure Seat where
  calling : Option ℤ
  inbox : Bytes
  outbox : Bytes
  hung : Bool

def Rpc.seat (s : Rpc) (c : ℕ) : Seat := ⟨s.calling c, s.net.inbox c, s.net.outbox c, s.net.hung c⟩

inductive InPhase : Phase (Bytes × Bytes) (ℤ × Option Bytes) → Seat → Prop where
  | idle (hung : Bool) : InPhase .idle ⟨none, [], [], hung⟩
  | waiting (q : Bytes × Bytes) (h : Sendable q) :
      InPhase (.waiting q) ⟨some retOk, frame (bodyEnvelope q.1 q.2).der, [], false⟩
  | done (r : ℤ × Option Bytes) (stream : Bytes) (h : Delivers stream r) :
      InPhase (.done r) ⟨some retOk, [], frame stream, false⟩
  | lost : InPhase .lost ⟨some retOk, [], [], false⟩

/- A client has its descriptor, or waits for it. -/
def Net.placed (net : Net) (c : ℕ) : Prop := c ∈ net.pending ∨ ∃ s, net.fds s = some c

/- Behind every descriptor is a connection of the table. -/
structure Hosting (listening : ℤ) (funcs : List FuncEntry) (ctx : FwsCtx) (net : Net)
    (server : Server) (conns : List Connection) : Prop where
  table : Table listening funcs ctx net.fds server conns
  running : server.status ≠ 0
  attached : ∀ s c, net.fds s = some c → ∃ conn ∈ conns, conn.socket = s

structure RpcInv (listening : ℤ) (funcs : List FuncEntry) (callers : ℕ → Option Caller) (s : Rpc)
    (phases : ℕ → Phase (Bytes × Bytes) (ℤ × Option Bytes)) : Prop where
  wf : NetWf s.net
  hosting : ∃ server conns, Hosting listening funcs s.ctx s.net server conns
  phases : ∀ c, (callers c).isSome = true → InPhase (phases c) (s.seat c)
  kept : ∀ c, (callers c).isSome = true → s.net.hung c = false → s.closed c = false
  placed : ∀ c ∈ s.net.known, s.closed c = false → s.net.placed c

/-! ### The clients' steps -/

section
variable {listening : ℤ} {funcs : List FuncEntry} {callers : ℕ → Option Caller} {s : Rpc}
  {phases : ℕ → Phase (Bytes × Bytes) (ℤ × Option Bytes)}

/-- A caller's seat may change together with its phase. -/
theorem phases_update (h : ∀ c, (callers c).isSome = true → InPhase (phases c) (s.seat c)) {t : Rpc}
    {c : ℕ} {p : Phase (Bytes × Bytes) (ℤ × Option Bytes)} (hc : InPhase p (t.seat c))
    (hothers : ∀ d, d ≠ c → t.seat d = s.seat d) (d : ℕ) (hd : (callers d).isSome = true) :
    InPhase (Function.update phases c p d) (t.seat d) := by
  by_cases hdc : d = c
  · subst hdc
    rw [Function.update_self]
    exact hc
  · rw [Function.update_of_ne hdc, hothers d hdc]
    exact h d hd

/-- The streams may change where the descriptors stay. -/
theorem RpcInv.streams (h : RpcInv listening funcs callers s phases) {net : Net}
    {calling : ℕ → Option ℤ} {phases' : ℕ → Phase (Bytes × Bytes) (ℤ × Option Bytes)}
    (hfds : net.fds = s.net.fds) (hknown : net.known = s.net.known)
    (hpending : net.pending = s.net.pending) (hhung : net.hung = s.net.hung)
    (hphases : ∀ c, (callers c).isSome = true →
      InPhase (phases' c) (Rpc.seat { s with net := net, calling := calling } c)) :
    RpcInv listening funcs callers { s with net := net, calling := calling } phases' := by
  obtain ⟨server, conns, hosting⟩ := h.hosting
  refine ⟨h.wf.same hfds hknown hpending, ⟨server, conns, ?_, hosting.running, ?_⟩, hphases, ?_, ?_⟩
  · show Table listening funcs s.ctx net.fds server conns
    rw [hfds]
    exact hosting.table
  · show ∀ a c, net.fds a = some c → _
    rw [hfds]
    exact hosting.attached
  · show ∀ c, _ → net.hung c = false → _
    rw [hhung]
    exact h.kept
  · show ∀ c ∈ net.known, s.closed c = false → net.placed c
    unfold Net.placed
    rw [hknown, hpending, hfds]
    exact h.placed

theorem RpcInv.connect (h : RpcInv listening funcs callers s phases) {c : ℕ}
    (hc : c ∉ s.net.known) :
    RpcInv listening funcs callers { s with
      net := { s.net with known := c :: s.net.known, pending := s.net.pending ++ [c] } }
      phases := by
  obtain ⟨server, conns, hosting⟩ := h.hosting
  have hfds : ∀ a, s.net.fds a ≠ some c := fun a ha => hc (h.wf.known a c ha)
  refine ⟨⟨h.wf.distinct, ?_, ?_, ?_⟩, ⟨server, conns, hosting.table, hosting.running,
    hosting.attached⟩, h.phases, h.kept, ?_⟩
  · intro a d hd
    exact List.mem_cons_of_mem _ (h.wf.known a d hd)
  · intro d hd
    rcases List.mem_append.mp hd with hd | hd
    · obtain ⟨hknown, hno⟩ := h.wf.waiting d hd
      exact ⟨List.mem_cons_of_mem _ hknown, hno⟩
    · rw [List.mem_singleton.mp hd]
      exact ⟨List.mem_cons_self .., hfds⟩
  · refine List.Nodup.append h.wf.nodup (List.nodup_singleton c) ?_
    intro d hd hdc
    rw [List.mem_singleton.mp hdc] at hd
    exact hc (h.wf.waiting c hd).1
  · intro d hd hopen
    rcases List.mem_cons.mp hd with rfl | hd
    · exact Or.inl (List.mem_append_right _ (List.mem_singleton_self _))
    · exact (h.placed d hd hopen).imp_left (List.mem_append_left _)

theorem RpcInv.hangup (h : RpcInv listening funcs callers s phases) {c : ℕ}
    (hidle : s.calling c = none) :
    RpcInv listening funcs callers
      { s with net := { s.net with hung := Function.update s.net.hung c true } } phases := by
  obtain ⟨server, conns, hosting⟩ := h.hosting
  refine ⟨⟨h.wf.distinct, h.wf.known, h.wf.waiting, h.wf.nodup⟩, ⟨server, conns, hosting.table,
    hosting.running, hosting.attached⟩, ?_, ?_, h.placed⟩
  · intro d hd
    have hphase := h.phases d hd
    by_cases hdc : d = c
    · subst hdc
      -- only an idle caller hangs up
      have hseat : s.seat d = ⟨none, s.net.inbox d, s.net.outbox d, s.net.hung d⟩ := by
        rw [Rpc.seat, hidle]
      have hseat' : Rpc.seat
          { s with net := { s.net with hung := Function.update s.net.hung d true } } d =
          ⟨none, s.net.inbox d, s.net.outbox d, true⟩ := by
        simp only [Rpc.seat, hidle, Function.update_self]
      rw [hseat] at hphase
      rw [hseat']
      generalize phases d = p at hphase ⊢
      generalize s.net.inbox d = inbox at hphase ⊢
      generalize s.net.outbox d = outbox at hphase ⊢
      cases hphase with
      | idle hung => exact .idle true
    · have hseat : Rpc.seat
          { s with net := { s.net with hung := Function.update s.net.hung c true } } d =
            s.seat d := by
        simp only [Rpc.seat, Function.update_of_ne hdc]
      rw [hseat]
      exact hphase
  · intro d hd hopen
    by_cases hdc : d = c
    · subst hdc
      simp only [Function.update_self, Bool.true_eq_false] at hopen
    · refine h.kept d hd ?_
      simpa only [Function.update_of_ne hdc] using hopen

end

/-! ### The server's steps -/

/- What an accept call leaves of the clients. -/
structure Admitted (net net' : Net) : Prop where
  admits : Admits net net'
  known : net'.known = net.known
  hung : net'.hung = net.hung
  placed : ∀ c, net.placed c → net'.placed c

theorem NetWf.admitted {net : Net} (h : NetWf net) {c : ℕ} {waiting : List ℕ}
    (hpending : net.pending = c :: waiting) {s : ℤ} (hfree : net.fds s = none) :
    Admitted net ({ net with pending := waiting }.setFd s (some c)) := by
  have hadmits := h.admit hpending hfree
  refine ⟨hadmits, rfl, rfl, ?_⟩
  intro d hd
  rcases hd with hd | ⟨a, ha⟩
  · rw [hpending] at hd
    rcases List.mem_cons.mp hd with rfl | hd
    · exact Or.inr ⟨s, Function.update_self ..⟩
    · exact Or.inl hd
  · refine Or.inr ⟨a, ?_⟩
    have has : a ≠ s := by
      intro he
      rw [he, hfree] at ha
      cases ha
    show Function.update net.fds s (some c) a = some d
    rw [Function.update_of_ne has]
    exact ha

section
variable {listening : ℤ} {order : ByteOrder} {held : Net → ℕ → Byte} {funcs : List FuncEntry}
  {ctx : FwsCtx} {net : Net} {server : Server} {conns : List Connection}

/- What an accept call does to the table and the connection that is served next:
nothing, a client that has waited is the last of the table and served, or the first
of the table that is ready is served. -/
inductive Admission (listening : ℤ) (ctx : FwsCtx) (net : Net) (conns : List Connection) :
    Connection → (ℤ → Option ℕ) → List Connection → Prop where
  | kept (h : ∀ active, net.selected = .ready active →
        listening ∈ active ∧ (net.fresh = none ∨ net.pending = [])) :
      Admission listening ctx net conns ctx.clientConn net.fds conns
  | joined (fd : ℤ) (info c : ℕ) (waiting : List ℕ) (hfresh : net.fresh = some fd)
      (hpending : net.pending = c :: waiting) :
      Admission listening ctx net conns ⟨fd, some info⟩ (Function.update net.fds fd (some c))
        (conns ++ [⟨fd, some info⟩])
  | picked (active : Finset ℤ) (hsel : net.selected = .ready active)
      (hlisten : listening ∉ active) :
      Admission listening ctx net conns
        ((conns.find? fun conn => decide (conn.socket ∈ active)).getD ctx.clientConn) net.fds conns

theorem Hosting.accept (order : ByteOrder) (held : Net → ℕ → Byte)
    (h : Hosting listening funcs ctx net server conns) (hwf : NetWf net)
    (hunused : net.unused listening net.fresh = true) :
    ∃ ret ctx' net' server' conns',
      fwsServerAccept (netMachine listening order held) ctx net = some (ret, ctx', net') ∧
      Hosting listening funcs ctx' net' server' conns' ∧ Admitted net net' ∧
      Admission listening ctx net conns ctx'.clientConn net'.fds conns' := by
  have hsame : Admitted net net := ⟨⟨hwf, rfl, rfl, fun _ hg => hg⟩, rfl, rfl, fun _ hp => hp⟩
  have hkeep : ∀ conn : Connection, conn.socket = 0 ∨ conn ∈ conns → Hosting listening funcs
      { ctx with peer := .server (some server), clientConn := conn } net server conns :=
    fun _ hconn => ⟨h.table.keep hconn, h.running, h.attached⟩
  have hselect : ∀ {n fds reported k₁},
      (netMachine listening order held).select net n fds = (reported, k₁) →
      net.selected = reported ∧ net = k₁ := fun hsel => Prod.mk.inj hsel
  obtain ⟨r, hr, hcase⟩ := serverAccept_case
    (M := netMachine listening order held) (k := net) h.table.holds_conns
  have hhosting : ∃ conns', Hosting listening funcs { ctx with
      peer := .server (some r.server), clientConn := r.stored.getD ctx.clientConn }
      r.k r.server conns' ∧ Admitted net r.k ∧
      Admission listening ctx net conns (r.stored.getD ctx.clientConn) r.k.fds conns' := by
    cases hcase with
    | stopped hstatus => exact absurd hstatus h.running
    | unready reported k₁ hrunning hsel hnone =>
      obtain ⟨rfl, rfl⟩ := hselect hsel
      exact ⟨conns, hkeep _ h.table.current, hsame, .kept fun active hr => absurd hr (hnone active)⟩
    | refused active k₁ k₂ hrunning hsel hlistening ha =>
      obtain ⟨hreported, rfl⟩ := hselect hsel
      rw [h.table.socket] at hlistening
      have hrefused : net.fresh = none ∨ net.pending = [] := net_accept_refused ha
      have hk₂ : k₂ = net := net_accept_none ha
      subst k₂
      refine ⟨conns, hkeep _ h.table.current, hsame, .kept ?_⟩
      intro active' hready
      rw [hreported] at hready
      cases hready
      exact ⟨hlistening, hrefused⟩
    | joined active clientSocket k₁ k₂ hrunning hsel hlistening ha =>
      obtain ⟨-, rfl⟩ := hselect hsel
      obtain ⟨hfresh, c, waiting, hpending, rfl⟩ := net_accept_some ha
      have hs : 0 ≤ clientSocket ∧ clientSocket < 2 ^ 31 ∧ clientSocket ≠ listening ∧
          net.fds clientSocket = none := by
        have hfresh' : net.fresh = some clientSocket := hfresh
        rw [hfresh'] at hunused
        exact of_decide_eq_true hunused
      refine ⟨_, ⟨h.table.join _ c hs, h.running, ?_⟩, hwf.admitted hpending hs.2.2.2,
        .joined clientSocket _ c waiting hfresh hpending⟩
      intro a d ha
      by_cases has : a = clientSocket
      · subst has
        exact ⟨_, List.mem_append_right _ (List.mem_singleton_self _), rfl⟩
      · have hold : net.fds a = some d := by
          rw [← ha]
          exact (Function.update_of_ne has _ _).symm
        obtain ⟨conn, hconn, hsocket⟩ := h.attached a d hold
        exact ⟨conn, List.mem_append_left _ hconn, hsocket⟩
    | picked active k₁ hrunning hsel hlistening =>
      obtain ⟨hreported, rfl⟩ := hselect hsel
      rw [h.table.socket] at hlistening
      have hfound : ∀ stored, conns.find? (fun conn => decide (conn.socket ∈ active)) = stored →
          (stored.getD ctx.clientConn).socket = 0 ∨ stored.getD ctx.clientConn ∈ conns := by
        intro stored hstored
        cases stored with
        | none => exact h.table.current
        | some conn => exact Or.inr (List.mem_of_find?_eq_some hstored)
      exact ⟨conns, hkeep _ (hfound _ rfl), hsame, .picked active hreported hlistening⟩
  obtain ⟨conns', hhosting, hadmitted, hadmission⟩ := hhosting
  refine ⟨if r.rv ≠ 0 then retErr else retOk, _, r.k, r.server, conns', ?_, hhosting, hadmitted,
    hadmission⟩
  simp only [fwsServerAccept, h.table.peer, hr, Option.bind_eq_bind, Option.bind_some]

/- The two ways that a serve goes on a connection, with what it does to its client. -/
inductive ServeCase (M : Machine Net) (wire : Wire) (listening : ℤ) (funcs : List FuncEntry)
    (ctx : FwsCtx) (net : Net) (conns : List Connection) (c : ℕ) (r : Serve Net) : Prop where
  | answered (p rest sent : Bytes) (env : Envelope)
      (hrecv : connectionRecv M ctx.clientConn net =
        (some (messageSetStream messageCreate p), net.setInbox c rest))
      (hserve : serveRequest funcs p = some (env, r.served)) (hctx : r.ctx = ctx)
      (hnet : r.k = (net.setInbox c rest).setOutbox c sent)
      (hsent : wire.Whole c → net.hung c = false →
        sent = net.outbox c ++ (respond funcs p).toList.flatMap frame)
  | dropped (rest : Bytes) (server' : Server) (pre post : List Connection)
      (hconns : conns = pre ++ ctx.clientConn :: post)
      (hrecv : connectionRecv M ctx.clientConn net = (none, net.setInbox c rest))
      (hcalled : r.served.called = none)
      (hctx : r.ctx = { ctx with peer := .server (some server'), clientConn := ⟨0, none⟩ })
      (hnet : r.k = (net.setInbox c rest).setFd ctx.clientConn.socket none)
      (hhosting : Hosting listening funcs r.ctx r.k server' (pre ++ post))

/-- What is sent goes to the client behind the descriptor, over a whole wire as one frame. -/
theorem sent_on_wire {wire : Wire} {c : ℕ} {net net' : Net} {conn : Connection}
    {response : Option Bytes}
    (hsent : match response with
      | none => net' = net
      | some stream =>
        serverSendMsg (wireMachine listening order held wire)
          (messageSetStream messageCreate stream) conn net = some (0, net'))
    (hfd : net.fds conn.socket = some c)
    (hlt : ∀ stream, response = some stream → stream.length < 2 ^ 32) :
    ∃ sent, net' = net.setOutbox c sent ∧ (wire.Whole c → net.hung c = false →
      sent = net.outbox c ++ response.toList.flatMap frame) := by
  cases response with
  | none =>
    refine ⟨net.outbox c, ?_, ?_⟩
    · rw [setOutbox_self]
      exact hsent
    · intro _ _
      rw [Option.toList_none, List.flatMap_nil, List.append_nil]
  | some stream =>
    obtain ⟨⟨rv, k⟩, hsend, hk⟩ := Option.bind_eq_some_iff.mp hsent
    obtain ⟨-, rfl⟩ := Prod.mk.inj (Option.some.inj hk)
    by_cases hwhole : wire.Whole c ∧ net.hung c = false
    · rw [wire_send_frame listening order held wire hwhole.1 hwhole.2 hfd (hlt stream rfl)] at hsend
      obtain ⟨-, rfl⟩ := Prod.mk.inj (Option.some.inj hsend)
      refine ⟨_, rfl, ?_⟩
      intro _ _
      rw [Option.toList_some, List.flatMap_singleton]
    · obtain ⟨sent, rfl⟩ := wire_send_any listening order held wire hfd hsend
      exact ⟨sent, rfl, fun hwire hopen => absurd ⟨hwire, hopen⟩ hwhole⟩

theorem Hosting.serve {wire : Wire} (h : Hosting listening funcs ctx net server conns)
    (hopen : ctx.clientConn.socket ≠ 0) {c : ℕ} (hfd : net.fds ctx.clientConn.socket = some c)
    {r : Serve Net}
    (hserve : fwsServerServe (wireMachine listening order held wire) ctx net = some r) :
    ServeCase (wireMachine listening order held wire) wire listening funcs ctx net conns c r := by
  have hmem : ctx.clientConn ∈ conns := h.table.current.resolve_left hopen
  obtain ⟨rest, hrest⟩ := wire_recv_any listening order held wire hfd
  rcases hrecv : connectionRecv (wireMachine listening order held wire) ctx.clientConn net with
    ⟨_ | message, net₁⟩
  · rw [hrecv] at hrest
    obtain rfl := hrest
    obtain ⟨pre, post, rfl⟩ := List.append_of_mem hmem
    obtain ⟨server', info, htable, hstatus, hclose⟩ :=
      h.table.close (wireMachine listening order held wire) (net.setInbox c rest)
    rw [fwsServerServe_closed hopen h.table.peer hrecv hclose] at hserve
    cases hserve
    refine .dropped rest server' pre post rfl hrecv rfl rfl rfl ⟨htable, hstatus ▸ h.running, ?_⟩
    intro a d ha
    have hne : a ≠ ctx.clientConn.socket := by
      intro he
      subst he
      have hcleared : Function.update net.fds ctx.clientConn.socket none ctx.clientConn.socket =
        some d := ha
      rw [Function.update_self] at hcleared
      cases hcleared
    have hold : net.fds a = some d := by
      rw [← ha]
      exact (Function.update_of_ne hne _ _).symm
    obtain ⟨conn, hconn, rfl⟩ := h.attached a d hold
    refine ⟨conn, ?_, rfl⟩
    rcases List.mem_append.mp hconn with hconn | hconn
    · exact List.mem_append_left _ hconn
    · rcases List.mem_cons.mp hconn with rfl | hconn
      · exact absurd rfl hne
      · exact List.mem_append_right _ hconn
  · obtain ⟨p, rfl, -⟩ := connectionRecv_some hrecv
    rw [hrecv] at hrest
    obtain rfl := hrest
    obtain ⟨env, served, hreq, henc, hctx, hserved, -, hsent⟩ :=
      fwsServerServe_some hopen h.table.peer hrecv hserve
    rw [h.table.funcs] at hreq henc hsent
    have hlt : ∀ stream, respond funcs p = some stream → stream.length < 2 ^ 32 := by
      intro stream hstream
      rw [hstream] at henc
      exact encodeResponse_length henc
    have hfd' : (net.setInbox c rest).fds ctx.clientConn.socket = some c := hfd
    obtain ⟨sent, hnet, hwhole⟩ := sent_on_wire hsent hfd' hlt
    rw [← hserved] at hreq
    exact .answered p rest sent env hrecv hreq hctx hnet hwhole

/-- A whole frame is received as a request. -/
theorem Hosting.serve_frame {wire : Wire} (h : Hosting listening funcs ctx net server conns)
    (hopen : ctx.clientConn.socket ≠ 0) {c : ℕ} (hfd : net.fds ctx.clientConn.socket = some c)
    (hwire : wire.Whole c) (hhung : net.hung c = false)
    {p rest : Bytes} (hpos : 0 < cInt p.length) (hlt : p.length < 2 ^ 32)
    (hinbox : net.inbox c = frame p ++ rest) {r : Serve Net}
    (hserve : fwsServerServe (wireMachine listening order held wire) ctx net = some r) :
    ∃ env, serveRequest funcs p = some (env, r.served) ∧ r.ctx = ctx ∧
      r.k = (net.setInbox c rest).setOutbox c
        (net.outbox c ++ (respond funcs p).toList.flatMap frame) := by
  have hframe := wire_recv_frame listening order held wire hfd
    (fun _ n => hwire.handed _ n hhung) hlt hinbox
  rw [if_pos hpos] at hframe
  cases h.serve hopen hfd hserve with
  | answered p' rest' sent env hrecv hreq hctx hnet hsent =>
    rw [hframe] at hrecv
    obtain ⟨hmessage, hrest⟩ := Prod.mk.inj hrecv
    have hstream := congrArg messageGetStream (Option.some.inj hmessage)
    rw [messageGetStream_set, messageGetStream_set] at hstream
    obtain rfl := Option.some.inj hstream
    rw [hsent hwire hhung, ← hrest] at hnet
    exact ⟨env, hreq, hctx, hnet⟩
  | dropped rest' server' pre post hconns hrecv hcalled hctx hnet hhosting =>
    rw [hframe] at hrecv
    cases hrecv

end

/-! ### Every step is matched -/

section
variable {listening : ℤ} {order : ByteOrder} {held : Net → ℕ → Byte} {funcs : List FuncEntry}
  {callers : ℕ → Option Caller} {s : Rpc}
  {phases : ℕ → Phase (Bytes × Bytes) (ℤ × Option Bytes)}

/- A step is matched by a run of atomic calls that logs what is seen of it. -/
def Matched (listening : ℤ) (funcs : List FuncEntry) (callers : ℕ → Option Caller)
    (phases : ℕ → Phase (Bytes × Bytes) (ℤ × Option Bytes)) (t : Rpc) (out : List RpcLabel) :
    Prop :=
  ∃ es phases', exec (withLog (step (service funcs))) (phases, []) es =
      some (phases', out.filterMap (seen callers)) ∧
    RpcInv listening funcs callers t phases'

theorem Matched.silent {t : Rpc} {out : List RpcLabel}
    (h : RpcInv listening funcs callers t phases) (hout : out.filterMap (seen callers) = []) :
    Matched listening funcs callers phases t out := by
  refine ⟨[], phases, ?_, h⟩
  rw [hout]
  rfl

theorem Matched.one {t : Rpc} {out : List RpcLabel} (e : Event ℕ (Bytes × Bytes))
    (phases' : ℕ → Phase (Bytes × Bytes) (ℤ × Option Bytes))
    (hstep : step (service funcs) phases e = some (phases', out.filterMap (seen callers)))
    (h : RpcInv listening funcs callers t phases') :
    Matched listening funcs callers phases t out := by
  refine ⟨[e], phases', ?_, h⟩
  simp only [exec, withLog, hstep, Option.map_some, Option.bind_some, List.nil_append]

theorem seen_caller {c : ℕ} {out : List RpcLabel} (hc : (callers c).isSome = true)
    (hout : ∀ l ∈ out, l.caller = c) : out.filterMap (seen callers) = out := by
  induction out with
  | nil => rfl
  | cons l out ih =>
    have hl : seen callers l = some l := by rw [seen, hout l (List.mem_cons_self ..), if_pos hc]
    rw [List.filterMap_cons_some hl, ih fun k hk => hout k (List.mem_cons_of_mem _ hk)]

theorem seen_other {c : ℕ} {out : List RpcLabel} (hc : ¬ (callers c).isSome = true)
    (hout : ∀ l ∈ out, l.caller = c) : out.filterMap (seen callers) = [] := by
  apply List.filterMap_eq_nil_iff.mpr
  intro l hl
  rw [seen, hout l hl, if_neg hc]

theorem caller_singleton {c : ℕ} {l : RpcLabel} (hl : l.caller = c) : ∀ k ∈ [l], k.caller = c := by
  intro k hk
  rw [List.mem_singleton.mp hk, hl]

theorem RpcInv.send (h : RpcInv listening funcs callers s phases) {c : ℕ}
    (hc : (callers c).isNone = true) (bs : Bytes) :
    RpcInv listening funcs callers
      { s with net := s.net.setInbox c (s.net.inbox c ++ bs) } phases := by
  refine h.streams rfl rfl rfl rfl ?_
  intro d hd
  have hdc : d ≠ c := by
    intro he
    rw [he, Option.isSome_iff_ne_none, ← Option.isNone_iff_eq_none.mp hc] at hd
    exact hd rfl
  have hseat : Rpc.seat { s with net := s.net.setInbox c (s.net.inbox c ++ bs) } d = s.seat d := by
    simp only [Rpc.seat, Net.setInbox, Function.update_of_ne hdc]
  exact hseat ▸ h.phases d hd

theorem RpcInv.call (h : RpcInv listening funcs callers s phases) {c : ℕ} {caller : Caller}
    (hc : callers c = some caller) {messageType : CString} {inMsg : Bytes} {ret : ℤ} {net : Net}
    (hidle : s.calling c = none) (hhung : s.net.hung c = false) {wire : Wire}
    (hwire : wire.Whole c) (hbounds : CallBounds messageType inMsg)
    (hsend : sendRequest (caller.machine wire c) caller.client messageType inMsg s.net =
      some (ret, net)) :
    Matched listening funcs callers phases
      { s with net := net, calling := Function.update s.calling c (some ret) }
      [.called c (messageType.text, inMsg)] := by
  obtain ⟨hsendable, rfl, rfl⟩ := sendRequest_some hwire hhung hbounds hsend
  have hsome : (callers c).isSome = true := by rw [hc, Option.isSome_some]
  have hphase := h.phases c hsome
  have hseat : s.seat c = ⟨none, s.net.inbox c, s.net.outbox c, false⟩ := by
    rw [Rpc.seat, hidle, hhung]
  rw [hseat] at hphase
  have hempty : phases c = .idle ∧ s.net.inbox c = [] ∧ s.net.outbox c = [] := by
    generalize phases c = p at hphase ⊢
    generalize s.net.inbox c = inbox at hphase ⊢
    generalize s.net.outbox c = outbox at hphase ⊢
    cases hphase with
    | idle hung => exact ⟨rfl, rfl, rfl⟩
  obtain ⟨hp, hinbox, houtbox⟩ := hempty
  refine .one (.call c (messageType.text, inMsg))
    (Function.update phases c (.waiting (messageType.text, inMsg))) ?_ ?_
  · rw [seen_caller hsome (caller_singleton rfl)]
    simp only [step, hp]
  · refine h.streams rfl rfl rfl rfl (phases_update h.phases ?_ ?_)
    · have hnew : Rpc.seat { s with
          net := s.net.setInbox c (s.net.inbox c ++ frame (bodyEnvelope messageType.text inMsg).der)
          calling := Function.update s.calling c (some retOk) } c =
          ⟨some retOk, frame (bodyEnvelope messageType.text inMsg).der, [], false⟩ := by
        simp only [Rpc.seat, Net.setInbox, Function.update_self, hinbox, houtbox, hhung,
          List.nil_append]
      rw [hnew]
      exact .waiting _ hsendable
    · intro d hdc
      simp only [Rpc.seat, Net.setInbox, Function.update_of_ne hdc]

theorem RpcInv.finish (h : RpcInv listening funcs callers s phases) {c : ℕ} {caller : Caller}
    (hc : callers c = some caller) {ret : ℤ} (hcalling : s.calling c = some ret)
    (hready : s.net.outbox c ≠ [] ∨ s.closed c = true) {wire : Wire} (hwire : wire.Whole c)
    {r : Called Net}
    (hawait : awaitResponse (caller.machine wire c) caller.client ret s.net = some r) :
    Matched listening funcs callers phases
      { s with net := r.k, calling := Function.update s.calling c none }
      [.returned c (r.ret, r.out)] := by
  have hsome : (callers c).isSome = true := by rw [hc, Option.isSome_some]
  have hphase := h.phases c hsome
  have hdone : ∃ result stream, phases c = .done result ∧ Delivers stream result ∧
      ret = retOk ∧ s.net.inbox c = [] ∧ s.net.outbox c = frame stream ∧ s.net.hung c = false := by
    have hkept := h.kept c hsome
    rw [Rpc.seat, hcalling] at hphase
    generalize phases c = p at hphase ⊢
    generalize s.net.inbox c = inbox at hphase ⊢
    generalize s.net.outbox c = outbox at hphase hready ⊢
    generalize s.net.hung c = hung at hphase hkept ⊢
    cases hphase with
    | waiting q hq =>
      rcases hready with hready | hclosed
      · exact absurd rfl hready
      · rw [hkept rfl] at hclosed
        cases hclosed
    | done result stream hd => exact ⟨result, stream, rfl, hd, rfl, rfl, rfl, rfl⟩
    | lost =>
      rcases hready with hready | hclosed
      · exact absurd rfl hready
      · rw [hkept rfl] at hclosed
        cases hclosed
  obtain ⟨result, stream, hp, hd, rfl, hinbox, houtbox, hhung⟩ := hdone
  rw [awaitResponse_delivers hwire hhung hd houtbox] at hawait
  cases hawait
  refine .one (.finish c) (Function.update phases c .idle) ?_ ?_
  · rw [seen_caller hsome (caller_singleton rfl)]
    simp only [step, hp]
  · refine h.streams rfl rfl rfl rfl (phases_update h.phases ?_ ?_)
    · have hnew : Rpc.seat { s with
          net := s.net.setOutbox c []
          calling := Function.update s.calling c none } c = ⟨none, [], [], false⟩ := by
        simp only [Rpc.seat, Net.setOutbox, Function.update_self, hinbox, hhung]
      rw [hnew]
      exact .idle false
    · intro d hdc
      simp only [Rpc.seat, Net.setOutbox, Function.update_of_ne hdc]

theorem RpcInv.accept (h : RpcInv listening funcs callers s phases)
    {selected : SelectResult} {fresh : Option ℤ}
    (hunused : s.net.unused listening fresh = true) {ret : ℤ} {ctx : FwsCtx} {net : Net}
    (hcall : fwsServerAccept (netMachine listening order held) s.ctx
      { s.net with selected := selected, fresh := fresh } = some (ret, ctx, net)) :
    RpcInv listening funcs callers { s with ctx := ctx, net := net, serving := true } phases := by
  obtain ⟨server, conns, hosting⟩ := h.hosting
  have hwf : NetWf { s.net with selected := selected, fresh := fresh } := h.wf.same rfl rfl rfl
  have hhosting : Hosting listening funcs s.ctx
      { s.net with selected := selected, fresh := fresh } server conns :=
    ⟨hosting.table, hosting.running, hosting.attached⟩
  obtain ⟨ret', ctx', net', server', conns', hcall', hhosting', hadmitted, -⟩ :=
    hhosting.accept order held hwf hunused
  rw [hcall] at hcall'
  cases hcall'
  refine ⟨hadmitted.admits.wf, ⟨server', conns', hhosting'⟩, ?_, ?_, ?_⟩
  · intro c hc
    have hseat : Rpc.seat { s with ctx := ctx, net := net, serving := true } c = s.seat c := by
      simp only [Rpc.seat, hadmitted.admits.inbox, hadmitted.admits.outbox, hadmitted.hung]
    rw [hseat]
    exact h.phases c hc
  · intro c hc hopen
    have hopen' : net.hung c = false := hopen
    rw [hadmitted.hung] at hopen'
    exact h.kept c hc hopen'
  · intro c hknown hopen
    have hknown' : c ∈ net.known := hknown
    rw [hadmitted.known] at hknown'
    exact hadmitted.placed c (h.placed c hknown' hopen)

theorem invoked_caller {c : ℕ} (hcurrent : s.current = some c) (served : Served) :
    s.invoked served = served.called.toList.map fun e => .invoked c e := by
  unfold Rpc.invoked
  rw [hcurrent]
  cases served.called with
  | none => rfl
  | some e => rfl

/-- A client that the server does not read from keeps its seat. -/
theorem answered_seat {c d : ℕ} (hdc : d ≠ c) (rest sent : Bytes) (closed : ℕ → Bool) :
    Rpc.seat { s with
      net := (s.net.setInbox c rest).setOutbox c sent, serving := false, closed := closed } d =
      s.seat d := by
  simp only [Rpc.seat, Net.setInbox, Net.setOutbox, Function.update_of_ne hdc]

/-- What a receive leaves of a caller's stream, by what the caller waits for. -/
theorem RpcInv.caller_inbox (h : RpcInv listening funcs callers s phases) {c : ℕ}
    (hc : (callers c).isSome = true) :
    (s.net.inbox c = [] ∧ (s.net.hung c = true → ∃ hung, phases c = .idle ∧
        s.seat c = ⟨none, [], [], hung⟩)) ∨
      ∃ q, phases c = .waiting q ∧ Sendable q ∧ s.seat c =
        ⟨some retOk, frame (bodyEnvelope q.1 q.2).der, [], false⟩ := by
  have hphase := h.phases c hc
  have hinbox : (s.seat c).inbox = s.net.inbox c := rfl
  have hhung : (s.seat c).hung = s.net.hung c := rfl
  rw [← hinbox, ← hhung]
  generalize phases c = p at hphase ⊢
  generalize s.seat c = seat at hphase ⊢
  cases hphase with
  | idle hung => exact Or.inl ⟨rfl, fun _ => ⟨hung, rfl, rfl⟩⟩
  | waiting q hq => exact Or.inr ⟨q, rfl, hq, rfl⟩
  | done r stream hd => exact Or.inl ⟨rfl, fun hfalse => absurd hfalse Bool.false_ne_true⟩
  | lost => exact Or.inl ⟨rfl, fun hfalse => absurd hfalse Bool.false_ne_true⟩

/-- The request of a waiting caller is performed. -/
theorem RpcInv.performed (h : RpcInv listening funcs callers s phases) (hout : RepliesBounded funcs)
    {c : ℕ} (hc : (callers c).isSome = true) (hcurrent : s.current = some c)
    {q : Bytes × Bytes} (hp : phases c = .waiting q) (hq : Sendable q)
    (hseat : s.seat c = ⟨some retOk, frame (bodyEnvelope q.1 q.2).der, [], false⟩)
    {served : Served} {env : Envelope}
    (hserve : serveRequest funcs (bodyEnvelope q.1 q.2).der = some (env, served)) :
    Matched listening funcs callers phases
      { s with
        net := (s.net.setInbox c []).setOutbox c (s.net.outbox c ++
          (respond funcs (bodyEnvelope q.1 q.2).der).toList.flatMap frame)
        serving := false
        closed := s.closed } (s.invoked served) := by
  obtain ⟨served', response, hserve', henc, hcalled, hresult⟩ := respond_service hout hq
  have hrespond := respond_eq hserve' henc
  rw [hserve] at hserve'
  obtain ⟨rfl, rfl⟩ := Prod.mk.inj (Option.some.inj hserve')
  rw [hrespond]
  have hlabels : s.invoked served = ((service funcs).effects q).map fun e => .invoked c e := by
    rw [invoked_caller hcurrent, hcalled]
  have hown : ∀ l ∈ s.invoked served, l.caller = c := by
    intro l hl
    rw [hlabels] at hl
    obtain ⟨e, -, rfl⟩ := List.mem_map.mp hl
    rfl
  have hcalling : s.calling c = some retOk := congrArg Seat.calling hseat
  have houtbox : s.net.outbox c = [] := congrArg Seat.outbox hseat
  have hhung : s.net.hung c = false := congrArg Seat.hung hseat
  refine .one (.perform c) (Function.update phases c ((service funcs).performed q)) ?_ ?_
  · rw [seen_caller hc hown, hlabels]
    simp only [step, hp]
  · have hinv : RpcInv listening funcs callers { s with serving := false } phases :=
      ⟨h.wf, h.hosting, h.phases, h.kept, h.placed⟩
    refine hinv.streams rfl rfl rfl rfl (phases_update h.phases ?_ ?_)
    · have hnew : ∀ sent, Rpc.seat { s with
          net := (s.net.setInbox c []).setOutbox c (s.net.outbox c ++ sent)
          serving := false } c = ⟨some retOk, [], sent, false⟩ := by
        intro sent
        simp only [Rpc.seat, Net.setInbox, Net.setOutbox, Function.update_self, hcalling, houtbox,
          hhung, List.nil_append]
      rw [hnew]
      unfold Service.performed
      rcases hr : (service funcs).result q with _ | r
      · rw [hr] at hresult
        obtain rfl := hresult
        exact .lost
      · rw [hr] at hresult
        obtain ⟨stream, rfl, hd⟩ := hresult
        rw [Option.toList_some, List.flatMap_singleton]
        exact .done r stream hd
    · intro d hdc
      exact answered_seat hdc _ _ _

theorem NetWf.clear {net : Net} (h : NetWf net) (a : ℤ) : NetWf (net.setFd a none) := by
  have hfds : ∀ b d, (net.setFd a none).fds b = some d → net.fds b = some d := by
    intro b d hb
    have hb' : Function.update net.fds a none b = some d := hb
    by_cases hba : b = a
    · rw [hba, Function.update_self] at hb'
      cases hb'
    · rwa [Function.update_of_ne hba] at hb'
  refine ⟨?_, ?_, ?_, h.nodup⟩
  · intro b b' d hb hb'
    exact h.distinct b b' d (hfds b d hb) (hfds b' d hb')
  · intro b d hb
    exact h.known b d (hfds b d hb)
  · intro d hd
    obtain ⟨hknown, hno⟩ := h.waiting d hd
    exact ⟨hknown, fun b hb => hno b (hfds b d hb)⟩

theorem closing_eq {c : ℕ} (hcurrent : s.current = some c) (net : Net) (d : ℕ) :
    s.closing net d =
      (s.closed d || (decide (c = d) && (net.fds s.ctx.clientConn.socket).isNone)) := by
  simp only [Rpc.closing, hcurrent, Option.some.injEq]

/-- Nothing that a caller waits for is lost with a connection: its own is closed
only when it has hung up. -/
theorem RpcInv.dropped (h : RpcInv listening funcs callers s phases) {c : ℕ} {rest : Bytes}
    {ctx : FwsCtx} {server : Server} {conns : List Connection} (hcurrent : s.current = some c)
    (hfd : s.net.fds s.ctx.clientConn.socket = some c)
    (hown : (callers c).isSome = true → s.net.inbox c = rest ∧ s.net.hung c = true)
    (hhosting : Hosting listening funcs ctx
      ((s.net.setInbox c rest).setFd s.ctx.clientConn.socket none) server conns) :
    RpcInv listening funcs callers { s with
      ctx := ctx
      net := (s.net.setInbox c rest).setFd s.ctx.clientConn.socket none
      serving := false
      closed := s.closing ((s.net.setInbox c rest).setFd s.ctx.clientConn.socket none) }
      phases := by
  have hnone : ((s.net.setInbox c rest).setFd s.ctx.clientConn.socket none).fds
      s.ctx.clientConn.socket = none := Function.update_self ..
  have hwf : NetWf (s.net.setInbox c rest) := h.wf.same rfl rfl rfl
  refine ⟨hwf.clear _, ⟨server, conns, hhosting⟩, ?_, ?_, ?_⟩
  · intro d hd
    have hphase := h.phases d hd
    by_cases hdc : d = c
    · subst hdc
      obtain ⟨hinbox, -⟩ := hown hd
      rw [← hinbox]
      have hseat : s.net.setInbox d (s.net.inbox d) = s.net := by
        simp only [Net.setInbox, Function.update_eq_self]
      rw [hseat]
      exact hphase
    · have hseat : Rpc.seat { s with
          ctx := ctx
          net := (s.net.setInbox c rest).setFd s.ctx.clientConn.socket none
          serving := false
          closed := s.closing ((s.net.setInbox c rest).setFd s.ctx.clientConn.socket none) } d =
          s.seat d := by
        simp only [Rpc.seat, Net.setInbox, Net.setFd, Function.update_of_ne hdc]
      rw [hseat]
      exact hphase
  · intro d hd hopen
    have hopen' : s.net.hung d = false := hopen
    have hcd : c ≠ d := by
      intro he
      subst he
      rw [(hown hd).2] at hopen'
      cases hopen'
    show s.closing _ d = false
    rw [closing_eq hcurrent, h.kept d hd hopen', decide_eq_false hcd]
    rfl
  · intro d hknown hopen
    have hopen' : s.closing ((s.net.setInbox c rest).setFd s.ctx.clientConn.socket none) d =
        false := hopen
    rw [closing_eq hcurrent, hnone, Option.isNone_none, Bool.and_true, Bool.or_eq_false_iff]
      at hopen'
    have hcd : c ≠ d := of_decide_eq_false hopen'.2
    rcases h.placed d hknown hopen'.1 with hpending | ⟨a, ha⟩
    · exact Or.inl hpending
    · refine Or.inr ⟨a, ?_⟩
      have hne : a ≠ s.ctx.clientConn.socket := by
        intro he
        rw [he, hfd] at ha
        exact hcd (Option.some.inj ha)
      show Function.update s.net.fds s.ctx.clientConn.socket none a = some d
      rw [Function.update_of_ne hne]
      exact ha

theorem RpcInv.answered (h : RpcInv listening funcs callers s phases) {c : ℕ}
    (hc : ¬ (callers c).isSome = true) (rest sent : Bytes) :
    RpcInv listening funcs callers { s with
      net := (s.net.setInbox c rest).setOutbox c sent
      serving := false
      closed := s.closed } phases := by
  have hinv : RpcInv listening funcs callers { s with serving := false } phases :=
    ⟨h.wf, h.hosting, h.phases, h.kept, h.placed⟩
  refine hinv.streams rfl rfl rfl rfl ?_
  intro d hd
  have hdc : d ≠ c := by
    intro he
    rw [he] at hd
    exact hc hd
  have hseat := answered_seat (s := s) hdc rest sent s.closed
  exact hseat ▸ h.phases d hd

theorem RpcInv.serve (h : RpcInv listening funcs callers s phases) (hout : RepliesBounded funcs)
    {wire : Wire} (hwire : ∀ c, (callers c).isSome = true → wire.Whole c)
    (hready : s.ctx.clientConn.socket = 0 ∨
      s.net.stalls (wireMachine listening order held wire) s.ctx.clientConn.socket = false)
    {r : Serve Net}
    (hserve : fwsServerServe (wireMachine listening order held wire) s.ctx s.net = some r) :
    Matched listening funcs callers phases
      { s with ctx := r.ctx, net := r.k, serving := false, closed := s.closing r.k }
      (s.invoked r.served) := by
  obtain ⟨server, conns, hosting⟩ := h.hosting
  by_cases hopen : s.ctx.clientConn.socket = 0
  · have hcurrent : s.current = none := by rw [Rpc.current, if_pos hopen]
    simp only [fwsServerServe, if_pos hopen, Option.some.injEq] at hserve
    subst hserve
    have hclosing : s.closing s.net = s.closed := by
      funext d
      simp only [Rpc.closing, hcurrent, reduceCtorEq, decide_false, Bool.false_and, Bool.or_false]
    refine .silent ?_ ?_
    · dsimp only
      rw [hclosing]
      exact ⟨h.wf, h.hosting, h.phases, h.kept, h.placed⟩
    · simp only [Rpc.invoked, hcurrent, List.filterMap_nil]
  · have hmem := hosting.table.current.resolve_left hopen
    obtain ⟨c, hfd⟩ := hosting.table.client _ hmem
    have hcurrent : s.current = some c := by rw [Rpc.current, if_neg hopen, hfd]
    have hblocks := recvWaits_false (hready.resolve_left hopen)
    -- a receive without a message closes, and one with a message keeps the descriptor
    have hkept : ∀ rest sent,
        s.closing ((s.net.setInbox c rest).setOutbox c sent) = s.closed := by
      intro rest sent
      funext d
      have hsome : (((s.net.setInbox c rest).setOutbox c sent).fds
          s.ctx.clientConn.socket).isNone = false := by
        rw [setOutbox_fds, setInbox_fds, hfd, Option.isNone_some]
      rw [closing_eq hcurrent, hsome, Bool.and_false, Bool.or_false]
    have hown : ∀ l ∈ s.invoked r.served, l.caller = c := by
      intro l hl
      rw [invoked_caller hcurrent] at hl
      obtain ⟨e, -, rfl⟩ := List.mem_map.mp hl
      rfl
    have hcase := hosting.serve hopen hfd hserve
    by_cases hc : (callers c).isSome = true
    · rcases h.caller_inbox hc with ⟨hinbox, hhung⟩ | ⟨q, hp, hq, hseat⟩
      · have hhungup : s.net.hung c = true := by
          simp only [Net.blocks, hfd, hinbox, true_and, decide_eq_false_iff_not,
            Bool.not_eq_false] at hblocks
          exact hblocks
        have hend := wire_recv_end listening order held wire hfd hinbox
        cases hcase with
        | answered p rest sent env hrecv hreq hctx hnet hsent =>
          rw [hend] at hrecv
          cases hrecv
        | dropped rest server' pre post hconns hrecv hcalled hctx hnet hhosting =>
          rw [hend] at hrecv
          have hrest : s.net = s.net.setInbox c rest := (Prod.mk.inj hrecv).2
          have hinbox' : s.net.inbox c = rest := by
            rw [hrest, setInbox_inbox, Function.update_self]
          rw [hnet] at hhosting ⊢
          refine .silent (h.dropped hcurrent hfd (fun _ => ⟨hinbox', hhungup⟩) hhosting) ?_
          rw [invoked_caller hcurrent, hcalled]
          rfl
      · have hinbox : s.net.inbox c = frame (bodyEnvelope q.1 q.2).der ++ [] := by
          rw [List.append_nil]
          exact congrArg Seat.inbox hseat
        obtain ⟨env, hreq, hctx, hnet⟩ := hosting.serve_frame hopen hfd (hwire c hc)
          (congrArg Seat.hung hseat) hq.pos hq.lt hinbox hserve
        rw [hctx, hnet, hkept]
        exact h.performed hout hc hcurrent hp hq hseat hreq
    · refine .silent ?_ (seen_other hc hown)
      cases hcase with
      | answered p rest sent env hrecv hreq hctx hnet hsent =>
        rw [hctx, hnet, hkept]
        exact h.answered hc rest sent
      | dropped rest server' pre post hconns hrecv hcalled hctx hnet hhosting =>
        rw [hnet] at hhosting ⊢
        exact h.dropped hcurrent hfd (fun hsome => absurd hsome hc) hhosting

end

end Fws
