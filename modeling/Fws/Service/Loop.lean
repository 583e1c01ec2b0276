import Fws.Base.Runs
import Fws.Networking.Net
import Fws.Networking.Table
import Fws.Service.Serve

/-!
# The server's loop (sample/main.c)

`fws_server_accept` and `fws_server_serve` by turns, while clients connect,
send requests and hang up.
-/

namespace Fws
open Base.Digits Base.Cells Base.Runs

/- `serving` tells which call is next. `arrived` and `consumed` are a record
only: the requests each client sent, and those received from it. -/
structure Loop where
  ctx : FwsCtx
  net : Net
  serving : Bool
  arrived : ℕ → List Bytes
  consumed : ℕ → List Bytes

inductive LoopEvent where
  | connect (c : ℕ)
  | request (c : ℕ) (payload : Bytes)
  | hangup (c : ℕ)
  | accept (selected : SelectResult) (fresh : Option ℤ)
  | serve

/- A receive would wait. -/
def Net.blocks (net : Net) (s : ℤ) : Bool :=
  match net.fds s with
  | none => false
  | some c => decide (net.inbox c = [] ∧ net.hung c = false)

def Net.ready (net : Net) (listening s : ℤ) : Bool :=
  if s = listening then decide (net.pending ≠ []) else !net.blocks s

/- What `select` may report: any of the ready descriptors it was asked about, but
not none of them. -/
def Net.mayReport (net : Net) (listening : ℤ) (watched : Finset ℤ) : SelectResult → Bool
  | .ready fds =>
    decide (fds.Nonempty ∧ ∀ s ∈ fds, s ∈ watched ∧ net.ready listening s = true)
  | _ => true

/- A descriptor that `accept` may return. -/
def Net.unused (net : Net) (listening : ℤ) : Option ℤ → Bool
  | none => true
  | some s => decide (0 ≤ s ∧ s < 2 ^ 31 ∧ s ≠ listening ∧ net.fds s = none)

def watched (ctx : FwsCtx) : Finset ℤ :=
  match ctx.peer with
  | .server (some server) => server.readFdset
  | _ => ∅

/- The request that the next serve receives, and whose it is. -/
def received (M : Machine Net) (ctx : FwsCtx) (net : Net) : Option (ℕ × Bytes) :=
  if ctx.clientConn.socket = 0 then none
  else do
    let c ← net.fds ctx.clientConn.socket
    let message ← (connectionRecv M ctx.clientConn net).1
    let msgIn ← messageGetStream message
    some (c, msgIn)

def record (log : ℕ → List Bytes) : Option (ℕ × Bytes) → ℕ → List Bytes
  | none => log
  | some (c, msgIn) => Function.update log c (log c ++ [msgIn])

section
variable (listening : ℤ) (order : ByteOrder) (held : Net → ℕ → Byte)

/- A serve that would have to wait is not possible yet. -/
def loopStep (s : Loop) : LoopEvent → Option Loop
  | .connect c =>
    if c ∈ s.net.known then none
    else
      some { s with
        net := { s.net with known := c :: s.net.known, pending := s.net.pending ++ [c] } }
  | .request c payload =>
    if c ∈ s.net.known ∧ s.net.hung c = false ∧ payload.length < 2 ^ 32 then
      some { s with
        net := s.net.setInbox c (s.net.inbox c ++ frame payload)
        arrived := Function.update s.arrived c (s.arrived c ++ [payload]) }
    else none
  | .hangup c =>
    if c ∈ s.net.known then
      some { s with net := { s.net with hung := Function.update s.net.hung c true } }
    else none
  | .accept selected fresh =>
    if s.serving = false ∧ s.net.mayReport listening (watched s.ctx) selected = true ∧
        s.net.unused listening fresh = true then do
      -- the loop looks at the result of neither call
      let (_, ctx, net) ← fwsServerAccept (netMachine listening order held) s.ctx
        { s.net with selected := selected, fresh := fresh }
      some { s with ctx := ctx, net := net, serving := true }
    else none
  | .serve =>
    if s.serving = true ∧
        (s.ctx.clientConn.socket = 0 ∨ s.net.blocks s.ctx.clientConn.socket = false) then do
      let r ← fwsServerServe (netMachine listening order held) s.ctx s.net
      some { s with
        ctx := r.ctx
        net := r.k
        serving := false
        consumed := record s.consumed (received (netMachine listening order held) s.ctx s.net) }
    else none

def loopStart (funcs : List FuncEntry) (port backlog : ℤ) : Loop :=
  let (_, ctx, net) := fwsServerBind (netMachine listening order held)
    (fwsServerSetFuncList fwsInit funcs) port backlog startNet
  ⟨ctx, net, false, fun _ => [], fun _ => []⟩

end

/-! ### The invariant -/

/- The server has closed the client's connection. -/
def Net.gone (net : Net) (c : ℕ) : Prop :=
  c ∈ net.known ∧ c ∉ net.pending ∧ ∀ s, net.fds s ≠ some c

/- A client has one descriptor, or waits for one. -/
structure NetWf (net : Net) : Prop where
  distinct : ∀ s t c, net.fds s = some c → net.fds t = some c → s = t
  known : ∀ s c, net.fds s = some c → c ∈ net.known
  waiting : ∀ c ∈ net.pending, c ∈ net.known ∧ ∀ s, net.fds s ≠ some c
  nodup : net.pending.Nodup

/- The server's table, with a client behind each connection of it. -/
structure Table (listening : ℤ) (funcs : List FuncEntry) (ctx : FwsCtx) (fds : ℤ → Option ℕ)
    (server : Server) (conns : List Connection) : Prop
    extends ListeningTable (2 ^ 31) server conns where
  peer : ctx.peer = .server (some server)
  funcs : ctx.funcList = funcs
  socket : server.socket = listening
  client : ∀ conn ∈ conns, ∃ c, fds conn.socket = some c
  current : ctx.clientConn.socket = 0 ∨ ctx.clientConn ∈ conns

/- Of what a client sent, some was received, some lost with the connection, and
the rest is in its inbox. -/
structure Flow (s : Loop) (c : ℕ) (lost rest : List Bytes) : Prop where
  arrived : s.arrived c = s.consumed c ++ (lost ++ rest)
  inbox : s.net.inbox c = rest.flatMap frame
  kept : lost = [] ∨ s.net.gone c
  short : ∀ p ∈ rest, p.length < 2 ^ 32

/- What went out is the responses to what was received. -/
structure Answered (funcs : List FuncEntry) (s : Loop) (c : ℕ) : Prop where
  sent : s.net.outbox c = ((s.consumed c).filterMap (respond funcs)).flatMap frame
  encoded : ∀ msgIn ∈ s.consumed c, ∃ env served,
    serveRequest funcs msgIn = some (env, served) ∧
      encodeResponse env served = some (respond funcs msgIn)

structure LoopInv (listening : ℤ) (funcs : List FuncEntry) (s : Loop) : Prop where
  wf : NetWf s.net
  table : ∃ server conns, Table listening funcs s.ctx s.net.fds server conns
  flow : ∀ c, ∃ lost rest, Flow s c lost rest
  answered : ∀ c, Answered funcs s c

theorem Flow.of_eq {s t : Loop} {c : ℕ} {lost rest : List Bytes} (h : Flow s c lost rest)
    (ha : t.arrived c = s.arrived c) (hc : t.consumed c = s.consumed c)
    (hi : t.net.inbox c = s.net.inbox c) (hg : s.net.gone c → t.net.gone c) :
    Flow t c lost rest where
  arrived := by rw [ha, hc, h.arrived]
  inbox := by rw [hi, h.inbox]
  kept := h.kept.imp_right hg
  short := h.short

theorem Answered.of_eq {funcs : List FuncEntry} {s t : Loop} {c : ℕ} (h : Answered funcs s c)
    (hc : t.consumed c = s.consumed c) (ho : t.net.outbox c = s.net.outbox c) :
    Answered funcs t c where
  sent := by rw [ho, hc, h.sent]
  encoded := by
    rw [hc]
    exact h.encoded

/-! ### The clients' steps -/

section
variable {listening : ℤ} {funcs : List FuncEntry} {s : Loop}

theorem LoopInv.connect (h : LoopInv listening funcs s) {c : ℕ} (hc : c ∉ s.net.known) :
    LoopInv listening funcs { s with
      net := { s.net with known := c :: s.net.known, pending := s.net.pending ++ [c] } } := by
  have hfds : ∀ a, s.net.fds a ≠ some c := fun a ha => hc (h.wf.known a c ha)
  have hpending : c ∉ s.net.pending := fun hp => hc (h.wf.waiting c hp).1
  refine ⟨⟨h.wf.distinct, ?_, ?_, ?_⟩, h.table, ?_, ?_⟩
  · intro a d hd
    exact List.mem_cons_of_mem _ (h.wf.known a d hd)
  · intro d hd
    rcases List.mem_append.mp hd with hd | hd
    · obtain ⟨hknown, hno⟩ := h.wf.waiting d hd
      exact ⟨List.mem_cons_of_mem _ hknown, hno⟩
    · rw [List.mem_singleton.mp hd]
      exact ⟨List.mem_cons_self .., hfds⟩
  · refine List.Nodup.append h.wf.nodup (List.nodup_singleton c) ?_
    intro d hd hdc
    rw [List.mem_singleton.mp hdc] at hd
    exact hpending hd
  · intro d
    obtain ⟨lost, rest, hf⟩ := h.flow d
    refine ⟨lost, rest, hf.of_eq rfl rfl rfl ?_⟩
    intro hgone
    obtain ⟨hknown, hwait, hno⟩ := hgone
    refine ⟨List.mem_cons_of_mem _ hknown, ?_, hno⟩
    intro hd
    rcases List.mem_append.mp hd with hd | hd
    · exact hwait hd
    · rw [List.mem_singleton.mp hd] at hknown
      exact hc hknown
  · intro d
    exact (h.answered d).of_eq rfl rfl

theorem LoopInv.request (h : LoopInv listening funcs s) (c : ℕ) {payload : Bytes}
    (hlt : payload.length < 2 ^ 32) :
    LoopInv listening funcs { s with
      net := s.net.setInbox c (s.net.inbox c ++ frame payload)
      arrived := Function.update s.arrived c (s.arrived c ++ [payload]) } := by
  refine ⟨⟨h.wf.distinct, h.wf.known, h.wf.waiting, h.wf.nodup⟩, h.table, ?_, ?_⟩
  · intro d
    obtain ⟨lost, rest, hf⟩ := h.flow d
    by_cases hd : d = c
    · subst hd
      refine ⟨lost, rest ++ [payload], ?_, ?_, hf.kept, ?_⟩
      · simp only [Function.update_self, hf.arrived, List.append_assoc]
      · simp only [setInbox_inbox, Function.update_self, hf.inbox, List.flatMap_append,
          List.flatMap_singleton]
      · intro p hp
        rcases List.mem_append.mp hp with hp | hp
        · exact hf.short p hp
        · rw [List.mem_singleton.mp hp]
          exact hlt
    · refine ⟨lost, rest, hf.of_eq ?_ rfl ?_ id⟩
      · exact Function.update_of_ne hd _ _
      · exact Function.update_of_ne hd _ _
  · intro d
    exact (h.answered d).of_eq rfl rfl

theorem LoopInv.hangup (h : LoopInv listening funcs s) (c : ℕ) :
    LoopInv listening funcs
      { s with net := { s.net with hung := Function.update s.net.hung c true } } := by
  refine ⟨⟨h.wf.distinct, h.wf.known, h.wf.waiting, h.wf.nodup⟩, h.table, ?_, ?_⟩
  · intro d
    obtain ⟨lost, rest, hf⟩ := h.flow d
    exact ⟨lost, rest, hf.of_eq rfl rfl rfl id⟩
  · intro d
    exact (h.answered d).of_eq rfl rfl

end

/-! ### The accept call -/

section
variable {κ : Type} {listening : ℤ} {funcs : List FuncEntry} {ctx : FwsCtx}
  {fds : ℤ → Option ℕ} {server : Server} {conns : List Connection}

theorem Table.holds_conns (h : Table listening funcs ctx fds server conns) : server.Holds conns :=
  h.holds le_rfl

theorem Table.start (listening : ℤ) (hlisten : 0 ≤ listening ∧ listening < 2 ^ 31)
    (hpeer : ctx.peer = .server (some ⟨listening, 1, {listening}, vectorInit Connection 0⟩))
    (hfuncs : ctx.funcList = funcs) (hconn : ctx.clientConn.socket = 0) :
    Table listening funcs ctx fds ⟨listening, 1, {listening}, vectorInit Connection 0⟩ [] := by
  have hnone : ∀ {P : Connection → Prop}, ∀ conn ∈ ([] : List Connection), P conn :=
    fun _ hc => absurd hc List.not_mem_nil
  exact ⟨⟨⟨vectorInit_contents 0, List.nodup_singleton _, rfl, hnone, hnone⟩, hlisten⟩, hpeer,
    hfuncs, rfl, hnone, Or.inl hconn⟩

theorem Table.join (h : Table listening funcs ctx fds server conns) {s : ℤ} (p c : ℕ)
    (hs : 0 ≤ s ∧ s < 2 ^ 31 ∧ s ≠ listening ∧ fds s = none) :
    Table listening funcs
      { ctx with
        peer := .server (some { server with
          readFdset := insert s server.readFdset
          connections := vectorPush server.connections ⟨s, some p⟩ })
        clientConn := ⟨s, some p⟩ }
      (Function.update fds s (some c))
      { server with
        readFdset := insert s server.readFdset
        connections := vectorPush server.connections ⟨s, some p⟩ }
      (conns ++ [⟨s, some p⟩]) := by
  obtain ⟨hlower, hupper, hapart, hfree⟩ := hs
  have hnew : ∀ conn ∈ conns, conn.socket ≠ s := by
    intro conn hconn he
    obtain ⟨d, hd⟩ := h.client conn hconn
    rw [he, hfree] at hd
    cases hd
  have hout : s ∉ serverFds server conns := by
    intro hmem
    rcases List.mem_cons.mp hmem with hsocket | hmem
    · exact hapart (hsocket.trans h.socket)
    · obtain ⟨conn, hconn, he⟩ := List.mem_map.mp hmem
      exact hnew conn hconn he
  refine ⟨h.toListeningTable.join p ⟨hlower, hupper⟩ hout, rfl, h.funcs, h.socket, ?_, Or.inr ?_⟩
  · intro conn hconn
    rcases List.mem_append.mp hconn with hconn | hconn
    · rw [Function.update_of_ne (hnew conn hconn)]
      exact h.client conn hconn
    · rw [List.mem_singleton.mp hconn]
      exact ⟨c, Function.update_self ..⟩
  · exact List.mem_append_right _ (List.mem_singleton_self _)

/- The server and the connection in the context may change for the same ones. -/
theorem Table.keep (h : Table listening funcs ctx fds server conns) {conn : Connection}
    (hconn : conn.socket = 0 ∨ conn ∈ conns) :
    Table listening funcs { ctx with peer := .server (some server), clientConn := conn } fds server
      conns :=
  ⟨h.toListeningTable, rfl, h.funcs, h.socket, h.client, hconn⟩

/-- The connection of the context can be closed, and then there is none in the context. -/
theorem Table.close (M : Machine κ) {pre post : List Connection}
    (h : Table listening funcs ctx fds server (pre ++ ctx.clientConn :: post)) (k : κ) :
    ∃ server' info,
      Table listening funcs
        { ctx with peer := .server (some server'), clientConn := ⟨0, none⟩ }
        (Function.update fds ctx.clientConn.socket none) server' (pre ++ post) ∧
      server'.status = server.status ∧
      serverCloseConnection M server ctx.clientConn k = some (server', ⟨0, none⟩,
        M.readInfo (M.closesocket (M.freeInfo k info) ctx.clientConn.socket).2 info) := by
  obtain ⟨server', info, -, hlistening, hsocket, hstatus, -, hclose⟩ :=
    h.toListeningTable.close M le_rfl k
  obtain ⟨-, -, hothers⟩ := split_nodup h.sockets_nodup
  refine ⟨server', info, ⟨hlistening, rfl, h.funcs, hsocket.trans h.socket, ?_, Or.inl rfl⟩,
    hstatus, hclose⟩
  intro conn hconn
  obtain ⟨hne, hin⟩ := hothers conn hconn
  rw [Function.update_of_ne hne]
  exact h.client conn hin

end

/- What an accept call may do to the clients. -/
structure Admits (net net' : Net) : Prop where
  wf : NetWf net'
  inbox : net'.inbox = net.inbox
  outbox : net'.outbox = net.outbox
  gone : ∀ c, net.gone c → net'.gone c

theorem NetWf.admit {net : Net} (h : NetWf net) {c : ℕ} {waiting : List ℕ}
    (hpending : net.pending = c :: waiting) {s : ℤ} (hfree : net.fds s = none) :
    Admits net ({ net with pending := waiting }.setFd s (some c)) := by
  obtain ⟨hknown, hno⟩ := h.waiting c (hpending ▸ List.mem_cons_self ..)
  have hnodup := h.nodup
  rw [hpending, List.nodup_cons] at hnodup
  have hfds : ∀ a d, Function.update net.fds s (some c) a = some d →
      (a = s ∧ d = c) ∨ net.fds a = some d := by
    intro a d ha
    by_cases has : a = s
    · rw [has, Function.update_self] at ha
      exact Or.inl ⟨has, (Option.some.inj ha).symm⟩
    · rw [Function.update_of_ne has] at ha
      exact Or.inr ha
  refine ⟨⟨?_, ?_, ?_, hnodup.2⟩, rfl, rfl, ?_⟩
  · intro a b d ha hb
    rcases hfds a d ha with ⟨rfl, rfl⟩ | ha'
    · rcases hfds b d hb with ⟨rfl, -⟩ | hb'
      · rfl
      · exact absurd hb' (hno b)
    · rcases hfds b d hb with ⟨rfl, rfl⟩ | hb'
      · exact absurd ha' (hno a)
      · exact h.distinct a b d ha' hb'
  · intro a d ha
    rcases hfds a d ha with ⟨-, rfl⟩ | ha'
    · exact hknown
    · exact h.known a d ha'
  · intro d hd
    obtain ⟨hdknown, hdno⟩ := h.waiting d (hpending ▸ List.mem_cons_of_mem c hd)
    refine ⟨hdknown, ?_⟩
    intro a ha
    rcases hfds a d ha with ⟨-, rfl⟩ | ha'
    · exact hnodup.1 hd
    · exact hdno a ha'
  · intro d hgone
    obtain ⟨hdknown, hdwait, hdno⟩ := hgone
    refine ⟨hdknown, ?_, ?_⟩
    · intro hd
      exact hdwait (hpending ▸ List.mem_cons_of_mem c hd)
    · intro a ha
      rcases hfds a d ha with ⟨-, rfl⟩ | ha'
      · exact hdwait (hpending ▸ List.mem_cons_self ..)
      · exact hdno a ha'

section
variable {listening : ℤ} {order : ByteOrder} {held : Net → ℕ → Byte} {funcs : List FuncEntry}
  {ctx : FwsCtx} {net : Net} {server : Server} {conns : List Connection}

theorem NetWf.same {net' : Net} (h : NetWf net) (hfds : net'.fds = net.fds)
    (hknown : net'.known = net.known) (hpending : net'.pending = net.pending) : NetWf net' where
  distinct := by
    rw [hfds]
    exact h.distinct
  known := by
    rw [hfds, hknown]
    exact h.known
  waiting := by
    rw [hfds, hknown, hpending]
    exact h.waiting
  nodup := by
    rw [hpending]
    exact h.nodup

/-- An accept call keeps the table, and the context's connection within it. -/
theorem Table.accept (order : ByteOrder) (held : Net → ℕ → Byte)
    (h : Table listening funcs ctx net.fds server conns) (hwf : NetWf net)
    (hunused : net.unused listening net.fresh = true) :
    ∃ ret ctx' net' server' conns',
      fwsServerAccept (netMachine listening order held) ctx net = some (ret, ctx', net') ∧
      Table listening funcs ctx' net'.fds server' conns' ∧ Admits net net' := by
  have hsame : Admits net net := ⟨hwf, rfl, rfl, fun _ hg => hg⟩
  obtain ⟨r, hr, hout⟩ := serverAccept_outcome
    (M := netMachine listening order held) (k := net) h.holds_conns
  have htable : ∃ conns', Table listening funcs { ctx with
      peer := .server (some r.server), clientConn := r.stored.getD ctx.clientConn }
      r.k.fds r.server conns' ∧ Admits net r.k := by
    cases hout with
    | stopped hstatus => exact ⟨conns, h.keep h.current, hsame⟩
    | unready maxfds => exact ⟨conns, h.keep h.current, hsame⟩
    | refused maxfds k₁ k₂ hk ha =>
      have hk₁ : k₁ = net := hk
      have hk₂ : k₂ = k₁ := net_accept_none ha
      rw [hk₁] at hk₂
      subst k₂
      exact ⟨conns, h.keep h.current, hsame⟩
    | joined maxfds clientSocket k₁ k₂ hk ha =>
      have hk₁ : k₁ = net := hk
      subst k₁
      obtain ⟨hfresh, c, waiting, hpending, rfl⟩ := net_accept_some ha
      have hs : 0 ≤ clientSocket ∧ clientSocket < 2 ^ 31 ∧ clientSocket ≠ listening ∧
          net.fds clientSocket = none := by
        have hfresh' : net.fresh = some clientSocket := hfresh
        rw [hfresh'] at hunused
        exact of_decide_eq_true hunused
      exact ⟨_, h.join _ c hs, hwf.admit hpending hs.2.2.2⟩
    | picked maxfds active k₁ stored hk hlistening hfirst =>
      have hk₁ : net = k₁ := (Prod.mk.inj hk).2
      subst k₁
      refine ⟨conns, h.keep ?_, hsame⟩
      rcases hstored : stored with _ | conn
      · exact h.current
      · rw [hfirst] at hstored
        exact Or.inr (List.mem_of_find?_eq_some hstored)
  obtain ⟨conns', htable, hadmits⟩ := htable
  refine ⟨if r.rv ≠ 0 then retErr else retOk, _, r.k, r.server, conns', ?_, htable, hadmits⟩
  simp only [fwsServerAccept, h.peer, hr, Option.bind_eq_bind, Option.bind_some]

theorem LoopInv.accept {s : Loop} (h : LoopInv listening funcs s)
    {selected : SelectResult} {fresh : Option ℤ}
    (hunused : s.net.unused listening fresh = true) {ret : ℤ}
    (hcall : fwsServerAccept (netMachine listening order held) s.ctx
      { s.net with selected := selected, fresh := fresh } = some (ret, ctx, net)) :
    LoopInv listening funcs { s with ctx := ctx, net := net, serving := true } := by
  obtain ⟨server, conns, htable⟩ := h.table
  have hwf : NetWf { s.net with selected := selected, fresh := fresh } := h.wf.same rfl rfl rfl
  have hfds : Table listening funcs s.ctx
      ({ s.net with selected := selected, fresh := fresh } : Net).fds server conns := htable
  obtain ⟨ret', ctx', net', server', conns', hcall', htable', hadmits⟩ :=
    hfds.accept order held hwf hunused
  rw [hcall] at hcall'
  cases hcall'
  refine ⟨hadmits.wf, ⟨server', conns', htable'⟩, ?_, ?_⟩
  · intro c
    obtain ⟨lost, rest, hf⟩ := h.flow c
    refine ⟨lost, rest, hf.of_eq rfl rfl ?_ (hadmits.gone c)⟩
    exact congrFun hadmits.inbox c
  · intro c
    exact (h.answered c).of_eq rfl (congrFun hadmits.outbox c)

end

/-! ### The serve call -/

section
variable {listening : ℤ} {order : ByteOrder} {held : Net → ℕ → Byte} {funcs : List FuncEntry}
  {s : Loop}

/-- A request is received and, if it has a response, answered on the same connection. -/
theorem LoopInv.answer (h : LoopInv listening funcs s) {c : ℕ} {p : Bytes} {rest : List Bytes}
    (harrived : s.arrived c = s.consumed c ++ p :: rest) (hshort : ∀ q ∈ rest, q.length < 2 ^ 32)
    {env : Envelope} {served : Served} (hserve : serveRequest funcs p = some (env, served))
    (henc : encodeResponse env served = some (respond funcs p)) :
    LoopInv listening funcs { s with
      net := (s.net.setInbox c (rest.flatMap frame)).setOutbox c
        (s.net.outbox c ++ (respond funcs p).toList.flatMap frame)
      serving := false
      consumed := Function.update s.consumed c (s.consumed c ++ [p]) } := by
  refine ⟨h.wf.same rfl rfl rfl, h.table, ?_, ?_⟩
  · intro d
    by_cases hd : d = c
    · subst hd
      refine ⟨[], rest, ?_, ?_, Or.inl rfl, hshort⟩
      · simp only [harrived, Function.update_self, List.nil_append, List.append_assoc,
          List.singleton_append]
      · simp only [setOutbox_inbox, setInbox_inbox, Function.update_self]
    · obtain ⟨lost, rest', hf⟩ := h.flow d
      refine ⟨lost, rest', hf.of_eq rfl ?_ ?_ id⟩
      · exact Function.update_of_ne hd _ _
      · exact Function.update_of_ne hd _ _
  · intro d
    by_cases hd : d = c
    · subst hd
      refine ⟨?_, ?_⟩
      · simp only [setOutbox_outbox, Function.update_self, (h.answered d).sent,
          List.filterMap_append, List.flatMap_append]
        congr 1
      · intro m hm
        simp only [Function.update_self] at hm
        rcases List.mem_append.mp hm with hm | hm
        · exact (h.answered d).encoded m hm
        · rw [List.mem_singleton.mp hm]
          exact ⟨env, served, hserve, henc⟩
    · refine (h.answered d).of_eq ?_ ?_
      · exact Function.update_of_ne hd _ _
      · exact Function.update_of_ne hd _ _

/-- A connection is closed, and with it what its client had sent last. -/
theorem LoopInv.close (h : LoopInv listening funcs s) {ctx : FwsCtx} {server : Server}
    {conns : List Connection} {fd : ℤ} {c : ℕ} (hfd : s.net.fds fd = some c)
    {lost rest : List Bytes}
    (htable : Table listening funcs ctx (Function.update s.net.fds fd none) server conns)
    (harrived : s.arrived c = s.consumed c ++ (lost ++ rest))
    (hshort : ∀ q ∈ rest, q.length < 2 ^ 32) :
    LoopInv listening funcs { s with
      ctx := ctx
      net := (s.net.setInbox c (rest.flatMap frame)).setFd fd none
      serving := false } := by
  have hfds : ∀ a d, Function.update s.net.fds fd none a = some d →
      s.net.fds a = some d ∧ d ≠ c := by
    intro a d ha
    by_cases has : a = fd
    · rw [has, Function.update_self] at ha
      cases ha
    · rw [Function.update_of_ne has] at ha
      refine ⟨ha, ?_⟩
      intro heq
      obtain rfl := heq
      exact has (h.wf.distinct a fd d ha hfd)
  refine ⟨⟨?_, ?_, ?_, h.wf.nodup⟩, ⟨server, conns, htable⟩, ?_, ?_⟩
  · intro a b d ha hb
    exact h.wf.distinct a b d (hfds a d ha).1 (hfds b d hb).1
  · intro a d ha
    exact h.wf.known a d (hfds a d ha).1
  · intro d hd
    obtain ⟨hknown, hno⟩ := h.wf.waiting d hd
    exact ⟨hknown, fun a ha => hno a (hfds a d ha).1⟩
  · intro d
    by_cases hd : d = c
    · subst hd
      refine ⟨lost, rest, harrived, ?_, Or.inr ⟨h.wf.known _ _ hfd, ?_, ?_⟩, hshort⟩
      · simp only [setFd_inbox, setInbox_inbox, Function.update_self]
      · intro hd
        exact (h.wf.waiting d hd).2 fd hfd
      · intro a ha
        exact (hfds a d ha).2 rfl
    · obtain ⟨lost', rest', hf⟩ := h.flow d
      refine ⟨lost', rest', hf.of_eq rfl rfl ?_ ?_⟩
      · exact Function.update_of_ne hd _ _
      · intro hgone
        obtain ⟨hknown, hwait, hno⟩ := hgone
        exact ⟨hknown, hwait, fun a ha => hno a (hfds a d ha).1⟩
  · intro d
    exact (h.answered d).of_eq rfl rfl

theorem sent_on_line {c : ℕ} {net net' : Net} {conn : Connection} {response : Option Bytes}
    (hsent : match response with
      | none => net' = net
      | some stream =>
        serverSendMsg (netMachine listening order held) (messageSetStream messageCreate stream) conn
          net = some (0, net'))
    (hfd : net.fds conn.socket = some c)
    (hlt : ∀ stream, response = some stream → stream.length < 2 ^ 32) :
    net' = net.setOutbox c (net.outbox c ++ response.toList.flatMap frame) := by
  cases response with
  | none =>
    simp only [Option.toList_none, List.flatMap_nil, List.append_nil, Net.setOutbox,
      Function.update_eq_self]
    exact hsent
  | some stream =>
    have hsend := net_send listening order held hfd (hlt stream rfl)
    simp only [serverSendMsg, hsend, Option.bind_eq_bind, Option.bind_some,
      Option.some.injEq, Prod.mk.injEq, true_and] at hsent
    rw [← hsent, Option.toList_some, List.flatMap_singleton]

/-- The connection whose receive fails is closed. -/
theorem LoopInv.serve_closed (h : LoopInv listening funcs s) {server : Server}
    {conns : List Connection} (htable : Table listening funcs s.ctx s.net.fds server conns)
    (hopen : s.ctx.clientConn.socket ≠ 0) (hmem : s.ctx.clientConn ∈ conns) {c : ℕ}
    (hfd : s.net.fds s.ctx.clientConn.socket = some c) {lost rest : List Bytes}
    (harrived : s.arrived c = s.consumed c ++ (lost ++ rest))
    (hshort : ∀ q ∈ rest, q.length < 2 ^ 32)
    (hrecv : connectionRecv (netMachine listening order held) s.ctx.clientConn s.net =
      (none, s.net.setInbox c (rest.flatMap frame))) :
    ∃ r, fwsServerServe (netMachine listening order held) s.ctx s.net = some r ∧
      LoopInv listening funcs { s with ctx := r.ctx, net := r.k, serving := false } := by
  obtain ⟨pre, post, rfl⟩ := List.append_of_mem hmem
  obtain ⟨server', info, htable', -, hclose⟩ := htable.close (netMachine listening order held)
    (s.net.setInbox c (rest.flatMap frame))
  exact ⟨_, fwsServerServe_closed hopen htable.peer hrecv hclose,
    h.close hfd htable' harrived hshort⟩

theorem LoopInv.serve (h : LoopInv listening funcs s) {r : Serve Net}
    (hserve : fwsServerServe (netMachine listening order held) s.ctx s.net = some r) :
    LoopInv listening funcs { s with
      ctx := r.ctx
      net := r.k
      serving := false
      consumed := record s.consumed
        (received (netMachine listening order held) s.ctx s.net) } := by
  obtain ⟨server, conns, htable⟩ := h.table
  by_cases hopen : s.ctx.clientConn.socket = 0
  · have hnone : received (netMachine listening order held) s.ctx s.net = none := by
      rw [received, if_pos hopen]
    simp only [fwsServerServe, if_pos hopen, Option.some.injEq] at hserve
    subst hserve
    rw [hnone]
    refine ⟨h.wf, h.table, ?_, ?_⟩
    · intro c
      obtain ⟨lost, rest, hf⟩ := h.flow c
      exact ⟨lost, rest, hf.of_eq rfl rfl rfl id⟩
    · intro c
      exact (h.answered c).of_eq rfl rfl
  · -- the slot holds a connection of the table, so there is one client behind it
    have hmem : s.ctx.clientConn ∈ conns := htable.current.resolve_left hopen
    obtain ⟨c, hfd⟩ := htable.client _ hmem
    obtain ⟨lost, rest, hf⟩ := h.flow c
    -- nothing of an open connection is lost: the next frame is the next request
    have hlost : lost = [] := hf.kept.resolve_right fun hg => hg.2.2 _ hfd
    subst hlost
    have harrived := hf.arrived
    rw [List.nil_append] at harrived
    -- a failed receive records nothing
    have hnone : ∀ net', connectionRecv (netMachine listening order held) s.ctx.clientConn s.net =
        (none, net') → received (netMachine listening order held) s.ctx s.net = none := by
      intro net' hrecv
      simp only [received, if_neg hopen, hfd, hrecv, Option.bind_eq_bind, Option.bind_some,
        Option.bind_none]
    cases rest with
    | nil =>
      have hrecv := net_recv_end listening order held hfd hf.inbox
      obtain ⟨r', hserve', hinv⟩ := h.serve_closed htable hopen hmem hfd hf.arrived hf.short hrecv
      rw [hserve] at hserve'
      cases hserve'
      rw [hnone _ hrecv]
      exact hinv
    | cons p rest =>
      have hp := hf.short p (List.mem_cons_self ..)
      have hshort : ∀ q ∈ rest, q.length < 2 ^ 32 := fun q hq =>
        hf.short q (List.mem_cons_of_mem _ hq)
      have hinbox := hf.inbox
      rw [List.flatMap_cons] at hinbox
      have hrecv := net_recv_frame listening order held hfd hp hinbox
      by_cases hpos : 0 < cInt p.length
      · rw [if_pos hpos] at hrecv
        obtain ⟨env, served, hreq, henc, hctx, -, -, hsent⟩ :=
          fwsServerServe_some hopen htable.peer hrecv hserve
        rw [htable.funcs] at hreq henc hsent
        have hlt : ∀ stream, respond funcs p = some stream → stream.length < 2 ^ 32 := by
          intro stream hstream
          rw [hstream] at henc
          exact encodeResponse_length henc
        have hnet := sent_on_line hsent hfd hlt
        have hsome : received (netMachine listening order held) s.ctx s.net = some (c, p) := by
          simp only [received, if_neg hopen, hfd, hrecv, messageGetStream_set, Option.bind_eq_bind,
            Option.bind_some]
        rw [hsome, hctx, hnet]
        exact h.answer harrived hshort hreq henc
      · -- a size that is no positive `int` reads as a failed receive
        rw [if_neg hpos] at hrecv
        have hlost : s.arrived c = s.consumed c ++ ([p] ++ rest) := harrived
        obtain ⟨r', hserve', hinv⟩ := h.serve_closed htable hopen hmem hfd hlost hshort hrecv
        rw [hserve] at hserve'
        cases hserve'
        rw [hnone _ hrecv]
        exact hinv

/-! ### Whole runs -/

theorem loopStep_inv (s : Loop) (e : LoopEvent) (t : Loop) (h : LoopInv listening funcs s)
    (hstep : loopStep listening order held s e = some t) : LoopInv listening funcs t := by
  cases e with
  | connect c =>
    simp only [loopStep] at hstep
    by_cases hc : c ∈ s.net.known
    · rw [if_pos hc] at hstep
      cases hstep
    · rw [if_neg hc] at hstep
      cases hstep
      exact h.connect hc
  | request c payload =>
    simp only [loopStep] at hstep
    by_cases hc : c ∈ s.net.known ∧ s.net.hung c = false ∧ payload.length < 2 ^ 32
    · rw [if_pos hc] at hstep
      cases hstep
      exact h.request c hc.2.2
    · rw [if_neg hc] at hstep
      cases hstep
  | hangup c =>
    simp only [loopStep] at hstep
    by_cases hc : c ∈ s.net.known
    · rw [if_pos hc] at hstep
      cases hstep
      exact h.hangup c
    · rw [if_neg hc] at hstep
      cases hstep
  | accept selected fresh =>
    simp only [loopStep] at hstep
    by_cases hc : s.serving = false ∧
        s.net.mayReport listening (watched s.ctx) selected = true ∧
        s.net.unused listening fresh = true
    · rw [if_pos hc] at hstep
      obtain ⟨⟨ret, ctx, net⟩, hcall, ht⟩ := Option.bind_eq_some_iff.mp hstep
      cases ht
      exact h.accept hc.2.2 hcall
    · rw [if_neg hc] at hstep
      cases hstep
  | serve =>
    simp only [loopStep] at hstep
    by_cases hc : s.serving = true ∧
        (s.ctx.clientConn.socket = 0 ∨ s.net.blocks s.ctx.clientConn.socket = false)
    · rw [if_pos hc] at hstep
      obtain ⟨r, hserve, ht⟩ := Option.bind_eq_some_iff.mp hstep
      cases ht
      exact h.serve hserve
    · rw [if_neg hc] at hstep
      cases hstep

theorem loopStart_inv (hlisten : 0 ≤ listening ∧ listening < 2 ^ 31) (port backlog : ℤ) :
    LoopInv listening funcs (loopStart listening order held funcs port backlog) := by
  refine ⟨⟨?_, ?_, ?_, List.nodup_nil⟩, ⟨⟨listening, 1, {listening}, vectorInit Connection 0⟩, [],
    ?_⟩, ?_, ?_⟩
  · intro a b c ha
    cases ha
  · intro a c ha
    cases ha
  · intro c hc
    cases hc
  · exact .start listening hlisten rfl rfl rfl
  · intro c
    exact ⟨[], [], rfl, rfl, Or.inl rfl, fun _ hp => absurd hp List.not_mem_nil⟩
  · intro c
    exact ⟨rfl, fun _ hm => absurd hm List.not_mem_nil⟩

/-- Whatever the others do, a client is sent the responses to its own requests, in
the order it sent these, and no others. -/
theorem clients_are_isolated (listening : ℤ) (hlisten : 0 ≤ listening ∧ listening < 2 ^ 31)
    (order : ByteOrder) (held : Net → ℕ → Byte) (funcs : List FuncEntry) (port backlog : ℤ)
    {s : Loop}
    (hrun : Reachable (loopStep listening order held)
      (loopStart listening order held funcs port backlog) s) (c : ℕ) :
    s.net.outbox c = ((s.consumed c).filterMap (respond funcs)).flatMap frame ∧
      s.consumed c <+: s.arrived c ∧
      ∀ msgIn ∈ s.consumed c, ∃ env served,
        serveRequest funcs msgIn = some (env, served) ∧
          encodeResponse env served = some (respond funcs msgIn) := by
  have hinv := hrun.invariant (I := LoopInv listening funcs) loopStep_inv
    (loopStart_inv hlisten port backlog)
  obtain ⟨lost, rest, hf⟩ := hinv.flow c
  refine ⟨(hinv.answered c).sent, ?_, (hinv.answered c).encoded⟩
  rw [hf.arrived]
  exact List.prefix_append _ _

end

/- Two clients send before either is accepted, and the first hangs up in between. -/
def twoClients : List LoopEvent :=
  [.connect 0, .connect 1, .request 1 [1], .request 0 (bodyEnvelope (ascii "TestMessage") [7]).der,
    .accept (.ready {3}) (some 4), .serve, .hangup 0,
    .request 1 (bodyEnvelope (ascii "TestMessage") [8]).der, .accept (.ready {3, 4}) (some 5),
    .serve, .accept (.ready {4}) none, .serve, .accept (.ready {5}) none, .serve]

theorem clients_are_isolated_two_clients :
    ∃ s, exec (loopStep 3 .little fun _ _ => 0)
        (loopStart 3 .little (fun _ _ => 0) [testMessageEntry] 4242 100) twoClients = some s ∧
      s.consumed 1 = [[1], (bodyEnvelope (ascii "TestMessage") [8]).der] ∧
      s.net.outbox 1 =
        ((s.consumed 1).filterMap (respond [testMessageEntry])).flatMap frame ∧
      s.consumed 1 <+: s.arrived 1 ∧
      ∀ msgIn ∈ s.consumed 1, ∃ env served,
        serveRequest [testMessageEntry] msgIn = some (env, served) ∧
          encodeResponse env served = some (respond [testMessageEntry] msgIn) := by
  have hconsumed : (exec (loopStep 3 .little fun _ _ => 0)
      (loopStart 3 .little (fun _ _ => 0) [testMessageEntry] 4242 100) twoClients).map
        (fun s => s.consumed 1) =
      some [[1], (bodyEnvelope (ascii "TestMessage") [8]).der] := by decide +kernel
  obtain ⟨s, hrun, hs⟩ := Option.map_eq_some_iff.mp hconsumed
  have hlisten : (0 : ℤ) ≤ 3 ∧ (3 : ℤ) < 2 ^ 31 := by decide
  exact ⟨s, hrun, hs, clients_are_isolated 3 hlisten .little _ _ 4242 100 ⟨twoClients, hrun⟩ 1⟩

end Fws
