import Fws.Service.Rpc

/-!
# Runs of the callers and the server

What the clients that make calls can rely on, whatever the others send and in
whatever order everybody's steps come.
-/

namespace Fws
open Base.Digits Base.Cells Base.Tlv Base.Runs Base.Calls

section
variable {listening : ℤ} {order : ByteOrder} {held : Net → ℕ → Byte} {fatal : ℕ × Bytes → Bool}
  {funcs : List FuncEntry} {callers : ℕ → Option Caller}

/-- A process that has ended does not run again. -/
theorem rpcStep_running (s : Rpc) (e : RpcEvent) (t : Rpc) (out : List RpcLabel)
    (hstep : rpcStep listening order held fatal callers s e = some (t, out))
    (ht : t.running = true) : s.running = true := by
  cases rpcStep_move hstep with
  | accept selected fresh ret ctx net hrunning => exact hrunning
  | serve wire r hrunning => exact hrunning
  | _ => exact ht

theorem rpcStep_matched (hout : RepliesBounded funcs)
    (phases : ℕ → Phase (Bytes × Bytes) (ℤ × Option Bytes)) (s : Rpc) (e : RpcEvent) (t : Rpc)
    (out : List RpcLabel) (h : RpcInv listening funcs callers s phases)
    (horderly : e.Orderly callers)
    (hstep : rpcStep listening order held fatal callers s e = some (t, out))
    (ht : t.running = true) : Matched listening funcs callers phases t out := by
  cases rpcStep_move hstep with
  | connect c hnew => exact .silent (h.connect hnew) rfl
  | send c bs hother => exact .silent (h.send hother bs) rfl
  | call c wire messageType inMsg caller ret net hcaller hidle hopen hsend =>
    obtain ⟨hwire, hbounds⟩ := horderly
    exact h.call hcaller hidle hopen hwire hbounds hsend
  | finish c wire caller ret r hcaller hcalling hready hawait =>
    exact h.finish hcaller hcalling hready horderly hawait
  | hangup c hidle => exact .silent (h.hangup hidle) rfl
  | accept selected fresh ret ctx net hrunning hserving hunused haccept =>
    by_cases hover : overrun fresh net = true
    · rw [if_pos hover] at ht
      cases ht
    · rw [if_neg hover]
      exact .silent (h.accept hunused haccept) rfl
  | serve wire r hrunning hserving hgoes hserve =>
    by_cases hbroken : s.broken fatal wire r = true
    · rw [if_pos hbroken] at ht
      cases ht
    · rw [if_neg hbroken]
      exact h.serve hout horderly hgoes hserve

theorem rpcStart_inv (hlisten : 0 ≤ listening ∧ listening < 2 ^ 31) (port backlog : ℤ) :
    RpcInv listening funcs callers (rpcStart listening order held funcs port backlog)
      fun _ => .idle := by
  refine ⟨⟨?_, ?_, ?_, List.nodup_nil⟩, ⟨⟨listening, 1, {listening}, vectorInit Connection 0⟩, [],
    ⟨?_, ?_, ?_⟩⟩, ?_, ?_, ?_⟩
  · intro a b c ha
    cases ha
  · intro a c ha
    cases ha
  · intro c hc
    cases hc
  · exact .start listening hlisten rfl rfl rfl
  · exact one_ne_zero
  · intro a c ha
    cases ha
  · intro c hc
    exact .idle false
  · intro c hc hopen
    rfl
  · intro c hc
    cases hc

theorem rpc_refines (hlisten : 0 ≤ listening ∧ listening < 2 ^ 31) (hout : RepliesBounded funcs)
    {port backlog : ℤ} {es : List RpcEvent} (horderly : ∀ e ∈ es, e.Orderly callers) {s : Rpc}
    {log : List RpcLabel}
    (hrun : exec (withLog (rpcStep listening order held fatal callers))
      (rpcStart listening order held funcs port backlog, []) es = some (s, log))
    (hrunning : s.running = true) :
    ∃ ds phases, exec (withLog (step (service funcs))) (fun _ => .idle, []) ds =
        some (phases, log.filterMap (seen callers)) ∧
      RpcInv listening funcs callers s phases :=
  exec_refines (R := fun phases s => RpcInv listening funcs callers s phases)
    (P := RpcEvent.Orderly callers) (J := fun s => s.running = true) rpcStep_running
    (rpcStep_matched hout) (rpcStart_inv hlisten port backlog) horderly hrun hrunning

/-- What concerns a caller is all seen. -/
theorem filterMap_seen {β : Type} {c : ℕ} (hc : (callers c).isSome = true)
    {pick : RpcLabel → Option β} (hpick : ∀ l, l.caller ≠ c → pick l = none)
    (log : List RpcLabel) : (log.filterMap (seen callers)).filterMap pick = log.filterMap pick := by
  rw [List.filterMap_filterMap]
  congr 1
  funext l
  by_cases hl : (callers l.caller).isSome = true
  · rw [seen, if_pos hl, Option.bind_some]
  · have hne : l.caller ≠ c := by
      intro he
      rw [he] at hl
      exact hl hc
    rw [seen, if_neg hl, Option.bind_none, hpick l hne]

section
variable {c : ℕ} (hc : (callers c).isSome = true) (log : List RpcLabel)
include hc

theorem calls_seen : calls c (log.filterMap (seen callers)) = calls c log := by
  refine filterMap_seen hc ?_ log
  intro l hl
  cases l with
  | called d q => exact if_neg hl
  | invoked d e => rfl
  | returned d r => rfl

theorem results_seen : results c (log.filterMap (seen callers)) = results c log := by
  refine filterMap_seen hc ?_ log
  intro l hl
  cases l with
  | called d q => rfl
  | invoked d e => rfl
  | returned d r => exact if_neg hl

theorem invocations_seen : invocations c (log.filterMap (seen callers)) = invocations c log := by
  refine filterMap_seen hc ?_ log
  intro l hl
  cases l with
  | called d q => rfl
  | invoked d e => exact if_neg hl
  | returned d r => rfl

end

/-! ### Progress -/

theorem frame_ne_nil (payload : Bytes) : frame payload ≠ [] := by
  intro hnil
  have hlen := congrArg List.length hnil
  rw [frame_length, List.length_nil] at hlen
  omega

/-- Behind the size there is the payload. -/
theorem frame_rest (payload : Bytes) : (frame payload).drop 4 = payload := by
  have hlen : (beBytes 4 payload.length).length = 4 := beBytes_length 4 _
  rw [frame, List.drop_left' hlen]

/-- A frame that is there, and not empty, is received without waiting. -/
theorem frame_stalls (order : ByteOrder) (held : Net → ℕ → Byte) {wire : Wire} {net : Net} {c : ℕ}
    {conn : Connection} (hfd : net.fds conn.socket = some c) (hwire : wire.Whole c)
    (hhung : net.hung c = false) {payload : Bytes} (hpos : 0 < payload.length)
    (hinbox : net.inbox c = frame payload) :
    net.stalls (wireMachine listening order held wire) conn.socket = false := by
  have hnil : payload ≠ [] := List.ne_nil_of_length_pos hpos
  have hrecv := wireMachine_recv listening order held wire hfd 4
  rw [hwire.recv hhung, hinbox] at hrecv
  simp only [Net.stalls, recvWaits, hrecv, Net.blocks, hfd, hinbox, setInbox_fds, setInbox_inbox,
    Function.update_self, frame_rest, hnil, frame_ne_nil, false_and, decide_false, Bool.or_false]

/-- The request of a caller that waits has not been received. -/
theorem RpcInv.request_there {s : Rpc} {phases : ℕ → Phase (Bytes × Bytes) (ℤ × Option Bytes)}
    (h : RpcInv listening funcs callers s phases) {c : ℕ} (hc : (callers c).isSome = true)
    {q : Bytes × Bytes} (hp : phases c = .waiting q) :
    Sendable q ∧ s.net.inbox c = frame (bodyEnvelope q.1 q.2).der ∧ s.net.hung c = false := by
  have hphase := h.phases c hc
  rw [hp] at hphase
  show Sendable q ∧ (s.seat c).inbox = _ ∧ (s.seat c).hung = false
  generalize s.seat c = seat at hphase ⊢
  cases hphase with
  | waiting q hq => exact ⟨hq, rfl, rfl⟩

/-- A call that was answered can return. -/
theorem RpcInv.finish_enabled (order : ByteOrder) (held : Net → ℕ → Byte)
    (fatal : ℕ × Bytes → Bool) {s : Rpc}
    {phases : ℕ → Phase (Bytes × Bytes) (ℤ × Option Bytes)}
    (h : RpcInv listening funcs callers s phases) {c : ℕ} (hc : (callers c).isSome = true)
    {r : ℤ × Option Bytes} (hp : phases c = .done r) {wire : Wire} (hwire : wire.Whole c) :
    ∃ t, rpcStep listening order held fatal callers s (.finish c wire) =
      some (t, [.returned c r]) := by
  obtain ⟨caller, hcaller⟩ := Option.isSome_iff_exists.mp hc
  have hphase := h.phases c hc
  rw [hp] at hphase
  obtain ⟨stream, hd, hseat⟩ : ∃ stream, Delivers stream r ∧
      s.seat c = ⟨some retOk, [], frame stream, false⟩ := by
    generalize s.seat c = seat at hphase
    cases hphase with
    | done r stream hd => exact ⟨stream, hd, rfl⟩
  have hcalling : s.calling c = some retOk := congrArg Seat.calling hseat
  have houtbox : s.net.outbox c = frame stream := congrArg Seat.outbox hseat
  have hhung : s.net.hung c = false := congrArg Seat.hung hseat
  have hready : recvWaits (caller.machine wire c)
      (fun net => decide (net.outbox c = [] ∧ s.closed c = false)) s.net
      caller.client.connection.socket = false := by
    have hnil : stream ≠ [] := List.ne_nil_of_length_pos hd.pos
    simp only [recvWaits, caller_recv_whole caller hwire hhung, houtbox, frame_rest, hnil,
      frame_ne_nil stream, setOutbox_outbox, Function.update_self, false_and, decide_false,
      Bool.or_false]
  have hawait : awaitResponse (caller.machine wire c) caller.client retOk s.net =
      some ⟨r.1, r.2, s.net.setOutbox c []⟩ := awaitResponse_delivers hwire hhung hd houtbox
  simp only [rpcStep, hcaller, hcalling, if_pos hready, hawait, Option.bind_eq_bind,
    Option.bind_some, Option.some.injEq, Prod.mk.injEq, and_true, exists_eq']

/-- Where one descriptor alone is ready, its connection is served next. -/
theorem Admission.ready {ctx : FwsCtx} {net : Net} {conns conns' : List Connection}
    {clientConn : Connection} {fds : ℤ → Option ℕ} {conn : Connection} (hconn : conn ∈ conns)
    (hapart : conn.socket ≠ listening) (hsel : net.selected = .ready {conn.socket})
    (hfresh : net.fresh = none)
    (h : Admission listening ctx net conns clientConn fds conns') :
    clientConn.socket = conn.socket ∧ fds = net.fds := by
  cases h with
  | kept h =>
    have hlisten := Finset.mem_singleton.mp (h _ hsel).1
    exact absurd hlisten.symm hapart
  | joined fd info c waiting hfresh' hpending =>
    rw [hfresh] at hfresh'
    cases hfresh'
  | picked active hsel' hlisten =>
    rw [hsel] at hsel'
    cases hsel'
    rcases hfind : conns.find? (fun e => decide (e.socket ∈ ({conn.socket} : Finset ℤ))) with
      _ | found
    · have hno := List.find?_eq_none.mp hfind conn hconn
      simp only [Finset.mem_singleton, decide_true, not_true_eq_false] at hno
    · have hsocket := List.find?_some hfind
      simp only [Finset.mem_singleton, decide_eq_true_eq] at hsocket
      rw [hfind]
      exact ⟨hsocket, rfl⟩

/-- The server can serve the caller whose connection it holds. -/
theorem RpcInv.serve_enabled (order : ByteOrder) (held : Net → ℕ → Byte)
    {fatal : ℕ × Bytes → Bool} {s : Rpc}
    {phases : ℕ → Phase (Bytes × Bytes) (ℤ × Option Bytes)}
    (h : RpcInv listening funcs callers s phases) (hout : RepliesBounded funcs) {c : ℕ}
    (hc : (callers c).isSome = true) {q : Bytes × Bytes} (hp : phases c = .waiting q)
    (hrunning : s.running = true) (hserving : s.serving = true)
    (hopen : s.ctx.clientConn.socket ≠ 0) (hfd : s.net.fds s.ctx.clientConn.socket = some c)
    {wire : Wire} (hwire : wire.Whole c)
    (hfatal : ∀ e ∈ (service funcs).effects q, fatal e = false) :
    ∃ t out, rpcStep listening order held fatal callers s (.serve wire) = some (t, out) ∧
      t.running = true ∧ t.net.inbox c = [] ∧ t.calling = s.calling ∧
      ∀ l ∈ out, ∃ e, l = .invoked c e := by
  obtain ⟨server, conns, hosting⟩ := h.hosting
  obtain ⟨hsendable, hwhole, hhung⟩ := h.request_there hc hp
  have hinbox : s.net.inbox c = frame (bodyEnvelope q.1 q.2).der ++ [] := by
    rw [List.append_nil]
    exact hwhole
  have hrecv := wire_recv_frame listening order held wire hfd
    (fun _ n => hwire.handed _ n hhung) hsendable.lt hinbox
  rw [if_pos hsendable.pos] at hrecv
  obtain ⟨served, response, hreq, henc, hcalled, -⟩ := respond_service hout hsendable
  obtain ⟨ret, k, hsend, -⟩ := sendResponse_eq (wireMachine listening order held wire) hopen henc
    (s.net.setInbox c [])
  have hserve := fwsServerServe_received hopen hosting.table.peer hrecv
  rw [hosting.table.funcs, hreq, Option.bind_some, hsend] at hserve
  obtain ⟨env, -, -, hnet⟩ :=
    hosting.serve_frame hopen hfd hwire hhung hsendable.pos hsendable.lt hinbox hserve
  have hready : s.running = true ∧ s.serving = true ∧ (s.ctx.clientConn.socket = 0 ∨
      s.net.stalls (wireMachine listening order held wire) s.ctx.clientConn.socket = false) :=
    ⟨hrunning, hserving,
      Or.inr (frame_stalls order held hfd hwire hhung (envelope_der_pos _) hwhole)⟩
  have hcurrent : s.current = some c := by rw [Rpc.current, if_neg hopen, hfd]
  have hreturns : served.called.any fatal = false := by
    rw [← hcalled] at hfatal
    cases hcall : served.called with
    | none => rfl
    | some e =>
      rw [hcall] at hfatal
      exact hfatal e (List.mem_singleton_self e)
  have halive : ∀ sent k, s.broken fatal wire ⟨ret, served, sent, s.ctx, k⟩ = false := by
    intro sent k
    rw [Rpc.broken, hcurrent, Option.any_some, hhung, Bool.and_false, hreturns, Bool.or_false]
  have hstep : rpcStep listening order held fatal callers s (.serve wire) =
      some ({ s with ctx := s.ctx, net := k, serving := false, closed := s.closing k },
        s.invoked served) := by
    simp only [rpcStep, if_pos hready, hserve, Option.bind_eq_bind, Option.bind_some, halive,
      Bool.false_eq_true, if_false]
  refine ⟨_, _, hstep, hrunning, ?_, rfl, ?_⟩
  · have hk : k = _ := hnet
    rw [hk, setOutbox_inbox, setInbox_inbox, Function.update_self]
  · intro l hl
    rw [invoked_caller hcurrent] at hl
    obtain ⟨e, -, rfl⟩ := List.mem_map.mp hl
    exact ⟨e, rfl⟩

/-- The server can pick the caller whose request is there. -/
theorem RpcInv.accept_enabled (order : ByteOrder) (held : Net → ℕ → Byte)
    (fatal : ℕ × Bytes → Bool) {s : Rpc}
    {phases : ℕ → Phase (Bytes × Bytes) (ℤ × Option Bytes)}
    (h : RpcInv listening funcs callers s phases) {c : ℕ} (hc : (callers c).isSome = true)
    {q : Bytes × Bytes} (hp : phases c = .waiting q) (hrunning : s.running = true)
    (hserving : s.serving = false) {fd : ℤ} (hfd : s.net.fds fd = some c) :
    ∃ t, rpcStep listening order held fatal callers s (.accept (.ready {fd}) none) = some (t, []) ∧
      RpcInv listening funcs callers t phases ∧ t.running = true ∧ t.serving = true ∧
      t.ctx.clientConn.socket = fd ∧ t.net.fds fd = some c ∧ t.calling = s.calling := by
  obtain ⟨server, conns, hosting⟩ := h.hosting
  have hinbox : s.net.inbox c ≠ [] := by
    rw [(h.request_there hc hp).2.1]
    exact frame_ne_nil _
  obtain ⟨conn', hconn', hsocket'⟩ := hosting.attached fd c hfd
  have hapart : fd ≠ listening := by
    rw [← hsocket', ← hosting.table.socket]
    exact hosting.table.apart hconn'
  have hreport : s.net.mayReport listening (watched s.ctx) (.ready {fd}) = true := by
    have hwatched' : fd ∈ watched s.ctx := by
      rw [watched, hosting.table.peer, ← hsocket']
      exact hosting.table.watched hconn'
    simp only [Net.mayReport, Finset.singleton_nonempty, Finset.mem_singleton, forall_eq,
      hwatched', Net.ready, if_neg hapart, Net.blocks, hfd, hinbox, false_and, decide_false,
      Bool.not_false, and_self, decide_true]
  have hready : s.running = true ∧ s.serving = false ∧
      s.net.mayReport listening (watched s.ctx) (.ready {fd}) = true ∧
      s.net.unused listening none = true := ⟨hrunning, hserving, hreport, rfl⟩
  have hhosting : Hosting listening funcs s.ctx
      { s.net with selected := .ready {fd}, fresh := none } server conns :=
    ⟨hosting.table, hosting.running, hosting.attached⟩
  obtain ⟨ret, ctx', net', server', conns', haccept, -, -, hadmission⟩ :=
    hhosting.accept order held (h.wf.same rfl rfl rfl) rfl
  subst hsocket'
  obtain ⟨hsocket, hfds⟩ := hadmission.ready hconn' hapart rfl rfl
  refine ⟨{ s with ctx := ctx', net := net', serving := true }, ?_,
    h.accept hready.2.2.2 haccept, hrunning, rfl, hsocket, ?_, rfl⟩
  · have hin : overrun none net' = false := rfl
    simp only [rpcStep, if_pos hready, haccept, Option.bind_eq_bind, Option.bind_some, hin,
      Bool.false_eq_true, if_false]
  · show net'.fds conn'.socket = some c
    rw [hfds]
    exact hfd

/-- A caller in a call with a result waits to be served, or has its response. -/
theorem pending_phase {p : Phase (Bytes × Bytes) (ℤ × Option Bytes)} {seat : Seat}
    (hphase : InPhase p seat) {qs : List (Bytes × Bytes)} {rs : List (ℤ × Option Bytes)}
    {invoked : List (ℕ × Bytes)} (haccount : Account (service funcs) p qs rs invoked)
    (hcalling : seat.calling ≠ none) {q : Bytes × Bytes} (hlast : qs.getLast? = some q)
    {r : ℤ × Option Bytes} (hresult : (service funcs).result q = some r) :
    p = .waiting q ∨ p = .done r := by
  cases haccount with
  | idle qs rs h =>
    cases hphase with
    | idle hung => exact absurd rfl hcalling
  | waiting qs rs q' h =>
    rw [List.getLast?_concat] at hlast
    cases hlast
    exact Or.inl rfl
  | done qs rs q' r' h hr =>
    rw [List.getLast?_concat] at hlast
    cases hlast
    rw [hresult] at hr
    cases hr
    exact Or.inr rfl
  | lost qs rs q' h hr =>
    rw [List.getLast?_concat] at hlast
    cases hlast
    rw [hresult] at hr
    cases hr

theorem rpc_account (hlisten : 0 ≤ listening ∧ listening < 2 ^ 31) (hout : RepliesBounded funcs)
    {port backlog : ℤ} {es : List RpcEvent} (horderly : ∀ e ∈ es, e.Orderly callers) {s : Rpc}
    {log : List RpcLabel}
    (hrun : exec (withLog (rpcStep listening order held fatal callers))
      (rpcStart listening order held funcs port backlog, []) es = some (s, log))
    (hrunning : s.running = true) {c : ℕ} (hc : (callers c).isSome = true) :
    ∃ phases, RpcInv listening funcs callers s phases ∧
      Account (service funcs) (phases c) (calls c log) (results c log) (invocations c log) := by
  obtain ⟨ds, phases, hatomic, hinv⟩ := rpc_refines hlisten hout horderly hrun hrunning
  have hstart : Accounted (service funcs) ((fun _ => .idle, []) :
      (ℕ → Phase (Bytes × Bytes) (ℤ × Option Bytes)) × List RpcLabel) := fun _ => .idle [] [] rfl
  have haccount := exec_invariant step_accounted hstart hatomic c
  rw [calls_seen hc, results_seen hc, invocations_seen hc] at haccount
  exact ⟨phases, hinv, haccount⟩

theorem withLog_some {σ ε ω : Type} {f : σ → ε → Option (σ × List ω)} {s t : σ} {e : ε}
    {out : List ω} (h : f s e = some (t, out)) (log : List ω) :
    withLog f (s, log) e = some (t, log ++ out) := by
  simp only [withLog, h, Option.map_some]

theorem invoked_only {c : ℕ} {out : List RpcLabel} (h : ∀ l ∈ out, ∃ e, l = .invoked c e) :
    calls c out = [] ∧ results c out = [] := by
  have hnone : ∀ {β : Type} (pick : RpcLabel → Option β), (∀ e, pick (.invoked c e) = none) →
      out.filterMap pick = [] := by
    intro β pick hpick
    apply List.filterMap_eq_nil_iff.mpr
    intro l hl
    obtain ⟨e, rfl⟩ := h l hl
    exact hpick e
  exact ⟨hnone _ fun _ => rfl, hnone _ fun _ => rfl⟩

end

/-! ### What a caller relies on -/

/- One client sends a length field with a byte behind it, which comes byte by byte;
another one calls and calls again. -/
def oneCaller : ℕ → Option Caller := fun c =>
  if c = 1 then some ⟨.big, fun _ _ => 0, ⟨⟨3, none⟩, 1⟩⟩ else none

/- Its callbacks always return. -/
abbrev oneCallerStep : Rpc → RpcEvent → Option (Rpc × List RpcLabel) :=
  rpcStep 3 .little (fun _ _ => 0) (fun _ => false) oneCaller

abbrev oneCallerStart : Rpc := rpcStart 3 .little (fun _ _ => 0) [testMessageEntry] 4242 100

def slowWire : Wire := { wholeWire with handed := fun _ c n => some (if c = 0 then 1 else n) }

def callsBesideGarbage : List RpcEvent :=
  [.connect 0, .connect 1, .send 0 [0, 0, 0, 5, 1],
    .call 1 slowWire testMessageEntry.funcIdentifier [7], .accept (.ready {3}) (some 4),
    .serve slowWire, .accept (.ready {3}) (some 5), .serve slowWire, .finish 1 slowWire,
    .call 1 slowWire testMessageEntry.funcIdentifier [8]]

def callLog : List RpcLabel :=
  [.called 1 (ascii "TestMessage", [7]), .invoked 1 (0, [7]), .returned 1 (0, some [7]),
    .called 1 (ascii "TestMessage", [8])]

theorem slowWire_whole {c : ℕ} (hc : c ≠ 0) : slowWire.Whole c := by
  refine ⟨?_, fun _ _ _ => rfl⟩
  intro net n _
  show some (if c = 0 then 1 else n) = some n
  rw [if_neg hc]

theorem oneCaller_whole (c : ℕ) (hc : (oneCaller c).isSome = true) : slowWire.Whole c := by
  apply slowWire_whole
  rintro rfl
  exact absurd hc (by decide)

theorem callsBesideGarbage_orderly : ∀ e ∈ callsBesideGarbage, e.Orderly oneCaller := by
  have hwire : slowWire.Whole 1 := slowWire_whole one_ne_zero
  have hbounds : ∀ inMsg : Bytes, inMsg.length < 2 ^ 30 - 4096 →
      CallBounds testMessageEntry.funcIdentifier inMsg := fun _ hdata => ⟨by decide, hdata⟩
  simp only [callsBesideGarbage, List.forall_mem_cons, List.not_mem_nil, false_imp_iff,
    RpcEvent.Orderly]
  exact ⟨trivial, trivial, trivial, ⟨hwire, hbounds [7] (by decide)⟩, trivial, oneCaller_whole,
    trivial, oneCaller_whole, hwire, ⟨hwire, hbounds [8] (by decide)⟩, fun _ => trivial⟩

theorem callsBesideGarbage_run :
    ∃ s, exec (withLog oneCallerStep) (oneCallerStart, []) callsBesideGarbage = some (s, callLog) ∧
      s.running = true ∧ 1 ∈ s.net.known ∧ s.net.hung 1 = false ∧ s.serving = false ∧
      s.net.fds 5 = some 1 ∧ s.calling 1 = some retOk := by
  have hlog : (exec (withLog oneCallerStep) (oneCallerStart, []) callsBesideGarbage).map
        Prod.snd = some callLog := by decide +kernel
  have hstate : (exec (withLog oneCallerStep) (oneCallerStart, []) callsBesideGarbage).map
        (fun p => decide (p.1.running = true ∧ 1 ∈ p.1.net.known ∧ p.1.net.hung 1 = false ∧
          p.1.serving = false ∧ p.1.net.fds 5 = some 1 ∧ p.1.calling 1 = some retOk)) =
      some true := by decide +kernel
  obtain ⟨⟨s, log⟩, hs, rfl⟩ := Option.map_eq_some_iff.mp hlog
  rw [hs, Option.map_some, Option.some.injEq, decide_eq_true_eq] at hstate
  exact ⟨s, hs, hstate⟩

theorem testMessage_replies : RepliesBounded [testMessageEntry] := by
  intro e he data out hlt hreply
  rw [List.mem_singleton.mp he] at hreply
  cases hreply
  exact hlt

/-- In every run in which the server's process lives, each call is performed at a
single moment, once, by the callback that its type selects. -/
theorem calls_are_atomic (listening : ℤ) (hlisten : 0 ≤ listening ∧ listening < 2 ^ 31)
    (order : ByteOrder) (held : Net → ℕ → Byte) (fatal : ℕ × Bytes → Bool)
    (callers : ℕ → Option Caller) (funcs : List FuncEntry) (hout : RepliesBounded funcs)
    (port backlog : ℤ) {es : List RpcEvent} (horderly : ∀ e ∈ es, e.Orderly callers) {s : Rpc}
    {log : List RpcLabel}
    (hrun : exec (withLog (rpcStep listening order held fatal callers))
      (rpcStart listening order held funcs port backlog, []) es = some (s, log))
    (hrunning : s.running = true) :
    ∃ ds phases, exec (withLog (step (service funcs))) (fun _ => .idle, []) ds =
      some (phases, log.filterMap (seen callers)) := by
  obtain ⟨ds, phases, hatomic, -⟩ := rpc_refines hlisten hout horderly hrun hrunning
  exact ⟨ds, phases, hatomic⟩

theorem calls_are_atomic_beside_garbage :
    ∃ s, exec (withLog oneCallerStep) (oneCallerStart, []) callsBesideGarbage = some (s, callLog) ∧
      ∃ ds phases, exec (withLog (step (service [testMessageEntry]))) (fun _ => .idle, []) ds =
        some (phases, callLog.filterMap (seen oneCaller)) := by
  obtain ⟨s, hrun, hrunning, -⟩ := callsBesideGarbage_run
  exact ⟨s, hrun, calls_are_atomic 3 (by decide) .little _ _ oneCaller _ testMessage_replies 4242
    100 callsBesideGarbage_orderly hrun hrunning⟩

/-- A caller is handed the results of its own calls in their order, and a callback
is invoked once for each call that was performed and for nothing else. -/
theorem results_are_own (listening : ℤ) (hlisten : 0 ≤ listening ∧ listening < 2 ^ 31)
    (order : ByteOrder) (held : Net → ℕ → Byte) (fatal : ℕ × Bytes → Bool)
    (callers : ℕ → Option Caller) (funcs : List FuncEntry) (hout : RepliesBounded funcs)
    (port backlog : ℤ) {es : List RpcEvent} (horderly : ∀ e ∈ es, e.Orderly callers) {s : Rpc}
    {log : List RpcLabel}
    (hrun : exec (withLog (rpcStep listening order held fatal callers))
      (rpcStart listening order held funcs port backlog, []) es = some (s, log))
    (hrunning : s.running = true) {c : ℕ} (hc : (callers c).isSome = true) :
    ∃ served performed, served <+: performed ∧ performed <+: calls c log ∧
      (calls c log).length ≤ served.length + 1 ∧
      served.map (service funcs).result = (results c log).map some ∧
      invocations c log = performed.flatMap (service funcs).effects := by
  obtain ⟨ds, phases, hatomic, -⟩ := rpc_refines hlisten hout horderly hrun hrunning
  have horder := calls_in_order hatomic c
  rw [calls_seen hc, results_seen hc, invocations_seen hc] at horder
  exact horder

theorem results_are_own_beside_garbage :
    ∃ s, exec (withLog oneCallerStep) (oneCallerStart, []) callsBesideGarbage = some (s, callLog) ∧
      ∃ served performed, served <+: performed ∧ performed <+: calls 1 callLog ∧
        (calls 1 callLog).length ≤ served.length + 1 ∧
        served.map (service [testMessageEntry]).result = (results 1 callLog).map some ∧
        invocations 1 callLog = performed.flatMap (service [testMessageEntry]).effects := by
  obtain ⟨s, hrun, hrunning, -⟩ := callsBesideGarbage_run
  exact ⟨s, hrun, results_are_own 3 (by decide) .little _ _ oneCaller _ testMessage_replies 4242
    100 callsBesideGarbage_orderly hrun hrunning rfl⟩

/-- As long as the server's process lives, only a caller that has hung up is cut off:
until then it waits to be accepted, or its connection is in the table and watched. -/
theorem callers_stay_connected (listening : ℤ) (hlisten : 0 ≤ listening ∧ listening < 2 ^ 31)
    (order : ByteOrder) (held : Net → ℕ → Byte) (fatal : ℕ × Bytes → Bool)
    (callers : ℕ → Option Caller) (funcs : List FuncEntry) (hout : RepliesBounded funcs)
    (port backlog : ℤ) {es : List RpcEvent} (horderly : ∀ e ∈ es, e.Orderly callers) {s : Rpc}
    {log : List RpcLabel}
    (hrun : exec (withLog (rpcStep listening order held fatal callers))
      (rpcStart listening order held funcs port backlog, []) es = some (s, log))
    (hrunning : s.running = true) {c : ℕ} (hc : (callers c).isSome = true)
    (hknown : c ∈ s.net.known) (hhung : s.net.hung c = false) :
    s.closed c = false ∧ (c ∈ s.net.pending ∨
      ∃ server conns conn, s.ctx.peer = .server (some server) ∧ server.Holds conns ∧
        conn ∈ conns ∧ s.net.fds conn.socket = some c ∧ conn.socket ∈ server.readFdset) := by
  obtain ⟨ds, phases, -, hinv⟩ := rpc_refines hlisten hout horderly hrun hrunning
  have hkept := hinv.kept c hc hhung
  refine ⟨hkept, (hinv.placed c hknown hkept).imp_right ?_⟩
  intro hfd
  obtain ⟨a, ha⟩ := hfd
  obtain ⟨server, conns, hosting⟩ := hinv.hosting
  obtain ⟨conn, hconn, rfl⟩ := hosting.attached a c ha
  exact ⟨server, conns, conn, hosting.table.peer, hosting.table.holds_conns, hconn, ha,
    hosting.table.watched hconn⟩

theorem callers_stay_connected_beside_garbage :
    ∃ s, exec (withLog oneCallerStep) (oneCallerStart, []) callsBesideGarbage = some (s, callLog) ∧
      s.closed 1 = false ∧ (1 ∈ s.net.pending ∨
        ∃ server conns conn, s.ctx.peer = .server (some server) ∧ server.Holds conns ∧
          conn ∈ conns ∧ s.net.fds conn.socket = some 1 ∧ conn.socket ∈ server.readFdset) := by
  obtain ⟨s, hrun, hrunning, hknown, hhung, -⟩ := callsBesideGarbage_run
  exact ⟨s, hrun, callers_stay_connected 3 (by decide) .little _ _ oneCaller _ testMessage_replies
    4242 100 callsBesideGarbage_orderly hrun hrunning rfl hknown hhung⟩

/-- A call that has a result, and whose callback returns, returns it after one round
of the loop that picks the caller's descriptor, whatever state the other clients are
in. The loop takes a connection with descriptor 0 for none. -/
theorem answer_is_near (listening : ℤ) (hlisten : 0 ≤ listening ∧ listening < 2 ^ 31)
    (order : ByteOrder) (held : Net → ℕ → Byte) (fatal : ℕ × Bytes → Bool)
    (callers : ℕ → Option Caller) (funcs : List FuncEntry) (hout : RepliesBounded funcs)
    (port backlog : ℤ) {es : List RpcEvent} (horderly : ∀ e ∈ es, e.Orderly callers) {s : Rpc}
    {log : List RpcLabel}
    (hrun : exec (withLog (rpcStep listening order held fatal callers))
      (rpcStart listening order held funcs port backlog, []) es = some (s, log))
    (hrunning : s.running = true) {c : ℕ} (hc : (callers c).isSome = true)
    (hserving : s.serving = false) {fd : ℤ} (hopen : fd ≠ 0) (hfd : s.net.fds fd = some c)
    (hcalling : s.calling c ≠ none) {q : Bytes × Bytes}
    (hlast : (calls c log).getLast? = some q) {r : ℤ × Option Bytes}
    (hresult : (service funcs).result q = some r)
    (hfatal : ∀ e ∈ (service funcs).effects q, fatal e = false) {wire : Wire}
    (hwire : ∀ c, (callers c).isSome = true → wire.Whole c) :
    ∃ round t log', (round = [.finish c wire] ∨
        round = [.accept (.ready {fd}) none, .serve wire, .finish c wire]) ∧
      exec (withLog (rpcStep listening order held fatal callers)) (s, log) round = some (t, log') ∧
      results c log' = results c log ++ [r] := by
  obtain ⟨phases, hinv, haccount⟩ := rpc_account hlisten hout horderly hrun hrunning hc
  have hreturned : ∀ log, results c (log ++ [(.returned c r : RpcLabel)]) =
      results c log ++ [r] := by
    intro log
    rw [results_append, results_returned, if_pos rfl]
  rcases pending_phase (hinv.phases c hc) haccount hcalling hlast hresult with hp | hp
  · obtain ⟨t₁, haccept, hinv₁, hrunning₁, hserving₁, rfl, hfd₁, hcalling₁⟩ :=
      hinv.accept_enabled order held fatal hc hp hrunning hserving hfd
    obtain ⟨t₂, out, hserve, hrunning₂, hinbox₂, hcalling₂, hinvoked⟩ :=
      hinv₁.serve_enabled order held hout hc hp hrunning₁ hserving₁ hopen hfd₁ (hwire c hc)
        hfatal
    have hround : exec (withLog (rpcStep listening order held fatal callers)) (s, log)
        [.accept (.ready {t₁.ctx.clientConn.socket}) none, .serve wire] =
          some (t₂, log ++ out) := by
      simp only [exec, withLog_some haccept, withLog_some hserve, Option.bind_some,
        List.append_nil]
    have hrun₂ := exec_append (withLog (rpcStep listening order held fatal callers))
      (rpcStart listening order held funcs port backlog, []) es
      [.accept (.ready {t₁.ctx.clientConn.socket}) none, .serve wire]
    rw [hrun, Option.bind_some, hround] at hrun₂
    have horderly₂ : ∀ e ∈ es ++ [.accept (.ready {t₁.ctx.clientConn.socket}) none, .serve wire],
        RpcEvent.Orderly callers e := by
      intro e he
      rcases List.mem_append.mp he with he | he
      · exact horderly e he
      · rcases List.mem_pair.mp he with rfl | rfl
        · trivial
        · exact hwire
    -- the request is gone, so what the call waits for now is its response
    obtain ⟨phases₂, hinv₂, haccount₂⟩ := rpc_account hlisten hout horderly₂ hrun₂ hrunning₂ hc
    obtain ⟨hcalls, hresults⟩ := invoked_only hinvoked
    rw [calls_append, hcalls, List.append_nil] at haccount₂
    have hcalling' : (t₂.seat c).calling ≠ none := by
      show t₂.calling c ≠ none
      rw [hcalling₂, hcalling₁]
      exact hcalling
    have hdone : phases₂ c = .done r := by
      apply (pending_phase (hinv₂.phases c hc) haccount₂ hcalling' hlast hresult).resolve_left
      intro hwaiting
      have hphase := hinv₂.phases c hc
      have hempty : (t₂.seat c).inbox = [] := hinbox₂
      rw [hwaiting] at hphase
      generalize t₂.seat c = seat at hphase hempty
      cases hphase with
      | waiting q hq => exact frame_ne_nil _ hempty
    obtain ⟨t₃, hfinish⟩ := hinv₂.finish_enabled order held fatal hc hdone (hwire c hc)
    refine ⟨_, t₃, log ++ out ++ [.returned c r], Or.inr rfl, ?_, ?_⟩
    · simp only [exec, withLog_some haccept, withLog_some hserve, withLog_some hfinish,
        Option.bind_some, List.append_nil]
    · rw [hreturned, results_append, hresults, List.append_nil]
  · obtain ⟨t, ht⟩ := hinv.finish_enabled order held fatal hc hp (hwire c hc)
    refine ⟨[.finish c wire], t, _, Or.inl rfl, ?_, hreturned log⟩
    simp only [exec, withLog_some ht, Option.bind_some]

theorem answer_is_near_beside_garbage :
    ∃ s, exec (withLog oneCallerStep) (oneCallerStart, []) callsBesideGarbage = some (s, callLog) ∧
      ∃ round t log', (round = [.finish 1 slowWire] ∨
          round = [.accept (.ready {5}) none, .serve slowWire, .finish 1 slowWire]) ∧
        exec (withLog oneCallerStep) (s, callLog) round =
          some (t, log') ∧
        results 1 log' = results 1 callLog ++ [(0, some [8])] := by
  obtain ⟨s, hrun, hrunning, -, -, hserving, hfd, hcalling⟩ := callsBesideGarbage_run
  have hresult : (service [testMessageEntry]).result (ascii "TestMessage", [8]) =
      some (0, some [8]) := by decide +kernel
  have hcall : s.calling 1 ≠ none := by
    rw [hcalling]
    exact Option.some_ne_none _
  exact ⟨s, hrun, answer_is_near 3 (by decide) .little _ _ oneCaller _ testMessage_replies 4242 100
    callsBesideGarbage_orderly hrun hrunning rfl hserving (by decide) hfd hcall rfl hresult
    (fun _ _ => rfl) oneCaller_whole⟩

end Fws
