import Fws.Base.Calls
import Fws.Networking.Wire
import Fws.Service.Exchange
import Fws.Service.Loop

/-!
# A caller's host and its calls

The client's side of a call in two halves, up to the receive and from there on,
over the streams of the server's host.
-/

namespace Fws
open Base.Digits Base.Cells Base.Tlv Base.Calls

section
variable {κ : Type}

/- `fws_client_call` up to the receive, with the return code as it is then. -/
def sendRequest (M : Machine κ) (client : Client) (messageType : CString) (inMsg : Bytes) (k : κ) :
    Option (ℤ × κ) := do
  let envReq ← buildRequest messageType inMsg
  let (encoded, msgData) ← encodeRequest envReq
  let ret := if encoded ≤ 0 then retErr else retOk
  let messageIn := messageSetStream messageCreate (msgData.take encoded)
  let (rv, k) ← clientSendMsg M client messageIn k
  some (if rv ≠ 0 then retErr else ret, k)

end

/- A client's process on a host of its own. -/
structure Caller where
  order : ByteOrder
  held : Net → ℕ → Byte
  client : Client

/- Client `c` reads what the server sent it, and the server what it sends. -/
def Caller.machine (caller : Caller) (wire : Wire) (c : ℕ) : Machine Net :=
  { inertMachine Net caller.order caller.held with
    recv := fun net _ n =>
      match wire.recv net c n (net.outbox c) with
      | none => (none, net)
      | some (got, rest) => (some got, net.setOutbox c rest)
    send := fun net _ bs =>
      match wire.send net c bs with
      | none => (none, net)
      | some sent => (some sent.length, net.setInbox c (net.inbox c ++ sent)) }

section
variable (caller : Caller) {wire : Wire} {c : ℕ} {net : Net}

theorem caller_recv_whole (hwire : wire.Whole c) (hopen : net.hung c = false) (s : ℤ) (n : ℕ) :
    (caller.machine wire c).recv net s n =
      (some ((net.outbox c).take n), net.setOutbox c ((net.outbox c).drop n)) := by
  simp only [Caller.machine, hwire.recv hopen]

theorem caller_send_whole (hwire : wire.Whole c) (hopen : net.hung c = false) (s : ℤ)
    (bs : Bytes) : (caller.machine wire c).send net s bs =
      (some bs.length, net.setInbox c (net.inbox c ++ bs)) := by
  simp only [Caller.machine, hwire.send hopen]

/-- A receive of a caller takes from its own stream, and nothing else. -/
theorem caller_recv_any (wire : Wire) (c : ℕ) (conn : Connection) (net : Net) :
    ∃ rest, (connectionRecv (caller.machine wire c) conn net).2 = net.setOutbox c rest := by
  have hnext : ∀ k n, (∃ rest, k = net.setOutbox c rest) →
      ∃ rest, ((caller.machine wire c).recv k conn.socket n).2 = net.setOutbox c rest := by
    intro k n hk
    obtain ⟨rest, rfl⟩ := hk
    simp only [Caller.machine]
    cases wire.recv (net.setOutbox c rest) c n ((net.setOutbox c rest).outbox c) with
    | none => exact ⟨rest, rfl⟩
    | some handed => exact ⟨handed.2, setOutbox_setOutbox net c rest handed.2⟩
  have hself : ∃ rest, net = net.setOutbox c rest := ⟨net.outbox c, (setOutbox_self net c).symm⟩
  apply connectionRecv_lift (R := fun k => ∃ rest, k = net.setOutbox c rest)
  · exact hnext net 4 hself
  · exact hnext

/-- What a caller sends is behind what it has sent. -/
theorem caller_send_any {conn : Connection} {m : Message} {rv : ℤ} {net' : Net}
    (h : connectionSend (caller.machine wire c) conn m net = some (rv, net')) :
    ∃ more, net' = net.setInbox c (net.inbox c ++ more) := by
  have hself : ∃ more, net = net.setInbox c (net.inbox c ++ more) := by
    refine ⟨[], ?_⟩
    rw [List.append_nil, setInbox_self]
  refine connectionSend_lift (R := fun k => ∃ more, k = net.setInbox c (net.inbox c ++ more)) ?_
    hself h
  intro k bs hk
  obtain ⟨more, rfl⟩ := hk
  simp only [Caller.machine]
  cases wire.send (net.setInbox c (net.inbox c ++ more)) c bs with
  | none => exact ⟨more, rfl⟩
  | some sent =>
    refine ⟨more ++ sent, ?_⟩
    simp only [setInbox_inbox, Function.update_self, setInbox_setInbox, List.append_assoc]

theorem caller_send (conn : Connection) (hwire : wire.Whole c) (hopen : net.hung c = false)
    {payload : Bytes} (hlt : payload.length < 2 ^ 32) :
    connectionSend (caller.machine wire c) conn (messageSetStream messageCreate payload) net =
      some (if 0 < cInt payload.length then 0 else -1,
        net.setInbox c (net.inbox c ++ frame payload)) := by
  refine connectionSend_stream (fun sent => net.setInbox c (net.inbox c ++ sent)) hlt ?_ ?_
  · exact caller_send_whole caller hwire hopen conn.socket
  · intro sent bs
    have hopen' : (net.setInbox c (net.inbox c ++ sent)).hung c = false := hopen
    simp only [caller_send_whole caller hwire hopen', setInbox_inbox, Function.update_self,
      setInbox_setInbox, List.append_assoc]

theorem caller_recv (conn : Connection) (hwire : wire.Whole c) (hopen : net.hung c = false)
    {payload : Bytes} (hlt : payload.length < 2 ^ 32) (houtbox : net.outbox c = frame payload) :
    connectionRecv (caller.machine wire c) conn net =
      (if 0 < cInt payload.length then some (messageSetStream messageCreate payload) else none,
        net.setOutbox c []) := by
  refine connectionRecv_stream (fun bs => net.setOutbox c bs) hlt ?_ ?_
  · intro n
    rw [caller_recv_whole caller hwire hopen, houtbox, List.append_nil]
  · intro bs n
    have hopen' : (net.setOutbox c bs).hung c = false := hopen
    simp only [caller_recv_whole caller hwire hopen', setOutbox_outbox, Function.update_self,
      setOutbox_setOutbox]

end

/-! ### What a call is for -/

/- A callback's output, an error, or nothing from a callback that succeeds
without output. -/
def service (funcs : List FuncEntry) : Service (Bytes × Bytes) (ℤ × Option Bytes) (ℕ × Bytes) where
  result q :=
    match funcIndex funcs q.1 with
    | none => some (retErr, none)
    | some (_, entry) =>
      let r := entry.funcCallback q.2
      if r.ret ≠ 0 then some (retErr, none) else r.msgOut.map fun out => (retOk, some out)
  effects q := ((funcIndex funcs q.1).map fun p => (p.1, q.2)).toList

/- Callbacks that are given no more than a call can hand them put out no more
than a response can hold. -/
def RepliesBounded (funcs : List FuncEntry) : Prop :=
  ∀ e ∈ funcs, ∀ data out, data.length < 2 ^ 30 - 4096 → (e.funcCallback data).msgOut = some out →
    out.length < 2 ^ 30 - 4096

/- The request for a type and its data can be read back. -/
structure Sendable (q : Bytes × Bytes) : Prop where
  data : q.2.length < 2 ^ 30 - 4096
  below : (bodyEnvelope q.1 q.2).Below (2 ^ 30)
  pos : 0 < cInt (bodyEnvelope q.1 q.2).der.length
  lt : (bodyEnvelope q.1 q.2).der.length < 2 ^ 32

/- A client that receives this response returns this result. -/
structure Delivers (stream : Bytes) (result : ℤ × Option Bytes) : Prop where
  pos : 0 < stream.length
  lt : stream.length < 2 ^ 31
  decoded : ∃ r env, berDecodeEnvelope stream = some (r, env) ∧
    ((∃ body, env.bodyOrFault = .body body ∧ result = (retOk, some body.data)) ∨
      ((∃ fault, env.bodyOrFault = .fault fault) ∧ result = (retErr, none)))

/- What the limits of the encoding leave of a call: its type is a C string of
less than 2 GiB, and its data leave room for the envelope. -/
structure CallBounds (messageType : CString) (inMsg : Bytes) : Prop where
  type : messageType.strlen < 2 ^ 31
  data : inMsg.length < 2 ^ 30 - 4096

/-! ### The two halves -/

section
variable {caller : Caller} {wire : Wire} {c : ℕ} {net net' : Net} {messageType : CString}
  {inMsg : Bytes}

theorem sendRequest_any {ret : ℤ}
    (h : sendRequest (caller.machine wire c) caller.client messageType inMsg net =
      some (ret, net')) : ∃ more, net' = net.setInbox c (net.inbox c ++ more) := by
  obtain ⟨envReq, -, h⟩ := Option.bind_eq_some_iff.mp h
  obtain ⟨⟨encoded, msgData⟩, -, h⟩ := Option.bind_eq_some_iff.mp h
  obtain ⟨⟨rv, k⟩, hsend, h⟩ := Option.bind_eq_some_iff.mp h
  cases h
  obtain ⟨⟨rv', k'⟩, hsend, hret⟩ := Option.bind_eq_some_iff.mp hsend
  cases hret
  exact caller_send_any caller hsend

/-- A request goes out as one frame. -/
theorem sendRequest_some (hwire : wire.Whole c) (hopen : net.hung c = false)
    (hbounds : CallBounds messageType inMsg) {ret : ℤ}
    (h : sendRequest (caller.machine wire c) caller.client messageType inMsg net =
      some (ret, net')) :
    Sendable (messageType.text, inMsg) ∧ ret = retOk ∧
      net' = net.setInbox c (net.inbox c ++ frame (bodyEnvelope messageType.text inMsg).der) := by
  obtain ⟨envReq, hbuild, h⟩ := Option.bind_eq_some_iff.mp h
  obtain ⟨⟨encoded, msgData⟩, henc, h⟩ := Option.bind_eq_some_iff.mp h
  obtain ⟨type, rfl, hbytes⟩ := requestBytes hbounds.data hbuild henc
  obtain rfl := ((requestType_iff hbounds.type type).mp hbytes.requested).2
  obtain ⟨hlen, hder, hpos, -⟩ := encodeRequest_some hbuild henc
  obtain rfl := hlen
  have hnot : ¬ msgData.length ≤ 0 := not_le.mpr hpos
  have hsend := caller_send caller caller.client.connection hwire hopen hbytes.lt
  have hall : msgData.take msgData.length = (bodyEnvelope messageType.text inMsg).der := by
    rw [List.take_length, hder]
  simp only [hall, clientSendMsg, hsend, if_neg hnot, Option.bind_eq_bind, Option.bind_some,
    ne_eq, not_true_eq_false, if_false, Option.some.injEq, Prod.mk.injEq] at h
  exact ⟨⟨hbounds.data, hbytes.below, hbytes.pos, hbytes.lt⟩, h.1.symm, h.2.symm⟩

theorem awaitResponse_delivers (hwire : wire.Whole c) (hopen : net.hung c = false)
    {stream : Bytes} {result : ℤ × Option Bytes} (hd : Delivers stream result)
    (houtbox : net.outbox c = frame stream) :
    awaitResponse (caller.machine wire c) caller.client retOk net =
      some ⟨result.1, result.2, net.setOutbox c []⟩ := by
  have hlt := hd.lt
  have hrecv := caller_recv caller caller.client.connection hwire hopen (by omega) houtbox
  rw [if_pos ((cInt_pos_iff (by omega)).mpr ⟨hd.pos, hlt⟩)] at hrecv
  obtain ⟨r, env, hdec, hcases⟩ := hd.decoded
  rcases hcases with ⟨body, hbody, rfl⟩ | ⟨⟨fault, hfault⟩, rfl⟩
  · exact awaitResponse_body hrecv hdec hbody retOk
  · exact awaitResponse_fault hrecv hdec hfault retOk

end

/-! ### The server's answer -/

section
variable {funcs : List FuncEntry} {q : Bytes × Bytes}

theorem fault_delivers (e : ErrCode) :
    Delivers (Envelope.der ⟨⟨none⟩, .fault ⟨[1], some e.text⟩⟩) (retErr, none) := by
  have htext := e.text_length
  have hone : ([1] : Bytes).length < 2 ^ 30 := by decide
  have hbelow : (BodyOrFault.fault ⟨[1], some e.text⟩).Below (2 ^ 30) := by
    refine ⟨hone, (responseFault_eq e).1.minimal, ?_⟩
    intro reason hreason
    cases hreason
    exact lt_trans htext (by norm_num)
  have hlen := envelope_der_length (hbelow.mono (by norm_num))
  have hsize : (BodyOrFault.fault ⟨[1], some e.text⟩).size = 1 + e.text.length := rfl
  exact ⟨envelope_der_pos _, by omega, _, _, berDecodeEnvelope_der ⟨optionBelow_none _, hbelow⟩,
    Or.inr ⟨⟨_, rfl⟩, rfl⟩⟩

theorem body_delivers (h : Sendable q) {out : Bytes} (hout : out.length < 2 ^ 30 - 4096) :
    Delivers (bodyEnvelope q.1 out).der (retOk, some out) := by
  have htype : q.1.length < 2 ^ 30 := h.below.bodyOrFault.type
  have hdata : out.length < 2 ^ 30 := by omega
  have hbelow : (BodyOrFault.body ⟨q.1, out⟩).Below (2 ^ 30) := ⟨htype, hdata⟩
  have hlen : (bodyEnvelope q.1 out).der.length ≤ out.length + q.1.length + 60 :=
    envelope_der_length (hbelow.mono (by norm_num))
  exact ⟨envelope_der_pos _, by omega, _, _, berDecodeEnvelope_der ⟨optionBelow_none _, hbelow⟩,
    Or.inl ⟨_, rfl, rfl⟩⟩

/-- What serving a request does is what its call is for. -/
theorem respond_service (hout : RepliesBounded funcs) (h : Sendable q) :
    ∃ served response,
      serveRequest funcs (bodyEnvelope q.1 q.2).der = some (bodyEnvelope q.1 q.2, served) ∧
      encodeResponse (bodyEnvelope q.1 q.2) served = some response ∧
      served.called.toList = (service funcs).effects q ∧
      match (service funcs).result q with
      | none => response = none
      | some r => ∃ stream, response = some stream ∧ Delivers stream r := by
  have hserve := serveRequest_der funcs h.below
  have hbody := bodyEnvelope_bodyOrFault q.1 q.2
  have hbelow : (bodyEnvelope q.1 q.2).bodyOrFault.BodyBelow := by
    intro b hb
    cases hb
    exact h.below.bodyOrFault
  rcases hfound : funcIndex funcs q.1 with _ | ⟨i, entry⟩
  · have hserved := serveEnvelope_notFound hbody hfound
    rw [hserved] at hserve
    refine ⟨_, _, hserve, failed_response hbelow, ?_⟩
    simp only [service, hfound, Option.map_none, Option.toList_none, true_and]
    exact ⟨_, rfl, fault_delivers .notFound⟩
  · have hmem : entry ∈ funcs := List.mem_of_getElem? (funcIndex_some hfound).2.1
    rcases hcall : entry.funcCallback q.2 with ⟨ret, msgOut⟩
    have hserved := serveEnvelope_found hbody hfound hcall
    by_cases hret : ret ≠ 0
    · rw [if_pos hret] at hserved
      rw [hserved] at hserve
      refine ⟨_, _, hserve, failed_response hbelow, ?_⟩
      simp only [service, hfound, hcall, if_pos hret, Option.map_some, Option.toList_some,
        true_and]
      exact ⟨_, rfl, fault_delivers .serving⟩
    · rw [if_neg hret] at hserved
      rw [hserved] at hserve
      cases msgOut with
      | none =>
        refine ⟨_, _, hserve, encodeResponse_eq (.silent _) hbelow, ?_⟩
        simp only [service, hfound, hcall, if_neg hret, Option.map_some, Option.toList_some,
          Option.map_none, true_and]
        rfl
      | some out =>
        have hlt := hout entry hmem q.2 out h.data (by rw [hcall])
        have hdata : out.length < 2 ^ 30 := by omega
        have hbelow' : (BodyOrFault.body ⟨q.1, out⟩).Below (2 ^ 30) :=
          ⟨h.below.bodyOrFault.type, hdata⟩
        refine ⟨_, _, hserve, encodeResponse_eq (.answered _ hbody _ out hdata) hbelow, ?_⟩
        simp only [service, hfound, hcall, if_neg hret, Option.map_some, Option.toList_some,
          true_and]
        exact ⟨_, response_of_below (hbelow'.mono (by norm_num)), body_delivers h hlt⟩

end

end Fws
