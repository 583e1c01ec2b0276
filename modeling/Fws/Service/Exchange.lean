import Fws.Service.Call

/-!
# A call and the serve that answers it

Client and server at the two ends of a connection that delivers what is sent.
A client that waits for its response lets the server serve.
-/

namespace Fws
open Base.Digits Base.Cells Base.Tlv

/- What is in flight both ways, the server's context, and its serves so far. -/
structure Exchange where
  toServer : Bytes
  toClient : Bytes
  server : FwsCtx
  serves : List (Serve Line)

section
variable (clientOrder serverOrder : ByteOrder) (clientHeld : Exchange → ℕ → Byte)
  (serverHeld : Line → ℕ → Byte)

def answer (x : Exchange) : Exchange :=
  match fwsServerServe (lineMachine serverOrder serverHeld) x.server ⟨x.toServer, []⟩ with
  | none => x
  | some r => ⟨r.k.incoming, x.toClient ++ r.k.outgoing, r.ctx, x.serves ++ [r]⟩

/- The client's host. A receive for which nothing ever comes ends here as on a
closed connection. -/
def exchangeMachine : Machine Exchange :=
  { inertMachine Exchange clientOrder clientHeld with
    recv := fun x _ n =>
      let x := if x.toClient = [] ∧ x.toServer ≠ [] then answer serverOrder serverHeld x else x
      (some (x.toClient.take n), { x with toClient := x.toClient.drop n })
    send := fun x _ bs => (some bs.length, { x with toServer := x.toServer ++ bs }) }

/- A server that has accepted the client's connection, and nothing in flight. -/
structure Exchange.Idle (x : Exchange) : Prop where
  peer : ∃ server, x.server.peer = .server (some server)
  accepted : x.server.clientConn.socket ≠ 0
  toServer : x.toServer = []
  toClient : x.toClient = []

/-! ### The channel -/

theorem exchange_send (c : Connection) (x : Exchange) {payload : Bytes}
    (hlt : payload.length < 2 ^ 32) :
    connectionSend (exchangeMachine clientOrder serverOrder clientHeld serverHeld) c
        (messageSetStream messageCreate payload) x =
      some (if 0 < cInt payload.length then 0 else -1,
        { x with toServer := x.toServer ++ frame payload }) := by
  refine connectionSend_stream
    (fun sent => ({ x with toServer := x.toServer ++ sent } : Exchange)) hlt ?_ ?_
  · intro bs
    rfl
  · intro sent bs
    simp only [exchangeMachine, List.append_assoc]

/-- The client receives what the server answers. -/
theorem exchange_recv (c : Connection) {x : Exchange} {stream : Bytes} {server : FwsCtx}
    {serves : List (Serve Line)} (hclient : x.toClient = []) (hserver : x.toServer ≠ [])
    (hanswer : answer serverOrder serverHeld x = ⟨[], frame stream, server, serves⟩)
    (hlt : stream.length < 2 ^ 32) :
    connectionRecv (exchangeMachine clientOrder serverOrder clientHeld serverHeld) c x =
      (if 0 < cInt stream.length then some (messageSetStream messageCreate stream) else none,
        ⟨[], [], server, serves⟩) := by
  refine connectionRecv_stream (fun bs => (⟨[], bs, server, serves⟩ : Exchange)) hlt ?_ ?_
  · intro n
    simp only [exchangeMachine, if_pos (And.intro hclient hserver), hanswer, List.append_nil]
  · intro bs n
    have hquiet : ¬ (bs = [] ∧ ([] : Bytes) ≠ []) := fun h => h.2 rfl
    simp only [exchangeMachine, if_neg hquiet]

end

/-! ### The serve -/

/-- A request as the client encodes it is decoded to what it says. -/
theorem serveRequest_der (funcs : List FuncEntry) {env : Envelope} (h : env.Below (2 ^ 30)) :
    serveRequest funcs env.der = some (env, serveEnvelope funcs env) := by
  have hdec := berDecodeEnvelope_der h
  have hhead : headAccepted env.der := berDecodeEnvelope_ok hdec rfl
  rw [serveRequest_eq funcs hdec, servedOf, if_pos hhead]

/-- A served request with a response leaves that response on the line. -/
theorem serve_line (order : ByteOrder) (held : Line → ℕ → Byte) {ctx : FwsCtx} {server : Server}
    {env : Envelope} {stream : Bytes} (hpeer : ctx.peer = .server (some server))
    (hopen : ctx.clientConn.socket ≠ 0) (henv : env.Below (2 ^ 30))
    (hder : 0 < cInt env.der.length) (hlt : env.der.length < 2 ^ 32)
    (henc : encodeResponse env (serveEnvelope ctx.funcList env) = some (some stream))
    (hstream : stream.length < 2 ^ 32) :
    fwsServerServe (lineMachine order held) ctx ⟨frame env.der, []⟩ =
      some ⟨(serveEnvelope ctx.funcList env).ret, serveEnvelope ctx.funcList env, [stream], ctx,
        ⟨[], frame stream⟩⟩ := by
  have hrecv := line_recv order held ctx.clientConn [] [] hlt
  rw [List.append_nil, if_pos hder] at hrecv
  obtain ⟨ret, k', hsend, hret, hmsg⟩ :=
    sendResponse_eq (lineMachine order held) hopen henc ⟨[], []⟩
  have hline := line_send order held ctx.clientConn ⟨[], []⟩ hstream
  simp only [serverSendMsg, hline, Option.bind_eq_bind, Option.bind_some, List.nil_append,
    Option.some.injEq, Prod.mk.injEq, true_and] at hmsg
  rw [fwsServerServe_received hopen hpeer hrecv, serveRequest_der _ henv, Option.bind_some, hsend,
    hret, ← hmsg]
  rfl

/-! ### The request -/

theorem strlen_text (s : CString) : strlen (s.text ++ [0]) = some s.strlen := by
  have hlen : s.text.length = s.strlen := s.read_length s.strlen
  have hfirst : (s.text ++ [0]).findIdx? (fun b => decide (b = 0)) = some s.text.length := by
    rw [List.findIdx?_append]
    have hno : s.text.findIdx? (fun b => decide (b = 0)) = none := by
      rw [List.findIdx?_eq_none_iff]
      intro b hb
      obtain ⟨i, hi, rfl⟩ := List.mem_map.mp hb
      exact decide_eq_false (s.before i (List.mem_range.mp hi))
    rw [hno]
    simp
  rw [strlen, hfirst, hlen]

theorem requestType_measured (s : CString) :
    fromBufLength (s.text ++ [0]) (-1) = some (cInt s.strlen) := by
  have hneg : (-1 : ℤ) < 0 := by decide
  rw [fromBufLength, if_pos hneg, strlen_text, Option.map_some]

theorem requestType_length {s : CString} (h : s.strlen < 2 ^ 31) :
    fromBufLength (s.text ++ [0]) (-1) = some (s.strlen : ℤ) := by
  rw [requestType_measured, cInt_of_range (by omega) (by omega)]

/-- A type whose length fits an `int` is taken whole, where it is taken. -/
theorem requestType_iff {s : CString} (h : s.strlen < 2 ^ 31) (type : Bytes) :
    octetStringField (s.text ++ [0]) (-1) = some type ↔
      s.strlen + 1 < 2 ^ 31 ∧ type = s.text := by
  have hlen : s.text.length = s.strlen := s.read_length s.strlen
  have hle : s.strlen ≤ (s.text ++ [0]).length := by
    rw [List.length_append]
    omega
  rw [octetStringField_nat (requestType_length h), List.take_left' hlen, and_iff_right hle]

/- What a client makes of its arguments. -/
structure RequestBytes (messageType : CString) (inMsg type : Bytes) (request : ℕ × Bytes) :
    Prop where
  requested : octetStringField (messageType.text ++ [0]) (-1) = some type
  below : (bodyEnvelope type inMsg).Below (2 ^ 30)
  stream : request.2.take request.1 = (bodyEnvelope type inMsg).der
  pos : 0 < cInt (bodyEnvelope type inMsg).der.length
  lt : (bodyEnvelope type inMsg).der.length < 2 ^ 32

theorem requestBytes {messageType : CString} {inMsg : Bytes} {envReq : Envelope}
    {request : ℕ × Bytes} (hpay : inMsg.length < 2 ^ 30 - 4096)
    (hbuild : buildRequest messageType inMsg = some envReq)
    (henc : encodeRequest envReq = some request) :
    ∃ type, envReq = bodyEnvelope type inMsg ∧
      RequestBytes messageType inMsg type request := by
  obtain ⟨encoded, msgData⟩ := request
  obtain ⟨hlen, hder, hpos, hle, -⟩ := encodeRequest_some hbuild henc
  obtain ⟨type, data, htype, hdata, rfl⟩ := buildRequest_iff.mp hbuild
  rw [octetStringField_all (by omega)] at hdata
  cases hdata
  have he : (bodyEnvelope type inMsg).der = msgData := hder.symm
  have hge : type.length + inMsg.length ≤ (bodyEnvelope type inMsg).der.length :=
    envelope_der_ge (b := ⟨type, inMsg⟩) rfl
  rw [he] at hge
  dsimp only [requestDataSize, bodyEnvelope] at hle
  have hint : 0 < cInt msgData.length := (cInt_pos_iff (by omega)).mpr (by omega)
  have hbelow : (bodyEnvelope type inMsg).Below (2 ^ 30) := by
    refine ⟨optionBelow_none _, ?_, ?_⟩
    · show type.length < 2 ^ 30
      omega
    · show inMsg.length < 2 ^ 30
      omega
  refine ⟨type, rfl, htype, hbelow, ?_, ?_, ?_⟩
  · rw [he, hlen, List.take_length]
  · rw [he]
    exact hint
  · rw [he]
    omega

/-! ### Transparency -/

/- The serve that begins here calls this callback, whatever becomes of its response. -/
def Invoked {κ : Type} (M : Machine κ) (ctx : FwsCtx) (k : κ) (i : ℕ) (data : Bytes) : Prop :=
  ∃ message msgIn env served, (connectionRecv M ctx.clientConn k).1 = some message ∧
    messageGetStream message = some msgIn ∧
    serveRequest ctx.funcList msgIn = some (env, served) ∧ served.called = some (i, data)

section
variable (clientOrder serverOrder : ByteOrder) (clientHeld : Exchange → ℕ → Byte)
  (serverHeld : Line → ℕ → Byte)

structure Transparent (ctx : FwsCtx) (client : Client) (messageType : CString) (inMsg : Bytes)
    (x : Exchange) (type : Bytes) (request : ℕ × Bytes) : Prop where
  whole : messageType.strlen < 2 ^ 31 → type = messageType.text
  invoked : ∀ i entry, funcIndex x.server.funcList type = some (i, entry) →
    ∃ x₁, clientSendMsg (exchangeMachine clientOrder serverOrder clientHeld serverHeld) client
        (messageSetStream messageCreate (request.2.take request.1)) x = some (0, x₁) ∧
      Invoked (lineMachine serverOrder serverHeld) x.server ⟨x₁.toServer, []⟩ i inMsg
  answered : ∀ i entry out, funcIndex x.server.funcList type = some (i, entry) →
    entry.funcCallback inMsg = ⟨0, some out⟩ → out.length < 2 ^ 30 - 4096 →
    ∃ r : Serve Line,
      fwsClientCall (exchangeMachine clientOrder serverOrder clientHeld serverHeld) ctx messageType
        inMsg x = some ⟨retOk, some out, ⟨[], [], x.server, x.serves ++ [r]⟩⟩ ∧
      r.served.called = some (i, inMsg) ∧
      ∃ stream rval, r.sent = [stream] ∧
        berDecodeEnvelope stream = some (rval, bodyEnvelope type out) ∧ rval.code = .rcOk
  refused : (∀ i entry, funcIndex x.server.funcList type = some (i, entry) →
      (entry.funcCallback inMsg).ret ≠ 0) →
    ∃ r : Serve Line,
      fwsClientCall (exchangeMachine clientOrder serverOrder clientHeld serverHeld) ctx messageType
        inMsg x = some ⟨retErr, none, ⟨[], [], x.server, x.serves ++ [r]⟩⟩ ∧
      r.served.called = (funcIndex x.server.funcList type).map fun p => (p.1, inMsg)

variable {ctx : FwsCtx} {client : Client} {messageType : CString} {inMsg type : Bytes}
  {x : Exchange} {request : ℕ × Bytes}

theorem request_sent (hbytes : RequestBytes messageType inMsg type request)
    (hidle : x.Idle) :
    clientSendMsg (exchangeMachine clientOrder serverOrder clientHeld serverHeld) client
        (messageSetStream messageCreate (request.2.take request.1)) x =
      some (0, { x with toServer := frame (bodyEnvelope type inMsg).der }) := by
  have hsend := exchange_send clientOrder serverOrder clientHeld serverHeld client.connection x
    hbytes.lt
  simp only [clientSendMsg, hbytes.stream, hsend, hidle.toServer, List.nil_append,
    Option.bind_eq_bind, Option.bind_some]

theorem request_invokes (hbytes : RequestBytes messageType inMsg type request) {i : ℕ}
    {entry : FuncEntry}
    (hfound : funcIndex x.server.funcList type = some (i, entry)) :
    Invoked (lineMachine serverOrder serverHeld) x.server
      ⟨frame (bodyEnvelope type inMsg).der, []⟩ i inMsg := by
  have hrecv := line_recv serverOrder serverHeld x.server.clientConn [] [] hbytes.lt
  rw [List.append_nil, if_pos hbytes.pos] at hrecv
  have hserve := serveRequest_der x.server.funcList hbytes.below
  refine ⟨_, _, _, _, by rw [hrecv], messageGetStream_set _ _, hserve, ?_⟩
  rw [serveEnvelope_found (bodyEnvelope_bodyOrFault type inMsg) hfound rfl]
  split_ifs
  · rfl
  · rfl

/-- The response that the server encodes is what the client receives. -/
theorem response_received (hpeer : ctx.peer = .client (some client)) (hidle : x.Idle)
    (hbuild : buildRequest messageType inMsg = some (bodyEnvelope type inMsg))
    (henc : encodeRequest (bodyEnvelope type inMsg) = some request)
    (hbytes : RequestBytes messageType inMsg type request) {stream : Bytes}
    (hresp : encodeResponse (bodyEnvelope type inMsg)
      (serveEnvelope x.server.funcList (bodyEnvelope type inMsg)) = some (some stream))
    (hpos : 0 < stream.length) (hlt : stream.length < 2 ^ 31) :
    ∃ x₁ r,
      fwsClientCall (exchangeMachine clientOrder serverOrder clientHeld serverHeld) ctx messageType
        inMsg x = awaitResponse (exchangeMachine clientOrder serverOrder clientHeld serverHeld)
          client retOk x₁ ∧
      clientRecvMsg (exchangeMachine clientOrder serverOrder clientHeld serverHeld) client x₁ =
        (some (messageSetStream messageCreate stream), ⟨[], [], x.server, x.serves ++ [r]⟩) ∧
      r.served = serveEnvelope x.server.funcList (bodyEnvelope type inMsg) ∧
      r.sent = [stream] := by
  obtain ⟨server, hserver⟩ := hidle.peer
  obtain ⟨x₁, hsend, hcall⟩ := fwsClientCall_sent
    (M := exchangeMachine clientOrder serverOrder clientHeld serverHeld) x hpeer hbuild henc
  rw [request_sent clientOrder serverOrder clientHeld serverHeld hbytes hidle] at hsend
  cases hsend
  have hserve := serve_line serverOrder serverHeld hserver hidle.accepted hbytes.below hbytes.pos
    hbytes.lt hresp (by omega)
  have hanswer : answer serverOrder serverHeld
      { x with toServer := frame (bodyEnvelope type inMsg).der } =
      ⟨[], frame stream, x.server, x.serves ++
        [⟨(serveEnvelope x.server.funcList (bodyEnvelope type inMsg)).ret,
          serveEnvelope x.server.funcList (bodyEnvelope type inMsg), [stream], x.server,
          ⟨[], frame stream⟩⟩]⟩ := by
    simp only [answer, hserve, hidle.toClient, List.nil_append]
  have hpending : frame (bodyEnvelope type inMsg).der ≠ [] := by
    have hlen := frame_length (bodyEnvelope type inMsg).der
    intro h
    rw [h] at hlen
    simp only [List.length_nil] at hlen
    omega
  have hshort : stream.length < 2 ^ 32 := by omega
  have hrecv := exchange_recv clientOrder serverOrder clientHeld serverHeld client.connection
    (x := { x with toServer := frame (bodyEnvelope type inMsg).der }) hidle.toClient hpending
    hanswer hshort
  rw [if_pos ((cInt_pos_iff (by omega)).mpr ⟨hpos, hlt⟩)] at hrecv
  exact ⟨_, _, hcall, hrecv, rfl, rfl⟩

theorem failed_response {env : Envelope} {e : ErrCode} {called : Option (ℕ × Bytes)}
    {msgOut : Option Bytes} (henv : env.bodyOrFault.BodyBelow) :
    encodeResponse env ⟨retErr, some e, called, msgOut⟩ =
      some (some (Envelope.der ⟨⟨none⟩, .fault ⟨[1], some e.text⟩⟩)) := by
  have hresp : responseOf env ⟨retErr, some e, called, msgOut⟩ = .fault ⟨[1], some e.text⟩ := by
    simp only [responseOf, if_neg retOk_ne_retErr, Option.map_some]
  rw [encodeResponse_eq (.failed e called msgOut) henv, hresp,
    response_of_below (responseFault_eq e).1]

/-- A failure on the server's side is one on the client's. -/
theorem call_failed (hpeer : ctx.peer = .client (some client)) (hidle : x.Idle)
    (hbuild : buildRequest messageType inMsg = some (bodyEnvelope type inMsg))
    (henc : encodeRequest (bodyEnvelope type inMsg) = some request)
    (hbytes : RequestBytes messageType inMsg type request) {e : ErrCode}
    {called : Option (ℕ × Bytes)} {msgOut : Option Bytes}
    (hserved : serveEnvelope x.server.funcList (bodyEnvelope type inMsg) =
      ⟨retErr, some e, called, msgOut⟩) :
    ∃ r : Serve Line,
      fwsClientCall (exchangeMachine clientOrder serverOrder clientHeld serverHeld) ctx messageType
        inMsg x = some ⟨retErr, none, ⟨[], [], x.server, x.serves ++ [r]⟩⟩ ∧
      r.served.called = called := by
  have htext := e.text_length
  have hbelow : (BodyOrFault.fault ⟨[1], some e.text⟩).Below (2 ^ 30) := by
    obtain ⟨hcode, hminimal, -⟩ := (responseFault_eq e).1
    have hone : ([1] : Bytes).length < 2 ^ 30 := by decide
    refine ⟨hone, hminimal, ?_⟩
    intro reason hreason
    cases hreason
    exact lt_trans htext (by norm_num)
  have hlen := envelope_der_length (hbelow.mono (by norm_num))
  have hpos := envelope_der_pos ⟨⟨none⟩, .fault ⟨[1], some e.text⟩⟩
  have hsize : (BodyOrFault.fault ⟨[1], some e.text⟩).size = 1 + e.text.length := rfl
  have hresp : encodeResponse (bodyEnvelope type inMsg)
      (serveEnvelope x.server.funcList (bodyEnvelope type inMsg)) =
      some (some (Envelope.der ⟨⟨none⟩, .fault ⟨[1], some e.text⟩⟩)) := by
    rw [hserved]
    refine failed_response ?_
    intro b hb
    cases hb
    exact hbytes.below.bodyOrFault
  obtain ⟨x₁, r, hcall, hrecv, hr, -⟩ := response_received clientOrder serverOrder clientHeld
    serverHeld hpeer hidle hbuild henc hbytes hresp hpos (by omega)
  have hfault : Envelope.Below (2 ^ 30) ⟨⟨none⟩, .fault ⟨[1], some e.text⟩⟩ :=
    ⟨optionBelow_none _, hbelow⟩
  have hdec := berDecodeEnvelope_der hfault
  refine ⟨r, ?_, ?_⟩
  · rw [hcall]
    exact awaitResponse_fault hrecv hdec rfl retOk
  · rw [hr, hserved]

/-- What the callback puts out is what the client gets. -/
theorem call_answered (hpeer : ctx.peer = .client (some client)) (hidle : x.Idle)
    (hbuild : buildRequest messageType inMsg = some (bodyEnvelope type inMsg))
    (henc : encodeRequest (bodyEnvelope type inMsg) = some request)
    (hbytes : RequestBytes messageType inMsg type request) {called : Option (ℕ × Bytes)}
    {out : Bytes} (hout : out.length < 2 ^ 30 - 4096)
    (hserved : serveEnvelope x.server.funcList (bodyEnvelope type inMsg) =
      ⟨retOk, none, called, some out⟩) :
    ∃ r : Serve Line,
      fwsClientCall (exchangeMachine clientOrder serverOrder clientHeld serverHeld) ctx messageType
        inMsg x = some ⟨retOk, some out, ⟨[], [], x.server, x.serves ++ [r]⟩⟩ ∧
      r.served.called = called ∧ r.sent = [(bodyEnvelope type out).der] ∧
      berDecodeEnvelope (bodyEnvelope type out).der =
        some (⟨.rcOk, (bodyEnvelope type out).der.length⟩, bodyEnvelope type out) := by
  have htype : type.length < 2 ^ 30 := hbytes.below.bodyOrFault.type
  have hbelow : (BodyOrFault.body ⟨type, out⟩).Below (2 ^ 30) := by
    refine ⟨htype, ?_⟩
    show out.length < 2 ^ 30
    omega
  have hok : Served.Ok (bodyEnvelope type inMsg) ⟨retOk, none, called, some out⟩ :=
    .answered ⟨type, inMsg⟩ rfl called out (by omega)
  have hlen : (bodyEnvelope type out).der.length ≤ out.length + type.length + 60 :=
    envelope_der_length (hbelow.mono (by norm_num))
  have hpos := envelope_der_pos (bodyEnvelope type out)
  have hbof : responseOf (bodyEnvelope type inMsg) ⟨retOk, none, called, some out⟩ =
      .body ⟨type, out⟩ := rfl
  have hresp : encodeResponse (bodyEnvelope type inMsg)
      (serveEnvelope x.server.funcList (bodyEnvelope type inMsg)) =
      some (some (bodyEnvelope type out).der) := by
    rw [hserved, encodeResponse_eq hok, hbof, response_of_below (hbelow.mono (by norm_num))]
    · rfl
    · intro b hb
      cases hb
      exact hbytes.below.bodyOrFault
  obtain ⟨x₁, r, hcall, hrecv, hr, hsent⟩ := response_received clientOrder serverOrder clientHeld
    serverHeld hpeer hidle hbuild henc hbytes hresp hpos (by omega)
  have hdec : berDecodeEnvelope (bodyEnvelope type out).der =
      some (⟨.rcOk, (bodyEnvelope type out).der.length⟩, bodyEnvelope type out) :=
    berDecodeEnvelope_der ⟨optionBelow_none _, hbelow⟩
  refine ⟨r, ?_, ?_, hsent, hdec⟩
  · rw [hcall]
    exact awaitResponse_body hrecv hdec rfl retOk
  · rw [hr, hserved]

/-- A call reaches the callback that the server's table selects and returns what
it puts out, or fails. -/
theorem call_transparent (hpeer : ctx.peer = .client (some client)) (hidle : x.Idle)
    (hpay : inMsg.length < 2 ^ 30 - 4096) {envReq : Envelope}
    (hbuild : buildRequest messageType inMsg = some envReq)
    (henc : encodeRequest envReq = some request) :
    ∃ type, envReq = bodyEnvelope type inMsg ∧
      Transparent clientOrder serverOrder clientHeld serverHeld ctx client messageType inMsg x type
        request := by
  obtain ⟨type, rfl, hbytes⟩ := requestBytes hpay hbuild henc
  refine ⟨type, rfl, ?_, ?_, ?_, ?_⟩
  · intro hint
    exact ((requestType_iff hint type).mp hbytes.requested).2
  · intro i entry hfound
    exact ⟨_, request_sent clientOrder serverOrder clientHeld serverHeld hbytes hidle,
      request_invokes serverOrder serverHeld hbytes hfound⟩
  · intro i entry out hfound hcallback hout
    have hserved := serveEnvelope_found (bodyEnvelope_bodyOrFault type inMsg) hfound hcallback
    have hzero : ¬ (0 : ℤ) ≠ 0 := fun h => h rfl
    rw [if_neg hzero] at hserved
    obtain ⟨r, hcall, hcalled, hsent, hdec⟩ := call_answered clientOrder serverOrder clientHeld
      serverHeld hpeer hidle hbuild henc hbytes hout hserved
    exact ⟨r, hcall, hcalled, _, _, hsent, hdec, rfl⟩
  · intro hfail
    rcases hfound : funcIndex x.server.funcList type with _ | ⟨i, entry⟩
    · have hserved := serveEnvelope_notFound (bodyEnvelope_bodyOrFault type inMsg) hfound
      exact call_failed clientOrder serverOrder clientHeld serverHeld hpeer hidle hbuild henc hbytes
        hserved
    · have hserved := serveEnvelope_found (bodyEnvelope_bodyOrFault type inMsg) hfound rfl
      rw [if_pos (hfail i entry hfound)] at hserved
      exact call_failed clientOrder serverOrder clientHeld serverHeld hpeer hidle hbuild henc hbytes
        hserved

end

def startedExchange : Exchange := ⟨[], [], serving [testMessageEntry], []⟩

theorem call_transparent_test_message :
    ∃ type, bodyEnvelope (ascii "TestMessage") [7] = bodyEnvelope type [7] ∧
      Transparent .little .big (fun _ _ => 0) (fun _ _ => 0) calling ⟨⟨3, none⟩, 1⟩
        testMessageEntry.funcIdentifier [7] startedExchange type
        (24, (bodyEnvelope (ascii "TestMessage") [7]).der) := by
  have hidle : startedExchange.Idle := ⟨⟨_, rfl⟩, by decide, rfl, rfl⟩
  have hbuild : buildRequest testMessageEntry.funcIdentifier [7] =
      some (bodyEnvelope (ascii "TestMessage") [7]) := by decide +kernel
  have henc : encodeRequest (bodyEnvelope (ascii "TestMessage") [7]) =
      some (24, (bodyEnvelope (ascii "TestMessage") [7]).der) := by decide +kernel
  exact call_transparent .little .big _ _ rfl hidle (by decide) hbuild henc

end Fws
