import Fws.Service.Serve

/-!
# The client's side of a call (fws/fws.c, networking/client.c)
-/

namespace Fws
open Base.Digits Base.Cells Base.Tlv

variable {κ : Type}

def clientRecvMsg (M : Machine κ) (client : Client) (k : κ) : Option Message × κ :=
  connectionRecv M client.connection k

/- The result of `connection_send` is dropped. -/
def clientSendMsg (M : Machine κ) (client : Client) (message : Message) (k : κ) :
    Option (ℤ × κ) := do
  let (_, k) ← connectionSend M client.connection message k
  some (0, k)

/- `env_req`; the length of the type is the `int` that `strlen` is stored to. -/
def buildRequest (messageType : CString) (inMsg : Bytes) : Option Envelope := do
  let type ← octetStringField (messageType.text ++ [0]) (-1)
  let data ← octetStringField inMsg (cInt inMsg.length)
  some (bodyEnvelope type data)

def requestDataSize (envReq : Envelope) : ℕ :=
  match envReq.bodyOrFault with
  | .body body => body.data.length
  | _ => 0

/- `renc.encoded` and `msg_data`. Where nothing was encoded, `-1` bytes of the
buffer are made a message: undefined. -/
def encodeRequest (envReq : Envelope) : Option (ℕ × Bytes) := do
  let msgMaxsize ← addSizes (requestDataSize envReq) 1024
  derEncodeToBuffer (envelopeEncodeDer envReq) msgMaxsize

/- `out` is what was stored to `*out_msg`, with its size in `*out_size`. -/
structure Called (κ : Type) where
  ret : ℤ
  out : Option Bytes
  k : κ

/- From the receive on, with the return code as it is then. -/
def awaitResponse (M : Machine κ) (client : Client) (ret : ℤ) (k : κ) : Option (Called κ) :=
  match clientRecvMsg M client k with
  | (none, k) => some ⟨retErr, none, k⟩
  | (some messageOut, k) => do
    let stream ← messageGetStream messageOut
    let (_, envResp) ← berDecodeEnvelope stream
    match envResp.bodyOrFault with
    | .body body => some ⟨ret, some body.data, k⟩
    | .fault _ => some ⟨retErr, none, k⟩
    | .nothing => some ⟨ret, none, k⟩

def fwsClientCall (M : Machine κ) (ctx : FwsCtx) (messageType : CString) (inMsg : Bytes) (k : κ) :
    Option (Called κ) :=
  match ctx.peer with
  | .idle | .client none | .server none => some ⟨retErr, none, k⟩
  | .server (some _) => some ⟨retOk, none, k⟩
  | .client (some client) => do
    let envReq ← buildRequest messageType inMsg
    let (encoded, msgData) ← encodeRequest envReq
    -- an error up to here does not keep the client from sending and waiting
    let ret := if encoded ≤ 0 then retErr else retOk
    let messageIn := messageSetStream messageCreate (msgData.take encoded)
    let (rv, k) ← clientSendMsg M client messageIn k
    let ret := if rv ≠ 0 then retErr else ret
    awaitResponse M client ret k

/-! ### The request -/

@[simp] theorem requestDataSize_body (type data : Bytes) :
    requestDataSize (bodyEnvelope type data) = data.length := rfl

/-- A request is built of the two strings, where both can be made. -/
theorem buildRequest_iff {messageType : CString} {inMsg : Bytes} {envReq : Envelope} :
    buildRequest messageType inMsg = some envReq ↔
      ∃ type data, octetStringField (messageType.text ++ [0]) (-1) = some type ∧
        octetStringField inMsg (cInt inMsg.length) = some data ∧
        envReq = bodyEnvelope type data := by
  simp only [buildRequest, Option.bind_eq_bind, Option.bind_eq_some_iff, Option.some.injEq,
    exists_and_left, eq_comm (a := envReq)]

theorem buildRequest_some {messageType : CString} {inMsg : Bytes} {envReq : Envelope}
    (h : buildRequest messageType inMsg = some envReq) :
    ∃ body, envReq = ⟨⟨none⟩, .body body⟩ ∧ body.Below (2 ^ 31) := by
  obtain ⟨type, data, htype, hdata, rfl⟩ := buildRequest_iff.mp h
  exact ⟨⟨type, data⟩, rfl, Nat.lt_of_succ_lt (octetStringField_length htype),
    Nat.lt_of_succ_lt (octetStringField_length hdata)⟩

/-- What is encoded of a request is all of it, and not empty. -/
theorem encodeRequest_some {messageType : CString} {inMsg : Bytes} {envReq : Envelope}
    {encoded : ℕ} {msgData : Bytes} (hbuild : buildRequest messageType inMsg = some envReq)
    (h : encodeRequest envReq = some (encoded, msgData)) :
    encoded = msgData.length ∧ msgData = envReq.der ∧ 0 < msgData.length ∧
      msgData.length ≤ requestDataSize envReq + 1024 ∧ requestDataSize envReq + 1024 < 2 ^ 31 := by
  obtain ⟨body, rfl, hbelow⟩ := buildRequest_some hbuild
  have hpos := envelope_der_pos ⟨⟨none⟩, .body body⟩
  unfold encodeRequest at h
  obtain ⟨size, hsize, h⟩ := Option.bind_eq_some_iff.mp h
  obtain ⟨hfit, rfl⟩ := addSizes_iff.mp hsize
  have henc : Encodes (envelopeEncodeDer ⟨⟨none⟩, .body body⟩) _ := headless_encodes hbelow
  rw [derEncodeToBuffer_eq henc] at h
  by_cases hle : (Envelope.der ⟨⟨none⟩, .body body⟩).length ≤
      requestDataSize ⟨⟨none⟩, .body body⟩ + 1024
  · rw [if_pos hle] at h
    cases h
    exact ⟨rfl, rfl, hpos, hle, hfit⟩
  · rw [if_neg hle] at h
    cases h

theorem clientSendMsg_set (M : Machine κ) (client : Client) (stream : Bytes) (k : κ) :
    ∃ k', clientSendMsg M client (messageSetStream messageCreate stream) k = some (0, k') :=
  serverSendMsg_set client.connection stream k

/-! ### Truthful success -/

/- The call receives this response. -/
def Received (M : Machine κ) (ctx : FwsCtx) (messageType : CString) (inMsg : Bytes) (k : κ)
    (response : Bytes) : Prop :=
  ∃ client envReq request rv k₁ k₂ message, ctx.peer = .client (some client) ∧
    buildRequest messageType inMsg = some envReq ∧ encodeRequest envReq = some request ∧
    clientSendMsg M client (messageSetStream messageCreate (request.2.take request.1)) k =
      some (rv, k₁) ∧
    clientRecvMsg M client k₁ = (some message, k₂) ∧ messageGetStream message = some response

/- The response has a body that was decoded completely, and it was handed out. -/
def HandedOut (response : Bytes) (out : Option Bytes) : Prop :=
  ∃ r env body, berDecodeEnvelope response = some (r, env) ∧ r.code = .rcOk ∧
    env.bodyOrFault = .body body ∧ out = some body.data

/- Anything but a success is an error that leaves the outputs alone. -/
def Truthful (M : Machine κ) (ctx : FwsCtx) (messageType : CString) (inMsg : Bytes) (k : κ) :
    Prop :=
  ∃ called, fwsClientCall M ctx messageType inMsg k = some called ∧
    ((called.ret = retOk ∧ ∃ response, Received M ctx messageType inMsg k response ∧
        HandedOut response called.out) ∨
      (called.ret = retErr ∧ called.out = none))

/- The response is a fault, or a body that is there completely. -/
def FaultOrBody (response : Bytes) : Prop :=
  ∃ r env, berDecodeEnvelope response = some (r, env) ∧
    ((∃ fault, env.bodyOrFault = .fault fault) ∨
      (r.code = .rcOk ∧ ∃ body, env.bodyOrFault = .body body))

/- The context holds no connection, or it is a client whose request can be
encoded and whose response, if there is one, is a fault or a complete body. -/
def CallClear (M : Machine κ) (ctx : FwsCtx) (messageType : CString) (inMsg : Bytes) (k : κ) :
    Prop :=
  match ctx.peer with
  | .idle | .client none | .server none => True
  | .server (some _) => False
  | .client (some _) =>
    (∃ envReq request, buildRequest messageType inMsg = some envReq ∧
      encodeRequest envReq = some request) ∧
    ∀ response, Received M ctx messageType inMsg k response → FaultOrBody response

/-- After the request has been sent, the call is decided by what is received. -/
theorem fwsClientCall_sent {M : Machine κ} {ctx : FwsCtx} {client : Client}
    {messageType : CString} {inMsg : Bytes} {envReq : Envelope} {request : ℕ × Bytes} (k : κ)
    (hpeer : ctx.peer = .client (some client))
    (hbuild : buildRequest messageType inMsg = some envReq)
    (henc : encodeRequest envReq = some request) :
    ∃ k₁,
      clientSendMsg M client (messageSetStream messageCreate (request.2.take request.1)) k =
        some (0, k₁) ∧
      fwsClientCall M ctx messageType inMsg k = awaitResponse M client retOk k₁ := by
  obtain ⟨encoded, msgData⟩ := request
  have hsome : ¬ encoded ≤ 0 := by
    obtain ⟨hlen, -, hpos, -⟩ := encodeRequest_some hbuild henc
    omega
  obtain ⟨k₁, hsend⟩ := clientSendMsg_set M client (msgData.take encoded) k
  refine ⟨k₁, hsend, ?_⟩
  simp only [fwsClientCall, hpeer, hbuild, henc, Option.bind_eq_bind, Option.bind_some, hsend,
    if_neg hsome, ne_eq, not_true_eq_false, if_false]

theorem received_iff {M : Machine κ} {ctx : FwsCtx} {client : Client} {messageType : CString}
    {inMsg : Bytes} {envReq : Envelope} {request : ℕ × Bytes} {k k₁ : κ} {rv : ℤ}
    (hpeer : ctx.peer = .client (some client))
    (hbuild : buildRequest messageType inMsg = some envReq)
    (henc : encodeRequest envReq = some request)
    (hsend : clientSendMsg M client
      (messageSetStream messageCreate (request.2.take request.1)) k = some (rv, k₁))
    (response : Bytes) :
    Received M ctx messageType inMsg k response ↔
      ∃ message, (clientRecvMsg M client k₁).1 = some message ∧
        messageGetStream message = some response := by
  constructor
  · intro hsent
    obtain ⟨client', envReq', request', rv', k₁', k₂, message, hp, hb, he, hs, hr, hm⟩ := hsent
    rw [hpeer] at hp
    cases hp
    rw [hbuild] at hb
    cases hb
    rw [henc] at he
    cases he
    rw [hsend] at hs
    cases hs
    exact ⟨message, by rw [hr], hm⟩
  · intro hreceived
    obtain ⟨message, hr, hm⟩ := hreceived
    exact ⟨client, envReq, request, rv, k₁, (clientRecvMsg M client k₁).2, message, hpeer, hbuild,
      henc, hsend, by rw [← hr], hm⟩

theorem awaitResponse_body {M : Machine κ} {client : Client} {k k' : κ} {response : Bytes}
    {r : DecRval} {env : Envelope} {body : Body}
    (hrecv : clientRecvMsg M client k = (some (messageSetStream messageCreate response), k'))
    (hdec : berDecodeEnvelope response = some (r, env)) (hbody : env.bodyOrFault = .body body)
    (ret : ℤ) : awaitResponse M client ret k = some ⟨ret, some body.data, k'⟩ := by
  simp only [awaitResponse, hrecv, messageGetStream_set, Option.bind_eq_bind, Option.bind_some,
    hdec, hbody]

theorem awaitResponse_fault {M : Machine κ} {client : Client} {k k' : κ} {response : Bytes}
    {r : DecRval} {env : Envelope} {fault : Fault}
    (hrecv : clientRecvMsg M client k = (some (messageSetStream messageCreate response), k'))
    (hdec : berDecodeEnvelope response = some (r, env)) (hfault : env.bodyOrFault = .fault fault)
    (ret : ℤ) : awaitResponse M client ret k = some ⟨retErr, none, k'⟩ := by
  simp only [awaitResponse, hrecv, messageGetStream_set, Option.bind_eq_bind, Option.bind_some,
    hdec, hfault]

/-- What a received response makes of a call. -/
theorem awaitResponse_truthful_iff {M : Machine κ} {client : Client} {k k' : κ}
    {response : Bytes}
    (hrecv : clientRecvMsg M client k = (some (messageSetStream messageCreate response), k')) :
    (∃ called, awaitResponse M client retOk k = some called ∧
      ((called.ret = retOk ∧ HandedOut response called.out) ∨
        (called.ret = retErr ∧ called.out = none))) ↔ FaultOrBody response := by
  have hne : retOk ≠ retErr := retOk_ne_retErr.symm
  rcases hdec : berDecodeEnvelope response with _ | ⟨r, env⟩
  · have hnone : awaitResponse M client retOk k = none := by
      simp only [awaitResponse, hrecv, messageGetStream_set, Option.bind_eq_bind,
        Option.bind_some, hdec, Option.bind_none]
    simp [hnone, FaultOrBody, hdec]
  · have hiff : FaultOrBody response ↔ (∃ fault, env.bodyOrFault = .fault fault) ∨
        (r.code = .rcOk ∧ ∃ body, env.bodyOrFault = .body body) := by
      simp [FaultOrBody, hdec]
    rw [hiff]
    rcases hbof : env.bodyOrFault with _ | body | fault
    · have hcall : awaitResponse M client retOk k = some ⟨retOk, none, k'⟩ := by
        simp only [awaitResponse, hrecv, messageGetStream_set, Option.bind_eq_bind,
          Option.bind_some, hdec, hbof]
      simp [hcall, hne, HandedOut, hdec, hbof]
    · rw [awaitResponse_body hrecv hdec hbof]
      simp [HandedOut, hdec, hbof]
    · rw [awaitResponse_fault hrecv hdec hbof]
      simp

theorem truthful_client {M : Machine κ} {ctx : FwsCtx} {client : Client} {messageType : CString}
    {inMsg : Bytes} {k : κ} (hpeer : ctx.peer = .client (some client)) :
    Truthful M ctx messageType inMsg k ↔
      (∃ envReq request, buildRequest messageType inMsg = some envReq ∧
        encodeRequest envReq = some request) ∧
      ∀ response, Received M ctx messageType inMsg k response → FaultOrBody response := by
  by_cases hreq : ∃ envReq request, buildRequest messageType inMsg = some envReq ∧
      encodeRequest envReq = some request
  · rw [and_iff_right hreq]
    obtain ⟨envReq, request, hbuild, henc⟩ := hreq
    obtain ⟨k₁, hsend, hcall⟩ := fwsClientCall_sent k hpeer hbuild henc
    have hreceived := received_iff hpeer hbuild henc hsend
    unfold Truthful
    rw [hcall]
    rcases hrecv : clientRecvMsg M client k₁ with ⟨_ | message, k₂⟩
    · rw [hrecv] at hreceived
      have hno : ∀ response, ¬ Received M ctx messageType inMsg k response := by
        intro response h
        obtain ⟨message, hm, -⟩ := (hreceived response).mp h
        cases hm
      have hnone : awaitResponse M client retOk k₁ = some ⟨retErr, none, k₂⟩ := by
        simp only [awaitResponse, hrecv]
      constructor
      · intro _ response h
        exact absurd h (hno response)
      · intro _
        exact ⟨_, hnone, Or.inr ⟨rfl, rfl⟩⟩
    · obtain ⟨bs, rfl, -⟩ := connectionRecv_some hrecv
      have hbs : ∀ response, Received M ctx messageType inMsg k response ↔ response = bs := by
        intro response
        simp only [hreceived response, hrecv, Option.some.injEq, exists_eq_left',
          messageGetStream_set]
        exact eq_comm
      simp only [hbs, forall_eq, exists_eq_left]
      exact awaitResponse_truthful_iff hrecv
  · have hnone : fwsClientCall M ctx messageType inMsg k = none := by
      simp only [fwsClientCall, hpeer]
      rcases hbuild : buildRequest messageType inMsg with _ | envReq
      · rfl
      · rcases henc : encodeRequest envReq with _ | request
        · simp only [Option.bind_eq_bind, Option.bind_some, henc, Option.bind_none]
        · exact absurd ⟨envReq, request, hbuild, henc⟩ hreq
    constructor
    · intro hcalled
      obtain ⟨called, hcall, -⟩ := hcalled
      rw [hnone] at hcall
      cases hcall
    · intro h
      exact absurd h.1 hreq

/-- The client tests neither the code of the decoder nor that something was
decoded, and a server's context passes through. -/
theorem truthful_iff (M : Machine κ) (ctx : FwsCtx) (messageType : CString) (inMsg : Bytes)
    (k : κ) :
    Truthful M ctx messageType inMsg k ↔ CallClear M ctx messageType inMsg k := by
  have hrefused : fwsClientCall M ctx messageType inMsg k = some ⟨retErr, none, k⟩ →
      Truthful M ctx messageType inMsg k := fun h => ⟨_, h, Or.inr ⟨rfl, rfl⟩⟩
  unfold CallClear
  rcases hpeer : ctx.peer with _ | (_ | client) | (_ | server)
  · simp only [iff_true]
    exact hrefused (by simp only [fwsClientCall, hpeer])
  · simp only [iff_true]
    exact hrefused (by simp only [fwsClientCall, hpeer])
  · exact truthful_client hpeer
  · simp only [iff_true]
    exact hrefused (by simp only [fwsClientCall, hpeer])
  · simp only [iff_false]
    intro hcalled
    obtain ⟨called, hcall, h⟩ := hcalled
    simp only [fwsClientCall, hpeer, Option.some.injEq] at hcall
    subst hcall
    rcases h with ⟨-, response, ⟨client, _, _, _, _, _, _, hclient, -⟩, -⟩ | ⟨hret, -⟩
    · rw [hpeer] at hclient
      cases hclient
    · exact retOk_ne_retErr hret.symm

/- A client that is sent a response of which the last byte is missing. -/
def calling : FwsCtx := ⟨.client (some ⟨⟨3, none⟩, 1⟩), [], ⟨0, none⟩⟩

def truncatedLine : Line := ⟨frame truncatedRequest, []⟩

theorem truncated_response_is_success :
    ¬ Truthful hostMachine calling testMessageEntry.funcIdentifier [7] truncatedLine := by
  have hbuild : buildRequest testMessageEntry.funcIdentifier [7] =
      some (bodyEnvelope (ascii "TestMessage") [7]) := by decide +kernel
  have henc : encodeRequest (bodyEnvelope (ascii "TestMessage") [7]) =
      some (24, (bodyEnvelope (ascii "TestMessage") [7]).der) := by decide +kernel
  have hsend : clientSendMsg hostMachine ⟨⟨3, none⟩, 1⟩ (messageSetStream messageCreate
        ((bodyEnvelope (ascii "TestMessage") [7]).der.take 24)) truncatedLine =
      some (0, ⟨frame truncatedRequest, frame (bodyEnvelope (ascii "TestMessage") [7]).der⟩) := by
    decide +kernel
  have hrecv : (clientRecvMsg hostMachine ⟨⟨3, none⟩, 1⟩ ⟨frame truncatedRequest,
        frame (bodyEnvelope (ascii "TestMessage") [7]).der⟩).1 =
      some (messageSetStream messageCreate truncatedRequest) := by decide +kernel
  have hdec : berDecodeEnvelope truncatedRequest =
      some (⟨.rcWmore, 24⟩, bodyEnvelope (ascii "TestMessage") [7]) := by decide +kernel
  intro h
  have hclear := ((truthful_client rfl).mp h).2 truncatedRequest
    ((received_iff rfl hbuild henc hsend truncatedRequest).mpr
      ⟨_, hrecv, messageGetStream_set _ _⟩)
  obtain ⟨r, env, hd, h⟩ := hclear
  rw [hdec] at hd
  cases hd
  rcases h with ⟨fault, hfault⟩ | ⟨hok, -⟩
  · cases hfault
  · cases hok

end Fws
