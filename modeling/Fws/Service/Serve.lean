import Fws.Networking.Server
import Fws.Service.Dispatch

/-!
# The server's side of a call (fws/fws.c)

`fws_server_serve` from the receive to the response it sends.
-/

namespace Fws
open Base.Digits Base.Cells Base.Tlv

/- `client_t`. -/
structure Client where
  connection : Connection
  status : ℤ
  deriving DecidableEq, Repr

/- `peer_type` with the `choice` pointer, which may be `NULL`. -/
inductive Peer where
  | idle
  | client (client : Option Client)
  | server (server : Option Server)

structure FwsCtx where
  peer : Peer
  funcList : List FuncEntry
  clientConn : Connection

def fwsInit : FwsCtx := ⟨.idle, [], ⟨0, none⟩⟩

def fwsServerSetFuncList (ctx : FwsCtx) (funcList : List FuncEntry) : FwsCtx :=
  { ctx with funcList := funcList }

variable {κ : Type}

def fwsServerBind (M : Machine κ) (ctx : FwsCtx) (port backlog : ℤ) (k : κ) : ℤ × FwsCtx × κ :=
  match serverCreate M port backlog k with
  | (none, k) => (retErr, { ctx with peer := .server none }, k)
  | (some server, k) => (retOk, { ctx with peer := .server (some server) }, k)

def fwsServerAccept (M : Machine κ) (ctx : FwsCtx) (k : κ) : Option (ℤ × FwsCtx × κ) :=
  match ctx.peer with
  | .server server => do
    let r ← serverAccept M (← server) k
    let ret := if r.rv ≠ 0 then retErr else retOk
    let clientConn := r.stored.getD ctx.clientConn
    some (ret, { ctx with peer := .server (some r.server), clientConn := clientConn }, r.k)
  | _ => some (retOk, ctx, k)

/-! ### The response -/

/- Without a terminator the string is read past its end: `none`. -/
def strlen (str : Bytes) : Option ℕ := str.findIdx? fun b => decide (b = 0)

/- A negative length asks for that of the string. -/
def fromBufLength (str : Bytes) (len : ℤ) : Option ℤ :=
  if len < 0 then (strlen str).map fun n : ℕ => cInt n else some len

/- `OCTET_STRING_fromBuf`, on the bytes that `str` points to: what it stores, or
nothing where it fails. One byte more than the length is asked for; that size is
an `int`, and no block is as large as a negative one. -/
def octetStringFromBuf (str : Bytes) (len : ℤ) : Option (Option Bytes) := do
  let len ← fromBufLength str len
  if len + 1 < 0 then some none
  else if 0 ≤ len ∧ len + 1 < 2 ^ 31 ∧ len ≤ str.length then some (some (str.take len.toNat))
  else none

/- A field that is empty before; whether it was stored to is not looked at. -/
def octetStringField (str : Bytes) (len : ℤ) : Option Bytes :=
  (octetStringFromBuf str len).map fun st => st.getD []

/- The sum of two sizes, which are `int`. -/
def addSizes (a b : ℕ) : Option ℕ := if a + b < 2 ^ 31 then some (a + b) else none

def codeReceiver : ℤ := 1

/- `env_resp` and `msg_maxsize`, as they are before the encoding. The type is
that of the request, which has a body where a callback was called. -/
def responseBody (envReq : Envelope) (msgOut : Bytes) : Option (Envelope × ℕ) :=
  match envReq.bodyOrFault with
  | .body body => do
    let type ← octetStringField body.type (cInt body.type.length)
    let data ← octetStringField msgOut (cInt msgOut.length)
    let msgMaxsize ← addSizes data.length type.length
    some (⟨⟨none⟩, .body ⟨type, data⟩⟩, msgMaxsize)
  | _ => none

/- The fault with this text in `err_code`; without a reason where there is no
block for it. -/
def faultResponse (errCode : Bytes) : Option (Envelope × ℕ) := do
  let code := asnLong2INTEGER codeReceiver
  let reason ← octetStringFromBuf errCode (cInt errCode.length)
  some (⟨⟨none⟩, .fault ⟨code, reason⟩⟩, code.length + (reason.getD []).length)

def responseFault (errCode : Option ErrCode) : Option (Envelope × ℕ) :=
  faultResponse ((errCode.map ErrCode.text).getD [])

def buildResponse (envReq : Envelope) (served : Served) : Option (Envelope × ℕ) :=
  match served.msgOut with
  | some msgOut =>
    if served.ret = retOk then responseBody envReq msgOut
    else if served.ret = retErr then responseFault served.errCode
    else some (emptyEnvelope, 0)
  | none => if served.ret = retErr then responseFault served.errCode else some (emptyEnvelope, 0)

/- The encoded response, or nothing where there is no encoding. -/
def encodeResponse (envReq : Envelope) (served : Served) : Option (Option Bytes) := do
  let (envResp, msgMaxsize) ← buildResponse envReq served
  match derEncodeToBuffer (envelopeEncodeDer envResp) (msgMaxsize + 1024) with
  | none => some none
  | some (encoded, msgData) =>
    if encoded ≤ 0 then some none else some (some (msgData.take encoded))

/- `sent` are the streams of the messages handed to `server_send_msg`. -/
structure Serve (κ : Type) where
  ret : ℤ
  served : Served
  sent : List Bytes
  ctx : FwsCtx
  k : κ

/- On the connection as the receive left it. -/
def sendResponse (M : Machine κ) (ctx : FwsCtx) (envReq : Envelope) (served : Served) (k : κ) :
    Option (Serve κ) :=
  if ctx.clientConn.socket ≠ 0 then do
    match ← encodeResponse envReq served with
    | none => some ⟨retErr, served, [], ctx, k⟩
    | some stream =>
      let messageOut := messageSetStream messageCreate stream
      let (rv, k) ← serverSendMsg M messageOut ctx.clientConn k
      some ⟨if rv ≠ 0 then retErr else served.ret, served, [stream], ctx, k⟩
  else some ⟨retErr, served, [], ctx, k⟩

/- `none` is undefined behaviour, or a decoder that never returns. -/
def fwsServerServe (M : Machine κ) (ctx : FwsCtx) (k : κ) : Option (Serve κ) :=
  if ctx.clientConn.socket = 0 then some ⟨retErr, ⟨retErr, none, none, none⟩, [], ctx, k⟩
  else
    match ctx.peer with
    | .server server => do
      let (messageIn, server, clientConn, k) ← serverRecvMsg M (← server) ctx.clientConn k
      let ctx := { ctx with peer := .server (some server), clientConn := clientConn }
      match messageIn with
      -- the connection was zeroed, so nothing will be sent
      | none => sendResponse M ctx emptyEnvelope ⟨retErr, some .receiving, none, none⟩ k
      | some messageIn => do
        let msgIn ← messageGetStream messageIn
        let (envReq, served) ← serveRequest ctx.funcList msgIn
        sendResponse M ctx envReq served k
    | _ => some ⟨retOk, ⟨retOk, none, none, none⟩, [], ctx, k⟩

/-! ### What is received -/

section
variable {M : Machine κ} {k k' : κ}

/-- A received message holds defined bytes, fewer than a size field can say. -/
theorem connectionRecv_some {c : Connection} {m : Message}
    (h : connectionRecv M c k = (some m, k')) :
    ∃ msgIn : Bytes, m = messageSetStream messageCreate msgIn ∧ msgIn.length < 2 ^ 32 := by
  unfold connectionRecv at h
  rcases hr : M.recv k c.socket 4 with ⟨_ | got, k₁⟩
  · rw [hr] at h
    cases h
  · rw [hr] at h
    by_cases hpos : 0 < cInt got.length
    · simp only [if_pos hpos] at h
      have hsize : ntoh M.order 4 (value M.order (fill got 4 (M.held k₁))) < 2 ^ 32 := by
        rw [ntoh_value M.order (fill_length _ 4 _)]
        have hlt := beVal_lt (fill got 4 (M.held k₁))
        rw [fill_length] at hlt
        exact lt_of_lt_of_le hlt (by norm_num)
      generalize ntoh M.order 4 (value M.order (fill got 4 (M.held k₁))) = size at h hsize
      rcases hb : M.recv k₁ c.socket size with ⟨_ | body, k₂⟩
      · simp only [hb] at h
        cases h
      · by_cases hbody : 0 < cInt body.length
        · simp only [hb, if_pos hbody] at h
          cases h
          exact ⟨fill body size (M.held k'), rfl, by rw [fill_length]; exact hsize⟩
        · simp only [hb, if_neg hbody] at h
          cases h
    · simp only [if_neg hpos] at h
      cases h

/-- Whatever the socket does, sending reports success. -/
theorem serverSendMsg_set (c : Connection) (stream : Bytes) (k : κ) :
    ∃ k', serverSendMsg M (messageSetStream messageCreate stream) c k = some (0, k') := by
  have hsend : ∃ rv k', connectionSend M c (messageSetStream messageCreate stream) k =
      some (rv, k') := by
    simp only [connectionSend, messageGetStream_set, Option.bind_eq_bind, Option.bind_some]
    split
    · exact ⟨_, _, rfl⟩
    · split_ifs
      · split
        · exact ⟨_, _, rfl⟩
        · split_ifs
          · exact ⟨_, _, rfl⟩
          · exact ⟨_, _, rfl⟩
      · exact ⟨_, _, rfl⟩
  obtain ⟨rv, k', h⟩ := hsend
  exact ⟨k', by simp only [serverSendMsg, h, Option.bind_eq_bind, Option.bind_some]⟩

end

/-! ### The response to a request -/

theorem addSizes_iff {a b n : ℕ} : addSizes a b = some n ↔ a + b < 2 ^ 31 ∧ n = a + b := by
  rw [addSizes, Option.ite_none_right_eq_some, Option.some.injEq, eq_comm (a := n)]

/-- With the length settled, the bytes are taken where the block can be made. -/
theorem octetStringFromBuf_nat {str : Bytes} {len : ℤ} {n : ℕ}
    (hlen : fromBufLength str len = some (n : ℤ)) (st : Option Bytes) :
    octetStringFromBuf str len = some st ↔
      n + 1 < 2 ^ 31 ∧ n ≤ str.length ∧ st = some (str.take n) := by
  have hpos : ¬ (n : ℤ) + 1 < 0 := by omega
  rw [octetStringFromBuf, hlen, Option.bind_eq_bind, Option.bind_some, if_neg hpos,
    Option.ite_none_right_eq_some, Option.some.injEq, Int.toNat_natCast]
  constructor
  · intro h
    obtain ⟨hfit, rfl⟩ := h
    exact ⟨by omega, by omega, rfl⟩
  · intro h
    obtain ⟨hint, hle, rfl⟩ := h
    exact ⟨by omega, rfl⟩

theorem octetStringFromBuf_all {str : Bytes} (h : str.length + 1 < 2 ^ 31) :
    octetStringFromBuf str (cInt str.length) = some (some str) := by
  have hint : cInt str.length = str.length := cInt_of_range (by omega) (by omega)
  have hneg : ¬ ((str.length : ℕ) : ℤ) < 0 := by omega
  have hlen : fromBufLength str (cInt str.length) = some (str.length : ℤ) := by
    rw [hint, fromBufLength, if_neg hneg]
  rw [octetStringFromBuf_nat hlen, List.take_length]
  exact ⟨h, Nat.le_refl _, rfl⟩

theorem octetStringFromBuf_length {str st : Bytes} {len : ℤ}
    (h : octetStringFromBuf str len = some (some st)) : st.length + 1 < 2 ^ 31 := by
  rw [octetStringFromBuf, Option.bind_eq_bind, Option.bind_eq_some_iff] at h
  obtain ⟨n, -, h⟩ := h
  by_cases hneg : n + 1 < 0
  · rw [if_pos hneg] at h
    cases h
  · rw [if_neg hneg, Option.ite_none_right_eq_some] at h
    obtain ⟨hfit, he⟩ := h
    obtain rfl := Option.some.inj (Option.some.inj he)
    have hlt : n.toNat + 1 < 2 ^ 31 := by omega
    exact lt_of_le_of_lt (Nat.succ_le_succ (List.length_take_le _ _)) hlt

theorem octetStringField_nat {str st : Bytes} {len : ℤ} {n : ℕ}
    (hlen : fromBufLength str len = some (n : ℤ)) :
    octetStringField str len = some st ↔
      n + 1 < 2 ^ 31 ∧ n ≤ str.length ∧ st = str.take n := by
  rw [octetStringField, Option.map_eq_some_iff]
  constructor
  · intro h
    obtain ⟨stored, hstored, rfl⟩ := h
    obtain ⟨hint, hle, rfl⟩ := (octetStringFromBuf_nat hlen stored).mp hstored
    exact ⟨hint, hle, rfl⟩
  · intro h
    obtain ⟨hint, hle, rfl⟩ := h
    exact ⟨_, (octetStringFromBuf_nat hlen _).mpr ⟨hint, hle, rfl⟩, rfl⟩

theorem octetStringField_all {str : Bytes} (h : str.length + 1 < 2 ^ 31) :
    octetStringField str (cInt str.length) = some str := by
  rw [octetStringField, octetStringFromBuf_all h, Option.map_some, Option.getD_some]

theorem octetStringField_length {str st : Bytes} {len : ℤ}
    (h : octetStringField str len = some st) : st.length + 1 < 2 ^ 31 := by
  obtain ⟨stored, hstored, rfl⟩ := Option.map_eq_some_iff.mp h
  cases stored with
  | none => exact show ([] : Bytes).length + 1 < 2 ^ 31 by norm_num
  | some stored => exact octetStringFromBuf_length hstored

/-- Body and fault of a response have an encoding, and it fits the buffer. -/
theorem response_encodes {bof : BodyOrFault} (h : bof.Below (2 ^ 31)) :
    derEncodeToBuffer (envelopeEncodeDer ⟨⟨none⟩, bof⟩) (bof.size + 1024) =
      some ((Envelope.der ⟨⟨none⟩, bof⟩).length, Envelope.der ⟨⟨none⟩, bof⟩) := by
  have hlen := envelope_der_length h
  rw [derEncodeToBuffer_eq (headless_encodes h), if_pos (by omega)]

/- The answers of the first half: a failure with its text, or success, and then
output only for a request with a body. -/
inductive Served.Ok (envReq : Envelope) : Served → Prop where
  | failed (e : ErrCode) (called : Option (ℕ × Bytes)) (msgOut : Option Bytes) :
      Served.Ok envReq ⟨retErr, some e, called, msgOut⟩
  | silent (called : Option (ℕ × Bytes)) : Served.Ok envReq ⟨retOk, none, called, none⟩
  | answered (body : Body) (hbody : envReq.bodyOrFault = .body body) (called : Option (ℕ × Bytes))
      (msgOut : Bytes) (hout : msgOut.length < 2 ^ 30) :
      Served.Ok envReq ⟨retOk, none, called, some msgOut⟩

/- The callback that the request reaches puts out less than this, if anything. -/
def OutputBelow (funcs : List FuncEntry) (env : Envelope) : Prop :=
  ∀ body i entry out, env.bodyOrFault = .body body → funcIndex funcs body.type = some (i, entry) →
    (entry.funcCallback body.data).msgOut = some out → out.length < 2 ^ 30 - 4096

theorem serveEnvelope_ok {funcs : List FuncEntry} {env : Envelope} (hout : OutputBelow funcs env) :
    Served.Ok env (serveEnvelope funcs env) := by
  rcases serveEnvelope_cases funcs env with ⟨e, -, he⟩ | ⟨body, i, entry, hbody, hfound⟩
  · rw [he]
    exact .failed e none none
  · rcases hcall : entry.funcCallback body.data with ⟨ret, msgOut⟩
    rw [serveEnvelope_found hbody hfound hcall]
    by_cases hret : ret ≠ 0
    · rw [if_pos hret]
      exact .failed .serving _ _
    · rw [if_neg hret]
      cases msgOut with
      | none => exact .silent _
      | some out =>
        have hlt := hout body i entry out hbody hfound (by rw [hcall])
        exact .answered body hbody _ out (by omega)

/- What the response is to say. -/
def responseOf (envReq : Envelope) (served : Served) : BodyOrFault :=
  if served.ret = retOk then
    match served.msgOut, envReq.bodyOrFault with
    | some msgOut, .body body => .body ⟨body.type, msgOut⟩
    | _, _ => .nothing
  else .fault ⟨[1], served.errCode.map ErrCode.text⟩

/- Its bytes, where it has any. -/
def BodyOrFault.response : BodyOrFault → Option Bytes
  | .nothing => none
  | bof => some (Envelope.der ⟨⟨none⟩, bof⟩)

theorem response_of_below {bof : BodyOrFault} (h : bof.Below (2 ^ 31)) :
    bof.response = some (Envelope.der ⟨⟨none⟩, bof⟩) := by
  cases bof with
  | nothing => exact absurd h id
  | body b => rfl
  | fault f => rfl

theorem faultResponse_eq {errCode : Bytes} (h : errCode.length < 256) :
    (BodyOrFault.fault ⟨[1], some errCode⟩).Below (2 ^ 31) ∧
      faultResponse errCode = some (⟨⟨none⟩, .fault ⟨[1], some errCode⟩⟩,
        (BodyOrFault.fault ⟨[1], some errCode⟩).size) := by
  have hcode : asnLong2INTEGER codeReceiver = [1] := by decide +kernel
  constructor
  · have hone : ([1] : Bytes).length < 2 ^ 31 := by decide
    have hstrip : integerStrip [1] = [1] := rfl
    refine ⟨hone, hstrip, ?_⟩
    intro reason hreason
    cases hreason
    exact lt_trans h (by norm_num)
  · simp only [faultResponse, hcode,
      octetStringFromBuf_all (show errCode.length + 1 < 2 ^ 31 by omega), Option.bind_eq_bind,
      Option.bind_some, BodyOrFault.size]

theorem responseFault_eq (e : ErrCode) :
    (BodyOrFault.fault ⟨[1], some e.text⟩).Below (2 ^ 31) ∧
      responseFault (some e) = some (⟨⟨none⟩, .fault ⟨[1], some e.text⟩⟩,
        (BodyOrFault.fault ⟨[1], some e.text⟩).size) :=
  faultResponse_eq e.text_length

theorem responseBody_eq {env : Envelope} {body : Body} (hbody : env.bodyOrFault = .body body)
    (htype : body.type.length < 2 ^ 30) {msgOut : Bytes} (hout : msgOut.length < 2 ^ 30) :
    responseBody env msgOut = some (⟨⟨none⟩, .body ⟨body.type, msgOut⟩⟩,
      (BodyOrFault.body ⟨body.type, msgOut⟩).size) := by
  have hsum := addSizes_iff.mpr
    ⟨show msgOut.length + body.type.length < 2 ^ 31 by omega, rfl⟩
  have hdata := octetStringField_all (show msgOut.length + 1 < 2 ^ 31 by omega)
  have htype' := octetStringField_all (show body.type.length + 1 < 2 ^ 31 by omega)
  simp only [responseBody, hbody, htype', hdata, Option.bind_eq_bind, Option.bind_some, hsum,
    BodyOrFault.size]

theorem retOk_ne_retErr : retErr ≠ retOk := by decide

/-- The envelope that is built says what the response is to say. -/
theorem buildResponse_eq {env : Envelope} {served : Served} (h : served.Ok env)
    (hbelow : env.bodyOrFault.BodyBelow) :
    (responseOf env served = .nothing ∧ buildResponse env served = some (emptyEnvelope, 0)) ∨
      ((responseOf env served).Below (2 ^ 31) ∧
        buildResponse env served =
          some (⟨⟨none⟩, responseOf env served⟩, (responseOf env served).size)) := by
  cases h with
  | failed e called msgOut =>
    right
    have hresp : responseOf env ⟨retErr, some e, called, msgOut⟩ =
        .fault ⟨[1], some e.text⟩ := by
      simp only [responseOf, if_neg retOk_ne_retErr, Option.map_some]
    obtain ⟨hfault, heq⟩ := responseFault_eq e
    rw [hresp]
    refine ⟨hfault, ?_⟩
    cases msgOut with
    | none => simp only [buildResponse, if_true, heq]
    | some out => simp only [buildResponse, if_neg retOk_ne_retErr, if_true, heq]
  | silent called =>
    left
    exact ⟨rfl, rfl⟩
  | answered body hbody called msgOut hout =>
    right
    have hshort := hbelow body hbody
    have hresp : responseOf env ⟨retOk, none, called, some msgOut⟩ =
        .body ⟨body.type, msgOut⟩ := by
      simp only [responseOf, if_true, hbody]
    have htype := hshort.type
    have hlt : (2 : ℕ) ^ 30 ≤ 2 ^ 31 := by norm_num
    rw [hresp]
    refine ⟨⟨lt_of_lt_of_le htype hlt, lt_of_lt_of_le hout hlt⟩, ?_⟩
    simp only [buildResponse, if_true, responseBody_eq hbody htype hout]

theorem encodeResponse_eq {env : Envelope} {served : Served} (h : served.Ok env)
    (hbelow : env.bodyOrFault.BodyBelow) :
    encodeResponse env served = some (responseOf env served).response := by
  rcases buildResponse_eq h hbelow with ⟨hnothing, hbuild⟩ | ⟨hresp, hbuild⟩
  · rw [hnothing]
    have hnone := envelope_nothing ⟨none⟩ (0 + 1024)
    simp only [BodyOrFault.response, encodeResponse, hbuild, Option.bind_eq_bind,
      Option.bind_some]
    rw [emptyEnvelope, hnone]
  · rw [response_of_below hresp]
    generalize responseOf env served = bof at hresp hbuild
    have hpos : ¬ (Envelope.der ⟨⟨none⟩, bof⟩).length ≤ 0 :=
      not_le.mpr (envelope_der_pos ⟨⟨none⟩, bof⟩)
    simp only [encodeResponse, hbuild, Option.bind_eq_bind, Option.bind_some,
      response_encodes hresp, if_neg hpos, List.take_length]

theorem responseBody_below {env envResp : Envelope} {msgOut : Bytes} {size : ℕ}
    (h : responseBody env msgOut = some (envResp, size)) :
    ∃ bof, envResp = ⟨⟨none⟩, bof⟩ ∧ bof.Below (2 ^ 31) ∧ size < 2 ^ 32 - 1024 := by
  unfold responseBody at h
  rcases hbof : env.bodyOrFault with _ | body | fault
  · rw [hbof] at h
    cases h
  · simp only [hbof] at h
    obtain ⟨type, htype, h⟩ := Option.bind_eq_some_iff.mp h
    obtain ⟨data, hdata, h⟩ := Option.bind_eq_some_iff.mp h
    obtain ⟨n, hn, h⟩ := Option.bind_eq_some_iff.mp h
    cases h
    have hbelow : Body.Below (2 ^ 31) ⟨type, data⟩ :=
      ⟨Nat.lt_of_succ_lt (octetStringField_length htype),
        Nat.lt_of_succ_lt (octetStringField_length hdata)⟩
    refine ⟨.body ⟨type, data⟩, rfl, hbelow, ?_⟩
    obtain ⟨hfit, rfl⟩ := addSizes_iff.mp hn
    omega
  · rw [hbof] at h
    cases h

theorem faultResponse_below {errCode : Bytes} {envResp : Envelope} {size : ℕ}
    (h : faultResponse errCode = some (envResp, size)) :
    ∃ bof, envResp = ⟨⟨none⟩, bof⟩ ∧ bof.Below (2 ^ 31) ∧ size < 2 ^ 32 - 1024 := by
  have hcode : asnLong2INTEGER codeReceiver = [1] := by decide +kernel
  have hone : ([1] : Bytes).length < 2 ^ 31 := by decide
  unfold faultResponse at h
  obtain ⟨reason, hreason, h⟩ := Option.bind_eq_some_iff.mp h
  have hlen : ∀ r, reason = some r → r.length + 1 < 2 ^ 31 := by
    intro r hr
    rw [hr] at hreason
    exact octetStringFromBuf_length hreason
  rw [hcode] at h
  cases h
  refine ⟨.fault ⟨[1], reason⟩, rfl, ⟨hone, rfl, ?_⟩, ?_⟩
  · intro r hr
    exact Nat.lt_of_succ_lt (hlen r hr)
  · rw [List.length_singleton]
    cases reason with
    | none => exact show 1 + ([] : Bytes).length < 2 ^ 32 - 1024 by norm_num
    | some r =>
      have hr := hlen r rfl
      rw [Option.getD_some]
      omega

theorem buildResponse_below {env envResp : Envelope} {served : Served} {size : ℕ}
    (h : buildResponse env served = some (envResp, size)) :
    envResp = emptyEnvelope ∨
      ∃ bof, envResp = ⟨⟨none⟩, bof⟩ ∧ bof.Below (2 ^ 31) ∧ size < 2 ^ 32 - 1024 := by
  unfold buildResponse at h
  rcases hmsg : served.msgOut with _ | msgOut
  · rw [hmsg] at h
    dsimp only at h
    by_cases herr : served.ret = retErr
    · rw [if_pos herr] at h
      exact Or.inr (faultResponse_below h)
    · rw [if_neg herr] at h
      cases h
      exact Or.inl rfl
  · rw [hmsg] at h
    dsimp only at h
    by_cases hok : served.ret = retOk
    · rw [if_pos hok] at h
      exact Or.inr (responseBody_below h)
    · rw [if_neg hok] at h
      by_cases herr : served.ret = retErr
      · rw [if_pos herr] at h
        exact Or.inr (faultResponse_below h)
      · rw [if_neg herr] at h
        cases h
        exact Or.inl rfl

/-- Whatever is encoded as a response fits the length field of a frame. -/
theorem encodeResponse_length {env : Envelope} {served : Served} {stream : Bytes}
    (h : encodeResponse env served = some (some stream)) : stream.length < 2 ^ 32 := by
  unfold encodeResponse at h
  obtain ⟨⟨envResp, size⟩, hbuild, h⟩ := Option.bind_eq_some_iff.mp h
  rcases buildResponse_below hbuild with rfl | ⟨bof, rfl, hbelow, hsize⟩
  · simp only [emptyEnvelope, envelope_nothing] at h
    cases h
  · simp only [derEncodeToBuffer_eq (headless_encodes hbelow)] at h
    by_cases hfit : (Envelope.der ⟨⟨none⟩, bof⟩).length ≤ size + 1024
    · have hpos : ¬ (Envelope.der ⟨⟨none⟩, bof⟩).length ≤ 0 :=
        not_le.mpr (envelope_der_pos ⟨⟨none⟩, bof⟩)
      simp only [if_pos hfit, if_neg hpos, Option.some.injEq] at h
      rw [← h, List.take_length]
      omega
    · simp only [if_neg hfit] at h
      cases h

/-- Sending hands over the response, where there is one. -/
theorem sendResponse_eq (M : Machine κ) {ctx : FwsCtx} {env : Envelope} {served : Served}
    {response : Option Bytes} (hopen : ctx.clientConn.socket ≠ 0)
    (henc : encodeResponse env served = some response) (k : κ) :
    ∃ ret k', sendResponse M ctx env served k = some ⟨ret, served, response.toList, ctx, k'⟩ ∧
      match response with
      | none => ret = retErr ∧ k' = k
      | some stream => ret = served.ret ∧
        serverSendMsg M (messageSetStream messageCreate stream) ctx.clientConn k =
          some (0, k') := by
  cases response with
  | none =>
    refine ⟨retErr, k, ?_, rfl, rfl⟩
    simp only [sendResponse, if_pos hopen, henc, Option.bind_eq_bind, Option.bind_some,
      Option.toList_none]
  | some stream =>
    obtain ⟨k', hsend⟩ := serverSendMsg_set (M := M) ctx.clientConn stream k
    refine ⟨served.ret, k', ?_, rfl, hsend⟩
    simp only [sendResponse, if_pos hopen, henc, Option.bind_eq_bind, Option.bind_some, hsend,
      ne_eq, not_true_eq_false, if_false, Option.toList_some]

theorem fwsServerServe_received {M : Machine κ} {ctx : FwsCtx} {server : Server} {k k' : κ}
    {msgIn : Bytes} (hopen : ctx.clientConn.socket ≠ 0)
    (hpeer : ctx.peer = .server (some server))
    (hrecv : connectionRecv M ctx.clientConn k =
      (some (messageSetStream messageCreate msgIn), k')) :
    fwsServerServe M ctx k =
      (serveRequest ctx.funcList msgIn).bind fun p => sendResponse M ctx p.1 p.2 k' := by
  have hctx : (⟨.server (some server), ctx.funcList, ctx.clientConn⟩ : FwsCtx) = ctx := by
    rw [← hpeer]
  simp only [fwsServerServe, if_neg hopen, hpeer, serverRecvMsg, hrecv, Option.bind_eq_bind,
    Option.bind_some, messageGetStream_set, hctx]

/-- Where nothing is received the connection is closed and nothing is sent. -/
theorem fwsServerServe_closed {M : Machine κ} {ctx : FwsCtx} {server server' : Server}
    {k k₁ k₂ : κ} (hopen : ctx.clientConn.socket ≠ 0) (hpeer : ctx.peer = .server (some server))
    (hrecv : connectionRecv M ctx.clientConn k = (none, k₁))
    (hclose : serverCloseConnection M server ctx.clientConn k₁ = some (server', ⟨0, none⟩, k₂)) :
    fwsServerServe M ctx k = some ⟨retErr, ⟨retErr, some .receiving, none, none⟩, [],
      { ctx with peer := .server (some server'), clientConn := ⟨0, none⟩ }, k₂⟩ := by
  have hzero : ¬ (0 : ℤ) ≠ 0 := fun h => h rfl
  have hmsg : serverRecvMsg M server ctx.clientConn k = some (none, server', ⟨0, none⟩, k₂) := by
    simp only [serverRecvMsg, hrecv, hclose, Option.bind_eq_bind, Option.bind_some]
  have hsilent : ∀ served : Served, sendResponse M
      { ctx with peer := .server (some server'), clientConn := ⟨0, none⟩ } emptyEnvelope served k₂ =
      some ⟨retErr, served, [],
        { ctx with peer := .server (some server'), clientConn := ⟨0, none⟩ }, k₂⟩ := by
    intro served
    simp only [sendResponse, if_neg hzero]
  unfold fwsServerServe
  rw [if_neg hopen, hpeer]
  dsimp only
  rw [Option.bind_eq_bind, Option.bind_some, hmsg, Option.bind_eq_bind, Option.bind_some]
  exact hsilent _

/-- The response to a request that was received; nothing for one without an encoding. -/
def respond (funcs : List FuncEntry) (msgIn : Bytes) : Option Bytes := do
  let (envReq, served) ← serveRequest funcs msgIn
  let response ← encodeResponse envReq served
  response

theorem respond_eq {funcs : List FuncEntry} {msgIn : Bytes} {env : Envelope} {served : Served}
    {response : Option Bytes} (hserve : serveRequest funcs msgIn = some (env, served))
    (henc : encodeResponse env served = some response) : respond funcs msgIn = response := by
  simp only [respond, hserve, henc, Option.bind_eq_bind, Option.bind_some]

/-- A serve that ends has received, called and encoded. -/
theorem fwsServerServe_some {M : Machine κ} {ctx : FwsCtx} {server : Server} {k k' : κ}
    {msgIn : Bytes} {r : Serve κ} (hopen : ctx.clientConn.socket ≠ 0)
    (hpeer : ctx.peer = .server (some server))
    (hrecv : connectionRecv M ctx.clientConn k =
      (some (messageSetStream messageCreate msgIn), k'))
    (h : fwsServerServe M ctx k = some r) :
    ∃ env served, serveRequest ctx.funcList msgIn = some (env, served) ∧
      encodeResponse env served = some (respond ctx.funcList msgIn) ∧ r.ctx = ctx ∧
      r.served = served ∧ r.sent = (respond ctx.funcList msgIn).toList ∧
      match respond ctx.funcList msgIn with
      | none => r.k = k'
      | some stream =>
        serverSendMsg M (messageSetStream messageCreate stream) ctx.clientConn k' =
          some (0, r.k) := by
  rw [fwsServerServe_received hopen hpeer hrecv] at h
  obtain ⟨⟨env, served⟩, hserve, h⟩ := Option.bind_eq_some_iff.mp h
  rcases henc : encodeResponse env served with _ | response
  · simp only [sendResponse, if_pos hopen, henc, Option.bind_eq_bind, Option.bind_none] at h
    cases h
  · have hrespond := respond_eq hserve henc
    obtain ⟨ret, k'', hsend, hres⟩ := sendResponse_eq M hopen henc k'
    rw [hsend] at h
    obtain rfl := Option.some.inj h
    rw [hrespond]
    refine ⟨env, served, hserve, henc, rfl, rfl, rfl, ?_⟩
    cases response with
    | none => exact hres.2
    | some stream => exact hres.2

/-! ### One response for each request -/

/- The test on `r.consumed` is one on the outermost header. -/
def servedOf (funcs : List FuncEntry) (msgIn : Bytes) (env : Envelope) : Served :=
  if headAccepted msgIn then serveEnvelope funcs env else ⟨retErr, some .decoding, none, none⟩

theorem serveRequest_eq (funcs : List FuncEntry) {msgIn : Bytes} {r : DecRval} {env : Envelope}
    (hdec : berDecodeEnvelope msgIn = some (r, env)) :
    serveRequest funcs msgIn = some (env, servedOf funcs msgIn env) := by
  have hzero := berDecodeEnvelope_consumed hdec
  by_cases hhead : headAccepted msgIn
  · have hconsumed : ¬ r.consumed ≤ 0 := by
      intro hle
      exact hzero.mp (Nat.le_zero.mp hle) hhead
    simp only [serveRequest, hdec, Option.bind_eq_bind, Option.bind_some, if_neg hconsumed,
      servedOf, if_pos hhead]
  · have hconsumed : r.consumed ≤ 0 := le_of_eq (hzero.mpr hhead)
    simp only [serveRequest, hdec, Option.bind_eq_bind, Option.bind_some, if_pos hconsumed,
      servedOf, if_neg hhead]

theorem responseOf_failed (env : Envelope) (err : Option ErrCode) (called : Option (ℕ × Bytes))
    (msgOut : Option Bytes) :
    (responseOf env ⟨retErr, err, called, msgOut⟩).response ≠ none := by
  simp only [responseOf, if_neg retOk_ne_retErr, BodyOrFault.response, ne_eq, reduceCtorEq,
    not_false_eq_true]

/- The callback that the request reaches reports success without output. -/
def SilentCall (funcs : List FuncEntry) (env : Envelope) : Prop :=
  ∃ body i entry, env.bodyOrFault = .body body ∧ funcIndex funcs body.type = some (i, entry) ∧
    entry.funcCallback body.data = ⟨0, none⟩

theorem serveEnvelope_silent_iff (funcs : List FuncEntry) (env : Envelope) :
    (responseOf env (serveEnvelope funcs env)).response = none ↔ SilentCall funcs env := by
  rcases serveEnvelope_cases funcs env with ⟨e, -, he⟩ | ⟨body, i, entry, hbody, hfound⟩
  · constructor
    · intro h
      rw [he] at h
      exact absurd h (responseOf_failed _ _ _ _)
    · intro hsilent
      obtain ⟨body, i, entry, hbody, hfound, hcall⟩ := hsilent
      have hserved := serveEnvelope_found hbody hfound hcall
      rw [he, if_neg (not_not.mpr rfl)] at hserved
      cases hserved
  · have honly : SilentCall funcs env ↔ entry.funcCallback body.data = ⟨0, none⟩ := by
      simp [SilentCall, hbody, hfound]
    rw [honly]
    rcases hcall : entry.funcCallback body.data with ⟨ret, msgOut⟩
    rw [serveEnvelope_found hbody hfound hcall]
    by_cases hret : ret = 0
    · rw [if_neg (not_not.mpr hret)]
      cases msgOut with
      | none => simp [responseOf, BodyOrFault.response, hret]
      | some out => simp [responseOf, BodyOrFault.response, hbody]
    · rw [if_pos hret]
      simp [responseOf_failed, hret]

theorem servedOf_silent_iff (funcs : List FuncEntry) (msgIn : Bytes) (env : Envelope) :
    (responseOf env (servedOf funcs msgIn env)).response = none ↔
      headAccepted msgIn ∧ SilentCall funcs env := by
  unfold servedOf
  by_cases hhead : headAccepted msgIn
  · rw [if_pos hhead, serveEnvelope_silent_iff]
    simp [hhead]
  · rw [if_neg hhead]
    simp [hhead, responseOf_failed]

theorem servedOf_ok {funcs : List FuncEntry} {msgIn : Bytes} {env : Envelope}
    (hout : headAccepted msgIn → OutputBelow funcs env) :
    Served.Ok env (servedOf funcs msgIn env) := by
  unfold servedOf
  by_cases hhead : headAccepted msgIn
  · rw [if_pos hhead]
    exact serveEnvelope_ok (hout hhead)
  · rw [if_neg hhead]
    exact .failed .decoding none none

/-- A received frame is answered once, unless its decoding does not end or its
callback is silent; then it is not answered. -/
theorem one_response_iff (M : Machine κ) (ctx : FwsCtx) {server : Server} (k : κ)
    {message : Message} {msgIn : Bytes} (hopen : ctx.clientConn.socket ≠ 0)
    (hpeer : ctx.peer = .server (some server))
    (hframe : (connectionRecv M ctx.clientConn k).1 = some message)
    (hmsg : messageGetStream message = some msgIn)
    (hout : ∀ r env, berDecodeEnvelope msgIn = some (r, env) → headAccepted msgIn →
      OutputBelow ctx.funcList env) :
    (∃ r, fwsServerServe M ctx k = some r ∧ r.sent.length = 1) ↔
      ∃ r env, berDecodeEnvelope msgIn = some (r, env) ∧
        ¬ (headAccepted msgIn ∧ SilentCall ctx.funcList env) := by
  rcases hrecv : connectionRecv M ctx.clientConn k with ⟨m, k'⟩
  rw [hrecv] at hframe
  dsimp only at hframe
  subst hframe
  obtain ⟨bs, rfl, hlt⟩ := connectionRecv_some hrecv
  rw [messageGetStream_set] at hmsg
  cases hmsg
  rw [fwsServerServe_received hopen hpeer hrecv]
  rcases hdec : berDecodeEnvelope msgIn with _ | ⟨r, env⟩
  · have hnone : serveRequest ctx.funcList msgIn = none := by
      simp only [serveRequest, hdec, Option.bind_eq_bind, Option.bind_none]
    simp [hnone]
  · have hserve := serveRequest_eq ctx.funcList hdec
    have hok := servedOf_ok (hout r env hdec)
    have henc := encodeResponse_eq hok (berDecodeEnvelope_below hlt hdec)
    obtain ⟨ret, k'', hsend, -⟩ := sendResponse_eq M hopen henc k'
    have hsilent := servedOf_silent_iff ctx.funcList msgIn env
    rw [hserve, Option.bind_some, hsend]
    rcases hresp : (responseOf env (servedOf ctx.funcList msgIn env)).response with _ | stream
    · simp [hsilent.mp hresp]
    · have hloud : ¬ (headAccepted msgIn ∧ SilentCall ctx.funcList env) := by
        rw [← hsilent, hresp]
        exact Option.some_ne_none stream
      constructor
      · intro h
        exact ⟨r, env, rfl, hloud⟩
      · intro h
        exact ⟨_, rfl, rfl⟩

/- A server that has accepted a connection. -/
def serving (funcList : List FuncEntry) : FwsCtx :=
  ⟨.server (some ⟨3, 1, {3, 4}, vectorInit Connection 0⟩), funcList, ⟨4, some 0⟩⟩

def replying (r : CallbackResult) : FuncEntry := ⟨testMessageEntry.funcIdentifier, fun _ => r⟩

def requestLine : Line := ⟨frame (bodyEnvelope (ascii "TestMessage") [7]).der, []⟩

def hostMachine : Machine Line := lineMachine .little fun _ _ => 0

/- The sample's callback hands out what it is given. -/
theorem testMessageEntry_output {env : Envelope}
    (h : ∀ body, env.bodyOrFault = .body body → body.data.length < 2 ^ 30 - 4096) :
    OutputBelow [testMessageEntry] env := by
  intro body i entry out hbody hfound hmsg
  have hentry := List.mem_of_getElem? (funcIndex_some hfound).2.1
  rw [List.mem_singleton.mp hentry] at hmsg
  cases hmsg
  exact h body hbody

theorem one_response_test_message :
    (∃ r, fwsServerServe hostMachine (serving [testMessageEntry]) requestLine = some r ∧
        r.sent.length = 1) ↔
      ∃ r env, berDecodeEnvelope (bodyEnvelope (ascii "TestMessage") [7]).der = some (r, env) ∧
        ¬ (headAccepted (bodyEnvelope (ascii "TestMessage") [7]).der ∧
          SilentCall [testMessageEntry] env) := by
  have hopen : (serving [testMessageEntry]).clientConn.socket ≠ 0 := by decide
  have hframe : (connectionRecv hostMachine ⟨4, some 0⟩ requestLine).1 =
      some (messageSetStream messageCreate (bodyEnvelope (ascii "TestMessage") [7]).der) := by
    decide +kernel
  have hdec : berDecodeEnvelope (bodyEnvelope (ascii "TestMessage") [7]).der =
      some (⟨.rcOk, 24⟩, bodyEnvelope (ascii "TestMessage") [7]) := by decide +kernel
  have hout : ∀ r env, berDecodeEnvelope (bodyEnvelope (ascii "TestMessage") [7]).der =
      some (r, env) → headAccepted (bodyEnvelope (ascii "TestMessage") [7]).der →
      OutputBelow [testMessageEntry] env := by
    intro r env hd _
    rw [hdec] at hd
    cases hd
    apply testMessageEntry_output
    intro body hbody
    cases hbody
    decide
  exact one_response_iff hostMachine (serving [testMessageEntry]) requestLine hopen rfl hframe
    (messageGetStream_set _ _) hout

/- A callback that reports success and leaves its output unset. -/
theorem silent_callback_is_not_answered :
    ¬ ∃ r, fwsServerServe hostMachine (serving [replying ⟨0, none⟩]) requestLine = some r ∧
      r.sent.length = 1 := by
  have hsent : (fwsServerServe hostMachine (serving [replying ⟨0, none⟩]) requestLine).map
      Serve.sent = some [] := by
    decide +kernel
  intro hanswered
  obtain ⟨r, hr, hone⟩ := hanswered
  rw [hr, Option.map_some] at hsent
  rw [Option.some.inj hsent] at hone
  cases hone

end Fws
