import Fws.Service.Exchange
import Fws.Service.ResponseBuffer

/-!
# The size of a payload (fws/fws.c)

A payload comes with a size that is an `unsigned long`, and goes through an
`int` on its way into the envelope. The client's and the server's sizes are
narrowed in the same way and summed up differently.
-/

namespace Fws
open Base.Digits

def Envelope.Holds (env : Envelope) (payload : Bytes) : Prop :=
  ∃ type, env.bodyOrFault = .body ⟨type, payload⟩

/-! ### Requests -/

/- The envelope is built with the payload, and the size of the buffer does not
overflow; or no envelope is built and the call reports the failure. -/
def RequestKeepsPayload {κ : Type} (M : Machine κ) (ctx : FwsCtx) (messageType : CString)
    (inMsg : Bytes) (k : κ) : Prop :=
  (∃ envReq msgMaxsize, buildRequest messageType inMsg = some envReq ∧ envReq.Holds inMsg ∧
    addSizes (requestDataSize envReq) 1024 = some msgMaxsize) ∨
  (buildRequest messageType inMsg = none ∧
    ∃ called, fwsClientCall M ctx messageType inMsg k = some called ∧ called.ret = retErr)

/- The type is measured with `strlen`, whose result is narrowed as well. Below
`-1` the type is left empty; `-1` asks for a block of no bytes, and the size of
the block for the largest `int` is none. -/
def TypeFits (messageType : CString) : Prop :=
  cInt messageType.strlen ≠ -1 ∧ cInt messageType.strlen ≠ 2 ^ 31 - 1

/-- What becomes of a length that is given. -/
theorem octetStringFromBuf_some_iff {str : Bytes} {len n : ℤ}
    (hlen : fromBufLength str len = some n) (hle : 0 ≤ n → n ≤ str.length) :
    (∃ st, octetStringFromBuf str len = some st) ↔ n ≠ -1 ∧ n < 2 ^ 31 - 1 := by
  rw [octetStringFromBuf, hlen, Option.bind_eq_bind, Option.bind_some]
  by_cases hneg : n + 1 < 0
  · rw [if_pos hneg]
    exact iff_of_true ⟨none, rfl⟩ ⟨by omega, by omega⟩
  · rw [if_neg hneg]
    constructor
    · intro h
      obtain ⟨st, h⟩ := h
      obtain ⟨hfit, -⟩ := Option.ite_none_right_eq_some.mp h
      exact ⟨by omega, by omega⟩
    · intro h
      have hpos : 0 ≤ n := by omega
      exact ⟨_, if_pos ⟨hpos, by omega, hle hpos⟩⟩

theorem requestType_some_iff (s : CString) :
    (∃ type, octetStringField (s.text ++ [0]) (-1) = some type) ↔ TypeFits s := by
  have hlen : s.text.length = s.strlen := s.read_length s.strlen
  have hle : 0 ≤ cInt s.strlen → cInt s.strlen ≤ (s.text ++ [0]).length := by
    intro hpos
    have hlow := cInt_le_natCast hpos
    rw [List.length_append, hlen]
    omega
  have hhigh := (cInt_range s.strlen).2
  have hfield : (∃ type, octetStringField (s.text ++ [0]) (-1) = some type) ↔
      ∃ st, octetStringFromBuf (s.text ++ [0]) (-1) = some st := by
    simp only [octetStringField, Option.map_eq_some_iff]
    constructor
    · intro h
      obtain ⟨_, st, h, -⟩ := h
      exact ⟨st, h⟩
    · intro h
      obtain ⟨st, h⟩ := h
      exact ⟨_, st, h, rfl⟩
  rw [hfield, octetStringFromBuf_some_iff (requestType_measured s) hle, TypeFits]
  generalize cInt s.strlen = n at hhigh
  constructor
  · intro h
    exact ⟨h.1, by omega⟩
  · intro h
    exact ⟨h.1, by omega⟩

theorem request_keeps_payload_iff {κ : Type} (M : Machine κ) {ctx : FwsCtx} {client : Client}
    (hpeer : ctx.peer = .client (some client)) (messageType : CString) (inMsg : Bytes) (k : κ) :
    RequestKeepsPayload M ctx messageType inMsg k ↔
      TypeFits messageType ∧ inMsg.length + 1024 < 2 ^ 31 := by
  rw [← requestType_some_iff]
  constructor
  · intro h
    rcases h with ⟨envReq, msgMaxsize, hbuild, ⟨type, hholds⟩, hsize⟩ | ⟨hnone, called, hcall, -⟩
    · obtain ⟨type', data, htype, hdata, rfl⟩ := buildRequest_iff.mp hbuild
      obtain ⟨-, rfl⟩ := Body.mk.inj (BodyOrFault.body.inj hholds)
      exact ⟨⟨type', htype⟩, (addSizes_iff.mp hsize).1⟩
    -- where no envelope is built, the call has no result
    · simp only [fwsClientCall, hpeer, hnone, Option.bind_eq_bind, Option.bind_none] at hcall
      cases hcall
  · intro h
    obtain ⟨⟨type, htype⟩, hlen⟩ := h
    have hdata := octetStringField_all (show inMsg.length + 1 < 2 ^ 31 by omega)
    have hbuild := buildRequest_iff.mpr ⟨type, inMsg, htype, hdata, rfl⟩
    exact Or.inl ⟨_, _, hbuild, ⟨type, rfl⟩, addSizes_iff.mpr ⟨hlen, rfl⟩⟩

/-! ### Responses -/

/- The envelope is built with the output of the callback, or it is a fault and
the failure is reported. -/
def ResponseKeepsPayload (envReq : Envelope) (served : Served) (msgOut : Bytes) : Prop :=
  ∃ envResp msgMaxsize, buildResponse envReq served = some (envResp, msgMaxsize) ∧
    (envResp.Holds msgOut ∨
      (served.ret = retErr ∧ ∃ fault, envResp.bodyOrFault = .fault fault))

theorem responseBody_holds_iff {envReq : Envelope} {body : Body}
    (hbody : envReq.bodyOrFault = .body body) (htype : body.type.length < 2 ^ 30)
    (msgOut : Bytes) :
    (∃ envResp msgMaxsize, responseBody envReq msgOut = some (envResp, msgMaxsize) ∧
        envResp.Holds msgOut) ↔
      msgOut.length + 1 < 2 ^ 31 ∧ msgOut.length + body.type.length < 2 ^ 31 := by
  have htype' := octetStringField_all (show body.type.length + 1 < 2 ^ 31 by omega)
  have hbuilt : responseBody envReq msgOut =
      (octetStringField msgOut (cInt msgOut.length)).bind fun data =>
        (addSizes data.length body.type.length).bind fun msgMaxsize =>
          some (⟨⟨none⟩, .body ⟨body.type, data⟩⟩, msgMaxsize) := by
    rw [responseBody, hbody]
    dsimp only
    rw [htype', Option.bind_eq_bind, Option.bind_some]
    simp only [Option.bind_eq_bind]
  rw [hbuilt]
  constructor
  · intro h
    obtain ⟨envResp, msgMaxsize, hbuild, type, hholds⟩ := h
    obtain ⟨data, hdata, hbuild⟩ := Option.bind_eq_some_iff.mp hbuild
    obtain ⟨size, hsize, hbuild⟩ := Option.bind_eq_some_iff.mp hbuild
    obtain ⟨rfl, -⟩ := Prod.mk.inj (Option.some.inj hbuild)
    obtain ⟨-, rfl⟩ := Body.mk.inj (BodyOrFault.body.inj hholds)
    exact ⟨octetStringField_length hdata, (addSizes_iff.mp hsize).1⟩
  · intro h
    obtain ⟨hint, hsum⟩ := h
    have hdata := octetStringField_all hint
    have hsize := addSizes_iff.mpr ⟨hsum, rfl⟩
    refine ⟨bodyEnvelope body.type msgOut, msgOut.length + body.type.length, ?_, body.type, rfl⟩
    rw [hdata, Option.bind_some, hsize, Option.bind_some]
    rfl

theorem response_keeps_payload_iff {funcs : List FuncEntry} {msgIn : Bytes}
    (hmsg : msgIn.length < 2 ^ 32) {envReq : Envelope} {served : Served}
    (h : serveRequest funcs msgIn = some (envReq, served)) {body : Body}
    (hbody : envReq.bodyOrFault = .body body) {msgOut : Bytes}
    (hout : served.msgOut = some msgOut) :
    ResponseKeepsPayload envReq served msgOut ↔
      served.ret = retErr ∨
        (msgOut.length + 1 < 2 ^ 31 ∧ msgOut.length + body.type.length < 2 ^ 31) := by
  have htype : body.type.length < 2 ^ 30 := by
    obtain ⟨⟨r, hdec⟩, -⟩ := serveRequest_some h
    exact (berDecodeEnvelope_below hmsg hdec body hbody).type
  rcases serveRequest_answer h with herr | ⟨hok, -⟩
  · refine iff_of_true ?_ (Or.inl herr)
    obtain ⟨-, hfault⟩ := faultResponse_eq (ErrCode.texts_length served.errCode)
    have hbuild : buildResponse envReq served = responseFault served.errCode := by
      simp only [buildResponse, hout, herr, if_neg retOk_ne_retErr, if_true]
    rw [ResponseKeepsPayload, hbuild, responseFault, hfault]
    exact ⟨_, _, rfl, Or.inr ⟨herr, _, rfl⟩⟩
  · have hbuild : buildResponse envReq served = responseBody envReq msgOut := by
      simp only [buildResponse, hout, hok, if_true]
    have hne : served.ret ≠ retErr := by
      rw [hok]
      exact retOk_ne_retErr.symm
    rw [or_iff_right hne, ← responseBody_holds_iff hbody htype]
    simp only [ResponseKeepsPayload, hbuild, hne, false_and, or_false]

/-- Payloads are kept on both sides exactly where their sizes, with what they are
added to, are in the range of `int`, or the callback itself has failed. -/
theorem payload_kept_iff {κ : Type} (M : Machine κ) :
    (∀ (ctx : FwsCtx) (client : Client) (messageType : CString) (inMsg : Bytes) (k : κ),
      ctx.peer = .client (some client) →
      (RequestKeepsPayload M ctx messageType inMsg k ↔
        TypeFits messageType ∧ inMsg.length + 1024 < 2 ^ 31)) ∧
    ∀ (funcs : List FuncEntry) (msgIn : Bytes) (envReq : Envelope) (served : Served) (body : Body)
      (msgOut : Bytes), msgIn.length < 2 ^ 32 → serveRequest funcs msgIn = some (envReq, served) →
      envReq.bodyOrFault = .body body → served.msgOut = some msgOut →
      (ResponseKeepsPayload envReq served msgOut ↔
        served.ret = retErr ∨
          (msgOut.length + 1 < 2 ^ 31 ∧ msgOut.length + body.type.length < 2 ^ 31)) := by
  refine ⟨?_, ?_⟩
  · intro ctx client messageType inMsg k hpeer
    exact request_keeps_payload_iff M hpeer messageType inMsg k
  · intro funcs msgIn envReq served body msgOut hmsg h hbody hout
    exact response_keeps_payload_iff hmsg h hbody hout

theorem payload_kept_test_message :
    (RequestKeepsPayload hostMachine calling testMessageEntry.funcIdentifier [7] truncatedLine ↔
      TypeFits testMessageEntry.funcIdentifier ∧ ([7] : Bytes).length + 1024 < 2 ^ 31) ∧
    (ResponseKeepsPayload (bodyEnvelope (ascii "TestMessage") [7])
        ⟨0, none, some (0, [7]), some [7]⟩ [7] ↔
      (0 : ℤ) = retErr ∨
        (([7] : Bytes).length + 1 < 2 ^ 31 ∧
          ([7] : Bytes).length + (ascii "TestMessage").length < 2 ^ 31)) := by
  have hmsg : (bodyEnvelope (ascii "TestMessage") [7]).der.length < 2 ^ 32 := by decide +kernel
  have hserve : serveRequest [testMessageEntry] (bodyEnvelope (ascii "TestMessage") [7]).der =
      some (bodyEnvelope (ascii "TestMessage") [7], ⟨0, none, some (0, [7]), some [7]⟩) := by
    decide +kernel
  obtain ⟨hrequest, hresponse⟩ := payload_kept_iff hostMachine
  exact ⟨hrequest calling ⟨⟨3, none⟩, 1⟩ testMessageEntry.funcIdentifier [7] truncatedLine rfl,
    hresponse _ _ _ _ ⟨ascii "TestMessage", [7]⟩ [7] hmsg hserve rfl rfl⟩

/- A payload of `2 ^ 32` bytes is sent as an empty one. -/
theorem large_payload_is_dropped :
    buildRequest testMessageEntry.funcIdentifier (List.replicate (2 ^ 32) 0) =
        buildRequest testMessageEntry.funcIdentifier [] ∧
      ¬ ∀ (messageType : CString) (inMsg : Bytes),
        RequestKeepsPayload hostMachine calling messageType inMsg truncatedLine := by
  have hlen : (List.replicate (2 ^ 32) (0 : Byte)).length = 2 ^ 32 := List.length_replicate
  have hzero : cInt ((2 ^ 32 : ℕ) : ℤ) = 0 := by decide
  have hmeasured : ∀ str : Bytes, fromBufLength str 0 = some ((0 : ℕ) : ℤ) := fun _ => rfl
  refine ⟨?_, ?_⟩
  · have hdata : octetStringField (List.replicate (2 ^ 32) 0) 0 = some [] :=
      (octetStringField_nat (hmeasured _)).mpr ⟨by norm_num, Nat.zero_le _, List.take_zero.symm⟩
    rw [buildRequest, hlen, hzero, hdata]
    rfl
  · intro h
    have hkept := (request_keeps_payload_iff hostMachine rfl _ _ _).mp
      (h testMessageEntry.funcIdentifier (List.replicate (2 ^ 32) 0))
    have hlt := hkept.2
    rw [hlen] at hlt
    norm_num at hlt

end Fws
