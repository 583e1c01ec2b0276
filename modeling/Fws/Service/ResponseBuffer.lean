import Fws.Service.Serve

/-!
# The buffer for a response (fws/fws.c)

`fws_server_serve` adds up the sizes of the strings of its response and makes
room for 1024 bytes more. These take the tags and lengths around a body or a
fault.
-/

namespace Fws
open Base.Digits Base.Tlv

/- The buffer is long enough for the encoding of the response, and the encoder
fills it with the encoding and returns its length. -/
def ResponseSuffices (built : Option (Envelope × ℕ)) : Prop :=
  ∃ envResp msgMaxsize encoding, built = some (envResp, msgMaxsize) ∧
    Encodes (envelopeEncodeDer envResp) encoding ∧ encoding.length ≤ msgMaxsize + 1024 ∧
    derEncodeToBuffer (envelopeEncodeDer envResp) (msgMaxsize + 1024) =
      some (encoding.length, encoding)

theorem responseSuffices_of_below {built : Option (Envelope × ℕ)} {bof : BodyOrFault}
    (h : bof.Below (2 ^ 31)) (hbuilt : built = some (⟨⟨none⟩, bof⟩, bof.size)) :
    ResponseSuffices built := by
  have hlen := envelope_der_length h
  exact ⟨⟨⟨none⟩, bof⟩, bof.size, Envelope.der ⟨⟨none⟩, bof⟩, hbuilt,
    headless_encodes h, by omega, response_encodes h⟩

theorem responseBody_suffices {envReq : Envelope} {body : Body} {msgOut : Bytes}
    (hbody : envReq.bodyOrFault = .body body)
    (hlen : body.type.length + msgOut.length < 2 ^ 30) :
    ResponseSuffices (responseBody envReq msgOut) := by
  have htype : body.type.length < 2 ^ 30 := by omega
  have hout : msgOut.length < 2 ^ 30 := by omega
  have hbelow : (BodyOrFault.body ⟨body.type, msgOut⟩).Below (2 ^ 31) :=
    ⟨lt_trans htype (by norm_num), lt_trans hout (by norm_num)⟩
  exact responseSuffices_of_below hbelow (responseBody_eq hbody htype hout)

theorem faultResponse_suffices {errCode : Bytes} (h : errCode.length < 256) :
    ResponseSuffices (faultResponse errCode) := by
  obtain ⟨hbelow, hbuilt⟩ := faultResponse_eq h
  exact responseSuffices_of_below hbelow hbuilt

/-- A request is answered with a failure, or with the output of a callback that
was called for a body. -/
theorem serveRequest_answer {funcs : List FuncEntry} {msgIn : Bytes} {envReq : Envelope}
    {served : Served} (h : serveRequest funcs msgIn = some (envReq, served)) :
    served.ret = retErr ∨ (served.ret = retOk ∧
      ∀ msgOut, served.msgOut = some msgOut → ∃ body, envReq.bodyOrFault = .body body) := by
  rcases (serveRequest_some h).2 with rfl | rfl
  · exact Or.inl rfl
  · rcases serveEnvelope_cases funcs envReq with ⟨e, -, he⟩ | ⟨body, i, entry, hbody, hfound⟩
    · rw [he]
      exact Or.inl rfl
    · rw [serveEnvelope_found hbody hfound rfl]
      by_cases hret : (entry.funcCallback body.data).ret ≠ 0
      · rw [if_pos hret]
        exact Or.inl rfl
      · rw [if_neg hret]
        exact Or.inr ⟨rfl, fun _ _ => ⟨body, hbody⟩⟩

theorem ErrCode.texts_length (errCode : Option ErrCode) :
    ((errCode.map ErrCode.text).getD []).length < 256 := by
  cases errCode with
  | none => decide
  | some e => exact e.text_length

theorem responseFault_suffices (errCode : Option ErrCode) :
    ResponseSuffices (responseFault errCode) :=
  faultResponse_suffices (ErrCode.texts_length errCode)

/-- What is built for a served request is empty, or it fits its buffer. -/
theorem buildResponse_suffices {funcs : List FuncEntry} {msgIn : Bytes} {envReq : Envelope}
    {served : Served} (h : serveRequest funcs msgIn = some (envReq, served))
    (hlen : ∀ body msgOut, envReq.bodyOrFault = .body body → served.msgOut = some msgOut →
      body.type.length + msgOut.length < 2 ^ 30) :
    buildResponse envReq served = some (emptyEnvelope, 0) ∨
      ResponseSuffices (buildResponse envReq served) := by
  unfold buildResponse
  rcases serveRequest_answer h with herr | ⟨hok, hanswer⟩
  · right
    rw [herr]
    rcases served.msgOut with _ | msgOut
    · dsimp only
      rw [if_pos rfl]
      exact responseFault_suffices served.errCode
    · dsimp only
      rw [if_neg retOk_ne_retErr, if_pos rfl]
      exact responseFault_suffices served.errCode
  · rw [hok]
    rcases hout : served.msgOut with _ | msgOut
    · left
      exact if_neg retOk_ne_retErr.symm
    · right
      obtain ⟨body, hbody⟩ := hanswer msgOut hout
      dsimp only
      rw [if_pos rfl]
      exact responseBody_suffices hbody (hlen body msgOut hbody hout)

/-- The buffer suffices for every body and every fault that the server builds,
and so for every response to a request that is not empty. -/
theorem response_buffer_suffices :
    (∀ (envReq : Envelope) (body : Body) (msgOut : Bytes), envReq.bodyOrFault = .body body →
      body.type.length + msgOut.length < 2 ^ 30 → ResponseSuffices (responseBody envReq msgOut)) ∧
    (∀ errCode : Bytes, errCode.length < 256 → ResponseSuffices (faultResponse errCode)) ∧
    ∀ (funcs : List FuncEntry) (msgIn : Bytes) (envReq : Envelope) (served : Served),
      serveRequest funcs msgIn = some (envReq, served) →
      (∀ body msgOut, envReq.bodyOrFault = .body body → served.msgOut = some msgOut →
        body.type.length + msgOut.length < 2 ^ 30) →
      buildResponse envReq served = some (emptyEnvelope, 0) ∨
        ResponseSuffices (buildResponse envReq served) := by
  refine ⟨?_, ?_, ?_⟩
  · intro envReq body msgOut hbody hlen
    exact responseBody_suffices hbody hlen
  · intro errCode h
    exact faultResponse_suffices h
  · intro funcs msgIn envReq served h hlen
    exact buildResponse_suffices h hlen

theorem response_buffer_suffices_short :
    ResponseSuffices (responseBody (bodyEnvelope [0x41] []) [7, 8]) ∧
      ResponseSuffices (faultResponse (ErrCode.text .noBody)) ∧
      (buildResponse (bodyEnvelope (ascii "TestMessage") [7]) ⟨0, none, some (0, [7]), some [7]⟩ =
          some (emptyEnvelope, 0) ∨
        ResponseSuffices (buildResponse (bodyEnvelope (ascii "TestMessage") [7])
          ⟨0, none, some (0, [7]), some [7]⟩)) := by
  have hserve : serveRequest [testMessageEntry] (bodyEnvelope (ascii "TestMessage") [7]).der =
      some (bodyEnvelope (ascii "TestMessage") [7], ⟨0, none, some (0, [7]), some [7]⟩) := by
    decide +kernel
  obtain ⟨hbody, hfault, hserved⟩ := response_buffer_suffices
  refine ⟨hbody (bodyEnvelope [0x41] []) ⟨[0x41], []⟩ [7, 8] rfl (by norm_num),
    hfault (ErrCode.text .noBody) (ErrCode.text_length .noBody), ?_⟩
  apply hserved [testMessageEntry] _ _ _ hserve
  intro body msgOut hreq hout
  cases hreq
  cases hout
  decide

end Fws
