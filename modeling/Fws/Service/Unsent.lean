import Fws.Service.RequestBuffer

/-!
# Requests that cannot be encoded (fws/fws.c)

`fws_client_call` notes in its return code that the encoder has failed, and goes
on with `-1` as the number of bytes to send.
-/

namespace Fws
open Base.Digits

/- `renc.encoded`. -/
def rencEncoded (envReq : Envelope) (msgMaxsize : ℕ) : ℤ :=
  match derEncodeToBuffer (envelopeEncodeDer envReq) msgMaxsize with
  | some (encoded, _) => encoded
  | none => -1

/- The length that `message_set_stream` is given. -/
def streamLength (envReq : Envelope) (msgMaxsize : ℕ) : ℕ := cUlong (rencEncoded envReq msgMaxsize)

/- The request is built, and the encoder does not get it into its buffer. -/
def Unencodable (messageType : CString) (inMsg : Bytes) : Prop :=
  ∃ envReq msgMaxsize, buildRequest messageType inMsg = some envReq ∧
    addSizes (requestDataSize envReq) 1024 = some msgMaxsize ∧ rencEncoded envReq msgMaxsize ≤ 0

/- The call reports the failure, stores nothing and leaves the connection alone,
and no more is made a message than was encoded. -/
def LeftUnsent {κ : Type} (M : Machine κ) (ctx : FwsCtx) (messageType : CString) (inMsg : Bytes)
    (k : κ) : Prop :=
  fwsClientCall M ctx messageType inMsg k = some ⟨retErr, none, k⟩ ∧
    ∀ envReq msgMaxsize, buildRequest messageType inMsg = some envReq →
      addSizes (requestDataSize envReq) 1024 = some msgMaxsize →
      streamLength envReq msgMaxsize ≤ (rencEncoded envReq msgMaxsize).toNat

/- The type that is built, with the tags and lengths around it and the data that
is built, takes no more than the 1024 bytes. -/
def RequestHasRoom (messageType : CString) (inMsg : Bytes) : Prop :=
  ∀ type data, octetStringField (messageType.text ++ [0]) (-1) = some type →
    octetStringField inMsg (cInt inMsg.length) = some data → data.length + 1024 < 2 ^ 31 →
    RequestFits type.length data.length

theorem rencEncoded_eq {type data : Bytes} (htype : type.length < 2 ^ 31)
    (hdata : data.length < 2 ^ 31) :
    rencEncoded (bodyEnvelope type data) (data.length + 1024) =
      if RequestFits type.length data.length then ((bodyEnvelope type data).der.length : ℤ)
      else -1 := by
  have henc : Encodes (envelopeEncodeDer (bodyEnvelope type data)) (bodyEnvelope type data).der :=
    headless_encodes ⟨htype, hdata⟩
  have hfits : (bodyEnvelope type data).der.length ≤ data.length + 1024 ↔
      RequestFits type.length data.length := by
    rw [request_der_length, RequestFits]
    omega
  rw [rencEncoded, derEncodeToBuffer_eq henc]
  by_cases h : RequestFits type.length data.length
  · rw [if_pos (hfits.mpr h), if_pos h]
  · rw [if_neg (fun hle => h (hfits.mp hle)), if_neg h]

theorem unencodable_iff (messageType : CString) (inMsg : Bytes) :
    Unencodable messageType inMsg ↔ ¬ RequestHasRoom messageType inMsg := by
  constructor
  · intro h hroom
    obtain ⟨envReq, msgMaxsize, hbuild, hsize, hfail⟩ := h
    obtain ⟨type, data, htype, hdata, rfl⟩ := buildRequest_iff.mp hbuild
    obtain ⟨hint, rfl⟩ := addSizes_iff.mp hsize
    rw [requestDataSize_body] at hint hfail
    have hfits := hroom type data htype hdata hint
    have hencoded := rencEncoded_eq (Nat.lt_of_succ_lt (octetStringField_length htype))
      (Nat.lt_of_succ_lt (octetStringField_length hdata))
    have hpos := envelope_der_pos (bodyEnvelope type data)
    rw [if_pos hfits] at hencoded
    have hle : ((bodyEnvelope type data).der.length : ℤ) ≤ 0 := hencoded ▸ hfail
    omega
  · intro h
    simp only [RequestHasRoom, not_forall] at h
    obtain ⟨type, data, htype, hdata, hint, hfits⟩ := h
    have hbuild := buildRequest_iff.mpr ⟨type, data, htype, hdata, rfl⟩
    refine ⟨_, _, hbuild, addSizes_iff.mpr ⟨hint, rfl⟩, ?_⟩
    rw [requestDataSize_body, rencEncoded_eq (Nat.lt_of_succ_lt (octetStringField_length htype))
      (Nat.lt_of_succ_lt (octetStringField_length hdata)), if_neg hfits]
    decide

theorem requestHasRoom_iff {messageType : CString} {inMsg : Bytes}
    (h : messageType.strlen + inMsg.length < 2 ^ 30) :
    RequestHasRoom messageType inMsg ↔ RequestFits messageType.strlen inMsg.length := by
  have hlen : messageType.text.length = messageType.strlen := messageType.read_length _
  obtain ⟨htype, hdata⟩ := request_strings h
  constructor
  · intro hroom
    rw [← hlen]
    exact hroom _ _ htype hdata (by omega)
  · intro hfits type data htype' hdata' _
    obtain rfl := Option.some.inj (htype.symm.trans htype')
    obtain rfl := Option.some.inj (hdata.symm.trans hdata')
    rwa [hlen]

/-- Where nothing was encoded, the length is the largest that there is. -/
theorem streamLength_unencoded {envReq : Envelope} {msgMaxsize : ℕ}
    (h : rencEncoded envReq msgMaxsize ≤ 0) (hpos : 0 < envReq.der.length)
    (hbelow : envReq.Below (2 ^ 31)) :
    derEncodeToBuffer (envelopeEncodeDer envReq) msgMaxsize = none ∧
      streamLength envReq msgMaxsize = 2 ^ 64 - 1 := by
  have hnone : derEncodeToBuffer (envelopeEncodeDer envReq) msgMaxsize = none := by
    rw [derEncodeToBuffer_eq (envelope_encodes hbelow)]
    by_cases hle : envReq.der.length ≤ msgMaxsize
    · rw [rencEncoded, derEncodeToBuffer_eq (envelope_encodes hbelow), if_pos hle] at h
      dsimp only at h
      omega
    · rw [if_neg hle]
  refine ⟨hnone, ?_⟩
  rw [streamLength, rencEncoded, hnone]
  decide

/-- On a request that cannot be encoded the call copies `2 ^ 64 - 1` bytes: it
has no result, whatever the machine does. -/
theorem unencodable_call {κ : Type} (M : Machine κ) {ctx : FwsCtx} {client : Client}
    (hpeer : ctx.peer = .client (some client)) {messageType : CString} {inMsg : Bytes}
    (h : Unencodable messageType inMsg) (k : κ) :
    fwsClientCall M ctx messageType inMsg k = none ∧
      ∃ envReq msgMaxsize, buildRequest messageType inMsg = some envReq ∧
        addSizes (requestDataSize envReq) 1024 = some msgMaxsize ∧
        streamLength envReq msgMaxsize = 2 ^ 64 - 1 := by
  obtain ⟨envReq, msgMaxsize, hbuild, hsize, hfail⟩ := h
  obtain ⟨body, rfl, hbelow⟩ := buildRequest_some hbuild
  obtain ⟨hnone, hlength⟩ := streamLength_unencoded hfail (envelope_der_pos _)
    ⟨optionBelow_none _, hbelow⟩
  refine ⟨?_, _, msgMaxsize, hbuild, hsize, hlength⟩
  have henc : encodeRequest ⟨⟨none⟩, .body body⟩ = none := by
    rw [encodeRequest, hsize, Option.bind_eq_bind, Option.bind_some, hnone]
  simp only [fwsClientCall, hpeer, hbuild, henc, Option.bind_eq_bind, Option.bind_some,
    Option.bind_none]

/-- A request that cannot be encoded is never left unsent: the call is right
exactly where the request has room in the buffer. -/
theorem unencodable_left_unsent_iff {κ : Type} (M : Machine κ) {ctx : FwsCtx} {client : Client}
    (hpeer : ctx.peer = .client (some client)) (messageType : CString) (inMsg : Bytes) (k : κ) :
    (Unencodable messageType inMsg → LeftUnsent M ctx messageType inMsg k) ↔
      RequestHasRoom messageType inMsg := by
  constructor
  · intro h
    by_contra hroom
    have hbad := (unencodable_iff messageType inMsg).mpr hroom
    obtain ⟨hcall, -⟩ := h hbad
    rw [(unencodable_call M hpeer hbad k).1] at hcall
    cases hcall
  · intro hroom hbad
    exact absurd hroom ((unencodable_iff messageType inMsg).mp hbad)

theorem unencodable_left_unsent_short :
    (Unencodable (longName 11) [7] →
        LeftUnsent hostMachine calling (longName 11) [7] truncatedLine) ↔
      RequestHasRoom (longName 11) [7] :=
  unencodable_left_unsent_iff hostMachine rfl (longName 11) [7] truncatedLine

/- A type of 1013 characters and no data: 1025 bytes or more for a buffer of 1024. -/
theorem long_type_is_sent_with_wrapped_length :
    (∃ envReq msgMaxsize, buildRequest (longName 1013) [] = some envReq ∧
        addSizes (requestDataSize envReq) 1024 = some msgMaxsize ∧
        streamLength envReq msgMaxsize = 2 ^ 64 - 1) ∧
      ¬ ∀ (messageType : CString) (inMsg : Bytes), Unencodable messageType inMsg →
        LeftUnsent hostMachine calling messageType inMsg truncatedLine := by
  have hlt : (longName 1013).strlen + ([] : Bytes).length < 2 ^ 30 := by
    show 1013 + 0 < 2 ^ 30
    norm_num
  have hbad : Unencodable (longName 1013) [] := by
    rw [unencodable_iff, requestHasRoom_iff hlt]
    intro hfits
    have hframing : 12 ≤ requestFraming 1013 0 := (requestFraming_bounds (by norm_num)).1
    have hfits' : 1013 + requestFraming 1013 0 ≤ 1024 := hfits
    omega
  have hpeer : calling.peer = .client (some ⟨⟨3, none⟩, 1⟩) := rfl
  obtain ⟨hcall, hlength⟩ := unencodable_call hostMachine hpeer hbad truncatedLine
  refine ⟨hlength, ?_⟩
  intro h
  have hunsent := (h _ _ hbad).1
  rw [hcall] at hunsent
  cases hunsent

end Fws
