import Fws.Service.Exchange

/-!
# The buffer for a request (fws/fws.c)

`fws_client_call` makes room for the data and 1024 bytes more. The type and the
tags and lengths of five layers have to fit into these.
-/

namespace Fws
open Base.Digits Base.Tlv

/- Tags and lengths around a type and data of these lengths. The header of the
envelope is empty and takes two bytes. -/
def requestFraming (type data : ℕ) : ℕ :=
  let body := headerOctets type + type + (headerOctets data + data)
  let explicit := headerOctets body + body
  let envelope := 2 + (headerOctets explicit + explicit)
  headerOctets type + headerOctets data + headerOctets body + headerOctets explicit + 2 +
    headerOctets envelope

def RequestFits (type data : ℕ) : Prop := type + requestFraming type data ≤ 1024

instance (type data : ℕ) : Decidable (RequestFits type data) :=
  inferInstanceAs (Decidable (_ ≤ _))

theorem request_der_length (type data : Bytes) :
    (bodyEnvelope type data).der.length =
      type.length + data.length + requestFraming type.length data.length := by
  have hheader : (Header.der ⟨none⟩).length = 2 := by decide
  show (tlv (identifier 0 true 16) (Header.der ⟨none⟩ ++ tlv (identifier 2 true 1)
    (tlv (identifier 2 true 0)
      (tlv (identifier 2 false 0) type ++ tlv (identifier 2 false 1) data)))).length = _
  simp only [tlv_length_header, List.length_append, hheader, requestFraming]
  omega

/-- A type of up to 992 characters fits, and none of more than 1012. -/
theorem requestFraming_bounds {type data : ℕ} (h : type + data < 2 ^ 30) :
    12 ≤ requestFraming type data ∧ requestFraming type data ≤ 32 := by
  have hfour : (4 : ℕ) ≠ 0 := by norm_num
  have hpow : (256 : ℕ) ^ 4 = 2 ^ 32 := by norm_num
  have htype := two_le_headerOctets type
  have hdata := two_le_headerOctets data
  have htype' := headerOctets_le hfour (show type < 256 ^ 4 by omega)
  have hdata' := headerOctets_le hfour (show data < 256 ^ 4 by omega)
  unfold requestFraming
  dsimp only
  generalize hb : headerOctets type + type + (headerOctets data + data) = body
  have hbody := two_le_headerOctets body
  have hbody' := headerOctets_le hfour (show body < 256 ^ 4 by omega)
  generalize he : headerOctets body + body = explicit
  have hexplicit := two_le_headerOctets explicit
  have hexplicit' := headerOctets_le hfour (show explicit < 256 ^ 4 by omega)
  generalize hw : 2 + (headerOctets explicit + explicit) = envelope
  have henvelope := two_le_headerOctets envelope
  have henvelope' := headerOctets_le hfour (show envelope < 256 ^ 4 by omega)
  omega

/- The call encodes its request into a buffer that is long enough for it. -/
def BufferSuffices (messageType : CString) (inMsg : Bytes) : Prop :=
  ∃ envReq msgMaxsize encoding, buildRequest messageType inMsg = some envReq ∧
    addSizes (requestDataSize envReq) 1024 = some msgMaxsize ∧
    Encodes (envelopeEncodeDer envReq) encoding ∧ encoding.length ≤ msgMaxsize ∧
    derEncodeToBuffer (envelopeEncodeDer envReq) msgMaxsize = some (encoding.length, encoding)

theorem Encodes.unique {e : Enc} {bs bs' : Bytes} (h : Encodes e bs) (h' : Encodes e bs') :
    bs.length = bs'.length := by
  have hsize := h.size.symm.trans h'.size
  exact congrArg Prod.fst (Option.some.inj hsize)

/-- Both arguments of a request are taken whole. -/
theorem request_strings {messageType : CString} {inMsg : Bytes}
    (h : messageType.strlen + inMsg.length < 2 ^ 30) :
    octetStringField (messageType.text ++ [0]) (-1) = some messageType.text ∧
      octetStringField inMsg (cInt inMsg.length) = some inMsg := by
  refine ⟨?_, octetStringField_all (by omega)⟩
  rw [requestType_iff (by omega)]
  exact ⟨by omega, rfl⟩

theorem request_encodes {messageType : CString} {inMsg : Bytes}
    (h : messageType.strlen + inMsg.length < 2 ^ 30) :
    buildRequest messageType inMsg = some (bodyEnvelope messageType.text inMsg) ∧
      Encodes (envelopeEncodeDer (bodyEnvelope messageType.text inMsg))
        (bodyEnvelope messageType.text inMsg).der := by
  have hlen : messageType.text.length = messageType.strlen := messageType.read_length _
  obtain ⟨htype, hdata⟩ := request_strings h
  have hbelow : Body.Below (2 ^ 31) ⟨messageType.text, inMsg⟩ :=
    ⟨by dsimp only; omega, by dsimp only; omega⟩
  exact ⟨buildRequest_iff.mpr ⟨_, _, htype, hdata, rfl⟩, headless_encodes hbelow⟩

theorem request_room (type : Bytes) {inMsg : Bytes} (h : inMsg.length < 2 ^ 30) :
    addSizes (requestDataSize (bodyEnvelope type inMsg)) 1024 = some (inMsg.length + 1024) := by
  rw [addSizes_iff, requestDataSize_body]
  omega

/-- The room for the request is enough exactly where type, tags and lengths
together take no more than the 1024 bytes. -/
theorem request_buffer_suffices_iff (messageType : CString) (inMsg : Bytes)
    (h : messageType.strlen + inMsg.length < 2 ^ 30) :
    BufferSuffices messageType inMsg ↔ RequestFits messageType.strlen inMsg.length := by
  obtain ⟨hbuild, henc⟩ := request_encodes h
  have hlen : messageType.text.length = messageType.strlen := messageType.read_length _
  have hder := request_der_length messageType.text inMsg
  have hsize := request_room messageType.text (show inMsg.length < 2 ^ 30 by omega)
  rw [hlen] at hder
  unfold RequestFits
  constructor
  · intro hsuffices
    obtain ⟨envReq, msgMaxsize, encoding, hb, hs, he, hle, -⟩ := hsuffices
    obtain rfl := Option.some.inj (hbuild.symm.trans hb)
    obtain rfl := Option.some.inj (hsize.symm.trans hs)
    have hsame := henc.unique he
    omega
  · intro hfits
    have hle : (bodyEnvelope messageType.text inMsg).der.length ≤ inMsg.length + 1024 := by omega
    refine ⟨_, _, _, hbuild, hsize, henc, hle, ?_⟩
    rw [derEncodeToBuffer_eq henc, if_pos hle]

/- A type of `n` characters `A`. -/
def longName (n : ℕ) : CString where
  memory i := if i < n then 0x41 else 0
  strlen := n
  terminated := if_neg (lt_irrefl n)
  before := by
    intro i hi
    rw [if_pos hi]
    decide

theorem request_buffer_suffices_short :
    BufferSuffices (longName 11) [7] ↔ RequestFits 11 1 := by
  have hlt : (longName 11).strlen + ([7] : Bytes).length < 2 ^ 30 := by
    show 11 + 1 < 2 ^ 30
    norm_num
  exact request_buffer_suffices_iff (longName 11) [7] hlt

/- A type of 1013 characters and no data. -/
theorem long_type_overruns_buffer :
    ¬ ∀ (messageType : CString) (inMsg : Bytes),
      messageType.strlen + inMsg.length < 2 ^ 30 → BufferSuffices messageType inMsg := by
  intro h
  have hlt : (longName 1013).strlen + ([] : Bytes).length < 2 ^ 30 := by
    show 1013 + 0 < 2 ^ 30
    norm_num
  obtain ⟨envReq, msgMaxsize, encoding, hb, hs, he, hle, -⟩ := h (longName 1013) [] hlt
  obtain ⟨hbuild, henc⟩ := request_encodes hlt
  obtain rfl := Option.some.inj (hbuild.symm.trans hb)
  have hsize := request_room (longName 1013).text (show ([] : Bytes).length < 2 ^ 30 by norm_num)
  obtain rfl := Option.some.inj (hsize.symm.trans hs)
  have hlen : (longName 1013).text.length = 1013 := (longName 1013).read_length _
  have hder := request_der_length (longName 1013).text []
  have hframing : 12 ≤ requestFraming 1013 0 := (requestFraming_bounds (by norm_num)).1
  have hsame := henc.unique he
  rw [hlen, List.length_nil] at hder
  rw [List.length_nil] at hle
  omega

end Fws
