import Fws.Asn1.Integer
import Fws.Networking.ConnectionTable
import Fws.Service.Callers
import Fws.Service.EnvelopeBer

/-!
# What a frame says

Whoever encoded it, and whatever stands behind it: what is accepted, what can be
encoded again, what is served, and what a call returns.
-/

namespace Fws
open Base.Digits Base.Tlv Base.Ber Base.Integers

/-! ### What an accepted envelope holds -/

def BodyOrFault.Storable : BodyOrFault → Prop
  | .nothing => False
  | .body b => b.Below (2 ^ 30)
  | .fault f => f.code.length < 2 ^ 31 ∧ optionBelow (2 ^ 30) f.reason

/- What a decoder can have stored. -/
structure Envelope.Storable (env : Envelope) : Prop where
  header : optionBelow (2 ^ 30) env.header.block
  bodyOrFault : env.bodyOrFault.Storable

/- The sizes of all strings. -/
def Envelope.size (env : Envelope) : ℕ :=
  (env.header.block.getD []).length + env.bodyOrFault.size

theorem StringParts.length_le {allTags : List ℕ} {depth : ℕ} {encs str : Bytes}
    (h : StringParts allTags depth encs str) : str.length ≤ encs.length := by
  induction h with
  | nil depth => exact Nat.le_refl _
  | primitive h hs ih =>
    simp only [List.length_append]
    omega
  | constructed h hinner hs ih ih' =>
    simp only [List.length_append]
    omega

theorem StringLang.length_le {tag : ℕ} {allTags : List ℕ} {enc str : Bytes}
    (h : StringLang tag allTags enc str) : str.length ≤ enc.length := by
  obtain ⟨hber, -⟩ := h
  cases hber with
  | primitive hframe =>
    rw [List.length_append]
    exact Nat.le_add_left _ _
  | constructed hframe hinner =>
    have hle := hinner.length_le
    simp only [List.length_append]
    omega

theorem PrimitiveLang.length_le {tag : ℕ} {enc contents : Bytes}
    (h : PrimitiveLang tag enc contents) : contents.length ≤ enc.length := by
  obtain ⟨hber, -⟩ := h
  cases hber with
  | mk hframe =>
    rw [List.length_append]
    exact Nat.le_add_left _ _

theorem header_stored {contents : Bytes} {header : Header}
    (h : Contents headerComponents ⟨none⟩ contents header) :
    optionBelow (2 ^ 30) header.block ∧ (header.block.getD []).length ≤ contents.length := by
  unfold headerComponents at h
  cases h with
  | missing st hopt => exact ⟨optionBelow_none _, Nat.le_refl _⟩
  | present hlang hs =>
    obtain ⟨block, hblock, rfl⟩ := hlang
    cases hs
    have hle := hblock.length_le
    constructor
    · intro s hs
      cases hs
      exact hblock.2
    · rw [List.append_nil]
      exact hle

theorem body_stored {contents : Bytes} {body : Body}
    (h : Contents bodyComponents ⟨[], []⟩ contents body) :
    body.Below (2 ^ 30) ∧ body.data.length + body.type.length ≤ contents.length := by
  unfold bodyComponents at h
  cases h with
  | present htype hs =>
    obtain ⟨type, htype, rfl⟩ := htype
    cases hs with
    | missing st hopt => cases hopt
    | present hdata hs =>
      obtain ⟨data, hdata, rfl⟩ := hdata
      cases hs
      have hle := htype.length_le
      have hle' := hdata.length_le
      simp only [List.length_append]
      exact ⟨⟨htype.2, hdata.2⟩, by omega⟩

theorem fault_stored {contents : Bytes} {fault : Fault}
    (h : Contents faultComponents ⟨[], none⟩ contents fault) :
    (BodyOrFault.fault fault).Storable ∧ (BodyOrFault.fault fault).size ≤ contents.length := by
  unfold faultComponents at h
  cases h with
  | present hcode hs =>
    obtain ⟨code, hcode, rfl⟩ := hcode
    have hle := hcode.length_le
    cases hs with
    | missing st hopt =>
      refine ⟨⟨hcode.2, optionBelow_none _⟩, ?_⟩
      simp only [BodyOrFault.size, Option.getD_none, List.length_nil, List.length_append]
      omega
    | present hreason hs =>
      obtain ⟨reason, hreason, rfl⟩ := hreason
      cases hs
      have hle' := hreason.length_le
      constructor
      · refine ⟨hcode.2, ?_⟩
        intro s hs
        cases hs
        exact hreason.2
      · simp only [BodyOrFault.size, Option.getD_some, List.length_append]
        omega

theorem SequenceBer.contents {σ : Type} {tag : ℕ} {fs : List (Component σ)} {st st' : σ}
    {enc : Bytes} (h : SequenceBer tag fs st enc st') :
    ∃ contents, Contents fs st contents st' ∧ contents.length ≤ enc.length := by
  cases h with
  | @mk header contents closing left _ hframe hs =>
    refine ⟨contents, hs, ?_⟩
    simp only [List.length_append]
    omega

theorem bodyOrFault_stored {enc : Bytes} {bof : BodyOrFault}
    (h : ChoiceBer 6 bodyOrFaultBranches enc bof) : bof.Storable ∧ bof.size ≤ enc.length := by
  cases h with
  | @mk constructed br header contents closing left _ hframe hbr hlang =>
    have hlen : contents.length ≤ (header ++ (contents ++ closing)).length := by
      simp only [List.length_append]
      omega
    rcases List.mem_cons.mp hbr with rfl | hbr
    · obtain ⟨body, hseq, rfl⟩ := hlang
      obtain ⟨inner, hs, hle⟩ := hseq.contents
      obtain ⟨hbelow, hsize⟩ := body_stored hs
      exact ⟨hbelow, le_trans hsize (le_trans hle hlen)⟩
    · rw [List.mem_singleton.mp hbr] at hlang
      obtain ⟨fault, hseq, rfl⟩ := hlang
      obtain ⟨inner, hs, hle⟩ := hseq.contents
      obtain ⟨hstorable, hsize⟩ := fault_stored hs
      exact ⟨hstorable, le_trans hsize (le_trans hle hlen)⟩

theorem Envelope.Ber.stored {env : Envelope} {enc : Bytes} (h : env.Ber enc) :
    env.Storable ∧ env.size ≤ enc.length := by
  obtain ⟨contents, hs, hlen⟩ := SequenceBer.contents h
  unfold envelopeComponents at hs
  cases hs with
  | present hheader hs =>
    obtain ⟨header, hheader, rfl⟩ := hheader
    obtain ⟨inner, hinner, hle⟩ := hheader.contents
    obtain ⟨hblock, hsize⟩ := header_stored hinner
    cases hs with
    | missing st hopt => cases hopt
    | present hchoice hs =>
      obtain ⟨bof, hchoice, rfl⟩ := hchoice
      cases hs
      obtain ⟨hbof, hsize'⟩ := bodyOrFault_stored hchoice
      refine ⟨⟨hblock, hbof⟩, ?_⟩
      simp only [List.length_append] at hlen
      unfold Envelope.size
      dsimp only
      omega

/-! ### The encoder's form -/

/- As the encoder writes it. -/
def BodyOrFault.shortened : BodyOrFault → BodyOrFault
  | .fault f => .fault { f with code := integerStrip f.code }
  | bof => bof

def Envelope.shortened (env : Envelope) : Envelope :=
  { env with bodyOrFault := env.bodyOrFault.shortened }

theorem Envelope.shortened_encode (env : Envelope) :
    envelopeEncodeDer env.shortened = envelopeEncodeDer env := by
  obtain ⟨header, bof⟩ := env
  cases bof with
  | nothing => rfl
  | body b => rfl
  | fault f =>
    simp only [Envelope.shortened, BodyOrFault.shortened, envelopeEncodeDer, bodyOrFaultEncodeDer,
      faultEncodeDer, integerEncodeDer, integerStrip_idem]

theorem BodyOrFault.Storable.below {bof : BodyOrFault} (h : bof.Storable) :
    bof.shortened.Below (2 ^ 31) ∧ bof.shortened.size ≤ bof.size := by
  cases bof with
  | nothing => exact absurd h id
  | body b => exact ⟨Body.Below.mono (by norm_num) h, Nat.le_refl _⟩
  | fault f =>
    have hle := integerStrip_length_le f.code
    obtain ⟨hcode, hreason⟩ := h
    constructor
    · exact ⟨lt_of_le_of_lt hle hcode, integerStrip_idem _, optionBelow_mono (by norm_num) hreason⟩
    · simp only [BodyOrFault.shortened, BodyOrFault.size]
      omega

theorem Envelope.Storable.below {env : Envelope} (h : env.Storable) :
    env.shortened.Below (2 ^ 31) :=
  ⟨optionBelow_mono (by norm_num) h.header, h.bodyOrFault.below.1⟩

/- What the parts of an encoding have at least. -/
structure Extents (env : Envelope) : Prop where
  header : ((env.header.block.map (tlv (identifier 2 false 0))).getD []).length < 256 ^ 126
  bodyOrFault : env.bodyOrFault.der.length < 256 ^ 126
  whole : (env.header.der ++ tlv (identifier 2 true 1) env.bodyOrFault.der).length < 256 ^ 126
  size : env.der.length ≤ env.size + 70

theorem Envelope.Below.extents {env : Envelope} (h : env.Below (2 ^ 31)) : Extents env := by
  obtain ⟨hlen, hsize⟩ := bodyOrFault_der_length h.bodyOrFault
  have hblock := optionBelow_length h.header
  have hinner := optionTlv_length (identifier 2 false 0) h.header
  have hheader := tlv_length_le (identifier 2 true 0)
    ((env.header.block.map (tlv (identifier 2 false 0))).getD []) (by omega)
  have hexplicit := tlv_length_le (identifier 2 true 1) env.bodyOrFault.der (by omega)
  have hwhole : (env.header.der ++ tlv (identifier 2 true 1) env.bodyOrFault.der).length ≤
      env.size + 60 := by
    rw [List.length_append, Header.der]
    unfold Envelope.size
    omega
  have houter := tlv_length_le (identifier 0 true 16)
    (env.header.der ++ tlv (identifier 2 true 1) env.bodyOrFault.der)
    (by unfold Envelope.size at hwhole; omega)
  have hlarge : (2 : ℕ) ^ 62 < 256 ^ 126 := by norm_num
  unfold Envelope.size at hwhole
  refine ⟨by omega, by omega, by omega, ?_⟩
  show (tlv (identifier 0 true 16)
    (env.header.der ++ tlv (identifier 2 true 1) env.bodyOrFault.der)).length ≤ env.size + 70
  unfold Envelope.size
  omega

section
variable (tag : ℕ)

theorem tagFrame_tlv (constructed : Bool) {n : ℕ} (htag : berTagValue tag ≤ 30)
    (h : n < 256 ^ 126) : TagFrame tag constructed n
      (identifier (berTagClass tag) constructed (berTagValue tag) :: lengthOctets n) n [] :=
  frame_tlv constructed (.short (Nat.lt_succ_of_le htag)) h

theorem stringLang_tlv (allTags : List ℕ) {str : Bytes} (htag : berTagValue tag ≤ 30)
    (h : str.length < 2 ^ 30) : StringLang tag allTags
      (tlv (identifier (berTagClass tag) false (berTagValue tag)) str) str :=
  ⟨.primitive (tagFrame_tlv tag false htag (lt_trans h (by norm_num))), h⟩

theorem primitiveLang_tlv {contents : Bytes} (htag : berTagValue tag ≤ 30)
    (h : contents.length < 2 ^ 31) : PrimitiveLang tag
      (tlv (identifier (berTagClass tag) false (berTagValue tag)) contents) contents :=
  ⟨.mk (tagFrame_tlv tag false htag (lt_trans h (by norm_num))), h⟩

theorem sequenceBer_tlv {σ : Type} {fs : List (Component σ)} {st st' : σ} {contents : Bytes}
    (htag : berTagValue tag ≤ 30) (hs : Contents fs st contents st')
    (h : contents.length < 256 ^ 126) : SequenceBer tag fs st
      (tlv (identifier (berTagClass tag) true (berTagValue tag)) contents) st' := by
  have hber := SequenceBer.mk (tagFrame_tlv tag true htag h) hs
  rw [List.append_nil] at hber
  exact hber

theorem choiceBer_tlv {σ : Type} {brs : List (Branch σ)} {br : Branch σ} {v : σ} {contents : Bytes}
    (htag : berTagValue tag ≤ 30) (hbr : br ∈ brs) (hlang : br.lang contents v)
    (h : contents.length < 256 ^ 126) : ChoiceBer tag brs
      (tlv (identifier (berTagClass tag) true (berTagValue tag)) contents) v := by
  have hber := ChoiceBer.mk (tagFrame_tlv tag true htag h) hbr hlang
  rw [List.append_nil] at hber
  exact hber

end

theorem Contents.one {σ : Type} {f : Component σ} {st st' : σ} {enc : Bytes}
    (h : f.lang st enc st') : Contents [f] st enc st' := by
  have hone := Contents.present h (.done st')
  rw [List.append_nil] at hone
  exact hone

theorem header_ber {header : Header} (h : optionBelow (2 ^ 30) header.block) :
    Contents headerComponents ⟨none⟩
      ((header.block.map (tlv (identifier 2 false 0))).getD []) header := by
  obtain ⟨block⟩ := header
  cases block with
  | none => exact .missing _ rfl
  | some block =>
    have hblock := stringLang_tlv 2 [16] (by decide) (h block rfl)
    exact .one ⟨block, hblock, rfl⟩

theorem body_ber {body : Body} (h : body.Below (2 ^ 30)) :
    Contents bodyComponents ⟨[], []⟩
      (tlv (identifier 2 false 0) body.type ++ tlv (identifier 2 false 1) body.data) body := by
  have htype := stringLang_tlv 2 [104, 16] (by decide) h.type
  have hdata := stringLang_tlv 6 [16] (by decide) h.data
  exact .present ⟨body.type, htype, rfl⟩ (.one ⟨body.data, hdata, rfl⟩)

theorem fault_ber (fault : Fault) (hcode : fault.code.length < 2 ^ 31)
    (hreason : optionBelow (2 ^ 30) fault.reason) :
    Contents faultComponents ⟨[], none⟩ (tlv (identifier 2 false 0) fault.code ++
      (fault.reason.map (tlv (identifier 2 false 1))).getD []) fault := by
  obtain ⟨code, reason⟩ := fault
  have hcode' := primitiveLang_tlv 2 (by decide) hcode
  cases reason with
  | none => exact .present ⟨code, hcode', rfl⟩ (.missing _ rfl)
  | some reason =>
    have hreason' := stringLang_tlv 6 [48, 16] (by decide)
      (hreason reason rfl)
    exact .present ⟨code, hcode', rfl⟩ (.one ⟨reason, hreason', rfl⟩)

theorem bodyOrFault_ber {bof : BodyOrFault} (h : bof.Storable)
    (hlen : bof.shortened.der.length < 256 ^ 126) :
    ∃ br ∈ bodyOrFaultBranches, br.lang bof.shortened.der bof.shortened := by
  cases bof with
  | nothing => exact absurd h id
  | body b =>
    have hcontents := tlv_length_ge (identifier 2 true 0)
      (tlv (identifier 2 false 0) b.type ++ tlv (identifier 2 false 1) b.data)
    simp only [BodyOrFault.shortened, BodyOrFault.der, Body.der] at hlen ⊢
    have hber := sequenceBer_tlv 2 (by decide) (body_ber h) (by omega)
    exact ⟨_, List.mem_cons_self .., b, hber, rfl⟩
  | fault f =>
    obtain ⟨hcode, hreason⟩ := h
    have hle := integerStrip_length_le f.code
    have hcontents := tlv_length_ge (identifier 2 true 1)
      (tlv (identifier 2 false 0) (integerStrip f.code) ++
        (f.reason.map (tlv (identifier 2 false 1))).getD [])
    simp only [BodyOrFault.shortened, BodyOrFault.der, Fault.der, integerStrip_idem] at hlen ⊢
    have hfault := fault_ber ⟨integerStrip f.code, f.reason⟩
      (lt_of_le_of_lt hle hcode) hreason
    have hber := sequenceBer_tlv 6 (by decide) hfault (by dsimp only; omega)
    exact ⟨_, List.mem_cons_of_mem _ (List.mem_singleton_self _), _, hber, rfl⟩

/-- What the encoder writes of a stored envelope is one of its encodings. -/
theorem Envelope.Storable.ber {env : Envelope} (h : env.Storable) :
    env.shortened.Ber env.shortened.der := by
  have hextents := h.below.extents
  obtain ⟨br, hbr, hlang⟩ := bodyOrFault_ber h.bodyOrFault hextents.bodyOrFault
  have hheader := sequenceBer_tlv 2 (by decide) (header_ber h.header) hextents.header
  have hchoice := choiceBer_tlv 6 (by decide) hbr hlang hextents.bodyOrFault
  have hcontents : Contents envelopeComponents emptyEnvelope
      (env.header.der ++ tlv (identifier 2 true 1) env.bodyOrFault.shortened.der)
      env.shortened :=
    .present ⟨env.header, hheader, rfl⟩ (.one ⟨env.bodyOrFault.shortened, hchoice, rfl⟩)
  exact sequenceBer_tlv 64 (by decide) hcontents hextents.whole

/-! ### Frames -/

/- An accepted frame can be passed on: what it says is encoded in at most 70 bytes
more, and it is read back, with a fault's code in its shortest form. -/
theorem accepted_is_recoded {bs : Bytes} (hbs : bs.length + 70 < 2 ^ 32) {n : ℕ} {env : Envelope}
    (h : berDecodeEnvelope bs = some (⟨.rcOk, n⟩, env)) :
    ∃ der, derEncodeToBuffer (envelopeEncodeDer env) (n + 70) = some (der.length, der) ∧
      berDecodeEnvelope der = some (⟨.rcOk, der.length⟩, env.shortened) ∧
      ∀ fault, env.bodyOrFault = .fault fault →
        asnINTEGER2long (some (integerStrip fault.code)) = asnINTEGER2long (some fault.code) := by
  obtain ⟨hle, hber⟩ := envelope_decides.sound bs n env (by omega) (answerOf_took.mpr h)
  obtain ⟨hstorable, hsize⟩ := hber.stored
  rw [List.length_take, Nat.min_eq_left hle] at hsize
  have hshort : env.shortened.size ≤ env.size := Nat.add_le_add_left hstorable.bodyOrFault.below.2 _
  have hder := hstorable.below.extents.size
  have hfits : env.shortened.der.length ≤ n + 70 := by omega
  refine ⟨env.shortened.der, ?_, ?_, ?_⟩
  · rw [← env.shortened_encode, derEncodeToBuffer_eq (envelope_encodes hstorable.below),
      if_pos hfits]
  · have htakes := envelope_decides.takes env.shortened.der [] env.shortened hstorable.ber
      (by rw [List.append_nil]; omega)
    rw [List.append_nil] at htakes
    exact answerOf_took.mp htakes
  · intro fault hfault
    exact asnINTEGER2long_strip fault.code

/- A fault whose code has an octet more than it needs. -/
def longCodeFrame : Bytes :=
  [0x30, 0x80, 0xA0, 0, 0xA1, 0x80, 0xA1, 4, 0x80, 2, 0, 1, 0, 0, 0, 0]

theorem accepted_is_recoded_long_code :
    (longCodeFrame.length + 70 < 2 ^ 32 ∧
      berDecodeEnvelope longCodeFrame = some (⟨.rcOk, 16⟩, ⟨⟨none⟩, .fault ⟨[0, 1], none⟩⟩)) ∧
    ∃ der, derEncodeToBuffer (envelopeEncodeDer ⟨⟨none⟩, .fault ⟨[0, 1], none⟩⟩) (16 + 70) =
        some (der.length, der) ∧
      berDecodeEnvelope der = some (⟨.rcOk, der.length⟩, ⟨⟨none⟩, .fault ⟨[1], none⟩⟩) ∧
      ∀ fault, BodyOrFault.fault ⟨[0, 1], none⟩ = .fault fault →
        asnINTEGER2long (some (integerStrip fault.code)) = asnINTEGER2long (some fault.code) := by
  have hdecode : berDecodeEnvelope longCodeFrame =
      some (⟨.rcOk, 16⟩, ⟨⟨none⟩, .fault ⟨[0, 1], none⟩⟩) := by decide +kernel
  exact ⟨⟨by decide, hdecode⟩, accepted_is_recoded (by decide) hdecode⟩

/-! ### Serving -/

variable {κ : Type}

end Fws
