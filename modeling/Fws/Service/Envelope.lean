import Fws.Asn1.OctetString
import Fws.Asn1.Constructed
import Fws.Asn1.DerEncoder

/-!
# Envelopes (fws/Envelope.c)

The descriptors of the types with their tags and members. The tags are
automatic: context-specific 0 and 1 (2 and 6 as numbers), with the alternatives
under an explicit tag of their own.
-/

namespace Fws
open Base.Digits Base.Tlv

structure Header where
  block : Option Bytes
  deriving DecidableEq, Repr

structure Body where
  type : Bytes
  data : Bytes
  deriving DecidableEq, Repr

structure Fault where
  code : Bytes
  reason : Option Bytes
  deriving DecidableEq, Repr

inductive BodyOrFault where
  | nothing
  | body (body : Body)
  | fault (fault : Fault)
  deriving DecidableEq, Repr

structure Envelope where
  header : Header
  bodyOrFault : BodyOrFault
  deriving DecidableEq, Repr

/- `memset` to zero. -/
def emptyEnvelope : Envelope := ⟨⟨none⟩, .nothing⟩

def bodyEnvelope (type data : Bytes) : Envelope := ⟨⟨none⟩, .body ⟨type, data⟩⟩

@[simp] theorem bodyEnvelope_bodyOrFault (type data : Bytes) :
    (bodyEnvelope type data).bodyOrFault = .body ⟨type, data⟩ := rfl

variable {σ τ : Type}

/-! ### Members by the kind of their type -/

def octetMember (tag optional : ℕ) (tags allTags : List ℕ) (set : σ → Bytes → σ) : Member σ where
  tag := tag
  optional := optional
  decode st bs :=
    let (rval, str) := octetStringDecodeBer tags allTags .implicit bs
    some (rval, set st str)

def primitiveMember (tag optional : ℕ) (tags : List ℕ) (set : σ → Bytes → σ) : Member σ where
  tag := tag
  optional := optional
  decode st bs :=
    let (rval, str) := berDecodePrimitive tags .implicit bs
    some (rval, set st str)

def sequenceMember (tag : ℕ) (tags : List ℕ) (members : List (Member τ)) (get : σ → τ)
    (set : σ → τ → σ) : Member σ where
  tag := tag
  optional := 0
  decode st bs :=
    (sequenceDecodeBer tags .implicit members bs (get st)).map fun (rval, t) => (rval, set st t)

def sequenceAlternative (tag : ℕ) (tags : List ℕ) (members : List (Member τ)) (zero : τ)
    (inj : τ → σ) : Alternative σ where
  tag := tag
  decode bs := (sequenceDecodeBer tags .implicit members bs zero).map fun (rval, t) => (rval, inj t)

def choiceAsMember (tag : ℕ) (alts : List (Alternative τ)) (get : σ → τ) (set : σ → τ → σ) :
    Member σ where
  tag := tag
  optional := 0
  decode st bs :=
    (choiceDecodeBer [] .explicit alts bs (get st)).map fun (rval, t) => (rval, set st t)

/-! ### The member tables

The tags of OCTET STRING, VisibleString and UTF8String are universal 4, 26 and
12; the strings have that of OCTET STRING behind their own. -/

def headerBlock : Member Header :=
  octetMember 2 1 [16] [16] fun header block => { header with block := some block }

def bodyType : Member Body :=
  octetMember 2 0 [104] [104, 16] fun body type => { body with type := type }

def bodyData : Member Body :=
  octetMember 6 0 [16] [16] fun body data => { body with data := data }

def faultCode : Member Fault :=
  primitiveMember 2 0 [2] fun fault code => { fault with code := code }

def faultReason : Member Fault :=
  octetMember 6 1 [48] [48, 16] fun fault reason => { fault with reason := some reason }

def bodyAlternative : Alternative BodyOrFault :=
  sequenceAlternative 2 [2] [bodyType, bodyData] ⟨[], []⟩ .body

def faultAlternative : Alternative BodyOrFault :=
  sequenceAlternative 6 [6] [faultCode, faultReason] ⟨[], none⟩ .fault

def envelopeHeader : Member Envelope :=
  sequenceMember 2 [2] [headerBlock] Envelope.header fun env header => { env with header := header }

def envelopeBodyOrFault : Member Envelope :=
  choiceAsMember 6 [bodyAlternative, faultAlternative] Envelope.bodyOrFault fun env bodyOrFault =>
    { env with bodyOrFault := bodyOrFault }

/- `ber_decode(NULL, &asn_DEF_Envelope, ...)` on a `NULL` structure. -/
def berDecodeEnvelope (bs : Bytes) : Option (DecRval × Envelope) :=
  sequenceDecodeBer [64] .plain [envelopeHeader, envelopeBodyOrFault] bs emptyEnvelope

def headerEncodeDer (header : Header) : Enc :=
  sequenceEncodeDer [2] [header.block.map fun block => octetStringEncodeDer [16] block .implicit 2]
    .implicit 2

def bodyEncodeDer (body : Body) : Enc :=
  sequenceEncodeDer [2] [some (octetStringEncodeDer [104] body.type .implicit 2),
    some (octetStringEncodeDer [16] body.data .implicit 6)] .implicit 2

def faultEncodeDer (fault : Fault) : Enc :=
  sequenceEncodeDer [6] [some (integerEncodeDer [2] fault.code .implicit 2),
    fault.reason.map fun reason => octetStringEncodeDer [48] reason .implicit 6] .implicit 6

def bodyOrFaultEncodeDer (bodyOrFault : BodyOrFault) : Enc :=
  choiceEncodeDer []
    (match bodyOrFault with
      | .nothing => none
      | .body body => some (bodyEncodeDer body)
      | .fault fault => some (faultEncodeDer fault)) .explicit 6

def envelopeEncodeDer (env : Envelope) : Enc :=
  sequenceEncodeDer [64] [some (headerEncodeDer env.header),
    some (bodyOrFaultEncodeDer env.bodyOrFault)] .plain 0

/-! ### The encoding as bytes -/

def Header.der (header : Header) : Bytes :=
  tlv (identifier 2 true 0) ((header.block.map (tlv (identifier 2 false 0))).getD [])

def Body.der (body : Body) : Bytes :=
  tlv (identifier 2 true 0)
    (tlv (identifier 2 false 0) body.type ++ tlv (identifier 2 false 1) body.data)

def Fault.der (fault : Fault) : Bytes :=
  tlv (identifier 2 true 1) (tlv (identifier 2 false 0) (integerStrip fault.code) ++
    (fault.reason.map (tlv (identifier 2 false 1))).getD [])

def BodyOrFault.der : BodyOrFault → Bytes
  | .nothing => []
  | .body b => b.der
  | .fault f => f.der

def Envelope.der (env : Envelope) : Bytes :=
  tlv (identifier 0 true 16) (env.header.der ++ tlv (identifier 2 true 1) env.bodyOrFault.der)

/- Every string is shorter than `n`. -/
def optionBelow (n : ℕ) (str : Option Bytes) : Prop := ∀ s, str = some s → s.length < n

structure Body.Below (n : ℕ) (body : Body) : Prop where
  type : body.type.length < n
  data : body.data.length < n

/- The code is in the form that the encoder leaves as it is. -/
structure Fault.Below (n : ℕ) (fault : Fault) : Prop where
  code : fault.code.length < n
  minimal : integerStrip fault.code = fault.code
  reason : optionBelow n fault.reason

def BodyOrFault.Below (n : ℕ) : BodyOrFault → Prop
  | .nothing => False
  | .body b => b.Below n
  | .fault f => f.Below n

structure Envelope.Below (n : ℕ) (env : Envelope) : Prop where
  header : optionBelow n env.header.block
  bodyOrFault : env.bodyOrFault.Below n

theorem optionBelow_mono {m n : ℕ} (hmn : m ≤ n) {str : Option Bytes} (h : optionBelow m str) :
    optionBelow n str := by
  intro s hs
  exact lt_of_lt_of_le (h s hs) hmn

theorem Body.Below.mono {m n : ℕ} (hmn : m ≤ n) {body : Body} (h : body.Below m) : body.Below n :=
  ⟨lt_of_lt_of_le h.type hmn, lt_of_lt_of_le h.data hmn⟩

theorem BodyOrFault.Below.mono {m n : ℕ} (hmn : m ≤ n) {bof : BodyOrFault} (h : bof.Below m) :
    bof.Below n := by
  cases bof with
  | nothing => exact h
  | body b => exact Body.Below.mono hmn h
  | fault f => exact ⟨lt_of_lt_of_le h.code hmn, h.minimal, optionBelow_mono hmn h.reason⟩

theorem optionBelow_none (n : ℕ) : optionBelow n none := by
  intro s h
  cases h

theorem optionTlv_length (id : Byte) {str : Option Bytes} (h : optionBelow (2 ^ 31) str) :
    ((str.map (tlv id)).getD []).length ≤ (str.getD []).length + 10 := by
  cases str with
  | none => exact Nat.zero_le _
  | some s =>
    have hs := h s rfl
    exact tlv_length_le id s (by omega)

/- The sizes of the strings of a body or a fault. -/
def BodyOrFault.size : BodyOrFault → ℕ
  | .nothing => 0
  | .body b => b.data.length + b.type.length
  | .fault f => f.code.length + (f.reason.getD []).length

theorem optionBelow_length {str : Option Bytes} (h : optionBelow (2 ^ 31) str) :
    (str.getD []).length < 2 ^ 31 := by
  cases str with
  | none => exact Nat.two_pow_pos 31
  | some s => exact h s rfl

theorem bodyOrFault_der_length {bof : BodyOrFault} (h : bof.Below (2 ^ 31)) :
    bof.der.length ≤ bof.size + 30 ∧ bof.size < 2 ^ 32 := by
  cases bof with
  | nothing => exact absurd h id
  | body b =>
    have htype := h.type
    have hdata := h.data
    have h1 := tlv_length_le (identifier 2 false 0) b.type (by omega)
    have h2 := tlv_length_le (identifier 2 false 1) b.data (by omega)
    have h3 := tlv_length_le (identifier 2 true 0)
      (tlv (identifier 2 false 0) b.type ++ tlv (identifier 2 false 1) b.data)
      (by rw [List.length_append]; omega)
    rw [List.length_append] at h3
    simp only [BodyOrFault.der, Body.der, BodyOrFault.size]
    omega
  | fault f =>
    have hcode := h.code
    have hreason := optionBelow_length h.reason
    have h1 := tlv_length_le (identifier 2 false 0) f.code (by omega)
    have h2 := optionTlv_length (identifier 2 false 1) h.reason
    have h3 := tlv_length_le (identifier 2 true 1)
      (tlv (identifier 2 false 0) f.code ++ (f.reason.map (tlv (identifier 2 false 1))).getD [])
      (by rw [List.length_append]; omega)
    rw [List.length_append] at h3
    simp only [BodyOrFault.der, Fault.der, h.minimal, BodyOrFault.size]
    omega

/-- What surrounds the strings takes at most sixty bytes. -/
theorem envelope_der_length {bof : BodyOrFault} (h : bof.Below (2 ^ 31)) :
    (Envelope.der ⟨⟨none⟩, bof⟩).length ≤ bof.size + 60 := by
  obtain ⟨hbof, hsize⟩ := bodyOrFault_der_length h
  have hheader : (Header.der ⟨none⟩).length = 2 := by decide
  have hexplicit := tlv_length_le (identifier 2 true 1) bof.der (by omega)
  have houter := tlv_length_le (identifier 0 true 16)
    (Header.der ⟨none⟩ ++ tlv (identifier 2 true 1) bof.der)
    (by rw [List.length_append]; omega)
  rw [List.length_append] at houter
  show (tlv (identifier 0 true 16)
    (Header.der ⟨none⟩ ++ tlv (identifier 2 true 1) bof.der)).length ≤ bof.size + 60
  omega

theorem envelope_der_pos (env : Envelope) : 0 < env.der.length := by
  have hlen := tlv_length_ge (identifier 0 true 16)
    (env.header.der ++ tlv (identifier 2 true 1) env.bodyOrFault.der)
  exact lt_of_lt_of_le (Nat.succ_pos _) hlen

theorem envelope_der_ge {env : Envelope} {b : Body} (h : env.bodyOrFault = .body b) :
    b.type.length + b.data.length ≤ env.der.length := by
  have h1 := tlv_length_ge (identifier 2 false 0) b.type
  have h2 := tlv_length_ge (identifier 2 false 1) b.data
  have h3 := tlv_length_ge (identifier 2 true 0)
    (tlv (identifier 2 false 0) b.type ++ tlv (identifier 2 false 1) b.data)
  have h4 := tlv_length_ge (identifier 2 true 1) b.der
  have h5 := tlv_length_ge (identifier 0 true 16)
    (env.header.der ++ tlv (identifier 2 true 1) b.der)
  rw [List.length_append] at h3 h5
  simp only [Envelope.der, h, BodyOrFault.der]
  rw [Body.der] at h4 h5 ⊢
  omega

/-! ### The encoder writes these bytes -/

theorem header_encodes {header : Header} (h : optionBelow (2 ^ 31) header.block) :
    Encodes (headerEncodeDer header) header.der := by
  have hmembers : MembersEncode
      [header.block.map fun block => octetStringEncodeDer [16] block .implicit 2]
      ((header.block.map (tlv (identifier 2 false 0))).getD []) := by
    cases hb : header.block with
    | none => exact .absent .nil
    | some block =>
      have hlen := h block hb
      exact .one (octetStringEncodeDer_encodes 2 (by decide) (by omega))
  have hlen := optionTlv_length (identifier 2 false 0) h
  have hblock := optionBelow_length h
  have htags : writtenTags [2] .implicit 2 = [2] := rfl
  have hseq := sequenceEncodeDer_encodes htags hmembers (by decide) (by omega)
  exact hseq

theorem body_encodes {body : Body} (h : body.Below (2 ^ 31)) :
    Encodes (bodyEncodeDer body) body.der := by
  have htype := h.type
  have hdata := h.data
  have h1 : Encodes (octetStringEncodeDer [104] body.type .implicit 2)
      (tlv (identifier 2 false 0) body.type) :=
    octetStringEncodeDer_encodes 2 (by decide) (by omega)
  have h2 : Encodes (octetStringEncodeDer [16] body.data .implicit 6)
      (tlv (identifier 2 false 1) body.data) :=
    octetStringEncodeDer_encodes 6 (by decide) (by omega)
  have hl1 := tlv_length_le (identifier 2 false 0) body.type (by omega)
  have hl2 := tlv_length_le (identifier 2 false 1) body.data (by omega)
  have htags : writtenTags [2] .implicit 2 = [2] := rfl
  have hseq := sequenceEncodeDer_encodes htags (.present h1 (.one h2)) (by decide)
    (by rw [List.length_append]; omega)
  exact hseq

theorem fault_encodes {fault : Fault} (h : fault.Below (2 ^ 31)) :
    Encodes (faultEncodeDer fault) fault.der := by
  have hcode := h.code
  have h1 : Encodes (integerEncodeDer [2] fault.code .implicit 2)
      (tlv (identifier 2 false 0) (integerStrip fault.code)) :=
    integerEncodeDer_encodes 2 (by decide) (by rw [h.minimal]; omega)
  have h2 : MembersEncode
      [fault.reason.map fun reason => octetStringEncodeDer [48] reason .implicit 6]
      ((fault.reason.map (tlv (identifier 2 false 1))).getD []) := by
    cases hr : fault.reason with
    | none => exact .absent .nil
    | some reason =>
      have hlen := h.reason reason hr
      exact .one (octetStringEncodeDer_encodes 6 (by decide) (by omega))
  have hl1 := tlv_length_le (identifier 2 false 0) (integerStrip fault.code)
    (by rw [h.minimal]; omega)
  rw [h.minimal] at hl1
  have hl2 := optionTlv_length (identifier 2 false 1) h.reason
  have hreason := optionBelow_length h.reason
  have htags : writtenTags [6] .implicit 6 = [6] := rfl
  have hseq := sequenceEncodeDer_encodes htags (.present h1 h2) (by decide)
    (by rw [List.length_append, h.minimal]; omega)
  exact hseq

theorem bodyOrFault_encodes {bof : BodyOrFault} (h : bof.Below (2 ^ 31)) :
    Encodes (bodyOrFaultEncodeDer bof) (tlv (identifier 2 true 1) bof.der) := by
  obtain ⟨hlen, hsize⟩ := bodyOrFault_der_length h
  have hlt : bof.der.length < 2 ^ 64 := by omega
  have htag : berTagValue 6 ≤ 30 := by decide
  cases bof with
  | nothing => exact absurd h id
  | body b =>
    have hbody : Encodes (bodyEncodeDer b) b.der := body_encodes h
    simp only [BodyOrFault.der] at hlt ⊢
    have hchoice := choiceEncodeDer_encodes hbody htag hlt
    exact hchoice
  | fault f =>
    have hfault : Encodes (faultEncodeDer f) f.der := fault_encodes h
    simp only [BodyOrFault.der] at hlt ⊢
    have hchoice := choiceEncodeDer_encodes hfault htag hlt
    exact hchoice

theorem envelope_encodes {env : Envelope} (h : env.Below (2 ^ 31)) :
    Encodes (envelopeEncodeDer env) env.der := by
  obtain ⟨hlen, hsize⟩ := bodyOrFault_der_length h.bodyOrFault
  have hblock := optionBelow_length h.header
  have hinner := optionTlv_length (identifier 2 false 0) h.header
  have hheader := tlv_length_le (identifier 2 true 0)
    ((env.header.block.map (tlv (identifier 2 false 0))).getD []) (by omega)
  have hexplicit := tlv_length_le (identifier 2 true 1) env.bodyOrFault.der (by omega)
  have htags : writtenTags [64] .plain 0 = [64] := rfl
  have hseq := sequenceEncodeDer_encodes htags (.present (header_encodes h.header)
    (.one (bodyOrFault_encodes h.bodyOrFault))) (by decide)
    (by rw [List.length_append, Header.der]; omega)
  exact hseq

/- Both sides leave the header out. -/
theorem headless_encodes {bof : BodyOrFault} (h : bof.Below (2 ^ 31)) :
    Encodes (envelopeEncodeDer ⟨⟨none⟩, bof⟩) (Envelope.der ⟨⟨none⟩, bof⟩) :=
  envelope_encodes ⟨optionBelow_none _, h⟩

/-- Without a body or a fault there is no encoding. -/
theorem envelope_nothing (header : Header) (bufferSize : ℕ) :
    derEncodeToBuffer (envelopeEncodeDer ⟨header, .nothing⟩) bufferSize = none := by
  have hbof : bodyOrFaultEncodeDer .nothing none = none := rfl
  have hestimate : estimateMembers [some (headerEncodeDer header),
      some (bodyOrFaultEncodeDer .nothing)] = none := by
    simp only [estimateMembers, hbof, Option.bind_eq_bind, Option.bind_none, Option.bind_fun_none]
  simp only [derEncodeToBuffer, envelopeEncodeDer, sequenceEncodeDer, hestimate,
    Option.bind_eq_bind, Option.bind_none]

/-! ### The decoder reads them back -/

theorem octetMember_reads {tag optional : ℕ} {tags allTags : List ℕ} {set : σ → Bytes → σ}
    (st : σ) {contents : Bytes} (htags : tags.length = 1) (htag : berTagValue tag ≤ 30)
    (hlen : contents.length < 2 ^ 30) :
    (octetMember tag optional tags allTags set).Reads st
      (tlv (identifier (berTagClass tag) false (berTagValue tag)) contents) (set st contents) where
  nonempty := List.cons_ne_nil _ _
  tag rest := ⟨1, berFetchTag_tlv false contents rest htag⟩
  decode rest := by
    simp only [octetMember, octetStringDecodeBer_tlv rest htags htag hlen]

theorem primitiveMember_reads {tag optional : ℕ} {tags : List ℕ} {set : σ → Bytes → σ}
    (st : σ) {contents : Bytes} (htags : tags.length = 1) (htag : berTagValue tag ≤ 30)
    (hlen : contents.length < 2 ^ 31) :
    (primitiveMember tag optional tags set).Reads st
      (tlv (identifier (berTagClass tag) false (berTagValue tag)) contents) (set st contents) where
  nonempty := List.cons_ne_nil _ _
  tag rest := ⟨1, berFetchTag_tlv false contents rest htag⟩
  decode rest := by
    simp only [primitiveMember, berDecodePrimitive_tlv rest htags htag hlen]

theorem sequenceMember_reads {tag t : ℕ} {members : List (Member τ)} {get : σ → τ}
    {set : σ → τ → σ} (st : σ) {contents : Bytes} {v : τ}
    (hmembers : MembersRead members (get st) contents v) (htag : berTagValue tag ≤ 30)
    (hlen : contents.length < 2 ^ 62) :
    (sequenceMember tag [t] members get set).Reads st
      (tlv (identifier (berTagClass tag) true (berTagValue tag)) contents) (set st v) where
  nonempty := List.cons_ne_nil _ _
  tag rest := ⟨1, berFetchTag_tlv true contents rest htag⟩
  decode rest := by
    have hchain : tagChain [t] .implicit = [none] := rfl
    simp only [sequenceMember,
      sequenceDecodeBer_tlv rest hchain (Or.inl rfl) htag hlen hmembers, Option.map_some]

/- The alternative is found by its tag, and takes all of the encoding. -/
structure Alternative.Reads (alts : List (Alternative σ)) (alt : Alternative σ) (enc : Bytes)
    (st' : σ) : Prop where
  find : alts.find? (fun a => decide (a.tag = alt.tag)) = some alt
  tag : ∃ n, berFetchTag enc = .got n alt.tag
  decode : alt.decode enc = some (⟨.rcOk, enc.length⟩, st')

theorem sequenceAlternative_reads {alts : List (Alternative σ)} {tag t : ℕ}
    {members : List (Member τ)} {zero : τ} {inj : τ → σ} {contents : Bytes} {v : τ}
    (hfind : alts.find? (fun a => decide (a.tag = tag)) =
      some (sequenceAlternative tag [t] members zero inj))
    (hmembers : MembersRead members zero contents v) (htag : berTagValue tag ≤ 30)
    (hlen : contents.length < 2 ^ 62) :
    Alternative.Reads alts (sequenceAlternative tag [t] members zero inj)
      (tlv (identifier (berTagClass tag) true (berTagValue tag)) contents) (inj v) where
  find := hfind
  tag := by
    have hfetch := berFetchTag_tlv true contents [] htag
    rw [List.append_nil] at hfetch
    exact ⟨1, hfetch⟩
  decode := by
    have hchain : tagChain [t] .implicit = [none] := rfl
    have h := sequenceDecodeBer_tlv [] hchain (Or.inl rfl) htag hlen hmembers
    rw [List.append_nil] at h
    simp only [sequenceAlternative, h, Option.map_some]

theorem choiceAsMember_reads {tag : ℕ} {alts : List (Alternative τ)} {alt : Alternative τ}
    {get : σ → τ} {set : σ → τ → σ} (st : σ) {contents : Bytes} {v : τ}
    (h : Alternative.Reads alts alt contents v) (htag : berTagValue tag ≤ 30)
    (hlen : contents.length < 2 ^ 62) :
    (choiceAsMember tag alts get set).Reads st
      (tlv (identifier (berTagClass tag) true (berTagValue tag)) contents) (set st v) where
  nonempty := List.cons_ne_nil _ _
  tag rest := ⟨1, berFetchTag_tlv true contents rest htag⟩
  decode rest := by
    simp only [choiceAsMember,
      choiceDecodeBer_tlv rest htag hlen h.tag h.find h.decode, Option.map_some]

theorem MembersRead.one {m : Member σ} {st st' : σ} {enc : Bytes} (h : m.Reads st enc st') :
    MembersRead [m] st enc st' := by
  have hone := MembersRead.present h (.done st')
  rw [List.append_nil] at hone
  exact hone

theorem header_read {block : Option Bytes} (h : optionBelow (2 ^ 30) block) :
    MembersRead [headerBlock] ⟨none⟩ ((block.map (tlv (identifier 2 false 0))).getD [])
      ⟨block⟩ := by
  cases block with
  | none =>
    have hread : MembersRead [headerBlock] ⟨none⟩ [] ⟨none⟩ := .missing _ rfl
    exact hread
  | some b =>
    have hread : headerBlock.Reads ⟨none⟩ (tlv (identifier 2 false 0) b) ⟨some b⟩ :=
      octetMember_reads _ rfl (by decide) (h b rfl)
    exact .one hread

theorem body_read {body : Body} (h : body.Below (2 ^ 30)) :
    MembersRead [bodyType, bodyData] ⟨[], []⟩
      (tlv (identifier 2 false 0) body.type ++ tlv (identifier 2 false 1) body.data) body := by
  have htype : bodyType.Reads ⟨[], []⟩ (tlv (identifier 2 false 0) body.type) ⟨body.type, []⟩ :=
    octetMember_reads _ rfl (by decide) h.type
  have hdata : bodyData.Reads ⟨body.type, []⟩ (tlv (identifier 2 false 1) body.data) body :=
    octetMember_reads _ rfl (by decide) h.data
  exact .present htype (.one hdata)

theorem fault_read {fault : Fault} (h : fault.Below (2 ^ 30)) :
    MembersRead [faultCode, faultReason] ⟨[], none⟩
      (tlv (identifier 2 false 0) fault.code ++
        (fault.reason.map (tlv (identifier 2 false 1))).getD []) fault := by
  obtain ⟨code, reason⟩ := fault
  have hbelow : code.length < 2 ^ 31 := lt_trans h.code (by norm_num)
  have hcode : faultCode.Reads ⟨[], none⟩ (tlv (identifier 2 false 0) code) ⟨code, none⟩ :=
    primitiveMember_reads _ rfl (by decide) hbelow
  refine .present hcode ?_
  cases reason with
  | none =>
    have hread : MembersRead [faultReason] ⟨code, none⟩ [] ⟨code, none⟩ := .missing _ rfl
    exact hread
  | some reason =>
    have hread : faultReason.Reads ⟨code, none⟩ (tlv (identifier 2 false 1) reason)
        ⟨code, some reason⟩ :=
      octetMember_reads _ rfl (by decide) (h.reason reason rfl)
    exact .one hread

theorem bodyOrFault_read {bof : BodyOrFault} (h : bof.Below (2 ^ 30)) :
    ∃ alt, Alternative.Reads [bodyAlternative, faultAlternative] alt bof.der bof := by
  obtain ⟨hlen, hsize⟩ := bodyOrFault_der_length (h.mono (by norm_num))
  cases bof with
  | nothing => exact absurd h id
  | body b =>
    have hcontents := tlv_length_ge (identifier 2 true 0)
      (tlv (identifier 2 false 0) b.type ++ tlv (identifier 2 false 1) b.data)
    simp only [BodyOrFault.der, Body.der] at hlen ⊢
    have hread : Alternative.Reads [bodyAlternative, faultAlternative] bodyAlternative _ _ :=
      sequenceAlternative_reads rfl (body_read h) (by decide) (by omega)
    exact ⟨bodyAlternative, hread⟩
  | fault f =>
    have hcontents := tlv_length_ge (identifier 2 true 1)
      (tlv (identifier 2 false 0) f.code ++ (f.reason.map (tlv (identifier 2 false 1))).getD [])
    simp only [BodyOrFault.der, Fault.der, h.minimal] at hlen ⊢
    have hread : Alternative.Reads [bodyAlternative, faultAlternative] faultAlternative _ _ :=
      sequenceAlternative_reads rfl (fault_read h) (by decide) (by omega)
    exact ⟨faultAlternative, hread⟩

/-- What was encoded is read back whole. -/
theorem berDecodeEnvelope_der {env : Envelope} (h : env.Below (2 ^ 30)) :
    berDecodeEnvelope env.der = some (⟨.rcOk, env.der.length⟩, env) := by
  obtain ⟨hlen, hsize⟩ := bodyOrFault_der_length (h.bodyOrFault.mono (by norm_num))
  have hblock := optionBelow_length (optionBelow_mono (by norm_num) h.header)
  have hinner := optionTlv_length (identifier 2 false 0) (optionBelow_mono (by norm_num) h.header)
  have hheaderLen := tlv_length_le (identifier 2 true 0)
    ((env.header.block.map (tlv (identifier 2 false 0))).getD []) (by omega)
  have hexplicit := tlv_length_le (identifier 2 true 1) env.bodyOrFault.der (by omega)
  obtain ⟨alt, halt⟩ := bodyOrFault_read h.bodyOrFault
  have hheader : envelopeHeader.Reads emptyEnvelope env.header.der ⟨env.header, .nothing⟩ :=
    sequenceMember_reads _ (header_read h.header) (by decide) (by omega)
  have hbof : envelopeBodyOrFault.Reads ⟨env.header, .nothing⟩
      (tlv (identifier 2 true 1) env.bodyOrFault.der) env :=
    choiceAsMember_reads _ halt (by decide) (by omega)
  have hchain : tagChain [64] .plain = [some 64] := rfl
  have hdecode := sequenceDecodeBer_tlv [] hchain (Or.inr rfl) (by decide)
    (by rw [List.length_append, Header.der]; omega) (.present hheader (.one hbof))
  rw [List.append_nil] at hdecode
  exact hdecode

/-! ### What any frame can leave -/

/- The outermost tag and length, as `SEQUENCE_decode_ber` checks them. -/
def headAccepted (bs : Bytes) : Prop :=
  (berCheckTags true [64] .plain (some true) bs).rval.code = .rcOk

instance (bs : Bytes) : Decidable (headAccepted bs) :=
  inferInstanceAs (Decidable ((berCheckTags true [64] .plain (some true) bs).rval.code = .rcOk))

def BodyOrFault.BodyBelow (bof : BodyOrFault) : Prop := ∀ b, bof = .body b → b.Below (2 ^ 30)

theorem bodyAlternative_short {bs : Bytes} {rval : DecRval} {bof : BodyOrFault}
    (hbs : bs.length < 2 ^ 32) (h : bodyAlternative.decode bs = some (rval, bof)) :
    bof.BodyBelow := by
  obtain ⟨⟨r, body⟩, hseq, he⟩ := Option.map_eq_some_iff.mp h
  cases he
  have hempty : Body.Below (2 ^ 30) ⟨[], []⟩ := ⟨Nat.two_pow_pos 30, Nat.two_pow_pos 30⟩
  have hmembers : ∀ m ∈ [bodyType, bodyData], ∀ st bs rval st', bs.length < 2 ^ 32 →
      Body.Below (2 ^ 30) st → m.decode st bs = some (rval, st') → Body.Below (2 ^ 30) st' := by
    intro m hm st bs rval st' hlt hst hdec
    rcases List.mem_cons.mp hm with rfl | hm
    · cases hdec
      exact ⟨octetStringDecodeBer_length hlt, hst.data⟩
    · rw [List.mem_singleton.mp hm] at hdec
      cases hdec
      exact ⟨hst.type, octetStringDecodeBer_length hlt⟩
  have hchain : tagChain [2] .implicit = [none] := rfl
  have hbelow := (sequenceDecodeBer_keeps hchain hmembers hbs hempty hseq).1
  intro b hb
  cases hb
  exact hbelow

theorem faultAlternative_short {bs : Bytes} {rval : DecRval} {bof : BodyOrFault}
    (h : faultAlternative.decode bs = some (rval, bof)) : bof.BodyBelow := by
  obtain ⟨⟨r, fault⟩, -, he⟩ := Option.map_eq_some_iff.mp h
  cases he
  intro b hb
  cases hb

theorem berDecodeEnvelope_below {bs : Bytes} {r : DecRval} {env : Envelope}
    (hbs : bs.length < 2 ^ 32) (h : berDecodeEnvelope bs = some (r, env)) :
    env.bodyOrFault.BodyBelow := by
  have hempty : emptyEnvelope.bodyOrFault.BodyBelow := by
    intro b hb
    cases hb
  have hmembers : ∀ m ∈ [envelopeHeader, envelopeBodyOrFault], ∀ st bs rval st',
      bs.length < 2 ^ 32 → st.bodyOrFault.BodyBelow → m.decode st bs = some (rval, st') →
      st'.bodyOrFault.BodyBelow := by
    intro m hm st bs rval st' hlt hst hdec
    rcases List.mem_cons.mp hm with rfl | hm
    · obtain ⟨⟨r, header⟩, -, he⟩ := Option.map_eq_some_iff.mp hdec
      cases he
      exact hst
    · rw [List.mem_singleton.mp hm] at hdec
      obtain ⟨⟨r, bof⟩, hchoice, he⟩ := Option.map_eq_some_iff.mp hdec
      cases he
      refine choiceDecodeBer_keeps (P := BodyOrFault.BodyBelow) ?_ hlt hst hchoice
      intro alt halt bs rval st' hlt' hdec'
      rcases List.mem_cons.mp halt with rfl | halt
      · exact bodyAlternative_short hlt' hdec'
      · rw [List.mem_singleton.mp halt] at hdec'
        exact faultAlternative_short hdec'
  have hchain : tagChain [64] .plain = [some 64] := rfl
  exact (sequenceDecodeBer_keeps (P := fun env : Envelope => env.bodyOrFault.BodyBelow) hchain
    hmembers hbs hempty h).1

/-- Nothing is consumed exactly where the outermost header is refused. -/
theorem berDecodeEnvelope_consumed {bs : Bytes} {r : DecRval} {env : Envelope}
    (h : berDecodeEnvelope bs = some (r, env)) : r.consumed = 0 ↔ ¬ headAccepted bs := by
  have hchain : tagChain [64] .plain = [some 64] := rfl
  have hbs : bs.length < bs.length + 1 := Nat.lt_succ_self _
  exact (sequenceDecodeBer_keeps (P := fun _ => True) hchain (fun _ _ _ _ _ _ _ _ _ => trivial)
    hbs trivial h).2

theorem berDecodeEnvelope_ok {bs : Bytes} {r : DecRval} {env : Envelope}
    (h : berDecodeEnvelope bs = some (r, env)) (hr : r.code = .rcOk) : headAccepted bs :=
  sequenceDecodeBer_ok h hr

end Fws
