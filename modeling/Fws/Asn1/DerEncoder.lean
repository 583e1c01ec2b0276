import Fws.Asn1.BerDecoder

/-!
# Encoding (asn1c/der_encoder.c and the encoders of the types)

An encoder is called without a callback to learn a size, and with one to write.
Its result is the size it reports; `none` is the failure `-1`.
-/

namespace Fws
open Base.Digits Base.Tlv

/- `enc_to_buf_arg`: what has been stored so far, and the room that is left. -/
structure Sink where
  written : Bytes
  left : ℕ
  deriving DecidableEq, Repr

abbrev Enc := Option Sink → Option (ℕ × Option Sink)

def Sink.put (arg : Sink) (bs : Bytes) : Sink := ⟨arg.written ++ bs, arg.left - bs.length⟩

def encodeToBufferCb (arg : Sink) (bs : Bytes) : Option Sink :=
  if arg.left < bs.length then none else some (arg.put bs)

def setConstructed : Bytes → Bytes
  | [] => []
  | b :: bs => (b ||| 0x20) :: bs

def derWriteTL (tag len : ℕ) (constructed : Bool) : Enc := fun cb =>
  let buf := berTlvTagSerialize tag ++ derTlvLengthSerialize len
  let size := buf.length
  if 32 < size then none
  else
    match cb with
    | none => some (size, none)
    | some arg =>
      (encodeToBufferCb arg (if constructed then setConstructed buf else buf)).map fun arg =>
        (size, some arg)

/- The tag of the member replaces the outermost tag of the type, or stands
before all of them. -/
def writtenTags (tags : List ℕ) (tagMode : TagMode) (tag : ℕ) : List ℕ :=
  match tagMode with
  | .plain => tags
  | .implicit => tag :: tags.tail
  | .explicit => tag :: tags

/- The length that each tag carries, computed from the right. -/
def tagLengths : List ℕ → ℕ → Option (ℕ × List (ℕ × ℕ))
  | [], overall => some (overall, [])
  | tag :: tags, structLength => do
    let (overall, lens) ← tagLengths tags structLength
    let (len, _) ← derWriteTL tag overall false none
    some (overall + len, (tag, overall) :: lens)

def writeTLs (lastTagForm : Bool) : List (ℕ × ℕ) → Option Sink → Option (Option Sink)
  | [], cb => some cb
  | (tag, len) :: tls, cb => do
    let (_, cb) ← derWriteTL tag len (lastTagForm || !tls.isEmpty) cb
    writeTLs lastTagForm tls cb

def derWriteTags (tags : List ℕ) (structLength : ℕ) (tagMode : TagMode) (lastTagForm : Bool)
    (tag : ℕ) : Enc := fun cb => do
  let (overall, lens) ← tagLengths (writtenTags tags tagMode tag) structLength
  match cb with
  | none => some (overall - structLength, none)
  | some arg => do
    let cb ← writeTLs lastTagForm lens (some arg)
    some (overall - structLength, cb)

/- The tags and then the contents, in primitive form. -/
def contentsEncodeDer (tags : List ℕ) (contents : Bytes) (tagMode : TagMode) (tag : ℕ) : Enc :=
  fun cb => do
    let (encoded, cb) ← derWriteTags tags contents.length tagMode false tag cb
    match cb with
    | none => some (encoded + contents.length, none)
    | some arg =>
      (encodeToBufferCb arg contents).map fun arg => (encoded + contents.length, some arg)

def octetStringEncodeDer (tags : List ℕ) (st : Bytes) (tagMode : TagMode) (tag : ℕ) : Enc :=
  contentsEncodeDer tags st tagMode tag

def derEncodePrimitive (tags : List ℕ) (st : Bytes) (tagMode : TagMode) (tag : ℕ) : Enc :=
  contentsEncodeDer tags st tagMode tag

/- Superfluous leading octets: zeros, or sign bits that the next octet repeats. -/
def integerStrip : Bytes → Bytes
  | [] => []
  | [b] => [b]
  | b :: b' :: bs =>
    if (b = 0 ∧ b'.toNat < 128) ∨ (b = 255 ∧ 128 ≤ b'.toNat) then integerStrip (b' :: bs)
    else b :: b' :: bs

def integerEncodeDer (tags : List ℕ) (st : Bytes) (tagMode : TagMode) (tag : ℕ) : Enc :=
  derEncodePrimitive tags (integerStrip st) tagMode tag

def asnLong2INTEGER (value : ℤ) : Bytes := integerStrip (beBytes 8 (value % 2 ^ 64).toNat)

/-! ### SEQUENCE and CHOICE

A member that is an absent pointer is `none`; such members are optional. -/

def estimateMembers : List (Option Enc) → Option ℕ
  | [] => some 0
  | none :: ms => estimateMembers ms
  | some e :: ms => do
    let (encoded, _) ← e none
    let rest ← estimateMembers ms
    some (encoded + rest)

def encodeMembers : List (Option Enc) → ℤ → Option Sink → Option (ℤ × Option Sink)
  | [], computedSize, cb => some (computedSize, cb)
  | none :: ms, computedSize, cb => encodeMembers ms computedSize cb
  | some e :: ms, computedSize, cb => do
    let (encoded, cb) ← e cb
    encodeMembers ms (computedSize - encoded) cb

def sequenceEncodeDer (tags : List ℕ) (members : List (Option Enc)) (tagMode : TagMode)
    (tag : ℕ) : Enc := fun cb => do
  let computedSize ← estimateMembers members
  let (ret, cb) ← derWriteTags tags computedSize tagMode true tag cb
  match cb with
  | none => some (computedSize + ret, none)
  | some arg => do
    let (leftover, cb) ← encodeMembers members computedSize (some arg)
    if leftover ≠ 0 then none else some (computedSize + ret, cb)

/- Nothing is encoded where no alternative is present. -/
def choiceEncodeDer (tags : List ℕ) (present : Option Enc) (tagMode : TagMode) (tag : ℕ) : Enc :=
  fun cb => do
    let e ← present
    if tagMode = .explicit ∨ tags ≠ [] then
      let (encoded, _) ← e none
      let (computedSize, cb) ← derWriteTags tags encoded tagMode true tag cb
      let (encoded, cb) ← e cb
      some (encoded + computedSize, cb)
    else e cb

/- The number of bytes encoded and the contents of the buffer. -/
def derEncodeToBuffer (e : Enc) (bufferSize : ℕ) : Option (ℕ × Bytes) :=
  match e (some ⟨[], bufferSize⟩) with
  | some (encoded, some arg) => some (encoded, arg.written)
  | _ => none

/-! ### What an encoder writes -/

/-- The encoder writes exactly `bs`, and fails where the room is too small. -/
structure Encodes (e : Enc) (bs : Bytes) : Prop where
  size : e none = some (bs.length, none)
  fits : ∀ arg : Sink, bs.length ≤ arg.left → e (some arg) = some (bs.length, some (arg.put bs))
  overflow : ∀ arg : Sink, arg.left < bs.length → e (some arg) = none

@[simp] theorem Sink.put_left (arg : Sink) (bs : Bytes) :
    (arg.put bs).left = arg.left - bs.length := rfl

theorem Sink.put_append (arg : Sink) (xs ys : Bytes) :
    (arg.put xs).put ys = arg.put (xs ++ ys) := by
  simp only [Sink.put, List.append_assoc, List.length_append, Nat.sub_sub]

theorem encodeToBufferCb_fits {arg : Sink} {bs : Bytes} (h : bs.length ≤ arg.left) :
    encodeToBufferCb arg bs = some (arg.put bs) :=
  if_neg (not_lt.mpr h)

theorem encodeToBufferCb_overflow {arg : Sink} {bs : Bytes} (h : arg.left < bs.length) :
    encodeToBufferCb arg bs = none :=
  if_pos h

/-- A buffer takes an encoding that fits, and no other. -/
theorem derEncodeToBuffer_eq {e : Enc} {bs : Bytes} (h : Encodes e bs) (bufferSize : ℕ) :
    derEncodeToBuffer e bufferSize =
      if bs.length ≤ bufferSize then some (bs.length, bs) else none := by
  unfold derEncodeToBuffer
  by_cases hle : bs.length ≤ bufferSize
  · rw [h.fits ⟨[], bufferSize⟩ hle, if_pos hle]
    rfl
  · rw [h.overflow ⟨[], bufferSize⟩ (not_le.mp hle), if_neg hle]

theorem setConstructed_identifier {tagClass number : ℕ} (hc : tagClass < 4) (hn : number < 31)
    (bs : Bytes) :
    setConstructed (identifier tagClass false number :: bs) =
      identifier tagClass true number :: bs := by
  have hall : ∀ c : Fin 4, ∀ n : Fin 31,
      identifier c false n ||| 0x20 = identifier c true n := by decide
  rw [setConstructed, hall ⟨tagClass, hc⟩ ⟨number, hn⟩]

theorem derWriteTL_encodes {tag len : ℕ} (constructed : Bool) (htag : berTagValue tag ≤ 30)
    (hlen : len < 2 ^ 64) :
    Encodes (derWriteTL tag len constructed)
      (identifier (berTagClass tag) constructed (berTagValue tag) :: lengthOctets len) := by
  have hc : berTagClass tag < 4 := Nat.mod_lt _ (by norm_num)
  have hocts := lengthOctets_length_le (n := len) (k := 8) (by norm_num) (by norm_num; omega)
  have hbuf : berTlvTagSerialize tag ++ derTlvLengthSerialize len =
      identifier (berTagClass tag) false (berTagValue tag) :: lengthOctets len := by
    rw [berTlvTagSerialize_short htag, derTlvLengthSerialize_eq hlen]
    rfl
  have hstored : (if constructed then
      setConstructed (identifier (berTagClass tag) false (berTagValue tag) :: lengthOctets len)
      else identifier (berTagClass tag) false (berTagValue tag) :: lengthOctets len) =
      identifier (berTagClass tag) constructed (berTagValue tag) :: lengthOctets len := by
    cases constructed with
    | false => rfl
    | true => exact setConstructed_identifier hc (by omega) _
  have hsize : ¬ 32 < (lengthOctets len).length + 1 := by omega
  constructor
  · simp only [derWriteTL, hbuf, List.length_cons, if_neg hsize]
  · intro arg harg
    simp only [derWriteTL, hbuf, List.length_cons, if_neg hsize, hstored,
      encodeToBufferCb_fits harg, Option.map_some]
  · intro arg harg
    simp only [derWriteTL, hbuf, List.length_cons, if_neg hsize, hstored,
      encodeToBufferCb_overflow harg, Option.map_none]

/-- A single tag is written as the header of the contents that follow. -/
theorem derWriteTags_encodes {tags : List ℕ} {structLength tag : ℕ} {tagMode : TagMode} {t : ℕ}
    (lastTagForm : Bool) (htags : writtenTags tags tagMode tag = [t]) (ht : berTagValue t ≤ 30)
    (hlen : structLength < 2 ^ 64) :
    Encodes (derWriteTags tags structLength tagMode lastTagForm tag)
      (identifier (berTagClass t) lastTagForm (berTagValue t) :: lengthOctets structLength) := by
  have hestimate := derWriteTL_encodes false ht hlen
  have hwrite := derWriteTL_encodes lastTagForm ht hlen
  have hlens : tagLengths [t] structLength =
      some (structLength + ((lengthOctets structLength).length + 1), [(t, structLength)]) := by
    simp only [tagLengths, Option.bind_eq_bind, Option.bind_some, hestimate.size, List.length_cons]
  have hform : (lastTagForm || !([] : List (ℕ × ℕ)).isEmpty) = lastTagForm := by
    simp only [List.isEmpty_nil, Bool.not_true, Bool.or_false]
  constructor
  · simp only [derWriteTags, htags, hlens, Option.bind_eq_bind, Option.bind_some,
      Nat.add_sub_cancel_left, List.length_cons]
  · intro arg harg
    simp only [derWriteTags, htags, hlens, Option.bind_eq_bind, Option.bind_some, writeTLs, hform,
      hwrite.fits arg harg, Nat.add_sub_cancel_left, List.length_cons]
  · intro arg harg
    simp only [derWriteTags, htags, hlens, Option.bind_eq_bind, Option.bind_some, writeTLs, hform,
      hwrite.overflow arg harg, Option.bind_none]

theorem contentsEncodeDer_encodes {tags : List ℕ} {contents : Bytes} {tagMode : TagMode}
    {tag t : ℕ} (htags : writtenTags tags tagMode tag = [t]) (ht : berTagValue t ≤ 30)
    (hlen : contents.length < 2 ^ 64) :
    Encodes (contentsEncodeDer tags contents tagMode tag)
      (tlv (identifier (berTagClass t) false (berTagValue t)) contents) := by
  have hhead := derWriteTags_encodes false htags ht hlen
  generalize hid : identifier (berTagClass t) false (berTagValue t) = id at hhead ⊢
  have hsize : (tlv id contents).length =
      (id :: lengthOctets contents.length).length + contents.length := by
    rw [tlv, List.length_append]
  constructor
  · simp only [contentsEncodeDer, hhead.size, Option.bind_eq_bind, Option.bind_some, hsize]
  · intro arg harg
    have hfit := hhead.fits arg (by omega)
    have hrest : contents.length ≤ (arg.put (id :: lengthOctets contents.length)).left := by
      rw [Sink.put_left]
      omega
    simp only [contentsEncodeDer, hfit, Option.bind_eq_bind, Option.bind_some,
      encodeToBufferCb_fits hrest, Option.map_some, Sink.put_append, hsize]
    rfl
  · intro arg harg
    by_cases hfirst : (id :: lengthOctets contents.length).length ≤ arg.left
    · have hfit := hhead.fits arg hfirst
      have hrest : (arg.put (id :: lengthOctets contents.length)).left < contents.length := by
        rw [Sink.put_left]
        omega
      simp only [contentsEncodeDer, hfit, Option.bind_eq_bind, Option.bind_some,
        encodeToBufferCb_overflow hrest, Option.map_none]
    · simp only [contentsEncodeDer, hhead.overflow arg (not_le.mp hfirst), Option.bind_eq_bind,
        Option.bind_none]

theorem octetStringEncodeDer_encodes {u : ℕ} (t : ℕ) {st : Bytes} (ht : berTagValue t ≤ 30)
    (hlen : st.length < 2 ^ 64) :
    Encodes (octetStringEncodeDer [u] st .implicit t)
      (tlv (identifier (berTagClass t) false (berTagValue t)) st) := by
  have htags : writtenTags [u] .implicit t = [t] := rfl
  exact contentsEncodeDer_encodes htags ht hlen

theorem integerEncodeDer_encodes {u : ℕ} (t : ℕ) {st : Bytes} (ht : berTagValue t ≤ 30)
    (hlen : (integerStrip st).length < 2 ^ 64) :
    Encodes (integerEncodeDer [u] st .implicit t)
      (tlv (identifier (berTagClass t) false (berTagValue t)) (integerStrip st)) := by
  have htags : writtenTags [u] .implicit t = [t] := rfl
  exact contentsEncodeDer_encodes htags ht hlen

/-- The members that are present, one behind the other. -/
inductive MembersEncode : List (Option Enc) → Bytes → Prop where
  | nil : MembersEncode [] []
  | absent {ms bs} (h : MembersEncode ms bs) : MembersEncode (none :: ms) bs
  | present {e b ms bs} (he : Encodes e b) (h : MembersEncode ms bs) :
      MembersEncode (some e :: ms) (b ++ bs)

theorem estimateMembers_eq {ms : List (Option Enc)} {bs : Bytes} (h : MembersEncode ms bs) :
    estimateMembers ms = some bs.length := by
  induction h with
  | nil => rfl
  | absent h ih => exact ih
  | present he h ih =>
    simp only [estimateMembers, he.size, ih, Option.bind_eq_bind, Option.bind_some,
      List.length_append]

theorem encodeMembers_eq {ms : List (Option Enc)} {bs : Bytes} (h : MembersEncode ms bs)
    (computedSize : ℤ) (arg : Sink) :
    encodeMembers ms computedSize (some arg) =
      if bs.length ≤ arg.left then some (computedSize - bs.length, some (arg.put bs))
      else none := by
  induction h generalizing computedSize arg with
  | nil => simp [encodeMembers, Sink.put]
  | absent h ih => exact ih computedSize arg
  | present he h ih =>
    rename_i e b ms bs
    by_cases hfirst : b.length ≤ arg.left
    · simp only [encodeMembers, he.fits arg hfirst, Option.bind_eq_bind, Option.bind_some, ih,
        Sink.put_left, Sink.put_append, List.length_append]
      by_cases hrest : bs.length ≤ arg.left - b.length
      · rw [if_pos hrest, if_pos (by omega)]
        push_cast
        rw [sub_sub]
      · rw [if_neg hrest, if_neg (by omega)]
    · rw [List.length_append, if_neg (by omega)]
      simp only [encodeMembers, he.overflow arg (not_le.mp hfirst), Option.bind_eq_bind,
        Option.bind_none]

theorem MembersEncode.one {e : Enc} {b : Bytes} (h : Encodes e b) : MembersEncode [some e] b := by
  have hone := MembersEncode.present h .nil
  rw [List.append_nil] at hone
  exact hone

theorem sequenceEncodeDer_encodes {tags : List ℕ} {members : List (Option Enc)}
    {tagMode : TagMode} {tag t : ℕ} {bs : Bytes} (htags : writtenTags tags tagMode tag = [t])
    (hmembers : MembersEncode members bs) (ht : berTagValue t ≤ 30) (hlen : bs.length < 2 ^ 64) :
    Encodes (sequenceEncodeDer tags members tagMode tag)
      (tlv (identifier (berTagClass t) true (berTagValue t)) bs) := by
  have hhead := derWriteTags_encodes true htags ht hlen
  have hestimate := estimateMembers_eq hmembers
  generalize identifier (berTagClass t) true (berTagValue t) = id at hhead ⊢
  have hsize : (tlv id bs).length = bs.length + (id :: lengthOctets bs.length).length := by
    rw [tlv, List.length_append, Nat.add_comm]
  constructor
  · simp only [sequenceEncodeDer, hestimate, hhead.size, Option.bind_eq_bind, Option.bind_some,
      hsize]
  · intro arg harg
    have hfit := hhead.fits arg (by omega)
    have hrest : bs.length ≤ (arg.put (id :: lengthOctets bs.length)).left := by
      rw [Sink.put_left]
      omega
    simp only [sequenceEncodeDer, hestimate, hfit, Option.bind_eq_bind, Option.bind_some,
      encodeMembers_eq hmembers, if_pos hrest, sub_self, ne_eq, not_true_eq_false, if_false,
      Sink.put_append, hsize]
    rfl
  · intro arg harg
    by_cases hfirst : (id :: lengthOctets bs.length).length ≤ arg.left
    · have hfit := hhead.fits arg hfirst
      have hrest : ¬ bs.length ≤ (arg.put (id :: lengthOctets bs.length)).left := by
        rw [Sink.put_left]
        omega
      simp only [sequenceEncodeDer, hestimate, hfit, Option.bind_eq_bind, Option.bind_some,
        encodeMembers_eq hmembers, if_neg hrest, Option.bind_none]
    · simp only [sequenceEncodeDer, hestimate, hhead.overflow arg (not_le.mp hfirst),
        Option.bind_eq_bind, Option.bind_some, Option.bind_none]

/-- An explicit tag around the alternative. -/
theorem choiceEncodeDer_encodes {e : Enc} {tag : ℕ} {bs : Bytes} (he : Encodes e bs)
    (ht : berTagValue tag ≤ 30) (hlen : bs.length < 2 ^ 64) :
    Encodes (choiceEncodeDer [] (some e) .explicit tag)
      (tlv (identifier (berTagClass tag) true (berTagValue tag)) bs) := by
  have htags : writtenTags [] .explicit tag = [tag] := rfl
  have hhead := derWriteTags_encodes true htags ht hlen
  generalize identifier (berTagClass tag) true (berTagValue tag) = id at hhead ⊢
  have hsize : (tlv id bs).length = bs.length + (id :: lengthOctets bs.length).length := by
    rw [tlv, List.length_append, Nat.add_comm]
  unfold choiceEncodeDer
  simp only [Option.bind_eq_bind, Option.bind_some, true_or, if_true, he.size]
  constructor
  · simp only [hhead.size, Option.bind_some, he.size, hsize]
  · intro arg harg
    have hfit := hhead.fits arg (by omega)
    have hrest := he.fits (arg.put (id :: lengthOctets bs.length)) (by
      rw [Sink.put_left]
      omega)
    simp only [hfit, Option.bind_some, hrest, Sink.put_append, hsize]
    rfl
  · intro arg harg
    by_cases hfirst : (id :: lengthOctets bs.length).length ≤ arg.left
    · have hfit := hhead.fits arg hfirst
      have hrest := he.overflow (arg.put (id :: lengthOctets bs.length)) (by
        rw [Sink.put_left]
        omega)
      simp only [hfit, Option.bind_some, hrest, Option.bind_none]
    · simp only [hhead.overflow arg (not_le.mp hfirst), Option.bind_none]

end Fws
