import Fws.Asn1.TlvCodec
import Fws.Networking.Platform

/-!
# The leading tags of a value (asn1c/ber_decoder.c, asn1c/asn_codecs_prim.c)

A buffer with its size is the list of the bytes that are left in it. Every
decoder is entered once on a zeroed structure, so its restart context is not
part of its state.
-/

namespace Fws
open Base.Digits Base.Tlv

inductive RcCode where
  | rcOk
  | rcWmore
  | rcFail
  deriving DecidableEq, Repr

structure DecRval where
  code : RcCode
  consumed : ℕ
  deriving DecidableEq, Repr

/- The `LEFT` bytes: those of the buffer, or of the structure where it ends first. -/
def leftOf (left : ℤ) (bs : Bytes) : Bytes := if left < 0 then bs else bs.take left.toNat

theorem leftOf_length_le (left : ℤ) (bs : Bytes) : (leftOf left bs).length ≤ bs.length := by
  unfold leftOf
  split
  · exact Nat.le_refl _
  · exact List.length_take_le' _ _

/- `tag_mode`: -1, 0 and +1. -/
inductive TagMode where
  | implicit
  | plain
  | explicit
  deriving DecidableEq, Repr

/- The tags that are looked for, outermost first. The one that comes from the
member instead of the type is taken unseen. -/
def tagChain (tags : List ℕ) : TagMode → List (Option ℕ)
  | .plain => tags.map some
  | .implicit => none :: tags.tail.map some
  | .explicit => none :: tags.map some

structure TagState where
  bs : Bytes
  consumed : ℕ
  limitLen : ℤ
  expect00 : ℕ
  tlvLen : ℤ
  tlvConstr : Bool

/- One turn of the loop of `ber_check_tags`. -/
def checkTag (lastTagForm : Option Bool) (tag : Option ℕ) (last : Bool) (s : TagState) :
    Except RcCode TagState :=
  match berFetchTag s.bs with
  | .failed => .error .rcFail
  | .more => .error .rcWmore
  | .got tagLen tlvTag =>
    let tlvConstr := berTlvConstructed s.bs
    if tag ≠ none ∧ tag ≠ some tlvTag then .error .rcFail
    else if (if last then lastTagForm ≠ none ∧ lastTagForm ≠ some tlvConstr
        else tlvConstr = false) then .error .rcFail
    else
      match berFetchLength tlvConstr (s.bs.drop tagLen) with
      | .failed => .error .rcFail
      | .more => .error .rcWmore
      | .got lenLen tlvLen =>
        let head := tagLen + lenLen
        let rest := s.bs.drop head
        let consumed := s.consumed + head
        if tlvLen = -1 then
          if s.limitLen = -1 then
            .ok ⟨rest, consumed, s.limitLen, s.expect00 + 1, tlvLen, tlvConstr⟩
          else .error .rcFail
        else if s.expect00 ≠ 0 then .error .rcFail
        else
          let limitLen := tlvLen + head
          if (if s.limitLen = -1 then 2 ^ 63 ≤ limitLen else s.limitLen ≠ limitLen) then
            .error .rcFail
          else
            let limitLen := limitLen - head
            .ok ⟨if limitLen < rest.length then rest.take limitLen.toNat else rest, consumed,
              limitLen, s.expect00, tlvLen, tlvConstr⟩

structure TagsRead where
  rval : DecRval
  lastLength : ℤ
  tlvForm : Bool

def checkTags (lastTagForm : Option Bool) : List (Option ℕ) → TagState → TagsRead
  | [], s =>
    ⟨⟨.rcOk, s.consumed⟩, if s.expect00 ≠ 0 then -s.expect00 else s.tlvLen, s.tlvConstr⟩
  | tag :: tags, s =>
    match checkTag lastTagForm tag tags.isEmpty s with
    | .error code => ⟨⟨code, s.consumed⟩, 0, false⟩
    | .ok s => checkTags lastTagForm tags s

/- Without a context, a failure reports nothing as consumed. -/
def berCheckTags (optCtx : Bool) (tags : List ℕ) (tagMode : TagMode) (lastTagForm : Option Bool)
    (bs : Bytes) : TagsRead :=
  let r := checkTags lastTagForm (tagChain tags tagMode) ⟨bs, 0, -1, 0, -1, false⟩
  if r.rval.code = .rcOk ∨ optCtx then r else { r with rval := ⟨r.rval.code, 0⟩ }

/- The content octets are copied; their number is an `int`. -/
def berDecodePrimitive (tags : List ℕ) (tagMode : TagMode) (bs : Bytes) : DecRval × Bytes :=
  let r := berCheckTags false tags tagMode (some false) bs
  if r.rval.code ≠ .rcOk then (r.rval, [])
  else
    let bs := bs.drop r.rval.consumed
    let length := r.lastLength
    if bs.length < length then (⟨.rcWmore, 0⟩, [])
    else if cInt length ≠ length then (⟨.rcFail, 0⟩, [])
    else (⟨.rcOk, r.rval.consumed + length.toNat⟩, bs.take length.toNat)

/-! ### Chains of one tag -/

theorem checkTag_error {lastTagForm : Option Bool} {tag : Option ℕ} {last : Bool} {s : TagState}
    {code : RcCode} (h : checkTag lastTagForm tag last s = .error code) : code ≠ .rcOk := by
  unfold checkTag at h
  rcases htag : berFetchTag s.bs with _ | _ | ⟨tagLen, tlvTag⟩
  · simp only [htag] at h
    cases h
    decide
  · simp only [htag] at h
    cases h
    decide
  · rcases hlen : berFetchLength (berTlvConstructed s.bs) (s.bs.drop tagLen) with
      _ | _ | ⟨lenLen, tlvLen⟩
    all_goals
      simp only [htag, hlen] at h
      split_ifs at h
      all_goals
        cases h
        decide

theorem checkTag_ok {lastTagForm : Option Bool} {tag : Option ℕ} {s t : TagState}
    (h : checkTag lastTagForm tag true s = .ok t) :
    s.consumed + 2 ≤ t.consumed ∧ t.consumed ≤ s.consumed + s.bs.length ∧
      (t.expect00 = s.expect00 + 1 ∧ t.tlvConstr = true ∨
        t.expect00 = s.expect00 ∧ 0 ≤ t.tlvLen) := by
  unfold checkTag at h
  rcases htag : berFetchTag s.bs with _ | _ | ⟨tagLen, tlvTag⟩
  · rw [htag] at h
    cases h
  · rw [htag] at h
    cases h
  · have ht := berFetchTag_got htag
    rcases hlen : berFetchLength (berTlvConstructed s.bs) (s.bs.drop tagLen) with
      _ | _ | ⟨lenLen, tlvLen⟩
    · simp only [htag, hlen] at h
      split_ifs at h
    · simp only [htag, hlen] at h
      split_ifs at h
    · obtain ⟨hlo, hhi, hvalue⟩ := berFetchLength_got hlen
      rw [List.length_drop] at hhi
      simp only [htag, hlen] at h
      by_cases hindef : tlvLen = -1
      · have hconstr : berTlvConstructed s.bs = true := by
          rcases hvalue with ⟨-, hc⟩ | hge
          · exact hc
          · omega
        simp only [if_pos hindef] at h
        split_ifs at h
        all_goals
          cases h
          exact ⟨by simp only; omega, by simp only; omega, Or.inl ⟨rfl, hconstr⟩⟩
      · have hge : 0 ≤ tlvLen := by
          rcases hvalue with ⟨hm, -⟩ | hge
          · exact absurd hm hindef
          · exact hge
        simp only [if_neg hindef] at h
        split_ifs at h
        all_goals
          cases h
          exact ⟨by simp only; omega, by simp only; omega, Or.inr ⟨rfl, hge⟩⟩

/-- What a single header answers: on failure nothing is consumed, and otherwise
the length is indefinite, with the constructed form, or not negative. -/
theorem berCheckTags_one (optCtx : Bool) {tags : List ℕ} {tagMode : TagMode}
    (lastTagForm : Option Bool) (bs : Bytes) {tag : Option ℕ}
    (htags : tagChain tags tagMode = [tag]) :
    (berCheckTags optCtx tags tagMode lastTagForm bs).rval.code ≠ .rcOk ∧
        (berCheckTags optCtx tags tagMode lastTagForm bs).rval.consumed = 0 ∨
      (berCheckTags optCtx tags tagMode lastTagForm bs).rval.code = .rcOk ∧
        2 ≤ (berCheckTags optCtx tags tagMode lastTagForm bs).rval.consumed ∧
        (berCheckTags optCtx tags tagMode lastTagForm bs).rval.consumed ≤ bs.length ∧
        ((berCheckTags optCtx tags tagMode lastTagForm bs).lastLength = -1 ∧
            (berCheckTags optCtx tags tagMode lastTagForm bs).tlvForm = true ∨
          0 ≤ (berCheckTags optCtx tags tagMode lastTagForm bs).lastLength) := by
  simp only [berCheckTags, htags, checkTags, List.isEmpty_nil]
  rcases hstep : checkTag lastTagForm tag true ⟨bs, 0, -1, 0, -1, false⟩ with code | t
  · left
    have hcode := checkTag_error hstep
    simp only
    split_ifs
    · exact ⟨hcode, rfl⟩
    · exact ⟨hcode, rfl⟩
  · right
    have ht := checkTag_ok hstep
    simp only [true_or, if_true]
    refine ⟨trivial, by omega, by simpa using ht.2.1, ?_⟩
    rcases ht.2.2 with ⟨h0, hc⟩ | ⟨h0, hlen⟩
    · left
      simp only [h0]
      exact ⟨rfl, hc⟩
    · right
      simp only [h0]
      exact hlen

/-- The header of a definite-length value. -/
theorem berCheckTags_tlv (optCtx : Bool) {tags : List ℕ} {tagMode : TagMode}
    {lastTagForm : Option Bool} {expected : Option ℕ} {tag : ℕ} {constructed : Bool} {n : ℕ}
    (rest : Bytes)
    (htags : tagChain tags tagMode = [expected]) (hexpected : expected = none ∨ expected = some tag)
    (hform : lastTagForm = none ∨ lastTagForm = some constructed) (htag : berTagValue tag ≤ 30)
    (hn : n < 2 ^ 62) :
    berCheckTags optCtx tags tagMode lastTagForm
        (identifier (berTagClass tag) constructed (berTagValue tag) :: lengthOctets n ++ rest) =
      ⟨⟨.rcOk, 1 + (lengthOctets n).length⟩, n, constructed⟩ := by
  have hfetch := berFetchTag_identifier constructed (lengthOctets n ++ rest) htag
  have hconstr := berTlvConstructed_identifier constructed (lengthOctets n ++ rest) htag
  have hlen := berFetchLength_octets (n := n) constructed rest (by omega)
  have hocts := lengthOctets_length_le (n := n) (k := 8) (by norm_num) (by norm_num; omega)
  have h1 : ¬ (expected ≠ none ∧ expected ≠ some tag) := by
    intro hoctets
    obtain ⟨h1, h2⟩ := hoctets
    exact hexpected.elim h1 h2
  have h2 : ¬ (lastTagForm ≠ none ∧ lastTagForm ≠ some constructed) := by
    intro hoctets
    obtain ⟨h1, h2⟩ := hoctets
    exact hform.elim h1 h2
  have h3 : ¬ ((n : ℤ) = -1) := by omega
  have h4 : ¬ ((2 : ℤ) ^ 63 ≤ (n : ℤ) + ((1 + (lengthOctets n).length : ℕ) : ℤ)) := by
    push_cast
    omega
  simp only [berCheckTags, htags, checkTags, List.isEmpty_nil, checkTag, List.cons_append, hfetch,
    hconstr, List.drop_succ_cons, List.drop_zero, hlen, if_neg h1, if_true, if_neg h2, if_neg h3,
    ne_eq, not_true_eq_false, if_false, if_neg h4, true_or, Nat.zero_add]

theorem berFetchTag_tlv {tag : ℕ} (constructed : Bool) (contents rest : Bytes)
    (htag : berTagValue tag ≤ 30) :
    berFetchTag
        (tlv (identifier (berTagClass tag) constructed (berTagValue tag)) contents ++ rest) =
      .got 1 tag := by
  rw [tlv_append, List.cons_append]
  exact berFetchTag_identifier constructed _ htag

theorem berDecodePrimitive_tlv {tags : List ℕ} {tag : ℕ} {contents : Bytes} (rest : Bytes)
    (htags : tags.length = 1) (htag : berTagValue tag ≤ 30) (hlen : contents.length < 2 ^ 31) :
    berDecodePrimitive tags .implicit
        (tlv (identifier (berTagClass tag) false (berTagValue tag)) contents ++ rest) =
      (⟨.rcOk, (tlv (identifier (berTagClass tag) false (berTagValue tag)) contents).length⟩,
        contents) := by
  obtain ⟨t, rfl⟩ := List.length_eq_one_iff.mp htags
  have hchain : tagChain [t] .implicit = [none] := rfl
  have hform : (some false : Option Bool) = none ∨ some false = some false := Or.inr rfl
  have hcheck := berCheckTags_tlv false (contents ++ rest) hchain (Or.inl rfl) hform htag
    (show contents.length < 2 ^ 62 by omega)
  have hshort : ¬ (((contents ++ rest).length : ℕ) : ℤ) < (contents.length : ℤ) := by
    rw [List.length_append]
    omega
  have hint : cInt contents.length = contents.length := cInt_of_range (by omega) (by omega)
  rw [tlv_append]
  simp only [berDecodePrimitive, hcheck, ne_eq, not_true_eq_false, if_false, drop_header,
    if_neg hshort, hint, Int.toNat_natCast, List.take_left' rfl, tlv_length]

end Fws
