import Fws.Asn1.BerHeaders
import Fws.Asn1.DerEncoder

/-!
# Tags and lengths, both ways

What the two fetches take, and what the two serializers write, for every tag and
length that has a form.
-/

namespace Fws
open Base.Digits Base.Tlv Base.Ber

/-! ### The digits of a tag -/

theorem shiftRight_digits (n step r : ℕ) : n >>> (step * r) = n / (2 ^ step) ^ r := by
  rw [Nat.shiftRight_eq_div_pow, pow_mul]

/-- The size loop counts digits, as long as it has rounds for them. -/
theorem sizeLoop_digits (step : ℕ) (hstep : 1 < 2 ^ step) (n rounds r : ℕ)
    (hlo : r ≤ Nat.log (2 ^ step) n + 1) (hhi : Nat.log (2 ^ step) n + 1 ≤ r + rounds) (hr : r ≠ 0) :
    sizeLoop n step rounds (step * r) r = Nat.log (2 ^ step) n + 1 := by
  induction rounds generalizing r with
  | zero =>
    rw [sizeLoop]
    omega
  | succ rounds ih =>
    rw [sizeLoop, shiftRight_digits]
    have hpos : 0 < (2 ^ step) ^ r := Nat.pow_pos (by omega)
    by_cases h : n / (2 ^ step) ^ r = 0
    · rw [if_neg (not_not.mpr h)]
      have hlt : n < (2 ^ step) ^ r := (Nat.div_eq_zero_iff_lt hpos).mp h
      have hlog := Nat.log_lt_of_lt_pow' hr hlt
      omega
    · rw [if_pos h]
      have hge : (2 ^ step) ^ r ≤ n := by
        by_contra hlt
        exact h (Nat.div_eq_of_lt (not_le.mp hlt))
      have hlog := Nat.le_log_of_pow_le hstep hge
      rw [← Nat.mul_succ]
      exact ih (r + 1) (by omega) (by omega) (by omega)

theorem tagOctets_length (tval r : ℕ) : (tagOctets tval r).length = r := by
  induction r with
  | zero => rfl
  | succ r ih => rw [tagOctets, List.length_cons, ih]

theorem tagOctets_form (tval r : ℕ) :
    TagOctets (tval % 128 ^ (r + 1)) (tagOctets tval (r + 1)) := by
  induction r with
  | zero =>
    rw [tagOctets, if_pos rfl, Nat.mul_zero, Nat.shiftRight_zero, Nat.zero_add, Nat.zero_add,
      pow_one]
    exact .last _ (Nat.mod_lt _ (by norm_num))
  | succ r ih =>
    have hmore := TagOctets.more (tval / 128 ^ (r + 1) % 128) (Nat.mod_lt _ (by norm_num)) ih
    have htotal : tval / 128 ^ (r + 1) % 128 * 128 ^ (r + 1) + tval % 128 ^ (r + 1) =
        tval % 128 ^ (r + 1 + 1) := by
      rw [pow_succ 128 (r + 1), Nat.mod_mul]
      ring
    rw [tagOctets_length, htotal] at hmore
    rw [tagOctets, if_neg (Nat.succ_ne_zero r), shiftRight_digits]
    exact hmore

theorem tagOctets_log_lt {n : ℕ} {octets : Bytes} (h : TagOctets n octets) :
    Nat.log 128 n + 1 ≤ octets.length :=
  Nat.log_lt_of_lt_pow' (Nat.pos_iff_ne_zero.mp h.pos) h.lt

theorem berTlvTagSerialize_long {tag : ℕ} (h : 30 < berTagValue tag) (htag : tag < 2 ^ 32) :
    berTlvTagSerialize tag = identifier (berTagClass tag) false 31 ::
      tagOctets (berTagValue tag) (Nat.log 128 (berTagValue tag) + 1) := by
  have hvalue : berTagValue tag < 2 ^ 30 := by
    unfold berTagValue
    omega
  have hlog : Nat.log 128 (berTagValue tag) < 5 :=
    Nat.log_lt_of_lt_pow' (by norm_num) (lt_trans hvalue (by norm_num))
  have hsize := sizeLoop_digits 7 (by norm_num) (berTagValue tag) 4 1
    (Nat.succ_le_succ (Nat.zero_le _)) (by norm_num; omega) one_ne_zero
  have hbase : (2 : ℕ) ^ 7 = 128 := by norm_num
  rw [hbase, Nat.mul_one] at hsize
  simp only [berTlvTagSerialize, if_neg (not_le.mpr h), hsize, identifier, Bool.false_eq_true,
    if_false, Nat.add_zero]

theorem setConstructed_long {tagClass : ℕ} (hc : tagClass < 4) (bs : Bytes) :
    setConstructed (identifier tagClass false 31 :: bs) = identifier tagClass true 31 :: bs := by
  have hall : ∀ c : Fin 4, identifier c false 31 ||| 0x20 = identifier c true 31 := by decide
  rw [setConstructed, hall ⟨tagClass, hc⟩]

/- The octets of a tag as `der_write_TL` writes them. -/
def tagWritten (tag : ℕ) (constructed : Bool) : Bytes :=
  if constructed then setConstructed (berTlvTagSerialize tag) else berTlvTagSerialize tag

theorem tagWritten_form {tag : ℕ} (constructed : Bool) (htag : tag < 2 ^ 32) :
    TagForm tag constructed (tagWritten tag constructed) := by
  have hc : berTagClass tag < 4 := Nat.mod_lt _ (by norm_num)
  by_cases hshort : berTagValue tag ≤ 30
  · have hwritten : tagWritten tag constructed =
        [identifier (berTagClass tag) constructed (berTagValue tag)] := by
      unfold tagWritten
      rw [berTlvTagSerialize_short hshort]
      cases constructed with
      | false => rfl
      | true => exact setConstructed_identifier hc (by omega) []
    rw [hwritten]
    exact .short (by omega)
  · have hlong := berTlvTagSerialize_long (not_le.mp hshort) htag
    have hwritten : tagWritten tag constructed = identifier (berTagClass tag) constructed 31 ::
        tagOctets (berTagValue tag) (Nat.log 128 (berTagValue tag) + 1) := by
      unfold tagWritten
      rw [hlong]
      cases constructed with
      | false => rfl
      | true => exact setConstructed_long hc _
    have hform := tagOctets_form (berTagValue tag) (Nat.log 128 (berTagValue tag))
    rw [Nat.mod_eq_of_lt (Nat.lt_pow_succ_log_self (by norm_num) _)] at hform
    rw [hwritten]
    exact .long hform

theorem tagWritten_length (tag : ℕ) (constructed : Bool) :
    (tagWritten tag constructed).length = (berTlvTagSerialize tag).length := by
  unfold tagWritten
  cases constructed with
  | false => rfl
  | true =>
    rw [if_pos rfl]
    cases berTlvTagSerialize tag with
    | nil => rfl
    | cons b bs => rfl

/-- The octets of a tag are as few as can be. -/
theorem tagWritten_least {tag : ℕ} (constructed constructed' : Bool) (htag : tag < 2 ^ 32)
    {ids : Bytes} (h : TagForm tag constructed' ids) :
    (tagWritten tag constructed).length ≤ ids.length := by
  rw [tagWritten_length]
  by_cases hshort : berTagValue tag ≤ 30
  · rw [berTlvTagSerialize_short hshort]
    exact h.pos
  · rw [berTlvTagSerialize_long (not_le.mp hshort) htag, List.length_cons, tagOctets_length]
    cases h with
    | short hlt => exact absurd (Nat.le_of_lt_succ hlt) hshort
    | long hoctets =>
      rw [List.length_cons]
      exact Nat.succ_le_succ (tagOctets_log_lt hoctets)

/-! ### Any tag -/

/-- Octets that are not complete need at most one more. -/
theorem fetchTagLoop_more {tclass val skipped : ℕ} {bs : Bytes} (hval : val < 2 ^ 23)
    (h : fetchTagLoop tclass val skipped bs = .more) :
    ∃ n, TagOctets n (bs ++ [0]) ∧ val * 128 ^ (bs.length + 1) + n < 2 ^ 30 := by
  induction bs generalizing val skipped with
  | nil =>
    refine ⟨0, .last 0 (by norm_num), ?_⟩
    rw [List.length_nil, Nat.zero_add, pow_one]
    omega
  | cons oct bs ih =>
    have hoct := oct.toNat_lt
    rw [fetchTagLoop] at h
    by_cases hmore : 128 ≤ oct.toNat
    · simp only [if_pos hmore] at h
      by_cases hfit : (val * 128 + oct.toNat % 128) / 2 ^ 23 ≠ 0
      · rw [if_pos hfit] at h
        cases h
      · rw [if_neg hfit] at h
        obtain ⟨n, hn, hbound⟩ := ih (by omega) h
        have hd : oct.toNat % 128 < 128 := Nat.mod_lt _ (by norm_num)
        have hsame : UInt8.ofNat (128 + oct.toNat % 128) = oct := by
          apply UInt8.toNat.inj
          rw [octet_more hd]
          omega
        have hoctets := TagOctets.more _ hd hn
        rw [hsame] at hoctets
        refine ⟨_, hoctets, ?_⟩
        have hlen : (bs ++ [0]).length = bs.length + 1 := by
          rw [List.length_append, List.length_singleton]
        have htotal : val * 128 ^ ((oct :: bs).length + 1) +
            (oct.toNat % 128 * 128 ^ (bs ++ [0]).length + n) =
            (val * 128 + oct.toNat % 128) * 128 ^ (bs.length + 1) + n := by
          rw [hlen, List.length_cons, pow_succ 128 (bs.length + 1)]
          ring
        rw [htotal]
        exact hbound
    · rw [if_neg hmore] at h
      cases h

theorem berFetchTag_more {bs : Bytes} (h : berFetchTag bs = .more) :
    ∃ tag constructed, berTagValue tag < 2 ^ 30 ∧ TagForm tag constructed (bs ++ [0]) := by
  cases bs with
  | nil => exact ⟨0, false, by decide, .short (by decide)⟩
  | cons b bs =>
    have hb := b.toNat_lt
    rw [berFetchTag] at h
    by_cases hshort : b.toNat % 32 ≠ 31
    · rw [if_pos hshort] at h
      cases h
    · rw [if_neg hshort] at h
      obtain ⟨n, hn, hbound⟩ := fetchTagLoop_more (by norm_num) h
      rw [Nat.zero_mul, Nat.zero_add] at hbound
      obtain ⟨hclass, hvalue⟩ := tag_split n (show b.toNat / 64 < 4 by omega)
      refine ⟨n * 4 + b.toNat / 64, decide (b.toNat / 32 % 2 = 1), by rw [hvalue]; exact hbound, ?_⟩
      have hid := identifier_parts b
      rw [not_not.mp hshort] at hid
      have hform : IdForm (b.toNat / 64) (decide (b.toNat / 32 % 2 = 1)) n
          (identifier (b.toNat / 64) (decide (b.toNat / 32 % 2 = 1)) 31 :: (bs ++ [0])) := .long hn
      rw [hid] at hform
      rw [TagForm, hclass, hvalue]
      exact hform

/- A tag is taken exactly where its octets are there, in any of their forms, and more
are asked for exactly where some could complete one. -/
theorem tags_fetched_exactly (bs : Bytes) :
    (∀ n tag, berFetchTag bs = .got n tag ↔
      n ≤ bs.length ∧ berTagValue tag < 2 ^ 30 ∧ ∃ constructed, TagForm tag constructed (bs.take n)) ∧
    (berFetchTag bs = .more ↔
      ∃ tag constructed octets, octets ≠ [] ∧ berTagValue tag < 2 ^ 30 ∧
        TagForm tag constructed (bs ++ octets)) := by
  constructor
  · intro n tag
    constructor
    · intro h
      obtain ⟨ids, rest, hbs, hlen, hform, hvalue⟩ := berFetchTag_sound h
      generalize berTlvConstructed bs = constructed at hform
      subst hbs
      rw [← hlen, List.take_left, List.length_append]
      exact ⟨Nat.le_add_right _ _, hvalue, constructed, hform⟩
    · intro h
      obtain ⟨hle, hvalue, constructed, hform⟩ := h
      have hfetch := berFetchTag_form hform hvalue (bs.drop n)
      rw [List.take_append_drop, List.length_take, Nat.min_eq_left hle] at hfetch
      exact hfetch
  · constructor
    · intro h
      obtain ⟨tag, constructed, hvalue, hform⟩ := berFetchTag_more h
      exact ⟨tag, constructed, [0], List.cons_ne_nil _ _, hvalue, hform⟩
    · intro h
      obtain ⟨tag, constructed, octets, hne, hvalue, hform⟩ := h
      exact berFetchTag_form_cut hform hvalue rfl hne

/-! ### Any length -/

/- A length is taken exactly where its octets are there, in any of their forms. -/
theorem lengths_fetched_exactly (constructed : Bool) (bs : Bytes) (k : ℕ) (left : ℤ) :
    berFetchLength constructed bs = .got k left ↔
      k ≤ bs.length ∧ ∃ n closing, n + 1024 < 2 ^ 63 ∧
        Extent constructed n (bs.take k) left closing := by
  constructor
  · intro h
    obtain ⟨octets, rest, rfl, rfl, hext⟩ := berFetchLength_sound h
    rw [List.take_left, List.length_append]
    refine ⟨Nat.le_add_right _ _, ?_⟩
    rcases hext with ⟨rfl, rfl, hc⟩ | ⟨n, rfl, hn, hform⟩
    · exact ⟨0, [0, 0], by norm_num, .indefinite hc⟩
    · exact ⟨n, [], hn, .definite hform⟩
  · intro h
    obtain ⟨hle, n, closing, hn, hext⟩ := h
    have hfetch := berFetchLength_extent hext hn (bs.drop k)
    rw [List.take_append_drop, List.length_take, Nat.min_eq_left hle] at hfetch
    exact hfetch

theorem lengthOctets_least {constructed : Bool} {n : ℕ} {octets : Bytes}
    (h : LengthForm constructed n octets) : (lengthOctets n).length ≤ octets.length := by
  cases h with
  | short hlt => rw [lengthOctets, if_pos hlt]
  | long k hpos hk hlt =>
    rw [List.length_cons, beBytes_length]
    rcases Nat.eq_zero_or_pos k with rfl | hk
    · rw [pow_zero, Nat.lt_one_iff] at hlt
      rw [hlt]
      exact Nat.le_refl 1
    · exact lengthOctets_length_le (Nat.pos_iff_ne_zero.mp hk) hlt

/-! ### Headers -/

theorem tagWritten_append (tag : ℕ) (constructed : Bool) (bs : Bytes) :
    (if constructed then setConstructed (berTlvTagSerialize tag ++ bs)
      else berTlvTagSerialize tag ++ bs) = tagWritten tag constructed ++ bs := by
  unfold tagWritten
  cases constructed with
  | false => rfl
  | true =>
    have hne : berTlvTagSerialize tag ≠ [] := by
      unfold berTlvTagSerialize
      dsimp only
      split_ifs
      · exact List.cons_ne_nil _ _
      · exact List.cons_ne_nil _ _
    obtain ⟨b, octets, hcons⟩ := List.exists_cons_of_ne_nil hne
    rw [if_pos rfl, if_pos rfl, hcons]
    rfl

theorem derWriteTL_written {tag len : ℕ} (constructed : Bool) (htag : tag < 2 ^ 32)
    (hlen : len < 2 ^ 64) : Encodes (derWriteTL tag len constructed)
      (tagWritten tag constructed ++ lengthOctets len) := by
  have hoctets := lengthOctets_length_le (n := len) (k := 8) (by norm_num) (by norm_num; omega)
  have htagLen : (tagWritten tag constructed).length ≤ 6 := by
    rw [tagWritten_length]
    have hvalue : berTagValue tag < 2 ^ 30 := by
      unfold berTagValue
      omega
    by_cases hshort : berTagValue tag ≤ 30
    · rw [berTlvTagSerialize_short hshort]
      exact Nat.succ_le_succ (Nat.zero_le _)
    · have hlog : Nat.log 128 (berTagValue tag) < 5 :=
        Nat.log_lt_of_lt_pow' (by norm_num) (lt_trans hvalue (by norm_num))
      rw [berTlvTagSerialize_long (not_le.mp hshort) htag, List.length_cons, tagOctets_length]
      omega
  have hsize : ¬ 32 < (tagWritten tag constructed ++ lengthOctets len).length := by
    rw [List.length_append]
    omega
  have hbuf : (berTlvTagSerialize tag ++ lengthOctets len).length =
      (tagWritten tag constructed ++ lengthOctets len).length := by
    rw [List.length_append, List.length_append, tagWritten_length]
  have hstored := tagWritten_append tag constructed (lengthOctets len)
  have hwritten := derTlvLengthSerialize_eq hlen
  constructor
  · simp only [derWriteTL, hwritten, hbuf, if_neg hsize]
  · intro arg harg
    simp only [derWriteTL, hwritten, hbuf, if_neg hsize, hstored, encodeToBufferCb_fits harg,
      Option.map_some]
  · intro arg harg
    simp only [derWriteTL, hwritten, hbuf, if_neg hsize, hstored, encodeToBufferCb_overflow harg,
      Option.map_none]

/- What is written before a value is taken back, tag, form and length, and no header
of a definite length is shorter. -/
theorem headers_come_back (tag : ℕ) (htag : tag < 2 ^ 32) (len : ℕ) (hlen : len + 1024 < 2 ^ 63)
    (constructed : Bool) :
    ∃ ids octets, Encodes (derWriteTL tag len constructed) (ids ++ octets) ∧
      (∀ rest, berFetchTag (ids ++ octets ++ rest) = .got ids.length tag ∧
        berTlvConstructed (ids ++ octets ++ rest) = constructed ∧
        berFetchLength constructed (octets ++ rest) = .got octets.length len) ∧
      ∀ constructed' header left, TagFrame tag constructed' len header left [] →
        (ids ++ octets).length ≤ header.length := by
  have hform := tagWritten_form constructed htag
  have hvalue : berTagValue tag < 2 ^ 30 := by
    unfold berTagValue
    omega
  have hoctets := lengthForm_octets constructed (n := len)
    (lt_trans (show len < 2 ^ 63 by omega) (by norm_num))
  refine ⟨tagWritten tag constructed, lengthOctets len,
    derWriteTL_written constructed htag (by omega), ?_, ?_⟩
  · intro rest
    rw [List.append_assoc]
    exact ⟨berFetchTag_form hform hvalue _, berTlvConstructed_form hform _,
      berFetchLength_form hoctets hlen rest⟩
  · intro constructed' header left hframe
    cases hframe with
    | @mk ids octets _ _ hid hext =>
      have hids := tagWritten_least constructed constructed' htag hid
      rw [List.length_append, List.length_append]
      cases hext with
      | definite hlength => exact Nat.add_le_add hids (lengthOctets_least hlength)

theorem headers_come_back_application :
    (4001 : ℕ) < 2 ^ 32 ∧ (1000 : ℕ) + 1024 < 2 ^ 63 ∧
      ∃ ids octets, Encodes (derWriteTL 4001 1000 true) (ids ++ octets) ∧
      (∀ rest, berFetchTag (ids ++ octets ++ rest) = .got ids.length 4001 ∧
        berTlvConstructed (ids ++ octets ++ rest) = true ∧
        berFetchLength true (octets ++ rest) = .got octets.length (1000 : ℕ)) ∧
      ∀ constructed header left, TagFrame 4001 constructed 1000 header left [] →
        (ids ++ octets).length ≤ header.length :=
  ⟨by norm_num, by norm_num, headers_come_back 4001 (by norm_num) 1000 (by norm_num) true⟩

end Fws
