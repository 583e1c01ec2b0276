import Fws.Base.Ber
import Fws.Asn1.BerDecoder

/-!
# Headers in all their forms

Tag and length of a value as the decoders fetch them: from the whole of a header,
from a part of one, and what a header must have been that was fetched.
-/

namespace Fws
open Base.Digits Base.Tlv Base.Ber

/-! ### Tags -/

def TagForm (tag : ℕ) (constructed : Bool) : Bytes → Prop :=
  IdForm (berTagClass tag) constructed (berTagValue tag)

theorem identifier_long {tagClass : ℕ} (constructed : Bool) (hc : tagClass < 4) :
    (identifier tagClass constructed 31).toNat =
      tagClass * 64 + (if constructed then 32 else 0) + 31 := by
  rw [identifier, UInt8.toNat_ofNat']
  split <;> omega

/- What the first octet says. -/
theorem tagForm_octet {tag : ℕ} {constructed : Bool} {ids : Bytes}
    (h : TagForm tag constructed ids) :
    ∃ b octets, ids = b :: octets ∧ b.toNat / 64 = berTagClass tag ∧
      decide (b.toNat / 32 % 2 = 1) = constructed ∧
      (octets = [] ∧ b.toNat % 32 = berTagValue tag ∧ b.toNat % 32 ≠ 31 ∨
        b.toNat % 32 = 31 ∧ TagOctets (berTagValue tag) octets) := by
  have hc : berTagClass tag < 4 := Nat.mod_lt _ (by norm_num)
  cases h with
  | short hlt =>
    have hid := identifier_toNat constructed hc hlt
    refine ⟨_, _, rfl, ?_, ?_, Or.inl ⟨rfl, ?_⟩⟩
    · rw [hid]
      split <;> omega
    · rw [hid]
      cases constructed
      · simp only [Bool.false_eq_true, if_false, decide_eq_false_iff_not]
        omega
      · simp only [if_true, decide_eq_true_iff]
        omega
    · rw [hid]
      split <;> omega
  | long hoctets =>
    have hid := identifier_long constructed hc
    refine ⟨_, _, rfl, ?_, ?_, Or.inr ⟨?_, hoctets⟩⟩
    · rw [hid]
      split <;> omega
    · rw [hid]
      cases constructed
      · simp only [Bool.false_eq_true, if_false, decide_eq_false_iff_not]
        omega
      · simp only [if_true, decide_eq_true_iff]
        omega
    · rw [hid]
      split <;> omega

theorem berTlvConstructed_form {tag : ℕ} {constructed : Bool} {ids : Bytes}
    (h : TagForm tag constructed ids) (rest : Bytes) :
    berTlvConstructed (ids ++ rest) = constructed := by
  obtain ⟨b, octets, rfl, -, hconstr, -⟩ := tagForm_octet h
  exact hconstr

/-- Only the end of contents begins with a zero octet. -/
theorem tagForm_ne_zero {tag : ℕ} (hne : tag ≠ 0) {constructed : Bool} {ids : Bytes}
    (h : TagForm tag constructed ids) : ∃ b octets, ids = b :: octets ∧ b ≠ 0 := by
  obtain ⟨b, octets, rfl, hclass, -, hvalue⟩ := tagForm_octet h
  refine ⟨b, octets, rfl, ?_⟩
  rintro rfl
  have hzero : (0 : Byte).toNat = 0 := rfl
  rw [hzero] at hclass hvalue
  unfold berTagClass at hclass
  rcases hvalue with ⟨-, hval, -⟩ | ⟨hval, -⟩
  · unfold berTagValue at hval
    omega
  · omega

theorem octet_more {d : ℕ} (hd : d < 128) :
    (UInt8.ofNat (128 + d)).toNat = 128 + d := by
  rw [UInt8.toNat_ofNat']
  omega

theorem octet_last {d : ℕ} (hd : d < 128) : (UInt8.ofNat d).toNat = d := by
  rw [UInt8.toNat_ofNat']
  omega

/-- The octets of a number below the limit are taken one by one. -/
theorem fetchTag_fits {val d k n : ℕ} (hk : 0 < k)
    (h : val * 128 ^ (k + 1) + (d * 128 ^ k + n) < 2 ^ 30) :
    ¬ (val * 128 + d) / 2 ^ 23 ≠ 0 ∧ (val * 128 + d) * 128 ^ k + n < 2 ^ 30 := by
  have htotal : val * 128 ^ (k + 1) + (d * 128 ^ k + n) = (val * 128 + d) * 128 ^ k + n := by
    rw [pow_succ]
    ring
  rw [htotal] at h
  have hpow : 128 ^ 1 ≤ 128 ^ k := Nat.pow_le_pow_right (by norm_num) hk
  have hle : (val * 128 + d) * 128 ^ 1 ≤ (val * 128 + d) * 128 ^ k := Nat.mul_le_mul_left _ hpow
  refine ⟨?_, h⟩
  rw [not_not]
  exact Nat.div_eq_of_lt (by omega)

theorem fetchTagLoop_octets {n : ℕ} {octets : Bytes} (hn : TagOctets n octets) (tclass val skipped : ℕ)
    (rest : Bytes) (h : val * 128 ^ octets.length + n < 2 ^ 30) :
    fetchTagLoop tclass val skipped (octets ++ rest) =
      .got (skipped + octets.length - 1) ((val * 128 ^ octets.length + n) * 4 + tclass) := by
  induction hn generalizing val skipped with
  | last d hd =>
    have hb := octet_last hd
    rw [List.singleton_append, fetchTagLoop, hb, if_neg (by omega), List.length_singleton, pow_one,
      Nat.add_sub_cancel]
  | @more n octets d hd hn ih =>
    have hb := octet_more hd
    have hmod : (128 + d) % 128 = d := by omega
    have hpos := hn.pos
    rw [List.length_cons] at h ⊢
    obtain ⟨hfit, hnext⟩ := fetchTag_fits hpos h
    have htotal : val * 128 ^ (octets.length + 1) + (d * 128 ^ octets.length + n) =
        (val * 128 + d) * 128 ^ octets.length + n := by
      rw [pow_succ]
      ring
    have hskipped : skipped + 1 + octets.length - 1 = skipped + (octets.length + 1) - 1 := by omega
    rw [List.cons_append, fetchTagLoop, hb, if_pos (by omega), hmod]
    simp only [if_neg hfit]
    rw [ih _ _ hnext, htotal, hskipped]

theorem fetchTagLoop_cut {n : ℕ} {octets p q : Bytes} (hn : TagOctets n octets) (tclass : ℕ)
    {val : ℕ} (skipped : ℕ) (hcut : octets = p ++ q) (hq : q ≠ [])
    (h : val * 128 ^ octets.length + n < 2 ^ 30) :
    fetchTagLoop tclass val skipped p = .more := by
  induction hn generalizing val skipped p with
  | last d hd =>
    rcases cut_cons hcut with rfl | ⟨r, rfl, hrest⟩
    · rfl
    · exact absurd hq (fun hq => cut_nil hrest hq)
  | @more n octets d hd hn ih =>
    rcases cut_cons hcut with rfl | ⟨r, rfl, hrest⟩
    · rfl
    · have hb := octet_more hd
      have hmod : (128 + d) % 128 = d := by omega
      rw [List.length_cons] at h
      obtain ⟨hfit, hnext⟩ := fetchTag_fits hn.pos h
      rw [fetchTagLoop, hb, if_pos (by omega), hmod]
      simp only [if_neg hfit]
      exact ih _ hrest hnext

theorem tag_parts (tag : ℕ) : berTagValue tag * 4 + berTagClass tag = tag :=
  Nat.div_add_mod' tag 4

theorem berFetchTag_form {tag : ℕ} {constructed : Bool} {ids : Bytes}
    (h : TagForm tag constructed ids) (htag : berTagValue tag < 2 ^ 30) (rest : Bytes) :
    berFetchTag (ids ++ rest) = .got ids.length tag := by
  have htotal := tag_parts tag
  obtain ⟨b, octets, rfl, hclass, -, hvalue⟩ := tagForm_octet h
  rcases hvalue with ⟨rfl, hval, hne⟩ | ⟨hval, hoctets⟩
  · rw [hval] at hne
    rw [List.cons_append, List.nil_append, berFetchTag]
    simp only [hval, if_pos hne, hclass, htotal]
    rfl
  · have hloop := fetchTagLoop_octets hoctets (berTagClass tag) 0 2 rest
      (by rw [Nat.zero_mul, Nat.zero_add]; exact htag)
    rw [List.cons_append, berFetchTag]
    simp only [hval, ne_eq, not_true_eq_false, if_false, hclass]
    rw [hloop, Nat.zero_mul, Nat.zero_add, htotal, List.length_cons]
    have hlen : 2 + octets.length - 1 = octets.length + 1 := by omega
    rw [hlen]

theorem berFetchTag_form_cut {tag : ℕ} {constructed : Bool} {ids p q : Bytes}
    (h : TagForm tag constructed ids) (htag : berTagValue tag < 2 ^ 30) (hcut : ids = p ++ q)
    (hq : q ≠ []) : berFetchTag p = .more := by
  obtain ⟨b, octets, rfl, -, -, hvalue⟩ := tagForm_octet h
  rcases cut_cons hcut with rfl | ⟨r, rfl, hrest⟩
  · rfl
  · rcases hvalue with ⟨rfl, -, -⟩ | ⟨hval, hoctets⟩
    · exact absurd hq (fun hq => cut_nil hrest hq)
    · rw [berFetchTag]
      simp only [hval, ne_eq, not_true_eq_false, if_false]
      exact fetchTagLoop_cut hoctets _ _ hrest hq
        (by rw [Nat.zero_mul, Nat.zero_add]; exact htag)

/-- The octets that were taken are those of a number. -/
theorem fetchTagLoop_sound {tclass val skipped taken tag : ℕ} {bs : Bytes}
    (h : fetchTagLoop tclass val skipped bs = .got taken tag) (hval : val < 2 ^ 23) :
    ∃ n octets rest, bs = octets ++ rest ∧ TagOctets n octets ∧
      taken + 1 = skipped + octets.length ∧
      tag = (val * 128 ^ octets.length + n) * 4 + tclass ∧
      val * 128 ^ octets.length + n < 2 ^ 30 := by
  induction bs generalizing val skipped with
  | nil => cases h
  | cons oct bs ih =>
    have hoct := oct.toNat_lt
    rw [fetchTagLoop] at h
    by_cases hmore : 128 ≤ oct.toNat
    · simp only [if_pos hmore] at h
      by_cases hfit : (val * 128 + oct.toNat % 128) / 2 ^ 23 ≠ 0
      · rw [if_pos hfit] at h
        cases h
      · rw [if_neg hfit] at h
        have hlt : val * 128 + oct.toNat % 128 < 2 ^ 23 := by omega
        obtain ⟨n, octets, rest, rfl, hn, htaken, htag, hbound⟩ := ih h hlt
        have hd : oct.toNat % 128 < 128 := Nat.mod_lt _ (by norm_num)
        have hsame : UInt8.ofNat (128 + oct.toNat % 128) = oct := by
          apply UInt8.toNat.inj
          rw [octet_more hd]
          omega
        have htotal : val * 128 ^ (octets.length + 1) + (oct.toNat % 128 * 128 ^ octets.length + n) =
            (val * 128 + oct.toNat % 128) * 128 ^ octets.length + n := by
          rw [pow_succ]
          ring
        have hoctets := TagOctets.more _ hd hn
        rw [hsame] at hoctets
        refine ⟨_, oct :: octets, rest, rfl, hoctets, ?_, ?_, ?_⟩
        · rw [List.length_cons]
          omega
        · rw [List.length_cons, htotal]
          exact htag
        · rw [List.length_cons, htotal]
          exact hbound
    · rw [if_neg hmore] at h
      cases h
      have hsame : UInt8.ofNat oct.toNat = oct := UInt8.ofNat_toNat
      have hoctets := TagOctets.last oct.toNat (not_le.mp hmore)
      rw [hsame] at hoctets
      refine ⟨_, [oct], bs, rfl, hoctets, rfl, ?_, ?_⟩
      · rw [List.length_singleton, pow_one]
      · rw [List.length_singleton, pow_one]
        omega

/-- The parts of an identifier octet. -/
theorem identifier_parts (b : Byte) :
    identifier (b.toNat / 64) (decide (b.toNat / 32 % 2 = 1)) (b.toNat % 32) = b := by
  have hb := b.toNat_lt
  apply UInt8.toNat.inj
  rw [identifier, UInt8.toNat_ofNat']
  by_cases hbit : b.toNat / 32 % 2 = 1
  · simp only [hbit, decide_true, if_true]
    omega
  · simp only [hbit, decide_false, Bool.false_eq_true, if_false]
    omega

theorem tag_split (number : ℕ) {tagClass : ℕ} (hc : tagClass < 4) :
    berTagClass (number * 4 + tagClass) = tagClass ∧ berTagValue (number * 4 + tagClass) = number := by
  unfold berTagClass berTagValue
  omega

theorem berFetchTag_sound {bs : Bytes} {taken tag : ℕ} (h : berFetchTag bs = .got taken tag) :
    ∃ ids rest, bs = ids ++ rest ∧ ids.length = taken ∧
      TagForm tag (berTlvConstructed bs) ids ∧ berTagValue tag < 2 ^ 30 := by
  cases bs with
  | nil => cases h
  | cons b bs =>
    have hb := b.toNat_lt
    have hconstr : berTlvConstructed (b :: bs) = decide (b.toNat / 32 % 2 = 1) := rfl
    have hid := identifier_parts b
    rw [berFetchTag] at h
    by_cases hshort : b.toNat % 32 ≠ 31
    · rw [if_pos hshort] at h
      cases h
      obtain ⟨hclass, hvalue⟩ := tag_split (b.toNat % 32) (show b.toNat / 64 < 4 by omega)
      refine ⟨[b], bs, rfl, rfl, ?_, by omega⟩
      rw [TagForm, hconstr, hclass, hvalue]
      have hform : IdForm (b.toNat / 64) (decide (b.toNat / 32 % 2 = 1)) (b.toNat % 32)
          [identifier (b.toNat / 64) (decide (b.toNat / 32 % 2 = 1)) (b.toNat % 32)] :=
        .short (by omega)
      rw [hid] at hform
      exact hform
    · rw [if_neg hshort] at h
      obtain ⟨n, octets, rest, rfl, hn, htaken, rfl, hbound⟩ :=
        fetchTagLoop_sound h (by norm_num)
      rw [Nat.zero_mul, Nat.zero_add] at hbound ⊢
      obtain ⟨hclass, hvalue⟩ := tag_split n (show b.toNat / 64 < 4 by omega)
      refine ⟨b :: octets, rest, rfl, ?_, ?_, by rw [hvalue]; exact hbound⟩
      · rw [List.length_cons]
        omega
      · rw [TagForm, hconstr, hclass, hvalue]
        rw [not_not.mp hshort] at hid
        have hform : IdForm (b.toNat / 64) (decide (b.toNat / 32 % 2 = 1)) n
            (identifier (b.toNat / 64) (decide (b.toNat / 32 % 2 = 1)) 31 :: octets) := .long hn
        rw [hid] at hform
        exact hform

/-! ### Lengths -/

/-- The octets of a number below the limit are taken one by one. -/
theorem fetchLength_fits {n k acc : ℕ}
    (h : acc * 256 ^ (k + 1) + n % 256 ^ (k + 1) + 1024 < 2 ^ 63) :
    ¬ (2 ^ 63 ≤ acc * 256 + n / 256 ^ k % 256 ∨
      ((acc * 256 + n / 256 ^ k % 256) / 2 ^ 56 ≠ 0 ∧ 1 < k + 1)) ∧
    (acc * 256 + n / 256 ^ k % 256) * 256 ^ k + n % 256 ^ k + 1024 < 2 ^ 63 := by
  have hmod : n % 256 ^ (k + 1) = n % 256 ^ k + 256 ^ k * (n / 256 ^ k % 256) := by
    rw [pow_succ, Nat.mod_mul]
  have htotal : acc * 256 ^ (k + 1) + n % 256 ^ (k + 1) =
      (acc * 256 + n / 256 ^ k % 256) * 256 ^ k + n % 256 ^ k := by
    rw [hmod, pow_succ]
    ring
  rw [htotal] at h
  refine ⟨?_, h⟩
  have hone : 1 ≤ 256 ^ k := Nat.one_le_pow _ _ (by norm_num)
  have hlen : acc * 256 + n / 256 ^ k % 256 ≤ (acc * 256 + n / 256 ^ k % 256) * 256 ^ k :=
    Nat.le_mul_of_pos_right _ hone
  intro hcase
  rcases hcase with hbig | ⟨hbig, hk⟩
  · omega
  · have hge : 2 ^ 56 ≤ acc * 256 + n / 256 ^ k % 256 := by
      by_contra hlt
      exact hbig (Nat.div_eq_of_lt (not_le.mp hlt))
    have hpow : 256 ^ 1 ≤ 256 ^ k := Nat.pow_le_pow_right (by norm_num) (by omega)
    have hmul := Nat.mul_le_mul hge hpow
    norm_num at hmul
    omega

theorem fetchLengthLoop_cut {n k acc skipped : ℕ} {p q : Bytes} (hcut : beBytes k n = p ++ q)
    (hq : q ≠ []) (h : acc * 256 ^ k + n % 256 ^ k + 1024 < 2 ^ 63) :
    fetchLengthLoop k acc skipped p = .more := by
  induction k generalizing acc skipped p with
  | zero => exact absurd hq (fun hq => cut_nil hcut hq)
  | succ k ih =>
    rw [beBytes_cons] at hcut
    rcases cut_cons hcut with rfl | ⟨r, rfl, hrest⟩
    · rfl
    · have hb : (UInt8.ofNat (n / 256 ^ k)).toNat = n / 256 ^ k % 256 := UInt8.toNat_ofNat'
      obtain ⟨hfit, hnext⟩ := fetchLength_fits h
      rw [fetchLengthLoop, hb, if_neg hfit]
      exact ih hrest hnext

/-- The first octet of a long form gives the number of those that follow. -/
theorem berFetchLength_long {constructed : Bool} {k : ℕ} (hpos : constructed = true → 0 < k)
    (hk : k < 127) (bs : Bytes) :
    berFetchLength constructed (UInt8.ofNat (128 + k) :: bs) = fetchLengthLoop k 0 1 bs := by
  have hb : (UInt8.ofNat (128 + k)).toNat = 128 + k := octet_more (by omega)
  have hdigits : (128 + k) % 128 = k := by omega
  have hindef : ¬ (constructed = true ∧ 128 + k = 128) := by
    intro hzero
    have hk := hpos hzero.1
    have hsum := hzero.2
    omega
  rw [berFetchLength, hb, if_neg (by omega), if_neg hindef, if_neg (by omega), hdigits]

theorem berFetchLength_form {constructed : Bool} {n : ℕ} {octets : Bytes}
    (h : LengthForm constructed n octets) (hn : n + 1024 < 2 ^ 63) (rest : Bytes) :
    berFetchLength constructed (octets ++ rest) = .got octets.length (n : ℤ) := by
  cases h with
  | short hshort =>
    rw [List.cons_append, List.nil_append, berFetchLength, octet_last hshort, if_pos hshort]
    rfl
  | long k hpos hk hlt =>
    have hval : 0 * 256 ^ k + n % 256 ^ k = n := by
      rw [Nat.zero_mul, Nat.zero_add, Nat.mod_eq_of_lt hlt]
    rw [List.cons_append, berFetchLength_long hpos hk,
      fetchLengthLoop_beBytes n rest _ 0 1 (by rw [hval]; exact hn), hval, List.length_cons,
      beBytes_length, Nat.add_comm]

theorem berFetchLength_form_cut {constructed : Bool} {n : ℕ} {octets p q : Bytes}
    (h : LengthForm constructed n octets) (hn : n + 1024 < 2 ^ 63) (hcut : octets = p ++ q)
    (hq : q ≠ []) : berFetchLength constructed p = .more := by
  cases h with
  | short hshort =>
    rcases cut_cons hcut with rfl | ⟨r, rfl, hrest⟩
    · rfl
    · exact absurd hq (fun hq => cut_nil hrest hq)
  | long k hpos hk hlt =>
    rcases cut_cons hcut with rfl | ⟨r, rfl, hrest⟩
    · rfl
    · have hval : 0 * 256 ^ k + n % 256 ^ k = n := by
        rw [Nat.zero_mul, Nat.zero_add, Nat.mod_eq_of_lt hlt]
      rw [berFetchLength_long hpos hk]
      exact fetchLengthLoop_cut hrest hq (by rw [hval]; exact hn)

theorem berFetchLength_extent {constructed : Bool} {n : ℕ} {octets closing : Bytes} {left : ℤ}
    (h : Extent constructed n octets left closing) (hn : n + 1024 < 2 ^ 63) (rest : Bytes) :
    berFetchLength constructed (octets ++ rest) = .got octets.length left := by
  cases h with
  | definite h => exact berFetchLength_form h hn rest
  | indefinite h =>
    rw [h]
    rfl

theorem berFetchLength_extent_cut {constructed : Bool} {n : ℕ} {octets closing p q : Bytes}
    {left : ℤ} (h : Extent constructed n octets left closing) (hn : n + 1024 < 2 ^ 63)
    (hcut : octets = p ++ q) (hq : q ≠ []) : berFetchLength constructed p = .more := by
  cases h with
  | definite h => exact berFetchLength_form_cut h hn hcut hq
  | indefinite h =>
    rcases cut_cons hcut with rfl | ⟨r, rfl, hrest⟩
    · rfl
    · exact absurd hq (fun hq => cut_nil hrest hq)

/-- The value that was taken is that of its octets. -/
theorem fetchLengthLoop_sound {k len skipped taken : ℕ} {value : ℤ} {bs : Bytes}
    (h : fetchLengthLoop k len skipped bs = .got taken value) :
    ∃ octets rest, bs = octets ++ rest ∧ octets.length = k ∧ taken = skipped + k ∧
      value = ((len * 256 ^ k + beVal octets : ℕ) : ℤ) ∧
      len * 256 ^ k + beVal octets + 1024 < 2 ^ 63 := by
  induction k generalizing len skipped bs with
  | zero =>
    rw [fetchLengthLoop] at h
    by_cases hbig : 2 ^ 63 ≤ len + 1024
    · rw [if_pos hbig] at h
      cases h
    · rw [if_neg hbig] at h
      cases h
      have hzero : beVal [] = 0 := rfl
      refine ⟨[], bs, rfl, rfl, rfl, ?_, ?_⟩
      · rw [hzero, pow_zero, mul_one, Nat.add_zero]
      · rw [hzero, pow_zero]
        omega
  | succ k ih =>
    cases bs with
    | nil => cases h
    | cons b bs =>
      rw [fetchLengthLoop] at h
      split_ifs at h
      obtain ⟨octets, rest, rfl, hlen, htaken, hvalue, hbound⟩ := ih h
      have htotal : len * 256 ^ (k + 1) + beVal (b :: octets) =
          (len * 256 + b.toNat) * 256 ^ k + beVal octets := by
        rw [beVal_cons, hlen, pow_succ]
        ring
      refine ⟨b :: octets, rest, rfl, ?_, ?_, ?_, ?_⟩
      · rw [List.length_cons, hlen]
      · omega
      · rw [htotal]
        exact hvalue
      · rw [htotal]
        exact hbound

theorem berFetchLength_sound {constructed : Bool} {bs : Bytes} {taken : ℕ} {value : ℤ}
    (h : berFetchLength constructed bs = .got taken value) :
    ∃ octets rest, bs = octets ++ rest ∧ octets.length = taken ∧
      (value = -1 ∧ octets = [128] ∧ constructed = true ∨
        ∃ n : ℕ, value = n ∧ n + 1024 < 2 ^ 63 ∧ LengthForm constructed n octets) := by
  cases bs with
  | nil => cases h
  | cons b bs =>
    have hb := b.toNat_lt
    have hsame : UInt8.ofNat b.toNat = b := UInt8.ofNat_toNat
    rw [berFetchLength] at h
    by_cases hshort : b.toNat < 128
    · rw [if_pos hshort] at h
      cases h
      have hform : LengthForm constructed b.toNat [UInt8.ofNat b.toNat] := .short hshort
      rw [hsame] at hform
      exact ⟨[b], bs, rfl, rfl, Or.inr ⟨_, rfl, by omega, hform⟩⟩
    · rw [if_neg hshort] at h
      by_cases hindef : constructed = true ∧ b.toNat = 128
      · rw [if_pos hindef] at h
        cases h
        have hone : b = 128 := UInt8.toNat.inj hindef.2
        rw [hone]
        exact ⟨[128], bs, rfl, rfl, Or.inl ⟨rfl, rfl, hindef.1⟩⟩
      · rw [if_neg hindef] at h
        by_cases hbad : b.toNat = 255
        · rw [if_pos hbad] at h
          cases h
        · rw [if_neg hbad] at h
          obtain ⟨octets, rest, rfl, hlen, rfl, hvalue, hbound⟩ := fetchLengthLoop_sound h
          rw [Nat.zero_mul, Nat.zero_add] at hvalue hbound
          have hpos : constructed = true → 0 < b.toNat % 128 := by
            intro hc
            by_contra hzero
            exact hindef ⟨hc, by omega⟩
          have hlt := beVal_lt octets
          rw [hlen] at hlt
          have hform : LengthForm constructed (beVal octets)
              (UInt8.ofNat (128 + b.toNat % 128) :: beBytes (b.toNat % 128) (beVal octets)) :=
            .long _ hpos (by omega) hlt
          have hfirst : 128 + b.toNat % 128 = b.toNat := by omega
          have hoctets := beBytes_beVal octets
          rw [hlen] at hoctets
          rw [hfirst, hsame, hoctets] at hform
          refine ⟨b :: octets, rest, rfl, ?_, Or.inr ⟨_, hvalue, hbound, hform⟩⟩
          rw [List.length_cons, hlen, Nat.add_comm]

/-! ### The header of a value -/

/- Before and behind the contents of a value with this tag. -/
def TagFrame (tag : ℕ) (constructed : Bool) : ℕ → Bytes → ℤ → Bytes → Prop :=
  Frame (TagForm tag constructed) constructed

section
variable {tag n : ℕ} {constructed : Bool} {header closing : Bytes} {left : ℤ}

/-- How the header of a value is fetched, whole and in part. -/
theorem tagFrame_fetch (h : TagFrame tag constructed n header left closing)
    (htag : berTagValue tag < 2 ^ 30) (hn : n + 1024 < 2 ^ 63) :
    ∃ ids octets, header = ids ++ octets ∧ 0 < ids.length ∧ 0 < octets.length ∧
      (∀ rest, berFetchTag (ids ++ rest) = .got ids.length tag ∧
        berTlvConstructed (ids ++ rest) = constructed) ∧
      (∀ p q, ids = p ++ q → q ≠ [] → berFetchTag p = .more) ∧
      (∀ rest, berFetchLength constructed (octets ++ rest) = .got octets.length left) ∧
      ∀ p q, octets = p ++ q → q ≠ [] → berFetchLength constructed p = .more := by
  cases h with
  | @mk ids octets _ _ hid hext =>
    refine ⟨ids, octets, rfl, hid.pos, hext.pos, ?_, ?_, ?_, ?_⟩
    · intro rest
      exact ⟨berFetchTag_form hid htag rest, berTlvConstructed_form hid rest⟩
    · intro p q hcut hq
      exact berFetchTag_form_cut hid htag hcut hq
    · intro rest
      exact berFetchLength_extent hext hn rest
    · intro p q hcut hq
      exact berFetchLength_extent_cut hext hn hcut hq

theorem tagFrame_two_le (h : TagFrame tag constructed n header left closing) :
    2 ≤ header.length := by
  cases h with
  | mk hid hext =>
    have hids := hid.pos
    have hoctets := hext.pos
    rw [List.length_append]
    omega

theorem tagFrame_ne_zero (h : TagFrame tag constructed n header left closing) (hne : tag ≠ 0) :
    ∃ b bs, header = b :: bs ∧ b ≠ 0 := by
  cases h with
  | mk hid hext =>
    obtain ⟨b, bs, rfl, hb⟩ := tagForm_ne_zero hne hid
    exact ⟨b, _, rfl, hb⟩

variable (optCtx : Bool) {tags : List ℕ} {tagMode : TagMode} {lastTagForm : Option Bool}
  {expected : Option ℕ}

/-- A header is accepted up to the largest lengths. -/
theorem berCheckTags_header (htags : tagChain tags tagMode = [expected])
    (hexpected : expected = none ∨ expected = some tag)
    (hform : lastTagForm = none ∨ lastTagForm = some constructed)
    (htag : berTagValue tag < 2 ^ 30) (h : TagFrame tag constructed n header left closing)
    (hn : n + 1024 < 2 ^ 63) (hheader : n + header.length < 2 ^ 63) (rest : Bytes) :
    berCheckTags optCtx tags tagMode lastTagForm (header ++ rest) =
      ⟨⟨.rcOk, header.length⟩, left, constructed⟩ := by
  have hleft := h.left
  obtain ⟨ids, octets, rfl, -, -, hids, -, hlen, -⟩ := tagFrame_fetch h htag hn
  obtain ⟨hfetch, hconstr⟩ := hids (octets ++ rest)
  have hlength := hlen rest
  rw [List.length_append] at hheader
  have h1 : ¬ (expected ≠ none ∧ expected ≠ some tag) := fun hother =>
    hexpected.elim hother.1 hother.2
  have h2 : ¬ (lastTagForm ≠ none ∧ lastTagForm ≠ some constructed) := fun hother =>
    hform.elim hother.1 hother.2
  rw [List.append_assoc]
  rcases hleft with ⟨rfl, -⟩ | ⟨rfl, -, rfl⟩
  · have h3 : ¬ ((n : ℤ) = -1) := by omega
    have h4 : ¬ ((2 : ℤ) ^ 63 ≤ (n : ℤ) + ((ids.length + octets.length : ℕ) : ℤ)) := by
      push_cast
      omega
    simp only [berCheckTags, htags, checkTags, List.isEmpty_nil, checkTag, hfetch, hconstr,
      List.drop_left, hlength, if_neg h1, if_true, if_neg h2, if_neg h3, ne_eq,
      not_true_eq_false, if_false, if_neg h4, true_or, Nat.zero_add, List.length_append]
  · simp only [berCheckTags, htags, checkTags, List.isEmpty_nil, checkTag, hfetch, hconstr,
      List.drop_left, hlength, if_neg h1, if_true, if_neg h2, Nat.zero_add, true_or,
      List.length_append]
    rfl

theorem berCheckTags_frame (htags : tagChain tags tagMode = [expected])
    (hexpected : expected = none ∨ expected = some tag)
    (hform : lastTagForm = none ∨ lastTagForm = some constructed)
    (htag : berTagValue tag < 2 ^ 30) (h : TagFrame tag constructed n header left closing)
    (hn : n + header.length < 2 ^ 62) (rest : Bytes) :
    berCheckTags optCtx tags tagMode lastTagForm (header ++ rest) =
      ⟨⟨.rcOk, header.length⟩, left, constructed⟩ :=
  berCheckTags_header optCtx htags hexpected hform htag h (by omega) (by omega) rest

/-- A header that is cut off asks for more. -/
theorem berCheckTags_frame_cut (htags : tagChain tags tagMode = [expected])
    (hexpected : expected = none ∨ expected = some tag)
    (hform : lastTagForm = none ∨ lastTagForm = some constructed)
    (htag : berTagValue tag < 2 ^ 30) (h : TagFrame tag constructed n header left closing)
    (hn : n < 2 ^ 62) {p q : Bytes} (hcut : header = p ++ q) (hq : q ≠ []) :
    (berCheckTags optCtx tags tagMode lastTagForm p).rval = ⟨.rcWmore, 0⟩ := by
  obtain ⟨ids, octets, rfl, -, -, hids, hidsCut, -, hlenCut⟩ := tagFrame_fetch h htag (by omega)
  rcases cut_append hcut with ⟨r, hhead, hr⟩ | ⟨r, rfl, hrest⟩
  · have hmore := hidsCut p r hhead hr
    simp only [berCheckTags, htags, checkTags, checkTag, hmore]
    split_ifs
    all_goals rfl
  · have hmore := hlenCut r q hrest hq
    obtain ⟨hfetch, hconstr⟩ := hids r
    have h1 : ¬ (expected ≠ none ∧ expected ≠ some tag) := fun hother =>
      hexpected.elim hother.1 hother.2
    have h2 : ¬ (lastTagForm ≠ none ∧ lastTagForm ≠ some constructed) := fun hother =>
      hform.elim hother.1 hother.2
    simp only [berCheckTags, htags, checkTags, List.isEmpty_nil, checkTag, hfetch, hconstr,
      List.drop_left, hmore, if_neg h1, if_true, if_neg h2]
    split_ifs
    all_goals rfl

end

/- A header that gives `left` for the length of its contents. -/
structure Opened (tag : ℕ) (constructed : Bool) (header : Bytes) (left : ℤ) : Prop where
  extent : left = -1 ∧ constructed = true ∨ 0 ≤ left
  definite : ∀ n : ℕ, left = n → TagFrame tag constructed n header left []
  indefinite : left = -1 → ∀ n, TagFrame tag constructed n header left [0, 0]

theorem opened_of_fetch {bs : Bytes} {tagLen tag lenLen : ℕ} {left : ℤ}
    (htag : berFetchTag bs = .got tagLen tag)
    (hlen : berFetchLength (berTlvConstructed bs) (bs.drop tagLen) = .got lenLen left) :
    ∃ header rest, bs = header ++ rest ∧ header.length = tagLen + lenLen ∧
      Opened tag (berTlvConstructed bs) header left ∧ berTagValue tag < 2 ^ 30 ∧
      left + 1024 < 2 ^ 63 := by
  obtain ⟨ids, rest, hbs, rfl, hid, hvalue⟩ := berFetchTag_sound htag
  generalize berTlvConstructed bs = constructed at hlen hid ⊢
  rw [hbs, List.drop_left] at hlen
  obtain ⟨octets, rest, rfl, rfl, hext⟩ := berFetchLength_sound hlen
  have hlimit : left + 1024 < 2 ^ 63 := by
    rcases hext with ⟨rfl, -⟩ | ⟨n, rfl, hn, -⟩
    · decide
    · omega
  refine ⟨ids ++ octets, rest, by rw [hbs, List.append_assoc], List.length_append, ?_, hvalue,
    hlimit⟩
  rcases hext with ⟨rfl, rfl, hc⟩ | ⟨n, rfl, -, hform⟩
  · refine ⟨Or.inl ⟨rfl, hc⟩, ?_, ?_⟩
    · intro n hn
      omega
    · intro _ n
      exact .mk hid (.indefinite hc)
  · refine ⟨Or.inr (by omega), ?_, ?_⟩
    · intro m hm
      obtain rfl : n = m := by omega
      exact .mk hid (.definite hform)
    · intro hneg
      omega

/-- A header that was accepted, and what it said of the contents, within the limits. -/
theorem berCheckTags_sound {optCtx : Bool} {tags : List ℕ} {tagMode : TagMode}
    {lastTagForm : Option Bool} {expected : Option ℕ} {bs : Bytes}
    (htags : tagChain tags tagMode = [expected])
    (hok : (berCheckTags optCtx tags tagMode lastTagForm bs).rval.code = .rcOk) :
    ∃ tag constructed header left rest, bs = header ++ rest ∧
      berCheckTags optCtx tags tagMode lastTagForm bs =
        ⟨⟨.rcOk, header.length⟩, left, constructed⟩ ∧
      Opened tag constructed header left ∧ berTagValue tag < 2 ^ 30 ∧
      (∃ k, berFetchTag bs = .got k tag) ∧ (expected = none ∨ expected = some tag) ∧
      (lastTagForm = none ∨ lastTagForm = some constructed) ∧ left + 1024 < 2 ^ 63 ∧
      (0 ≤ left → left + header.length < 2 ^ 63) := by
  rcases hstep : checkTag lastTagForm expected true ⟨bs, 0, -1, 0, -1, false⟩ with code | t
  · exfalso
    have hcode := checkTag_error hstep
    simp only [berCheckTags, htags, checkTags, List.isEmpty_nil, hstep] at hok
    split_ifs at hok
    · exact hcode hok
    · exact hcode hok
  · have hresult : berCheckTags optCtx tags tagMode lastTagForm bs =
        ⟨⟨.rcOk, t.consumed⟩, if t.expect00 ≠ 0 then -t.expect00 else t.tlvLen, t.tlvConstr⟩ := by
      simp only [berCheckTags, htags, checkTags, List.isEmpty_nil, hstep, true_or, if_true]
    unfold checkTag at hstep
    rcases htag : berFetchTag bs with _ | _ | ⟨tagLen, tlvTag⟩
    · simp only [htag] at hstep
      cases hstep
    · simp only [htag] at hstep
      cases hstep
    · rcases hlen : berFetchLength (berTlvConstructed bs) (bs.drop tagLen) with
        _ | _ | ⟨lenLen, tlvLen⟩
      · simp only [htag, hlen] at hstep
        split_ifs at hstep
      · simp only [htag, hlen] at hstep
        split_ifs at hstep
      · obtain ⟨header, rest, hbs, hheader, hopened, hvalue, hlimit⟩ := opened_of_fetch htag hlen
        simp only [htag, hlen, if_true] at hstep
        by_cases hother : expected ≠ none ∧ expected ≠ some tlvTag
        · rw [if_pos hother] at hstep
          cases hstep
        · rw [if_neg hother] at hstep
          by_cases hwrong : lastTagForm ≠ none ∧ lastTagForm ≠ some (berTlvConstructed bs)
          · rw [if_pos hwrong] at hstep
            cases hstep
          · rw [if_neg hwrong] at hstep
            have hexpected : expected = none ∨ expected = some tlvTag := by tauto
            have hform : lastTagForm = none ∨ lastTagForm = some (berTlvConstructed bs) := by
              tauto
            by_cases hindef : tlvLen = -1
            · rw [if_pos hindef] at hstep
              cases hstep
              refine ⟨tlvTag, berTlvConstructed bs, header, tlvLen, rest, hbs, ?_, hopened, hvalue,
                ⟨tagLen, rfl⟩, hexpected, hform, hlimit, fun hge => by omega⟩
              rw [hresult, hheader, hindef, Nat.zero_add]
              rfl
            · rw [if_neg hindef] at hstep
              simp only [ne_eq, not_true_eq_false, if_false] at hstep
              by_cases hbig : (2 : ℤ) ^ 63 ≤ tlvLen + ((tagLen + lenLen : ℕ) : ℤ)
              · rw [if_pos hbig] at hstep
                cases hstep
              · rw [if_neg hbig] at hstep
                cases hstep
                refine ⟨tlvTag, berTlvConstructed bs, header, tlvLen, rest, hbs, ?_, hopened,
                  hvalue, ⟨tagLen, rfl⟩, hexpected, hform, hlimit, fun _ => by omega⟩
                rw [hresult, hheader, Nat.zero_add]
                rfl

end Fws
