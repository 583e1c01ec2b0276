import Fws.Base.Tlv

/-!
# Tags and lengths (asn1c/ber_tlv_tag.c, asn1c/ber_tlv_length.c)

A tag is a number, `value * 4 + class`. A fetch answers `-1`, `0` (more bytes
are wanted) or the number of octets it took.
-/

namespace Fws
open Base.Digits Base.Tlv

inductive Fetch (α : Type) where
  | failed
  | more
  | got (taken : ℕ) (value : α)
  deriving DecidableEq, Repr

def berTagClass (tag : ℕ) : ℕ := tag % 4

def berTagValue (tag : ℕ) : ℕ := tag / 4

def berTlvConstructed : Bytes → Bool
  | [] => false
  | b :: _ => b.toNat / 32 % 2 = 1

/-! ### Fetching -/

def fetchTagLoop (tclass : ℕ) : ℕ → ℕ → Bytes → Fetch ℕ
  | _, _, [] => .more
  | val, skipped, oct :: bs =>
    if 128 ≤ oct.toNat then
      let val := val * 128 + oct.toNat % 128
      if val / 2 ^ 23 ≠ 0 then .failed else fetchTagLoop tclass val (skipped + 1) bs
    else .got skipped ((val * 128 + oct.toNat) * 4 + tclass)

def berFetchTag : Bytes → Fetch ℕ
  | [] => .more
  | b :: bs =>
    let tclass := b.toNat / 64
    let val := b.toNat % 32
    if val ≠ 31 then .got 1 (val * 4 + tclass) else fetchTagLoop tclass 0 2 bs

/- The length is a signed 64-bit number, and 1024 more must still fit. -/
def fetchLengthLoop : ℕ → ℕ → ℕ → Bytes → Fetch ℤ
  | 0, len, skipped, _ => if 2 ^ 63 ≤ len + 1024 then .failed else .got skipped len
  | _ + 1, _, _, [] => .more
  | oct + 1, len, skipped, b :: bs =>
    let len := len * 256 + b.toNat
    if 2 ^ 63 ≤ len ∨ (len / 2 ^ 56 ≠ 0 ∧ 1 < oct + 1) then .failed
    else fetchLengthLoop oct len (skipped + 1) bs

/- An indefinite length is `-1`. -/
def berFetchLength (constructed : Bool) : Bytes → Fetch ℤ
  | [] => .more
  | b :: bs =>
    if b.toNat < 128 then .got 1 b.toNat
    else if constructed ∧ b.toNat = 128 then .got 1 (-1)
    else if b.toNat = 255 then .failed
    else fetchLengthLoop (b.toNat % 128) 0 1 bs

theorem fetchTagLoop_got {tclass val skipped taken tag : ℕ} {bs : Bytes}
    (h : fetchTagLoop tclass val skipped bs = .got taken tag) :
    skipped ≤ taken ∧ taken < skipped + bs.length := by
  induction bs generalizing val skipped with
  | nil => cases h
  | cons oct bs ih =>
    simp only [fetchTagLoop] at h
    rw [List.length_cons]
    split_ifs at h
    · have := ih h
      omega
    · cases h
      omega

theorem berFetchTag_got {bs : Bytes} {taken tag : ℕ} (h : berFetchTag bs = .got taken tag) :
    1 ≤ taken ∧ taken ≤ bs.length := by
  cases bs with
  | nil => cases h
  | cons b bs =>
    simp only [berFetchTag] at h
    rw [List.length_cons]
    split_ifs at h
    · cases h
      omega
    · have := fetchTagLoop_got h
      omega

theorem fetchLengthLoop_got {oct len skipped taken : ℕ} {value : ℤ} {bs : Bytes}
    (h : fetchLengthLoop oct len skipped bs = .got taken value) :
    skipped ≤ taken ∧ taken ≤ skipped + bs.length ∧ 0 ≤ value := by
  induction bs generalizing oct len skipped with
  | nil =>
    cases oct with
    | zero =>
      simp only [fetchLengthLoop] at h
      split_ifs at h
      cases h
      simp
    | succ oct => cases h
  | cons b bs ih =>
    rw [List.length_cons]
    cases oct with
    | zero =>
      simp only [fetchLengthLoop] at h
      split_ifs at h
      cases h
      omega
    | succ oct =>
      simp only [fetchLengthLoop] at h
      split_ifs at h
      have := ih h
      omega

theorem berFetchLength_got {constructed : Bool} {bs : Bytes} {taken : ℕ} {value : ℤ}
    (h : berFetchLength constructed bs = .got taken value) :
    1 ≤ taken ∧ taken ≤ bs.length ∧ (value = -1 ∧ constructed = true ∨ 0 ≤ value) := by
  cases bs with
  | nil => cases h
  | cons b bs =>
    simp only [berFetchLength] at h
    rw [List.length_cons]
    split_ifs at h with h1 h2
    · cases h
      omega
    · cases h
      exact ⟨by omega, by omega, Or.inl ⟨rfl, h2.1⟩⟩
    · have := fetchLengthLoop_got h
      omega

/-! ### Serializing

The octets that a serializer stores when the buffer has room for them; their
number is what it returns. -/

def sizeLoop (n step : ℕ) : ℕ → ℕ → ℕ → ℕ
  | 0, _, requiredSize => requiredSize
  | rounds + 1, i, requiredSize =>
    if n >>> i ≠ 0 then sizeLoop n step rounds (i + step) (requiredSize + 1) else requiredSize

def tagOctets (tval : ℕ) : ℕ → Bytes
  | 0 => []
  | r + 1 =>
    UInt8.ofNat ((if r = 0 then 0 else 128) + (tval >>> (7 * r)) % 128) :: tagOctets tval r

def berTlvTagSerialize (tag : ℕ) : Bytes :=
  let tclass := berTagClass tag
  let tval := berTagValue tag
  if tval ≤ 30 then [UInt8.ofNat (tclass * 64 + tval)]
  else UInt8.ofNat (tclass * 64 + 31) :: tagOctets tval (sizeLoop tval 7 4 7 1)

def lengthShifts (len : ℕ) : ℕ → Bytes
  | 0 => []
  | r + 1 => UInt8.ofNat (len >>> (8 * r)) :: lengthShifts len r

def derTlvLengthSerialize (len : ℕ) : Bytes :=
  if len ≤ 127 then [UInt8.ofNat len]
  else
    let requiredSize := sizeLoop len 8 7 8 1
    UInt8.ofNat (128 + requiredSize) :: lengthShifts len requiredSize

theorem shiftRight_octets (n r : ℕ) : n >>> (8 * r) = n / 256 ^ r := by
  rw [Nat.shiftRight_eq_div_pow, pow_mul]
  norm_num

theorem lengthShifts_eq (len r : ℕ) : lengthShifts len r = beBytes r len := by
  induction r with
  | zero => rfl
  | succ r ih => rw [lengthShifts, beBytes_cons, shiftRight_octets, ih]

theorem sizeLoop_octets (n rounds r : ℕ) (hlo : r ≤ octetCount n) (hhi : octetCount n ≤ r + rounds)
    (hr : r ≠ 0) : sizeLoop n 8 rounds (8 * r) r = octetCount n := by
  induction rounds generalizing r with
  | zero =>
    rw [sizeLoop]
    omega
  | succ rounds ih =>
    rw [sizeLoop, shiftRight_octets]
    by_cases h : n / 256 ^ r = 0
    · rw [if_neg (not_not.mpr h)]
      have hlt : n < 256 ^ r := (Nat.div_eq_zero_iff_lt (by positivity)).mp h
      have := octetCount_le hr hlt
      omega
    · rw [if_pos h]
      have hge : 256 ^ r ≤ n := by
        by_contra hlt
        exact h (Nat.div_eq_of_lt (not_le.mp hlt))
      have hn : n ≠ 0 := by
        intro heq
        obtain rfl := heq
        exact h (Nat.zero_div _)
      have hcount : r + 1 ≤ octetCount n := by
        unfold octetCount
        have := Nat.le_log_of_pow_le (by norm_num) hge
        omega
      have hidx : 8 * r + 8 = 8 * (r + 1) := by ring
      rw [hidx]
      exact ih (r + 1) hcount (by omega) (by omega)

theorem derTlvLengthSerialize_eq {len : ℕ} (h : len < 2 ^ 64) :
    derTlvLengthSerialize len = lengthOctets len := by
  unfold derTlvLengthSerialize lengthOctets
  by_cases hshort : len < 128
  · rw [if_pos (by omega), if_pos hshort]
  · have hcount := octetCount_le (n := len) (k := 8) (by norm_num) (by norm_num; omega)
    have hsize :=
      sizeLoop_octets len 7 1 (Nat.succ_le_succ (Nat.zero_le _)) (by omega) (by norm_num)
    rw [if_neg (by omega), if_neg hshort]
    simp only [hsize, lengthShifts_eq]

theorem berTlvTagSerialize_short {tag : ℕ} (h : berTagValue tag ≤ 30) :
    berTlvTagSerialize tag = [identifier (berTagClass tag) false (berTagValue tag)] := by
  simp only [berTlvTagSerialize, if_pos h, identifier, Bool.false_eq_true, if_false, Nat.add_zero]

/-! ### Fetching what was serialized -/

theorem berFetchTag_identifier {tag : ℕ} (constructed : Bool) (rest : Bytes)
    (h : berTagValue tag ≤ 30) :
    berFetchTag (identifier (berTagClass tag) constructed (berTagValue tag) :: rest) =
      .got 1 tag := by
  have hc : berTagClass tag < 4 := Nat.mod_lt _ (by norm_num)
  have hid := identifier_toNat constructed hc (show berTagValue tag < 31 by omega)
  have htag : berTagValue tag * 4 + berTagClass tag = tag := Nat.div_add_mod' tag 4
  have hval : (berTagClass tag * 64 + (if constructed then 32 else 0) + berTagValue tag) % 32 =
      berTagValue tag := by
    split <;> omega
  have hclass : (berTagClass tag * 64 + (if constructed then 32 else 0) + berTagValue tag) / 64 =
      berTagClass tag := by
    split <;> omega
  simp only [berFetchTag, hid, hval, hclass]
  rw [if_pos (by omega), htag]

theorem berTlvConstructed_identifier {tag : ℕ} (constructed : Bool) (rest : Bytes)
    (h : berTagValue tag ≤ 30) :
    berTlvConstructed (identifier (berTagClass tag) constructed (berTagValue tag) :: rest) =
      constructed := by
  have hc : berTagClass tag < 4 := Nat.mod_lt _ (by norm_num)
  have hid := identifier_toNat constructed hc (show berTagValue tag < 31 by omega)
  simp only [berTlvConstructed, hid]
  cases constructed
  · simp only [Bool.false_eq_true, if_false, decide_eq_false_iff_not]
    omega
  · simp only [if_true, decide_eq_true_iff]
    omega

theorem fetchLengthLoop_beBytes (n : ℕ) (rest : Bytes) (k acc skipped : ℕ)
    (h : acc * 256 ^ k + n % 256 ^ k + 1024 < 2 ^ 63) :
    fetchLengthLoop k acc skipped (beBytes k n ++ rest) =
      .got (skipped + k) ((acc * 256 ^ k + n % 256 ^ k : ℕ) : ℤ) := by
  induction k generalizing acc skipped with
  | zero =>
    simp only [pow_zero, mul_one, Nat.mod_one, Nat.add_zero] at h ⊢
    rw [fetchLengthLoop, if_neg (by omega)]
  | succ k ih =>
    have hb : (UInt8.ofNat (n / 256 ^ k)).toNat = n / 256 ^ k % 256 := UInt8.toNat_ofNat'
    have hmod : n % 256 ^ (k + 1) = n % 256 ^ k + 256 ^ k * (n / 256 ^ k % 256) := by
      rw [pow_succ, Nat.mod_mul]
    have htotal : acc * 256 ^ (k + 1) + n % 256 ^ (k + 1) =
        (acc * 256 + n / 256 ^ k % 256) * 256 ^ k + n % 256 ^ k := by
      rw [hmod, pow_succ]
      ring
    rw [htotal] at h ⊢
    have hone : 1 ≤ 256 ^ k := Nat.one_le_pow _ _ (by norm_num)
    have hlen : acc * 256 + n / 256 ^ k % 256 ≤ (acc * 256 + n / 256 ^ k % 256) * 256 ^ k :=
      Nat.le_mul_of_pos_right _ hone
    have hfit : ¬ (2 ^ 63 ≤ acc * 256 + n / 256 ^ k % 256 ∨
        ((acc * 256 + n / 256 ^ k % 256) / 2 ^ 56 ≠ 0 ∧ 1 < k + 1)) := by
      intro hcase
      rcases hcase with hbig | ⟨hbig, hk⟩
      · omega
      · have hge : 2 ^ 56 ≤ acc * 256 + n / 256 ^ k % 256 := by
          by_contra hlt
          exact hbig (Nat.div_eq_of_lt (not_le.mp hlt))
        have hpow : 256 ^ 1 ≤ 256 ^ k := Nat.pow_le_pow_right (by norm_num) (by omega)
        have hmul := Nat.mul_le_mul hge hpow
        norm_num at hmul
        omega
    rw [beBytes_cons, List.cons_append, fetchLengthLoop, hb, if_neg hfit, ih _ _ h, Nat.add_assoc,
      Nat.add_comm 1 k]

theorem berFetchLength_octets {n : ℕ} (constructed : Bool) (rest : Bytes)
    (h : n + 1024 < 2 ^ 63) :
    berFetchLength constructed (lengthOctets n ++ rest) =
      .got (lengthOctets n).length (n : ℤ) := by
  unfold lengthOctets
  by_cases hshort : n < 128
  · have hb : (UInt8.ofNat n).toNat = n := by
      rw [UInt8.toNat_ofNat']
      omega
    rw [if_pos hshort, List.cons_append, List.nil_append, berFetchLength, hb, if_pos hshort]
    rfl
  · have hcount := octetCount_le (n := n) (k := 8) (by norm_num) (by norm_num; omega)
    have hpos : 0 < octetCount n := Nat.succ_pos _
    have hlt := lt_pow_octetCount n
    have hb : (UInt8.ofNat (128 + octetCount n)).toNat = 128 + octetCount n := by
      rw [UInt8.toNat_ofNat']
      omega
    have hdigits : (128 + octetCount n) % 128 = octetCount n := by omega
    have hval : 0 * 256 ^ octetCount n + n % 256 ^ octetCount n = n := by
      rw [Nat.zero_mul, Nat.zero_add, Nat.mod_eq_of_lt hlt]
    rw [if_neg hshort, List.cons_append, berFetchLength, hb, if_neg (by omega),
      if_neg (by omega), if_neg (by omega), hdigits,
      fetchLengthLoop_beBytes n rest _ 0 1 (by rw [hval]; exact h), hval, List.length_cons,
      beBytes_length, Nat.add_comm]

end Fws
