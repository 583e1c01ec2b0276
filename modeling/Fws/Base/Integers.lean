import Fws.Base.Digits

/-!
# Numbers in two's complement

A byte string of any length read as a signed number, most significant first, and
the strings that are as short as their number allows.
-/

namespace Base.Integers
open Base.Digits

/- The first octet counts as a signed one. -/
def leading (b : Byte) : ℤ := if 128 ≤ b.toNat then b.toNat - 256 else b.toNat

def signedValue : Bytes → ℤ
  | [] => 0
  | b :: bs => leading b * 256 ^ bs.length + beVal bs

/- The first nine bits are alike. -/
def Superfluous (b b' : Byte) : Prop := (b = 0 ∧ b'.toNat < 128) ∨ (b = 255 ∧ 128 ≤ b'.toNat)

/- At least one octet, and no first one that could be left out. -/
inductive Shortest : Bytes → Prop where
  | one (b : Byte) : Shortest [b]
  | more {b b' : Byte} (bs : Bytes) (h : ¬ Superfluous b b') : Shortest (b :: b' :: bs)

/- The numbers of `k + 1` octets. -/
def Fits (k : ℕ) (v : ℤ) : Prop := -128 * 256 ^ k ≤ v ∧ v < 128 * 256 ^ k

/-! ### Ranges -/

theorem digits_lt {d c p r : ℤ} (hp : 0 < p) (hr : r < p) (hd : d < c) : d * p + r < c * p := by
  have hle : (d + 1) * p ≤ c * p := mul_le_mul_of_nonneg_right hd (le_of_lt hp)
  rw [add_mul, one_mul] at hle
  omega

theorem digits_ge {d c p r : ℤ} (hp : 0 < p) (hr : 0 ≤ r) (hd : c ≤ d) : c * p ≤ d * p + r := by
  have hle : c * p ≤ d * p := mul_le_mul_of_nonneg_right hd (le_of_lt hp)
  omega

/-- A leading part and the octets below it, compared with a multiple of their weight. -/
theorem weighted_lt_iff (d c : ℤ) (bs : Bytes) :
    d * 256 ^ bs.length + beVal bs < c * 256 ^ bs.length ↔ d < c := by
  have hp : (0 : ℤ) < 256 ^ bs.length := by positivity
  have hr : (beVal bs : ℤ) < 256 ^ bs.length := by exact_mod_cast beVal_lt bs
  constructor
  · intro h
    by_contra hge
    have hle := digits_ge hp (Int.natCast_nonneg (beVal bs)) (not_lt.mp hge)
    omega
  · intro h
    exact digits_lt hp hr h

theorem leading_bounds (b : Byte) : -128 ≤ leading b ∧ leading b < 128 := by
  have hb := b.toNat_lt
  unfold leading
  split_ifs
  · omega
  · omega

theorem fits_weighted_iff (d : ℤ) (bs : Bytes) :
    Fits bs.length (d * 256 ^ bs.length + beVal bs) ↔ -128 ≤ d ∧ d < 128 := by
  unfold Fits
  rw [weighted_lt_iff, ← not_lt, weighted_lt_iff, not_lt]

theorem signedValue_fits (b : Byte) (bs : Bytes) : Fits bs.length (signedValue (b :: bs)) :=
  (fits_weighted_iff _ bs).mpr (leading_bounds b)

theorem signedValue_two (b b' : Byte) (bs : Bytes) :
    signedValue (b :: b' :: bs) = (leading b * 256 + b'.toNat) * 256 ^ bs.length + beVal bs := by
  rw [signedValue, beVal_cons, List.length_cons, pow_succ]
  push_cast
  ring

/-- The first octet is superfluous where the others can hold the number. -/
theorem superfluous_iff (b b' : Byte) :
    Superfluous b b' ↔ -128 ≤ leading b * 256 + b'.toNat ∧ leading b * 256 + b'.toNat < 128 := by
  have hb := b.toNat_lt
  have hb' := b'.toNat_lt
  have hzero : b = 0 ↔ b.toNat = 0 := UInt8.toNat_inj.symm
  have hall : b = 255 ↔ b.toNat = 255 := UInt8.toNat_inj.symm
  unfold Superfluous leading
  rw [hzero, hall]
  split_ifs
  · omega
  · omega

theorem fits_iff_superfluous (b b' : Byte) (bs : Bytes) :
    Fits bs.length (signedValue (b :: b' :: bs)) ↔ Superfluous b b' := by
  rw [signedValue_two, fits_weighted_iff, superfluous_iff]

/-- Leaving it out keeps the number. -/
theorem signedValue_superfluous {b b' : Byte} (h : Superfluous b b') (bs : Bytes) :
    signedValue (b :: b' :: bs) = signedValue (b' :: bs) := by
  have hbounds := (superfluous_iff b b').mp h
  have hsame : leading b * 256 + b'.toNat = leading b' := by
    have hb' := b'.toNat_lt
    unfold leading at hbounds ⊢
    split_ifs at hbounds ⊢ <;> omega
  rw [signedValue_two, hsame, signedValue]

theorem Fits.mono {j k : ℕ} {v : ℤ} (h : Fits j v) (hle : j ≤ k) : Fits k v := by
  have hpow : (256 : ℤ) ^ j ≤ 256 ^ k := pow_le_pow_right₀ (by norm_num) hle
  obtain ⟨hlo, hhi⟩ := h
  constructor
  · omega
  · omega

/-! ### The shortest string -/

theorem Shortest.pos {bs : Bytes} (h : Shortest bs) : 0 < bs.length := by
  cases h with
  | one b => exact Nat.one_pos
  | more bs h => exact Nat.succ_pos _

/-- A shortest string has as many octets as its number needs. -/
theorem Shortest.length_le {bs : Bytes} (h : Shortest bs) {k : ℕ} (hfits : Fits k (signedValue bs)) :
    bs.length ≤ k + 1 := by
  cases h with
  | one b => exact Nat.succ_le_succ (Nat.zero_le k)
  | @more b b' bs h =>
    by_contra hlong
    simp only [List.length_cons] at hlong
    exact h ((fits_iff_superfluous b b' bs).mp (hfits.mono (by omega)))

theorem Shortest.least {bs bs' : Bytes} (h : Shortest bs) (hne : bs' ≠ [])
    (hvalue : signedValue bs = signedValue bs') : bs.length ≤ bs'.length := by
  cases bs' with
  | nil => exact absurd rfl hne
  | cons b bs' =>
    have hfits := signedValue_fits b bs'
    rw [← hvalue] at hfits
    exact h.length_le hfits

/-- The number modulo its range is the unsigned one. -/
theorem signedValue_emod (bs : Bytes) : signedValue bs % 256 ^ bs.length = beVal bs := by
  cases bs with
  | nil => rfl
  | cons b bs =>
    have hlt : (beVal (b :: bs) : ℤ) < 256 ^ (b :: bs).length := by
      exact_mod_cast beVal_lt (b :: bs)
    have hval : (beVal (b :: bs) : ℤ) = b.toNat * 256 ^ bs.length + beVal bs := by
      exact_mod_cast beVal_cons b bs
    have hsplit : signedValue (b :: bs) =
        beVal (b :: bs) + (if 128 ≤ b.toNat then -1 else 0) * 256 ^ (b :: bs).length := by
      rw [hval, signedValue, leading, List.length_cons, pow_succ]
      split_ifs
      · ring
      · ring
    rw [hsplit, Int.add_mul_emod_self_right, Int.emod_eq_of_lt (Int.natCast_nonneg _) hlt]

/-- Strings of one length differ where their numbers do. -/
theorem signedValue_inj {bs bs' : Bytes} (hlen : bs.length = bs'.length)
    (hvalue : signedValue bs = signedValue bs') : bs = bs' := by
  have h := signedValue_emod bs
  have h' := signedValue_emod bs'
  rw [hvalue, hlen, h'] at h
  have hval : beVal bs = beVal bs' := by exact_mod_cast h.symm
  rw [← beBytes_beVal bs, ← beBytes_beVal bs', hlen, hval]

theorem Shortest.unique {bs bs' : Bytes} (h : Shortest bs) (h' : Shortest bs')
    (hvalue : signedValue bs = signedValue bs') : bs = bs' := by
  have hle := h.least (List.length_pos_iff.mp h'.pos) hvalue
  have hge := h'.least (List.length_pos_iff.mp h.pos) hvalue.symm
  exact signedValue_inj (Nat.le_antisymm hle hge) hvalue

/-- The digits of a number in range, or of its complement, are read as it. -/
theorem signedValue_beBytes {k : ℕ} {v : ℤ} (h : Fits k v) :
    signedValue (beBytes (k + 1) (v % 256 ^ (k + 1)).toNat) = v := by
  have hp : (0 : ℤ) < 256 ^ (k + 1) := by positivity
  have hnonneg : 0 ≤ v % 256 ^ (k + 1) := Int.emod_nonneg v (ne_of_gt hp)
  have hlt : (v % 256 ^ (k + 1)).toNat < 256 ^ (k + 1) := by
    have hmod := Int.emod_lt_of_pos v hp
    rw [Int.toNat_lt hnonneg]
    exact_mod_cast hmod
  have hmod := signedValue_emod (beBytes (k + 1) (v % 256 ^ (k + 1)).toNat)
  rw [beBytes_length, beVal_beBytes_of_lt hlt, Int.toNat_of_nonneg hnonneg] at hmod
  have hfits : Fits k (signedValue (beBytes (k + 1) (v % 256 ^ (k + 1)).toNat)) := by
    rw [beBytes_cons]
    have hcons := signedValue_fits (UInt8.ofNat ((v % 256 ^ (k + 1)).toNat / 256 ^ k))
      (beBytes k (v % 256 ^ (k + 1)).toNat)
    rw [beBytes_length] at hcons
    exact hcons
  generalize signedValue (beBytes (k + 1) (v % 256 ^ (k + 1)).toNat) = w at hmod hfits
  obtain ⟨hlo, hhi⟩ := h
  obtain ⟨hlo', hhi'⟩ := hfits
  -- two numbers of one range that agree modulo its size
  have hdvd : (256 : ℤ) ^ (k + 1) ∣ w - v :=
    Int.dvd_of_emod_eq_zero (Int.emod_eq_emod_iff_emod_sub_eq_zero.mp hmod)
  have hnear : |w - v| < 256 ^ (k + 1) := by
    rw [abs_lt, pow_succ]
    omega
  have hzero := Int.eq_zero_of_abs_lt_dvd hdvd hnear
  omega

end Base.Integers
