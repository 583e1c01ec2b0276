import Fws.Asn1.DerEncoder
import Fws.Base.Integers
import Fws.Networking.Platform

/-!
# INTEGER (asn1c/INTEGER.c)

Contents octets of any length, the `long` they are converted to and from, and
the octets that the encoder leaves out.
-/

namespace Fws
open Base.Digits Base.Integers

/-- Conversion to `long` (64 bits, two's complement). -/
def cLong (n : ℤ) : ℤ := n.bmod (2 ^ 64)

inductive Errno where
  | einval
  | erange
  deriving DecidableEq, Repr

/- `l = (l << 8) | *b`. -/
def convertOctet (l : ℤ) (b : Byte) : ℤ := cLong (l * 256 + b.toNat)

/- The sign, and then the octets. -/
def longOctets : Bytes → ℤ
  | [] => 0
  | b :: bs => (b :: bs).foldl convertOctet (if 128 ≤ b.toNat then -1 else 0)

/- A buffer that is `NULL` is `none`. Octets are skipped only where there are more
than a `long` has, and then all that say nothing. -/
def asnINTEGER2long : Option Bytes → Except Errno ℤ
  | none => .error .einval
  | some buf =>
    let octets := if 8 < buf.length then integerStrip buf else buf
    if 8 < octets.length then .error .erange else .ok (longOctets octets)

/-! ### Superfluous octets -/

theorem integerStrip_signedValue (bs : Bytes) : signedValue (integerStrip bs) = signedValue bs := by
  induction bs using integerStrip.induct with
  | case1 => rfl
  | case2 b => rfl
  | case3 b b' bs h ih =>
    rw [integerStrip, if_pos h, ih]
    exact (signedValue_superfluous h bs).symm
  | case4 b b' bs h => rw [integerStrip, if_neg h]

theorem integerStrip_shortest {bs : Bytes} (hne : bs ≠ []) : Shortest (integerStrip bs) := by
  induction bs using integerStrip.induct with
  | case1 => exact absurd rfl hne
  | case2 b => exact .one b
  | case3 b b' bs h ih =>
    rw [integerStrip, if_pos h]
    exact ih (List.cons_ne_nil _ _)
  | case4 b b' bs h =>
    rw [integerStrip, if_neg h]
    exact .more bs h

theorem integerStrip_length_le (bs : Bytes) : (integerStrip bs).length ≤ bs.length := by
  induction bs using integerStrip.induct with
  | case1 => exact Nat.le_refl _
  | case2 b => exact Nat.le_refl _
  | case3 b b' bs h ih =>
    rw [integerStrip, if_pos h]
    exact le_trans ih (Nat.le_succ _)
  | case4 b b' bs h => rw [integerStrip, if_neg h]

theorem integerStrip_of_shortest {bs : Bytes} (h : Shortest bs) : integerStrip bs = bs := by
  cases h with
  | one b => rfl
  | more bs h =>
    rw [integerStrip]
    exact if_neg h

theorem integerStrip_idem (bs : Bytes) : integerStrip (integerStrip bs) = integerStrip bs := by
  cases bs with
  | nil => rfl
  | cons b bs => exact integerStrip_of_shortest (integerStrip_shortest (List.cons_ne_nil b bs))

/-! ### A long and its octets -/

theorem fits_long (v : ℤ) : Fits 7 v ↔ -2 ^ 63 ≤ v ∧ v < 2 ^ 63 := by
  unfold Fits
  norm_num

theorem cLong_of_fits {n : ℤ} (h : Fits 7 n) : cLong n = n := by
  obtain ⟨hlo, hhi⟩ := (fits_long n).mp h
  simp only [cLong, Int.bmod]
  omega

theorem signedValue_snoc (b : Byte) (bs : Bytes) (c : Byte) :
    signedValue (b :: (bs ++ [c])) = signedValue (b :: bs) * 256 + c.toNat := by
  rw [signedValue, signedValue, beVal_snoc, List.length_append, List.length_singleton, pow_succ]
  push_cast
  ring

/-- The conversion of up to eight octets never leaves the range of a `long`. -/
theorem longOctets_eq {bs : Bytes} (h : bs.length ≤ 8) : longOctets bs = signedValue bs := by
  cases bs with
  | nil => rfl
  | cons b bs =>
    rw [List.length_cons] at h
    rw [longOctets]
    induction bs using List.reverseRecOn with
    | nil =>
      have hfirst : (if 128 ≤ b.toNat then (-1 : ℤ) else 0) * 256 + b.toNat = leading b := by
        unfold leading
        split_ifs
        · ring
        · ring
      have hfits : Fits 7 (leading b) := by
        have hbounds := leading_bounds b
        rw [fits_long]
        omega
      rw [List.foldl_cons, List.foldl_nil, convertOctet, hfirst, cLong_of_fits hfits]
      simp [signedValue]
    | append_singleton bs c ih =>
      rw [List.length_append, List.length_singleton] at h
      have hfits : Fits 7 (signedValue (b :: (bs ++ [c]))) := by
        apply (signedValue_fits b (bs ++ [c])).mono
        rw [List.length_append, List.length_singleton]
        omega
      rw [← List.cons_append, List.foldl_append, ih (by omega), List.foldl_cons, List.foldl_nil,
        convertOctet, List.cons_append, ← signedValue_snoc, cLong_of_fits hfits]

theorem signedValue_fits_long {bs : Bytes} (h : bs.length ≤ 8) : Fits 7 (signedValue bs) := by
  cases bs with
  | nil => exact (fits_long 0).mpr (by norm_num)
  | cons b bs =>
    rw [List.length_cons] at h
    exact (signedValue_fits b bs).mono (by omega)

/-- What says nothing is skipped until the rest fits, where the number does. -/
theorem asnINTEGER2long_fits {bs : Bytes} (h : Fits 7 (signedValue bs)) :
    asnINTEGER2long (some bs) = .ok (signedValue bs) := by
  by_cases hlong : 8 < bs.length
  · have hne : bs ≠ [] := by
      intro hnil
      rw [hnil] at hlong
      cases hlong
    have hshort : (integerStrip bs).length ≤ 8 := by
      apply (integerStrip_shortest hne).length_le
      rw [integerStrip_signedValue]
      exact h
    simp only [asnINTEGER2long, if_pos hlong]
    rw [if_neg (not_lt.mpr hshort), longOctets_eq hshort, integerStrip_signedValue]
  · simp only [asnINTEGER2long, if_neg hlong]
    rw [longOctets_eq (not_lt.mp hlong)]

theorem asnINTEGER2long_large {bs : Bytes} (h : ¬ Fits 7 (signedValue bs)) :
    asnINTEGER2long (some bs) = .error .erange := by
  have hlong : ∀ octets, signedValue octets = signedValue bs → 8 < octets.length := by
    intro octets hsame
    by_contra hshort
    have hfits := signedValue_fits_long (not_lt.mp hshort)
    rw [hsame] at hfits
    exact h hfits
  have hstill := hlong _ (integerStrip_signedValue bs)
  simp only [asnINTEGER2long, if_pos (hlong bs rfl), if_pos hstill]

/-- What the encoder leaves out makes no difference. -/
theorem asnINTEGER2long_strip (bs : Bytes) :
    asnINTEGER2long (some (integerStrip bs)) = asnINTEGER2long (some bs) := by
  have hsame := integerStrip_signedValue bs
  by_cases hfits : Fits 7 (signedValue bs)
  · rw [asnINTEGER2long_fits hfits, ← hsame]
    exact asnINTEGER2long_fits (hsame ▸ hfits)
  · rw [asnINTEGER2long_large hfits]
    exact asnINTEGER2long_large (hsame ▸ hfits)

/- The conversion to a `long` is exact: octets of any number give what they denote
where a `long` can hold it, and are refused otherwise. -/
theorem asnINTEGER2long_exact (bs : Bytes) :
    asnINTEGER2long (some bs) =
      if -2 ^ 63 ≤ signedValue bs ∧ signedValue bs < 2 ^ 63 then .ok (signedValue bs)
      else .error .erange := by
  by_cases hfits : Fits 7 (signedValue bs)
  · rw [asnINTEGER2long_fits hfits, if_pos ((fits_long _).mp hfits)]
  · rw [asnINTEGER2long_large hfits, if_neg (fun h => hfits ((fits_long _).mpr h))]

theorem asnLong2INTEGER_value {v : ℤ} (h : -2 ^ 63 ≤ v ∧ v < 2 ^ 63) :
    signedValue (asnLong2INTEGER v) = v ∧ Shortest (asnLong2INTEGER v) := by
  have hvalue := signedValue_beBytes ((fits_long v).mpr h)
  have hne : beBytes 8 (v % 2 ^ 64).toNat ≠ [] := by
    intro hnil
    have hlen := beBytes_length 8 (v % 2 ^ 64).toNat
    rw [hnil] at hlen
    cases hlen
  have hsize : (256 : ℤ) ^ (7 + 1) = 2 ^ 64 := by norm_num
  rw [hsize] at hvalue
  unfold asnLong2INTEGER
  rw [integerStrip_signedValue]
  exact ⟨hvalue, integerStrip_shortest hne⟩

/- A `long` comes back from its octets. No other octets that say the same are fewer,
and the encoder writes these for all of them. -/
theorem long_survives (v : ℤ) (hv : -2 ^ 63 ≤ v ∧ v < 2 ^ 63) :
    asnINTEGER2long (some (asnLong2INTEGER v)) = .ok v ∧
      ∀ bs ≠ [], asnINTEGER2long (some bs) = .ok v →
        (asnLong2INTEGER v).length ≤ bs.length ∧ integerStrip bs = asnLong2INTEGER v := by
  obtain ⟨hvalue, hshortest⟩ := asnLong2INTEGER_value hv
  have hfits := (fits_long v).mpr hv
  rw [← hvalue] at hfits
  constructor
  · rw [asnINTEGER2long_fits hfits, hvalue]
  · intro bs hne h
    have hsame : signedValue bs = v := by
      by_cases hbs : Fits 7 (signedValue bs)
      · rw [asnINTEGER2long_fits hbs] at h
        exact Except.ok.inj h
      · rw [asnINTEGER2long_large hbs] at h
        cases h
    have hstrip : integerStrip bs = asnLong2INTEGER v := by
      apply (integerStrip_shortest hne).unique hshortest
      rw [integerStrip_signedValue, hsame, hvalue]
    exact ⟨hstrip ▸ integerStrip_length_le bs, hstrip⟩

theorem long_survives_minus :
    (-2 ^ 63 ≤ (-129 : ℤ) ∧ (-129 : ℤ) < 2 ^ 63) ∧
      (asnINTEGER2long (some (asnLong2INTEGER (-129))) = .ok (-129) ∧
      ∀ bs ≠ [], asnINTEGER2long (some bs) = .ok (-129) →
        (asnLong2INTEGER (-129)).length ≤ bs.length ∧ integerStrip bs = asnLong2INTEGER (-129)) :=
  ⟨by norm_num, long_survives (-129) (by norm_num)⟩

end Fws
