import Fws.Base.Digits
import Mathlib.Data.Nat.Log

/-!
# Tag-length-value encodings

Definite lengths in the distinguished form: one octet below 128, otherwise the
count of the fewest digits and then these digits. A `tlv` is an identifier
octet, the length of the contents and the contents.
-/

namespace Base.Tlv
open Base.Digits

/-- The fewest base-256 digits that hold `n`. -/
def octetCount (n : ℕ) : ℕ := Nat.log 256 n + 1

theorem lt_pow_octetCount (n : ℕ) : n < 256 ^ octetCount n :=
  Nat.lt_pow_succ_log_self (by norm_num) n

theorem octetCount_le {n k : ℕ} (hk : k ≠ 0) (h : n < 256 ^ k) : octetCount n ≤ k := by
  unfold octetCount
  rcases Nat.eq_zero_or_pos n with rfl | hn
  · rw [Nat.log_zero_right]
    omega
  · exact (Nat.log_lt_iff_lt_pow (by norm_num) hn.ne').mpr h

def lengthOctets (n : ℕ) : Bytes :=
  if n < 128 then [UInt8.ofNat n]
  else UInt8.ofNat (128 + octetCount n) :: beBytes (octetCount n) n

theorem lengthOctets_length_pos (n : ℕ) : 0 < (lengthOctets n).length := by
  unfold lengthOctets
  split
  · exact Nat.one_pos
  · exact Nat.succ_pos _

theorem lengthOctets_length_le {n k : ℕ} (hk : k ≠ 0) (h : n < 256 ^ k) :
    (lengthOctets n).length ≤ k + 1 := by
  have hcount := octetCount_le hk h
  unfold lengthOctets
  split
  · exact Nat.succ_le_succ (Nat.zero_le k)
  · rw [List.length_cons, beBytes_length]
    omega

/-- Class, form and a tag number up to 30 in one octet. -/
def identifier (tagClass : ℕ) (constructed : Bool) (number : ℕ) : Byte :=
  UInt8.ofNat (tagClass * 64 + (if constructed then 32 else 0) + number)

theorem identifier_toNat {tagClass number : ℕ} (constructed : Bool) (hc : tagClass < 4)
    (hn : number < 31) :
    (identifier tagClass constructed number).toNat =
      tagClass * 64 + (if constructed then 32 else 0) + number := by
  rw [identifier, UInt8.toNat_ofNat']
  split <;> omega

def tlv (id : Byte) (contents : Bytes) : Bytes :=
  id :: lengthOctets contents.length ++ contents

/-- What a `tlv` puts before `n` bytes of contents. -/
def headerOctets (n : ℕ) : ℕ := 1 + (lengthOctets n).length

theorem two_le_headerOctets (n : ℕ) : 2 ≤ headerOctets n := by
  have hpos := lengthOctets_length_pos n
  unfold headerOctets
  omega

theorem headerOctets_le {n k : ℕ} (hk : k ≠ 0) (h : n < 256 ^ k) : headerOctets n ≤ k + 2 := by
  have hlen := lengthOctets_length_le hk h
  unfold headerOctets
  omega

theorem tlv_length (id : Byte) (contents : Bytes) :
    (tlv id contents).length = 1 + (lengthOctets contents.length).length + contents.length := by
  simp only [tlv, List.length_append, List.length_cons]
  omega

theorem tlv_length_header (id : Byte) (contents : Bytes) :
    (tlv id contents).length = headerOctets contents.length + contents.length :=
  tlv_length id contents

/-- Identifier and length take at most ten octets below `2 ^ 64`. -/
theorem tlv_length_le (id : Byte) (contents : Bytes) (h : contents.length < 2 ^ 64) :
    (tlv id contents).length ≤ contents.length + 10 := by
  have hlen := lengthOctets_length_le (k := 8) (by norm_num) (n := contents.length)
    (by norm_num; omega)
  rw [tlv_length]
  omega

theorem drop_header (id : Byte) (contents rest : Bytes) :
    (id :: lengthOctets contents.length ++ (contents ++ rest)).drop
      (1 + (lengthOctets contents.length).length) = contents ++ rest := by
  rw [List.drop_left' (by rw [List.length_cons, Nat.add_comm])]

theorem tlv_append (id : Byte) (contents rest : Bytes) :
    tlv id contents ++ rest = id :: lengthOctets contents.length ++ (contents ++ rest) := by
  simp only [tlv, List.append_assoc]

theorem tlv_length_ge (id : Byte) (contents : Bytes) :
    contents.length + 2 ≤ (tlv id contents).length := by
  have hlen := lengthOctets_length_pos contents.length
  rw [tlv_length]
  omega

end Base.Tlv
