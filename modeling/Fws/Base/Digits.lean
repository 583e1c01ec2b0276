import Mathlib.Data.List.Induction
import Mathlib.Tactic.Ring
import Mathlib.Tactic.NormNum

/-!
# Fixed-width numbers as byte strings

Base-256 digits, most significant first, and the memory image of a `w`-byte
unsigned integer under either byte order. `hton` is the conversion that makes
the image of the converted value the big-endian digits of the original one,
whatever the order of the host.
-/

namespace Base.Digits

abbrev Byte := UInt8
abbrev Bytes := List UInt8

def beBytes : ℕ → ℕ → Bytes
  | 0, _ => []
  | w + 1, n => beBytes w (n / 256) ++ [UInt8.ofNat n]

def beVal (bs : Bytes) : ℕ := bs.foldl (fun v b => v * 256 + b.toNat) 0

@[simp] theorem beVal_nil : beVal [] = 0 := rfl

@[simp] theorem beVal_snoc (bs : Bytes) (b : Byte) :
    beVal (bs ++ [b]) = beVal bs * 256 + b.toNat := by
  simp only [beVal, List.foldl_append, List.foldl_cons, List.foldl_nil]

@[simp] theorem beBytes_length (w n : ℕ) : (beBytes w n).length = w := by
  induction w generalizing n with
  | zero => rfl
  | succ w ih => simp only [beBytes, List.length_append, ih, List.length_singleton]

theorem beVal_lt (bs : Bytes) : beVal bs < 256 ^ bs.length := by
  induction bs using List.reverseRecOn with
  | nil => decide
  | append_singleton bs b ih =>
    have hb := b.toNat_lt
    simp only [beVal_snoc, List.length_append, List.length_singleton, pow_succ]
    omega

theorem beVal_beBytes (w n : ℕ) : beVal (beBytes w n) = n % 256 ^ w := by
  induction w generalizing n with
  | zero => simp [beBytes, Nat.mod_one]
  | succ w ih =>
    have hlast : (UInt8.ofNat n).toNat = n % 256 := UInt8.toNat_ofNat'
    rw [beBytes, beVal_snoc, ih, hlast, pow_succ', Nat.mod_mul]
    ring

theorem beVal_beBytes_of_lt {w n : ℕ} (h : n < 256 ^ w) : beVal (beBytes w n) = n := by
  rw [beVal_beBytes, Nat.mod_eq_of_lt h]

theorem beBytes_beVal (bs : Bytes) : beBytes bs.length (beVal bs) = bs := by
  induction bs using List.reverseRecOn with
  | nil => rfl
  | append_singleton bs b ih =>
    have hb := b.toNat_lt
    have hdiv : (beVal bs * 256 + b.toNat) / 256 = beVal bs := by omega
    have hlast : UInt8.ofNat (beVal bs * 256 + b.toNat) = b := by
      apply UInt8.toNat_inj.mp
      rw [UInt8.toNat_ofNat']
      omega
    simp only [List.length_append, List.length_singleton, beVal_snoc, beBytes, hdiv, hlast, ih]

/-- The leading digit, and the rest. -/
theorem beBytes_cons (w n : ℕ) : beBytes (w + 1) n = UInt8.ofNat (n / 256 ^ w) :: beBytes w n := by
  induction w generalizing n with
  | zero => simp [beBytes]
  | succ w ih =>
    have hdiv : n / 256 / 256 ^ w = n / 256 ^ (w + 1) := by
      rw [Nat.div_div_eq_div_mul, pow_succ']
    rw [beBytes, ih, hdiv, List.cons_append]
    rfl

theorem beVal_cons (b : Byte) (bs : Bytes) :
    beVal (b :: bs) = b.toNat * 256 ^ bs.length + beVal bs := by
  induction bs using List.reverseRecOn with
  | nil => simp [beVal]
  | append_singleton bs c ih =>
    rw [← List.cons_append, beVal_snoc, ih, beVal_snoc, List.length_append, List.length_singleton,
      pow_succ]
    ring

/-! ### Memory images -/

inductive ByteOrder where
  | little
  | big
  deriving DecidableEq, Repr

def image (o : ByteOrder) (w n : ℕ) : Bytes :=
  match o with
  | .little => (beBytes w n).reverse
  | .big => beBytes w n

def value (o : ByteOrder) (bs : Bytes) : ℕ :=
  match o with
  | .little => beVal bs.reverse
  | .big => beVal bs

/- Host to network order for `w`-byte values: the value is reduced to `w`
bytes, and its bytes are swapped where the host is little-endian. -/
def hton (o : ByteOrder) (w n : ℕ) : ℕ := value o (beBytes w n)

def ntoh (o : ByteOrder) (w n : ℕ) : ℕ := beVal (image o w n)

theorem value_lt (o : ByteOrder) (bs : Bytes) : value o bs < 256 ^ bs.length := by
  cases o with
  | little =>
    have h := beVal_lt bs.reverse
    rwa [List.length_reverse] at h
  | big => exact beVal_lt bs

@[simp] theorem image_length (o : ByteOrder) (w n : ℕ) : (image o w n).length = w := by
  cases o <;> simp [image]

theorem image_value (o : ByteOrder) (bs : Bytes) : image o bs.length (value o bs) = bs := by
  cases o with
  | little =>
    have h := beBytes_beVal bs.reverse
    rw [List.length_reverse] at h
    simp only [image, value, h, List.reverse_reverse]
  | big => exact beBytes_beVal bs

theorem value_image (o : ByteOrder) {w n : ℕ} (h : n < 256 ^ w) : value o (image o w n) = n := by
  cases o <;> simp only [value, image, List.reverse_reverse, beVal_beBytes_of_lt h]

/-- Another order reads a number as it is only where its digits are a palindrome. -/
theorem value_image_iff (o o' : ByteOrder) {w n : ℕ} (h : n < 256 ^ w) :
    value o' (image o w n) = n ↔ o = o' ∨ (beBytes w n).reverse = beBytes w n := by
  have hback : value o' (image o w n) = n ↔ image o w n = image o' w n := by
    constructor
    · intro hv
      have himage := image_value o' (image o w n)
      rw [image_length, hv] at himage
      exact himage.symm
    · intro himage
      rw [himage, value_image o' h]
  rw [hback]
  cases o <;> cases o' <;> simp [image, eq_comm]

/-- What reaches the wire is big-endian on every host. -/
@[simp] theorem image_hton (o : ByteOrder) (w n : ℕ) : image o w (hton o w n) = beBytes w n := by
  have h := image_value o (beBytes w n)
  rwa [beBytes_length] at h

theorem ntoh_value (o : ByteOrder) {w : ℕ} {bs : Bytes} (h : bs.length = w) :
    ntoh o w (value o bs) = beVal bs := by
  rw [ntoh, ← h, image_value]

end Base.Digits
