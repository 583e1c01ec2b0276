import Fws.Base.Cells
import Mathlib.Data.Finset.Basic
import Mathlib.Data.Int.Init

/-!
# Platform (networking/platform.h, LP64)

The C types the sources narrow to, and the operating system as the sources
call it. A `Machine` is the part outside the repository: sockets, the heap
records that hold peer addresses, the byte order of the host and whatever fresh
memory happens to hold. Results about the code name what they need of it.
-/

namespace Fws
open Base.Digits Base.Cells

/-- Conversion to `int` (32 bits, two's complement). -/
def cInt (n : ℤ) : ℤ := n.bmod (2 ^ 32)

theorem cInt_of_range {n : ℤ} (hlo : -2 ^ 31 ≤ n) (hhi : n < 2 ^ 31) : cInt n = n := by
  simp only [cInt, Int.bmod]
  omega

theorem cInt_range (n : ℤ) : -2 ^ 31 ≤ cInt n ∧ cInt n < 2 ^ 31 := by
  simp only [cInt, Int.bmod]
  omega

theorem cInt_le_natCast {n : ℕ} (h : 0 ≤ cInt n) : cInt n ≤ n := by
  simp only [cInt, Int.bmod] at h ⊢
  omega

/-- A byte count below `2 ^ 32` stays positive in an `int` exactly below `2 ^ 31`. -/
theorem cInt_pos_iff {n : ℕ} (h : n < 2 ^ 32) : 0 < cInt n ↔ 0 < n ∧ n < 2 ^ 31 := by
  simp only [cInt, Int.bmod]
  omega

theorem cInt_neg_iff {n : ℕ} (h : n < 2 ^ 32) : cInt n < 0 ↔ 2 ^ 31 ≤ n := by
  simp only [cInt, Int.bmod]
  omega

/-- Conversion to `unsigned int`. -/
def cUint (n : ℤ) : ℤ := n % 2 ^ 32

/-- Conversion to `unsigned long`. -/
def cUlong (n : ℤ) : ℕ := (n % 2 ^ 64).toNat

/-- `INVALID_SOCKET` and `SOCKET_ERROR` are both `-1`. -/
def invalidSocket : ℤ := -1

def fdSetsize : ℤ := 1024

/-- What `select` reports on the read set. -/
inductive SelectResult where
  | error
  | timeout
  | ready (fds : Finset ℤ)

/-- The operating system under the sources, with state `κ`. -/
structure Machine (κ : Type) where
  order : ByteOrder
  /-- contents of memory that nothing was stored to -/
  held : κ → ℕ → Byte
  /-- `none` is `SOCKET_ERROR`, the empty string a closed peer -/
  recv : κ → ℤ → ℕ → Option Bytes × κ
  /-- `none` is `SOCKET_ERROR`, otherwise the number of bytes accepted -/
  send : κ → ℤ → Bytes → Option ℕ × κ
  socket : κ → Option ℤ × κ
  bind : κ → ℤ → ℤ → Bool × κ
  listen : κ → ℤ → ℤ → Bool × κ
  select : κ → ℤ → Finset ℤ → SelectResult × κ
  accept : κ → ℤ → Option ℤ × κ
  closesocket : κ → ℤ → Bool × κ
  /-- a fresh `SOCKADDR` record -/
  mallocInfo : κ → ℕ × κ
  freeInfo : κ → ℕ → κ
  /-- `inet_ntoa` of the address in a record -/
  readInfo : κ → ℕ → κ

/- A machine on which every call fails. -/
def inertMachine (κ : Type) (order : ByteOrder) (held : κ → ℕ → Byte) : Machine κ where
  order := order
  held := held
  recv k _ _ := (none, k)
  send k _ _ := (none, k)
  socket k := (none, k)
  bind k _ _ := (false, k)
  listen k _ _ := (false, k)
  select k _ _ := (.error, k)
  accept k _ := (none, k)
  closesocket k _ := (true, k)
  mallocInfo k := (0, k)
  freeInfo k _ := k
  readInfo k _ := k

end Fws
