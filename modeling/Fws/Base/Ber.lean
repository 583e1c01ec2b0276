import Fws.Base.Tlv

/-!
# Basic encodings

The forms that BER leaves to the sender: a tag number and a definite length in
any of their octet counts, and the constructed encoding with or without a length
of its own. What a decoder of such a language is for is said last.
-/

namespace Base.Ber
open Base.Digits Base.Tlv

/-! ### Tags and lengths -/

/- Seven bits of a number in each octet; the last one has no top bit. -/
inductive TagOctets : ℕ → Bytes → Prop where
  | last (d : ℕ) (hd : d < 128) : TagOctets d [UInt8.ofNat d]
  | more {n : ℕ} {octets : Bytes} (d : ℕ) (hd : d < 128) (h : TagOctets n octets) :
      TagOctets (d * 128 ^ octets.length + n) (UInt8.ofNat (128 + d) :: octets)

inductive IdForm (tagClass : ℕ) (constructed : Bool) (number : ℕ) : Bytes → Prop where
  | short (h : number < 31) :
      IdForm tagClass constructed number [identifier tagClass constructed number]
  | long {octets : Bytes} (h : TagOctets number octets) :
      IdForm tagClass constructed number (identifier tagClass constructed 31 :: octets)

/- A long form may begin with zero octets. That of a primitive value may have no
octets at all, since no length of its own is left for `128` to mean. -/
inductive LengthForm (constructed : Bool) (n : ℕ) : Bytes → Prop where
  | short (h : n < 128) : LengthForm constructed n [UInt8.ofNat n]
  | long (k : ℕ) (hpos : constructed = true → 0 < k) (hk : k < 127) (h : n < 256 ^ k) :
      LengthForm constructed n (UInt8.ofNat (128 + k) :: beBytes k n)

/- The octets of a length, what they say of the contents (`-1`: two zero octets
end them), and what stands behind the contents. -/
inductive Extent (constructed : Bool) (n : ℕ) : Bytes → ℤ → Bytes → Prop where
  | definite {octets : Bytes} (h : LengthForm constructed n octets) :
      Extent constructed n octets n []
  | indefinite (h : constructed = true) : Extent constructed n [128] (-1) [0, 0]

/- What stands before and behind `n` bytes of contents. -/
inductive Frame (Id : Bytes → Prop) (constructed : Bool) (n : ℕ) : Bytes → ℤ → Bytes → Prop where
  | mk {ids octets closing : Bytes} {left : ℤ} (hid : Id ids)
      (h : Extent constructed n octets left closing) :
      Frame Id constructed n (ids ++ octets) left closing

theorem TagOctets.pos {n : ℕ} {octets : Bytes} (h : TagOctets n octets) : 0 < octets.length := by
  cases h with
  | last d hd => exact Nat.one_pos
  | more d hd h => exact Nat.succ_pos _

theorem TagOctets.lt {n : ℕ} {octets : Bytes} (h : TagOctets n octets) :
    n < 128 ^ octets.length := by
  induction h with
  | last d hd =>
    rw [List.length_singleton, pow_one]
    exact hd
  | @more n octets d hd h ih =>
    have hle : (d + 1) * 128 ^ octets.length ≤ 128 * 128 ^ octets.length :=
      Nat.mul_le_mul_right _ hd
    rw [Nat.succ_mul] at hle
    rw [List.length_cons, pow_succ]
    omega

theorem IdForm.pos {tagClass number : ℕ} {constructed : Bool} {ids : Bytes}
    (h : IdForm tagClass constructed number ids) : 0 < ids.length := by
  cases h with
  | short h => exact Nat.one_pos
  | long h => exact Nat.succ_pos _

theorem lengthForm_octets (constructed : Bool) {n : ℕ} (h : n < 256 ^ 126) :
    LengthForm constructed n (lengthOctets n) := by
  have hcount := octetCount_le (k := 126) (by norm_num) h
  unfold lengthOctets
  by_cases hshort : n < 128
  · rw [if_pos hshort]
    exact .short hshort
  · rw [if_neg hshort]
    exact .long _ (fun _ => Nat.succ_pos _) (by omega) (lt_pow_octetCount n)

theorem LengthForm.pos {constructed : Bool} {n : ℕ} {octets : Bytes}
    (h : LengthForm constructed n octets) : 0 < octets.length := by
  cases h with
  | short h => exact Nat.one_pos
  | long k hpos hk h => exact Nat.succ_pos _

theorem Extent.pos {constructed : Bool} {n : ℕ} {octets closing : Bytes} {left : ℤ}
    (h : Extent constructed n octets left closing) : 0 < octets.length := by
  cases h with
  | definite h => exact h.pos
  | indefinite h => exact Nat.one_pos

theorem Extent.left {constructed : Bool} {n : ℕ} {octets closing : Bytes} {left : ℤ}
    (h : Extent constructed n octets left closing) :
    left = n ∧ closing = [] ∨ left = -1 ∧ closing = [0, 0] ∧ constructed = true := by
  cases h with
  | definite h => exact Or.inl ⟨rfl, rfl⟩
  | indefinite h => exact Or.inr ⟨rfl, rfl, h⟩

theorem Frame.left {Id : Bytes → Prop} {constructed : Bool} {n : ℕ} {header closing : Bytes}
    {left : ℤ} (h : Frame Id constructed n header left closing) :
    left = n ∧ closing = [] ∨ left = -1 ∧ closing = [0, 0] ∧ constructed = true := by
  cases h with
  | mk hid h => exact h.left

/-- The form of a distinguished encoding. -/
theorem frame_tlv {Id : Bytes → Prop} {id : Byte} (constructed : Bool) {n : ℕ} (hid : Id [id])
    (h : n < 256 ^ 126) : Frame Id constructed n (id :: lengthOctets n) n [] := by
  have hframe : Frame Id constructed n ([id] ++ lengthOctets n) n [] :=
    .mk hid (.definite (lengthForm_octets constructed h))
  exact hframe

/-! ### Prefixes -/

section
variable {α : Type}

/-- What is cut off inside `a ++ b` is cut off inside `a`, or behind it. -/
theorem cut_append {a b p q : List α} (h : a ++ b = p ++ q) :
    (∃ r, a = p ++ r ∧ r ≠ []) ∨ ∃ r, p = a ++ r ∧ b = r ++ q := by
  rcases List.append_eq_append_iff.mp h with ⟨r, hp, hb⟩ | ⟨r, ha, hq⟩
  · exact Or.inr ⟨r, hp, hb⟩
  · by_cases hr : r = []
    · subst hr
      rw [List.append_nil] at ha
      rw [List.nil_append] at hq
      exact Or.inr ⟨[], by rw [List.append_nil, ha], by rw [List.nil_append, hq]⟩
    · exact Or.inl ⟨r, ha, hr⟩

theorem cut_length {a p q : List α} (h : a = p ++ q) (hq : q ≠ []) : p.length < a.length := by
  have hpos := List.length_pos_iff.mpr hq
  rw [h, List.length_append]
  omega

theorem cut_nil {p q : List α} (h : [] = p ++ q) (hq : q ≠ []) : False :=
  hq (List.append_eq_nil_iff.mp h.symm).2

/-- Nothing, or the first of them. -/
theorem cut_cons {a : α} {as p q : List α} (h : a :: as = p ++ q) :
    p = [] ∨ ∃ r, p = a :: r ∧ as = r ++ q := by
  cases p with
  | nil => exact Or.inl rfl
  | cons b r =>
    rw [List.cons_append] at h
    cases h
    exact Or.inr ⟨r, rfl, rfl⟩

end

/-! ### Decoders -/

/- Some bytes and the value they encode, more bytes are wanted, or they are refused. -/
inductive Answer (α : Type) where
  | took (n : ℕ) (value : α)
  | more
  | refused

/- On inputs below `N` bytes: an encoding is taken whatever follows it, every part
of one asks for more, and nothing but an encoding is taken. -/
structure Decides {α : Type} (N : ℕ) (lang : Bytes → α → Prop) (dec : Bytes → Answer α) :
    Prop where
  takes : ∀ enc rest v, lang enc v → (enc ++ rest).length < N →
    dec (enc ++ rest) = .took enc.length v
  waits : ∀ p q v, lang (p ++ q) v → q ≠ [] → (p ++ q).length < N → dec p = .more
  sound : ∀ bs n v, bs.length < N → dec bs = .took n v → n ≤ bs.length ∧ lang (bs.take n) v

section
variable {α : Type} {N : ℕ} {lang : Bytes → α → Prop} {dec : Bytes → Answer α}

def Answer.map {β : Type} (f : α → β) : Answer α → Answer β
  | .took n v => .took n (f v)
  | .more => .more
  | .refused => .refused

/-- A decoder that does something with the values it reads. -/
theorem Decides.map (h : Decides N lang dec) {β : Type} (f : α → β) :
    Decides N (fun enc w => ∃ v, lang enc v ∧ w = f v) (fun bs => (dec bs).map f) where
  takes := by
    intro enc rest w hlang hN
    obtain ⟨v, hlang, rfl⟩ := hlang
    rw [h.takes enc rest v hlang hN]
    rfl
  waits := by
    intro p q w hlang hq hN
    obtain ⟨v, hlang, rfl⟩ := hlang
    rw [h.waits p q v hlang hq hN]
    rfl
  sound := by
    intro bs n w hN htook
    rcases hdec : dec bs with ⟨m, v⟩ | _ | _
    · rw [hdec] at htook
      injection htook with hm hv
      obtain ⟨hle, hlang⟩ := h.sound bs m v hN hdec
      rw [hm] at hle hlang
      exact ⟨hle, v, hlang, hv.symm⟩
    · rw [hdec] at htook
      cases htook
    · rw [hdec] at htook
      cases htook

end

end Base.Ber
