import Fws.Networking.MessageLog

/-!
# How far the readers go

The `message_read_*` functions copy out of the stream without a look at its
size, over the memory that the stream lies in. The bytes they copy stay in the
stream where the stream holds what is read.
-/

namespace Fws
open Base.Digits Base.Cells Base.Runs

/- The memory from the start of the stream on, with whatever lies behind the block. -/
def memoryAt (data : Bytes) (behind : ℕ → Byte) (i : ℕ) : Byte := data.getD i (behind i)

/- The bytes that a reader copies first. -/
def ItemType.width : ItemType → ℕ
  | .uchar => 1
  | .schar => 1
  | .ushort => 2
  | .sshort => 2
  | .ulong => 4
  | .slong => 4
  | .float => 4
  | .double => 8
  | .string => 4

/- The size that `message_read_string` takes from a position. -/
def sizeAt (o : ByteOrder) (memory : ℕ → Byte) (position : ℕ) : ℕ :=
  ntoh o 4 (value o ((List.range' position 4).map memory))

/- The indices of the bytes that one call copies out. -/
def copied (o : ByteOrder) (memory : ℕ → Byte) (position : ℕ) : ItemType → List ℕ
  | .string => List.range' position 4 ++ List.range' (position + 4) (sizeAt o memory position)
  | t => List.range' position t.width

/- The position moves by what was copied. -/
def readAdvance (o : ByteOrder) (memory : ℕ → Byte) (position : ℕ) (t : ItemType) : Option ℕ :=
  some (position + (copied o memory position t).length)

def WithinStream (o : ByteOrder) (data : Bytes) (behind : ℕ → Byte) (position : ℕ)
    (t : ItemType) : Prop :=
  (∀ i ∈ copied o (memoryAt data behind) position t, i < data.length) ∧
    position + (copied o (memoryAt data behind) position t).length ≤ data.length

/-- The stream starts with items of the given types, in order. -/
def Carries (o : ByteOrder) (data : Bytes) (ts : List ItemType) : Prop :=
  ∃ (items : List (Item Bytes)) (rest : Bytes),
    items.map Item.type = ts ∧ (∀ i ∈ items, i.Fits) ∧ data = items.flatMap (Item.wire o) ++ rest

/-! ### One call -/

theorem copied_eq (o : ByteOrder) (memory : ℕ → Byte) (position : ℕ) (t : ItemType) :
    copied o memory position t =
      List.range' position (copied o memory position t).length := by
  cases t with
  | string =>
    simp only [copied, List.length_append, List.length_range']
    exact List.range'_append_1
  | _ => simp only [copied, List.length_range']

theorem width_le_copied (o : ByteOrder) (memory : ℕ → Byte) (position : ℕ) (t : ItemType) :
    t.width ≤ (copied o memory position t).length := by
  cases t with
  | string =>
    simp only [copied, List.length_append, List.length_range', ItemType.width]
    omega
  | _ => simp only [copied, List.length_range', le_refl]

theorem withinStream_iff (o : ByteOrder) (data : Bytes) (behind : ℕ → Byte) (position : ℕ)
    (t : ItemType) :
    WithinStream o data behind position t ↔
      position + (copied o (memoryAt data behind) position t).length ≤ data.length := by
  constructor
  · intro h
    exact h.2
  · intro hle
    refine ⟨?_, hle⟩
    intro i hi
    rw [copied_eq, List.mem_range'_1] at hi
    omega

theorem map_memoryAt (pre bs post : Bytes) (behind : ℕ → Byte) {n : ℕ} (hn : bs.length = n) :
    (List.range' pre.length n).map (memoryAt (pre ++ (bs ++ post)) behind) = bs := by
  subst hn
  apply List.ext_getElem
  · simp
  · intro i h1 h2
    rw [List.getElem_map, List.getElem_range', memoryAt, List.getD_eq_getElem?_getD, Nat.one_mul,
      List.getElem?_append_right (Nat.le_add_right _ _), Nat.add_sub_cancel_left,
      List.getElem?_append_left h2, List.getElem?_eq_getElem h2, Option.getD_some]

theorem sizeAt_append (o : ByteOrder) (pre bs post : Bytes) (behind : ℕ → Byte)
    (hbs : bs.length = 4) :
    sizeAt o (memoryAt (pre ++ (bs ++ post)) behind) pre.length = beVal bs := by
  rw [sizeAt, map_memoryAt pre bs post behind hbs, ntoh_value o hbs]

/-- Where an item lies, a reader of its type copies exactly the item. -/
theorem copied_wire (o : ByteOrder) (pre : Bytes) (i : Item Bytes) (hi : i.Fits) (rest : Bytes)
    (behind : ℕ → Byte) :
    (copied o (memoryAt (pre ++ (i.wire o ++ rest)) behind) pre.length i.type).length =
      (i.wire o).length := by
  cases i with
  | string s =>
    have hsize := sizeAt_append o pre (beBytes 4 s.length) (s ++ rest) behind (beBytes_length 4 _)
    rw [beVal_beBytes_of_lt hi] at hsize
    simp only [Item.wire, List.append_assoc, Item.type, copied, List.length_append,
      List.length_range', beBytes_length, hsize]
  | _ => simp [Item.wire, Item.type, copied, ItemType.width]

/-- Any bytes of the width of a type are an item of that type. -/
theorem exists_item (o : ByteOrder) (t : ItemType) (ht : t ≠ .string) (bs : Bytes)
    (hbs : bs.length = t.width) : ∃ i : Item Bytes, i.type = t ∧ i.Fits ∧ i.wire o = bs := by
  have hlt := beVal_lt bs
  have hback := beBytes_beVal bs
  rw [hbs] at hlt hback
  cases t with
  | uchar =>
    obtain ⟨b, rfl⟩ := List.length_eq_one_iff.mp hbs
    exact ⟨.uchar b, rfl, trivial, rfl⟩
  | schar =>
    obtain ⟨b, rfl⟩ := List.length_eq_one_iff.mp hbs
    exact ⟨.schar b.toInt8, rfl, trivial, rfl⟩
  | ushort =>
    refine ⟨.ushort (UInt16.ofNat (beVal bs)), rfl, trivial, ?_⟩
    rw [Item.wire, UInt16.toNat_ofNat_of_lt' hlt]
    exact hback
  | sshort =>
    refine ⟨.sshort (UInt16.ofNat (beVal bs)).toInt16, rfl, trivial, ?_⟩
    rw [Item.wire, UInt16.toUInt16_toInt16, UInt16.toNat_ofNat_of_lt' hlt]
    exact hback
  | ulong =>
    have hval : (UInt64.ofNat (beVal bs)).toNat = beVal bs :=
      UInt64.toNat_ofNat_of_lt' (lt_trans hlt (by decide))
    refine ⟨.ulong (UInt64.ofNat (beVal bs)), rfl, ?_, ?_⟩
    · rw [Item.Fits, hval]
      exact hlt
    · rw [Item.wire, hval]
      exact hback
  | slong =>
    have hval : (UInt64.ofNat (beVal bs)).toNat = beVal bs :=
      UInt64.toNat_ofNat_of_lt' (lt_trans hlt (by decide))
    refine ⟨.slong (UInt64.ofNat (beVal bs)).toInt64, rfl, ?_, ?_⟩
    · rw [Item.Fits, UInt64.toUInt64_toInt64, hval]
      exact hlt
    · rw [Item.wire, UInt64.toUInt64_toInt64, hval]
      exact hback
  | float =>
    have hvalue := value_lt o bs
    have himage := image_value o bs
    rw [hbs] at hvalue himage
    refine ⟨.float (UInt32.ofNat (value o bs)), rfl, trivial, ?_⟩
    rw [Item.wire, UInt32.toNat_ofNat_of_lt' hvalue]
    exact himage
  | double =>
    have hvalue := value_lt o bs
    have himage := image_value o bs
    rw [hbs] at hvalue himage
    refine ⟨.double (UInt64.ofNat (value o bs)), rfl, trivial, ?_⟩
    rw [Item.wire, UInt64.toNat_ofNat_of_lt' hvalue]
    exact himage
  | string => exact absurd rfl ht

/-- Any four bytes are the prefix of a string where enough bytes are behind them. -/
theorem exists_string (o : ByteOrder) (suf : Bytes) (h : 4 + beVal (suf.take 4) ≤ suf.length) :
    ∃ s rest : Bytes, (Item.string s).Fits ∧ suf = (Item.string s).wire o ++ rest := by
  have hfour : (suf.take 4).length = 4 := List.length_take_of_le (by omega)
  have hlt := beVal_lt (suf.take 4)
  have hprefix := beBytes_beVal (suf.take 4)
  rw [hfour] at hlt hprefix
  have hbody : ((suf.drop 4).take (beVal (suf.take 4))).length = beVal (suf.take 4) := by
    rw [List.length_take_of_le]
    rw [List.length_drop]
    omega
  refine ⟨(suf.drop 4).take (beVal (suf.take 4)), (suf.drop 4).drop (beVal (suf.take 4)), ?_, ?_⟩
  · rw [Item.Fits, hbody]
    exact hlt
  · rw [Item.wire, hbody, hprefix, List.append_assoc, List.take_append_drop,
      List.take_append_drop]

/-- One call stays in the stream exactly where an item of its type comes next. -/
theorem withinStream_item (o : ByteOrder) (pre suf : Bytes) (behind : ℕ → Byte) (t : ItemType) :
    WithinStream o (pre ++ suf) behind pre.length t ↔
      ∃ (i : Item Bytes) (rest : Bytes), i.type = t ∧ i.Fits ∧ suf = i.wire o ++ rest := by
  constructor
  · intro h
    obtain ⟨-, hle⟩ := h
    have hwidth := width_le_copied o (memoryAt (pre ++ suf) behind) pre.length t
    rw [List.length_append] at hle
    have hhead : (suf.take t.width).length = t.width := List.length_take_of_le (by omega)
    by_cases ht : t = .string
    · subst ht
      -- the prefix is within the stream, and so is what it announces
      have hsize := sizeAt_append o pre (suf.take 4) (suf.drop 4) behind hhead
      rw [List.take_append_drop] at hsize
      rw [copied, List.length_append, List.length_range', List.length_range', hsize] at hle
      obtain ⟨s, rest, hfits, hsuf⟩ := exists_string o suf (by omega)
      exact ⟨.string s, rest, rfl, hfits, hsuf⟩
    · obtain ⟨i, htype, hfits, hwire⟩ := exists_item o t ht _ hhead
      refine ⟨i, suf.drop t.width, htype, hfits, ?_⟩
      rw [hwire, List.take_append_drop]
  · intro h
    obtain ⟨i, rest, rfl, hfits, rfl⟩ := h
    rw [withinStream_iff, copied_wire o pre i hfits]
    simp only [List.length_append]
    omega

/-- A reader has a defined result just where its call stays in the stream, and it
moves the position by what it copied. -/
theorem withinStream_readItem (o : ByteOrder) (data : Bytes) (behind : ℕ → Byte) (position : ℕ)
    (t : ItemType) (hp : position ≤ data.length) :
    WithinStream o data behind position t ↔
      ∃ i, readItem o ⟨data.map some, position⟩ t =
        some (i, ⟨data.map some,
          position + (copied o (memoryAt data behind) position t).length⟩) := by
  constructor
  · intro h
    have hpre : (data.take position).length = position := List.length_take_of_le hp
    have hitem := (withinStream_item o (data.take position) (data.drop position) behind t).mp
    rw [List.take_append_drop, hpre] at hitem
    obtain ⟨i, rest, rfl, hfits, hsuf⟩ := hitem h
    have hdata : data = data.take position ++ (i.wire o ++ rest) := by
      rw [← hsuf, List.take_append_drop]
    have hread := readItem_wire o i hfits (data.take position) rest
    have hcopied := copied_wire o (data.take position) i hfits rest behind
    rw [← hdata, hpre] at hread hcopied
    rw [hcopied]
    exact ⟨_, hread⟩
  · intro h
    obtain ⟨i, hread⟩ := h
    have hle := (readItem_stream hread).2
    rw [withinStream_iff]
    simpa only [messageGetSize, List.length_map] using hle

/-! ### Every sequence of calls -/

theorem within_from (o : ByteOrder) (behind : ℕ → Byte) (ts : List ItemType) (pre suf : Bytes) :
    Along (readAdvance o (memoryAt (pre ++ suf) behind)) (WithinStream o (pre ++ suf) behind)
        pre.length ts ↔ Carries o suf ts := by
  induction ts generalizing pre suf with
  | nil => exact iff_of_true trivial ⟨[], suf, rfl, by simp, rfl⟩
  | cons t ts ih =>
    constructor
    · intro h
      obtain ⟨hone, hrest⟩ := h _ rfl
      obtain ⟨i, rest, rfl, hfits, rfl⟩ := (withinStream_item o pre suf behind t).mp hone
      rw [copied_wire o pre i hfits, ← List.length_append, ← List.append_assoc] at hrest
      obtain ⟨items, rest', htypes, hall, rfl⟩ := (ih (pre ++ i.wire o) rest).mp hrest
      refine ⟨i :: items, rest', ?_, ?_, ?_⟩
      · rw [List.map_cons, htypes]
      · exact List.forall_mem_cons.mpr ⟨hfits, hall⟩
      · rw [List.flatMap_cons, List.append_assoc]
    · intro h
      obtain ⟨items, rest, htypes, hall, rfl⟩ := h
      cases items with
      | nil => cases htypes
      | cons i items =>
        rw [List.map_cons, List.cons.injEq] at htypes
        obtain ⟨rfl, htypes⟩ := htypes
        obtain ⟨hfits, hall⟩ := List.forall_mem_cons.mp hall
        rw [List.flatMap_cons, List.append_assoc]
        intro position hposition
        cases hposition
        refine ⟨?_, ?_⟩
        · exact (withinStream_item o pre _ behind _).mpr ⟨i, _, rfl, hfits, rfl⟩
        · have hrest := (ih (pre ++ i.wire o) (items.flatMap (Item.wire o) ++ rest)).mpr
            ⟨items, rest, htypes, hall, rfl⟩
          rw [copied_wire o pre i hfits, ← List.length_append, ← List.append_assoc]
          exact hrest

/-- A sequence of reads on a stream copies only bytes of the stream, and keeps
the position within it, exactly where the stream starts with items of the types
that are read. -/
theorem reads_within_iff (o : ByteOrder) (data : Bytes) (behind : ℕ → Byte)
    (ts : List ItemType) :
    Along (readAdvance o (memoryAt data behind)) (WithinStream o data behind) 0 ts ↔
      Carries o data ts :=
  within_from o behind ts [] data

/- The length of a string says 5, and nothing comes behind it. -/
theorem announced_string_leaves_stream :
    ¬ ∀ (o : ByteOrder) (data : Bytes) (behind : ℕ → Byte) (ts : List ItemType),
      Along (readAdvance o (memoryAt data behind)) (WithinStream o data behind) 0 ts := by
  intro h
  obtain ⟨hone, -⟩ := h .little [0, 0, 0, 5] (fun _ => 0) [.string] _ rfl
  exact absurd hone.2 (by decide)

end Fws
