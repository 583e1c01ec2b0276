import Fws.Networking.Platform

/-!
# Messages (networking/message.c)

A message is one heap block of exactly `size` bytes and a position. Every
function reallocates the block to the size it then records, so the size is the
length of the block. `none` as a result is a call with undefined behaviour: a
copy outside of the block, or out of cells that hold nothing.
-/

namespace Fws
open Base.Digits Base.Cells

structure Message where
  stream : List (Option Byte)
  position : ℕ
  deriving DecidableEq, Repr

def messageCreate : Message := ⟨[], 0⟩

def messageGetSize (m : Message) : ℕ := m.stream.length

def messageGetStream (m : Message) : Option Bytes := defined m.stream

-- `data` is the `size` bytes that the source's pointer is given with.
def messageSetStream (_m : Message) (data : Bytes) : Message := ⟨data.map some, 0⟩

def messageAppendStream (m : Message) (data : Bytes) : Message :=
  ⟨m.stream ++ data.map some, 0⟩

def messageClearStream (_m : Message) : Message := ⟨[], 0⟩

@[simp] theorem messageGetStream_set (m : Message) (data : Bytes) :
    messageGetStream (messageSetStream m data) = some data :=
  defined_map_some data

@[simp] theorem messageGetSize_set (m : Message) (data : Bytes) :
    messageGetSize (messageSetStream m data) = data.length := by
  simp only [messageGetSize, messageSetStream, List.length_map]

/-! ### Writers

Every writer grows the block by the width of its datum, stores at `position`
and moves `position` to the new end. -/

-- `realloc` to `size + n`, `memcpy` of `n` bytes to `&stream[position]`.
def messageStore (m : Message) (data : Bytes) : Option Message :=
  if m.position ≤ messageGetSize m then
    let grown := m.stream ++ List.replicate data.length none
    some ⟨overwrite grown m.position (data.map some), messageGetSize m + data.length⟩
  else none

def messageWriteUchar (m : Message) (data : UInt8) : Option Message :=
  messageStore m [data]

def messageWriteSchar (m : Message) (data : Int8) : Option Message :=
  messageStore m [data.toUInt8]

def messageWriteUshort (o : ByteOrder) (m : Message) (data : UInt16) : Option Message :=
  let networkData := hton o 2 data.toNat
  messageStore m (image o 2 networkData)

def messageWriteSshort (o : ByteOrder) (m : Message) (data : Int16) : Option Message :=
  let networkData := hton o 2 data.toUInt16.toNat
  messageStore m (image o 2 networkData)

-- `htonl` takes a `uint32_t`: only the low 32 bits of the datum remain.
def messageWriteUlong (o : ByteOrder) (m : Message) (data : UInt64) : Option Message :=
  let networkData := hton o 4 data.toNat
  messageStore m (image o 4 networkData)

def messageWriteSlong (o : ByteOrder) (m : Message) (data : Int64) : Option Message :=
  let networkData := hton o 4 data.toUInt64.toNat
  messageStore m (image o 4 networkData)

-- The datum is the bit pattern of the `float`; its memory is copied as it is.
def messageWriteFloat (o : ByteOrder) (m : Message) (data : UInt32) : Option Message :=
  messageStore m (image o 4 data.toNat)

def messageWriteDouble (o : ByteOrder) (m : Message) (data : UInt64) : Option Message :=
  messageStore m (image o 8 data.toNat)

def messageWriteString (o : ByteOrder) (m : Message) (data : Bytes) : Option Message := do
  let networkSize := hton o 4 data.length
  let m ← messageStore m (image o 4 networkSize)
  messageStore m data

/-! ### Readers -/

def messageLoad (m : Message) (n : ℕ) : Option (Bytes × Message) :=
  if m.position + n ≤ messageGetSize m then
    (defined ((m.stream.drop m.position).take n)).map fun bs =>
      (bs, { m with position := m.position + n })
  else none

def messageReadUchar (m : Message) : Option (UInt8 × Message) := do
  let (bs, m) ← messageLoad m 1
  pure (UInt8.ofNat (beVal bs), m)

def messageReadSchar (m : Message) : Option (Int8 × Message) := do
  let (bs, m) ← messageLoad m 1
  pure ((UInt8.ofNat (beVal bs)).toInt8, m)

def messageReadUshort (o : ByteOrder) (m : Message) : Option (UInt16 × Message) := do
  let (bs, m) ← messageLoad m 2
  let networkData := value o bs
  pure (UInt16.ofNat (ntoh o 2 networkData), m)

def messageReadSshort (o : ByteOrder) (m : Message) : Option (Int16 × Message) := do
  let (bs, m) ← messageLoad m 2
  let networkData := value o bs
  pure ((UInt16.ofNat (ntoh o 2 networkData)).toInt16, m)

def messageReadUlong (o : ByteOrder) (m : Message) : Option (UInt64 × Message) := do
  let (bs, m) ← messageLoad m 4
  let networkData := value o bs
  pure (UInt64.ofNat (ntoh o 4 networkData), m)

-- `ntohl` returns a `uint32_t`, so the widening to `long` adds zero bits.
def messageReadSlong (o : ByteOrder) (m : Message) : Option (Int64 × Message) := do
  let (bs, m) ← messageLoad m 4
  let networkData := value o bs
  pure ((UInt64.ofNat (ntoh o 4 networkData)).toInt64, m)

def messageReadFloat (o : ByteOrder) (m : Message) : Option (UInt32 × Message) := do
  let (bs, m) ← messageLoad m 4
  pure (UInt32.ofNat (value o bs), m)

def messageReadDouble (o : ByteOrder) (m : Message) : Option (UInt64 × Message) := do
  let (bs, m) ← messageLoad m 8
  pure (UInt64.ofNat (value o bs), m)

-- The fresh buffer holds the bytes and one NUL after them.
def messageReadString (o : ByteOrder) (m : Message) : Option ((ℕ × Bytes) × Message) := do
  let (bs, m) ← messageLoad m 4
  let size := ntoh o 4 (value o bs)
  let (data, m) ← messageLoad m size
  pure ((size, data ++ [0]), m)

/-! ### What one store and one load do -/

theorem messageStore_eq (m : Message) (data : Bytes) (h : m.position ≤ messageGetSize m) :
    messageStore m data = some
      ⟨overwrite (m.stream ++ List.replicate data.length none) m.position (data.map some),
        messageGetSize m + data.length⟩ := by
  rw [messageStore, if_pos h]

/-- With the position at the end, a store appends. -/
theorem messageStore_end (m : Message) (data : Bytes) (h : m.position = messageGetSize m) :
    messageStore m data =
      some ⟨m.stream ++ data.map some, messageGetSize m + data.length⟩ := by
  rw [messageStore_eq m data (le_of_eq h), h]
  congr 2
  exact overwrite_tail _ _ _ (by simp)

theorem messageStore_size (m : Message) (data : Bytes) (t : Message)
    (h : messageStore m data = some t) :
    messageGetSize t = messageGetSize m + data.length ∧ t.position = messageGetSize t := by
  unfold messageStore at h
  split at h
  · rename_i hp
    cases h
    have hlen : (overwrite (m.stream ++ List.replicate data.length none) m.position
        (data.map some)).length = messageGetSize m + data.length := by
      rw [overwrite_length]
      · simp [messageGetSize]
      · simp only [messageGetSize] at hp
        simp only [List.length_map, List.length_append, List.length_replicate]
        omega
    exact ⟨hlen, hlen.symm⟩
  · cases h

/-- What was stored is loaded from where it was stored, whatever comes behind. -/
theorem messageStore_load (m : Message) (data : Bytes) (post : List (Option Byte))
    (h : m.position ≤ messageGetSize m) :
    ∃ t, messageStore m data = some t ∧
      messageLoad ⟨t.stream ++ post, m.position⟩ data.length =
        some (data, ⟨t.stream ++ post, m.position + data.length⟩) := by
  refine ⟨_, messageStore_eq m data h, ?_⟩
  have hgrown : m.position ≤ (m.stream ++ List.replicate data.length none).length := by
    rw [List.length_append]
    exact Nat.le_add_right_of_le h
  have hcells := overwrite_read (m.stream ++ List.replicate data.length none) (data.map some)
    post m.position hgrown
  have hlen := (messageStore_size m data _ (messageStore_eq m data h)).1
  rw [List.length_map] at hcells
  dsimp only [messageGetSize] at hlen h ⊢
  rw [messageLoad, if_pos (by
    simp only [messageGetSize, List.length_append] at hlen ⊢
    omega)]
  simp only [hcells, defined_map_some, Option.map_some]

/-- A store before the end leaves the last cell of the block unset. -/
theorem messageStore_before_end (m : Message) (data : Bytes) (t : Message)
    (hd : data ≠ []) (hp : m.position < messageGetSize m) (h : messageStore m data = some t) :
    t.stream.getLast? = some none := by
  rw [messageStore_eq m data (le_of_lt hp)] at h
  cases h
  have hpos : 0 < data.length := List.length_pos_of_ne_nil hd
  have hlt : m.position + (data.map some).length <
      (m.stream ++ List.replicate data.length (none : Option Byte)).length := by
    simp only [messageGetSize] at hp
    simp only [List.length_map, List.length_append, List.length_replicate]
    omega
  rw [overwrite_getLast? _ _ _ hlt, List.getLast?_append, List.getLast?_replicate,
    if_neg (by omega)]
  rfl

/-- A load moves the position and nothing else, and stays in the block. -/
theorem messageLoad_eq_some {m t : Message} {n : ℕ} {bs : Bytes}
    (h : messageLoad m n = some (bs, t)) :
    t = { m with position := m.position + n } ∧ m.position + n ≤ messageGetSize m := by
  unfold messageLoad at h
  split at h
  · rename_i hn
    obtain ⟨cs, -, he⟩ := Option.map_eq_some_iff.mp h
    cases he
    exact ⟨rfl, hn⟩
  · cases h

theorem messageLoad_cells (pre : List (Option Byte)) (bs : Bytes) (post : List (Option Byte))
    {n : ℕ} (hn : bs.length = n) :
    messageLoad ⟨pre ++ (bs.map some ++ post), pre.length⟩ n =
      some (bs, ⟨pre ++ (bs.map some ++ post), pre.length + n⟩) := by
  have hmap : (bs.map some).length = n := by
    rw [List.length_map, hn]
  have hcells : ((pre ++ (bs.map some ++ post)).drop pre.length).take n = bs.map some := by
    rw [List.drop_left' rfl, List.take_left' hmap]
  have hle : pre.length + n ≤ (pre ++ (bs.map some ++ post)).length := by
    simp only [List.length_append, hmap]
    omega
  simp only [messageLoad, messageGetSize, if_pos hle, hcells, defined_map_some, Option.map_some]

theorem messageLoad_append (pre bs post : Bytes) {n : ℕ} (hn : bs.length = n) :
    messageLoad ⟨(pre ++ (bs ++ post)).map some, pre.length⟩ n =
      some (bs, ⟨(pre ++ (bs ++ post)).map some, pre.length + n⟩) := by
  have h := messageLoad_cells (pre.map some) bs (post.map some) hn
  rw [List.length_map] at h
  simpa only [List.map_append] using h

end Fws
