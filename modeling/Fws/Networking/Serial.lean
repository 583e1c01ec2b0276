import Fws.Networking.Message
import Fws.Base.Runs

/-!
# Typed items on a message

The `message_write_*` and `message_read_*` families as one writer and one
reader over a type of items, and the wire format they agree on.
-/

namespace Fws
open Base.Digits Base.Cells Base.Runs

/- An item is what one call writes or reads. `S` is the payload of a string:
the bytes given to the writer, or the size and buffer handed out by the reader. -/
inductive Item (S : Type) where
  | uchar (x : UInt8)
  | schar (x : Int8)
  | ushort (x : UInt16)
  | sshort (x : Int16)
  | ulong (x : UInt64)
  | slong (x : Int64)
  | float (bits : UInt32)
  | double (bits : UInt64)
  | string (s : S)
  deriving DecidableEq, Repr

inductive ItemType where
  | uchar | schar | ushort | sshort | ulong | slong | float | double | string
  deriving DecidableEq, Repr

variable {S T : Type}

def Item.type : Item S → ItemType
  | .uchar _ => .uchar
  | .schar _ => .schar
  | .ushort _ => .ushort
  | .sshort _ => .sshort
  | .ulong _ => .ulong
  | .slong _ => .slong
  | .float _ => .float
  | .double _ => .double
  | .string _ => .string

def Item.map (f : S → T) : Item S → Item T
  | .uchar x => .uchar x
  | .schar x => .schar x
  | .ushort x => .ushort x
  | .sshort x => .sshort x
  | .ulong x => .ulong x
  | .slong x => .slong x
  | .float x => .float x
  | .double x => .double x
  | .string s => .string (f s)

def writeItem (o : ByteOrder) (m : Message) : Item Bytes → Option Message
  | .uchar x => messageWriteUchar m x
  | .schar x => messageWriteSchar m x
  | .ushort x => messageWriteUshort o m x
  | .sshort x => messageWriteSshort o m x
  | .ulong x => messageWriteUlong o m x
  | .slong x => messageWriteSlong o m x
  | .float x => messageWriteFloat o m x
  | .double x => messageWriteDouble o m x
  | .string s => messageWriteString o m s

def readItem (o : ByteOrder) (m : Message) : ItemType → Option (Item (ℕ × Bytes) × Message)
  | .uchar => (messageReadUchar m).map fun (x, m) => (.uchar x, m)
  | .schar => (messageReadSchar m).map fun (x, m) => (.schar x, m)
  | .ushort => (messageReadUshort o m).map fun (x, m) => (.ushort x, m)
  | .sshort => (messageReadSshort o m).map fun (x, m) => (.sshort x, m)
  | .ulong => (messageReadUlong o m).map fun (x, m) => (.ulong x, m)
  | .slong => (messageReadSlong o m).map fun (x, m) => (.slong x, m)
  | .float => (messageReadFloat o m).map fun (x, m) => (.float x, m)
  | .double => (messageReadDouble o m).map fun (x, m) => (.double x, m)
  | .string => (messageReadString o m).map fun (s, m) => (.string s, m)

def writeItems (o : ByteOrder) : Message → List (Item Bytes) → Option Message :=
  exec (writeItem o)

def readItems (o : ByteOrder) (m : Message) :
    List ItemType → Option (List (Item (ℕ × Bytes)) × Message)
  | [] => some ([], m)
  | t :: ts => do
    let (i, m) ← readItem o m t
    let (is, m) ← readItems o m ts
    pure (i :: is, m)

/-! ### The wire format -/

/-- The bytes that one item takes on the wire. Floating-point patterns keep the
byte order of the host; everything else is big-endian. -/
def Item.wire (o : ByteOrder) : Item Bytes → Bytes
  | .uchar x => [x]
  | .schar x => [x.toUInt8]
  | .ushort x => beBytes 2 x.toNat
  | .sshort x => beBytes 2 x.toUInt16.toNat
  | .ulong x => beBytes 4 x.toNat
  | .slong x => beBytes 4 x.toUInt64.toNat
  | .float x => image o 4 x.toNat
  | .double x => image o 8 x.toNat
  | .string s => beBytes 4 s.length ++ s

/- The items whose 32-bit fields hold the value given to the writer. -/
def Item.Fits : Item Bytes → Prop
  | .ulong x => x.toNat < 2 ^ 32
  | .slong x => x.toUInt64.toNat < 2 ^ 32
  | .string s => s.length < 2 ^ 32
  | _ => True

instance (i : Item Bytes) : Decidable i.Fits := by
  cases i <;> simp only [Item.Fits] <;> infer_instance

/- What the reader of a string hands out: the size, and the bytes with a NUL. -/
def terminated (s : Bytes) : ℕ × Bytes := (s.length, s ++ [0])

theorem writeItem_end (o : ByteOrder) (m : Message) (i : Item Bytes)
    (h : m.position = messageGetSize m) :
    writeItem o m i =
      some ⟨m.stream ++ (i.wire o).map some, messageGetSize m + (i.wire o).length⟩ := by
  cases i with
  | string s =>
    have hhead := messageStore_end m (beBytes 4 s.length) h
    have hbody := messageStore_end ⟨m.stream ++ (beBytes 4 s.length).map some,
      messageGetSize m + (beBytes 4 s.length).length⟩ s (by simp [messageGetSize])
    simp only [writeItem, messageWriteString, Item.wire, image_hton]
    show (messageStore m (beBytes 4 s.length)).bind (fun m => messageStore m s) = _
    rw [hhead, Option.bind_some, hbody]
    simp [messageGetSize, Nat.add_assoc]
  | _ =>
    simp only [writeItem, messageWriteUchar, messageWriteSchar, messageWriteUshort,
      messageWriteSshort, messageWriteUlong, messageWriteSlong, messageWriteFloat,
      messageWriteDouble, Item.wire, image_hton]
    exact messageStore_end m _ h

theorem writeItems_end (o : ByteOrder) (items : List (Item Bytes)) (m : Message)
    (h : m.position = messageGetSize m) :
    writeItems o m items = some
      ⟨m.stream ++ (items.flatMap (Item.wire o)).map some,
        messageGetSize m + (items.flatMap (Item.wire o)).length⟩ := by
  induction items generalizing m with
  | nil =>
    simp only [writeItems, exec_nil, List.flatMap_nil, List.map_nil, List.append_nil,
      List.length_nil, Nat.add_zero, ← h]
  | cons i items ih =>
    have hi := writeItem_end o m i h
    have hrest := ih ⟨m.stream ++ (i.wire o).map some, messageGetSize m + (i.wire o).length⟩
      (by simp [messageGetSize])
    simp only [writeItems, exec, hi, Option.bind_some] at hrest ⊢
    rw [hrest]
    simp [messageGetSize, Nat.add_assoc]

/-! ### Reading back -/

theorem readItem_wire (o : ByteOrder) (i : Item Bytes) (hi : i.Fits) (pre post : Bytes) :
    readItem o ⟨(pre ++ (i.wire o ++ post)).map some, pre.length⟩ i.type =
      some (i.map terminated,
        ⟨(pre ++ (i.wire o ++ post)).map some, pre.length + (i.wire o).length⟩) := by
  cases i with
  | uchar x =>
    have hload := messageLoad_append pre [x] post (n := 1) rfl
    simp only [readItem, messageReadUchar, Item.type, Item.wire, hload]
    simp [beVal, Item.map]
  | schar x =>
    have hload := messageLoad_append pre [x.toUInt8] post (n := 1) rfl
    have hx : (UInt8.ofNat (beVal [x.toUInt8])).toInt8 = x := by
      have hval : beVal [x.toUInt8] = x.toUInt8.toNat := by simp [beVal]
      rw [hval, UInt8.ofNat_toNat, Int8.toInt8_toUInt8]
    simp only [readItem, messageReadSchar, Item.type, Item.wire, hload, Option.bind_eq_bind,
      Option.bind_some, hx]
    simp [Item.map]
  | ushort x =>
    have hload := messageLoad_append pre _ post (beBytes_length 2 x.toNat)
    have hx : beVal (beBytes 2 x.toNat) = x.toNat := beVal_beBytes_of_lt x.toNat_lt
    simp only [readItem, messageReadUshort, Item.type, Item.wire, hload, Option.bind_eq_bind,
      Option.bind_some, ntoh_value o (beBytes_length 2 _), hx]
    simp [Item.map]
  | sshort x =>
    have hload := messageLoad_append pre _ post (beBytes_length 2 x.toUInt16.toNat)
    have hx : beVal (beBytes 2 x.toUInt16.toNat) = x.toUInt16.toNat :=
      beVal_beBytes_of_lt x.toUInt16.toNat_lt
    simp only [readItem, messageReadSshort, Item.type, Item.wire, hload, Option.bind_eq_bind,
      Option.bind_some, ntoh_value o (beBytes_length 2 _), hx]
    simp [Item.map]
  | ulong x =>
    have hload := messageLoad_append pre _ post (beBytes_length 4 x.toNat)
    have hx : beVal (beBytes 4 x.toNat) = x.toNat := beVal_beBytes_of_lt hi
    simp only [readItem, messageReadUlong, Item.type, Item.wire, hload, Option.bind_eq_bind,
      Option.bind_some, ntoh_value o (beBytes_length 4 _), hx]
    simp [Item.map]
  | slong x =>
    have hload := messageLoad_append pre _ post (beBytes_length 4 x.toUInt64.toNat)
    have hx : beVal (beBytes 4 x.toUInt64.toNat) = x.toUInt64.toNat := beVal_beBytes_of_lt hi
    simp only [readItem, messageReadSlong, Item.type, Item.wire, hload, Option.bind_eq_bind,
      Option.bind_some, ntoh_value o (beBytes_length 4 _), hx]
    simp [Item.map]
  | float x =>
    have hload := messageLoad_append pre _ post (image_length o 4 x.toNat)
    have hx : value o (image o 4 x.toNat) = x.toNat := value_image o x.toNat_lt
    simp only [readItem, messageReadFloat, Item.type, Item.wire, hload, Option.bind_eq_bind,
      Option.bind_some, hx]
    simp [Item.map]
  | double x =>
    have hload := messageLoad_append pre _ post (image_length o 8 x.toNat)
    have hx : value o (image o 8 x.toNat) = x.toNat := value_image o x.toNat_lt
    simp only [readItem, messageReadDouble, Item.type, Item.wire, hload, Option.bind_eq_bind,
      Option.bind_some, hx]
    simp [Item.map]
  | string x =>
    have hsize := messageLoad_append pre (beBytes 4 x.length) (x ++ post) (beBytes_length 4 _)
    have hdata := messageLoad_append (pre ++ beBytes 4 x.length) x post rfl
    have hx : beVal (beBytes 4 x.length) = x.length := beVal_beBytes_of_lt hi
    simp only [List.append_assoc, List.length_append, beBytes_length] at hsize hdata
    simp only [readItem, messageReadString, Item.type, Item.wire, List.append_assoc, hsize,
      Option.bind_eq_bind, Option.bind_some, ntoh_value o (beBytes_length 4 _), hx, hdata]
    simp [Item.map, terminated, Nat.add_assoc]

theorem readItems_wire (o : ByteOrder) (items : List (Item Bytes)) (hi : ∀ i ∈ items, i.Fits)
    (pre post : Bytes) :
    readItems o ⟨(pre ++ (items.flatMap (Item.wire o) ++ post)).map some, pre.length⟩
        (items.map Item.type) =
      some (items.map (Item.map terminated),
        ⟨(pre ++ (items.flatMap (Item.wire o) ++ post)).map some,
          pre.length + (items.flatMap (Item.wire o)).length⟩) := by
  induction items generalizing pre with
  | nil => rfl
  | cons i items ih =>
    have hhead := readItem_wire o i (hi i (List.mem_cons_self ..)) pre
      (items.flatMap (Item.wire o) ++ post)
    have htail := ih (fun j hj => hi j (List.mem_cons_of_mem _ hj)) (pre ++ i.wire o)
    simp only [List.append_assoc, List.length_append] at htail
    simp only [List.flatMap_cons, List.append_assoc, List.map_cons, readItems, hhead,
      Option.bind_eq_bind, Option.bind_some, htail]
    simp [Nat.add_assoc]

/-- Items written in order to a fresh message come back, in order, from any
message their stream is moved to, and the reader ends at the end. -/
theorem serial_round_trip (o : ByteOrder) (items : List (Item Bytes)) (dst : Message)
    (hi : ∀ i ∈ items, i.Fits) :
    ∃ written data final,
      writeItems o messageCreate items = some written ∧
      messageGetStream written = some data ∧
      readItems o (messageSetStream dst data) (items.map Item.type) =
        some (items.map (Item.map terminated), final) ∧
      final.position = messageGetSize final := by
  have hwrite := writeItems_end o items messageCreate rfl
  have hread := readItems_wire o items hi [] []
  simp only [List.nil_append, List.append_nil, List.length_nil, Nat.zero_add] at hread
  refine ⟨_, items.flatMap (Item.wire o), _, hwrite, ?_, hread, ?_⟩
  · exact defined_map_some _
  · simp only [messageGetSize, List.length_map]

theorem serial_round_trip_mixed :
    ∃ written data final,
      writeItems .little messageCreate [.sshort (-2), .string [0x61, 0, 0x62], .ulong 7] =
        some written ∧
      messageGetStream written = some data ∧
      readItems .little (messageSetStream messageCreate data) [.sshort, .string, .ulong] =
        some ([.sshort (-2), .string (3, [0x61, 0, 0x62, 0]), .ulong 7], final) ∧
      final.position = messageGetSize final :=
  serial_round_trip .little [.sshort (-2), .string [0x61, 0, 0x62], .ulong 7] messageCreate
    (by decide)

end Fws
