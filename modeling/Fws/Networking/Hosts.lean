import Fws.Networking.Serial

/-!
# Messages between hosts

A stream that one host wrote, read on another. The conversions make every field
the same on all hosts but the floating-point ones, whose memory is copied: the
reader sees there what its own byte order makes of the writer's bytes.
-/

namespace Fws
open Base.Digits Base.Cells

/- The item of a reader with order `reader`, for one of a writer with order `writer`. -/
def Item.seen (writer reader : ByteOrder) : Item Bytes → Item Bytes
  | .float x => .float (UInt32.ofNat (value reader (image writer 4 x.toNat)))
  | .double x => .double (UInt64.ofNat (value reader (image writer 8 x.toNat)))
  | i => i

/- A floating-point pattern that is its own byte swap; any other item. -/
def Item.HostFree : Item Bytes → Prop
  | .float x => (beBytes 4 x.toNat).reverse = beBytes 4 x.toNat
  | .double x => (beBytes 8 x.toNat).reverse = beBytes 8 x.toNat
  | _ => True

instance : (i : Item Bytes) → Decidable i.HostFree
  | .float x => inferInstanceAs (Decidable ((beBytes 4 x.toNat).reverse = beBytes 4 x.toNat))
  | .double x => inferInstanceAs (Decidable ((beBytes 8 x.toNat).reverse = beBytes 8 x.toNat))
  | .uchar _ | .schar _ | .ushort _ | .sshort _ | .ulong _ | .slong _ | .string _ =>
    .isTrue trivial

section
variable {writer reader : ByteOrder}

theorem seen_float (x : UInt32) :
    (UInt32.ofNat (value reader (image writer 4 x.toNat))).toNat =
      value reader (image writer 4 x.toNat) := by
  have hlt := value_lt reader (image writer 4 x.toNat)
  rw [image_length] at hlt
  exact UInt32.toNat_ofNat_of_lt' hlt

theorem seen_double (x : UInt64) :
    (UInt64.ofNat (value reader (image writer 8 x.toNat))).toNat =
      value reader (image writer 8 x.toNat) := by
  have hlt := value_lt reader (image writer 8 x.toNat)
  rw [image_length] at hlt
  exact UInt64.toNat_ofNat_of_lt' hlt

theorem seen_type (i : Item Bytes) : (i.seen writer reader).type = i.type := by
  cases i <;> rfl

theorem seen_fits {i : Item Bytes} (h : i.Fits) : (i.seen writer reader).Fits := by
  cases i <;> exact h

/-- The reader's host would have written what it sees in the same bytes. -/
theorem seen_wire (i : Item Bytes) : (i.seen writer reader).wire reader = i.wire writer := by
  cases i with
  | float x =>
    show image reader 4 _ = image writer 4 x.toNat
    rw [seen_float]
    have h := image_value reader (image writer 4 x.toNat)
    rwa [image_length] at h
  | double x =>
    show image reader 8 _ = image writer 8 x.toNat
    rw [seen_double]
    have h := image_value reader (image writer 8 x.toNat)
    rwa [image_length] at h
  | _ => rfl

theorem seen_eq_iff (i : Item Bytes) :
    i.seen writer reader = i ↔ writer = reader ∨ i.HostFree := by
  cases i with
  | float x =>
    simp only [Item.seen, Item.float.injEq, Item.HostFree]
    rw [← value_image_iff writer reader x.toNat_lt, ← UInt32.toNat_inj, seen_float]
  | double x =>
    simp only [Item.seen, Item.double.injEq, Item.HostFree]
    rw [← value_image_iff writer reader x.toNat_lt, ← UInt64.toNat_inj, seen_double]
  | _ => simp [Item.seen, Item.HostFree]

end

theorem terminated_injective : Function.Injective terminated := by
  intro s t h
  have hcells : s ++ [0] = t ++ [0] := congrArg Prod.snd h
  exact List.append_cancel_right hcells

theorem map_terminated_inj {i j : Item Bytes} (h : i.map terminated = j.map terminated) :
    i = j := by
  cases i <;> cases j <;> simp only [Item.map, reduceCtorEq, Item.uchar.injEq, Item.schar.injEq,
    Item.ushort.injEq, Item.sshort.injEq, Item.ulong.injEq, Item.slong.injEq, Item.float.injEq,
    Item.double.injEq, Item.string.injEq] at h ⊢
  all_goals first | exact h | exact terminated_injective h

/-- Every list of items is read from the stream of another host as that list is
seen there. -/
theorem readItems_seen (writer reader : ByteOrder) (items : List (Item Bytes))
    (hi : ∀ i ∈ items, i.Fits) (dst : Message) :
    ∃ written data final,
      writeItems writer messageCreate items = some written ∧
      messageGetStream written = some data ∧
      readItems reader (messageSetStream dst data) (items.map Item.type) =
        some ((items.map (Item.seen writer reader)).map (Item.map terminated), final) := by
  have hwrite := writeItems_end writer items messageCreate rfl
  have hfits : ∀ i ∈ items.map (Item.seen writer reader), i.Fits := by
    intro i hmem
    obtain ⟨j, hj, rfl⟩ := List.mem_map.mp hmem
    exact seen_fits (hi j hj)
  have hread := readItems_wire reader (items.map (Item.seen writer reader)) hfits [] []
  have hwire : (items.map (Item.seen writer reader)).flatMap (Item.wire reader) =
      items.flatMap (Item.wire writer) := by
    rw [List.flatMap_map]
    exact congrArg (fun f => items.flatMap f) (funext seen_wire)
  have htypes : (items.map (Item.seen writer reader)).map Item.type = items.map Item.type := by
    rw [List.map_map]
    exact List.map_congr_left fun i _ => seen_type i
  simp only [List.nil_append, List.append_nil, List.length_nil, Nat.zero_add, hwire,
    htypes] at hread
  exact ⟨_, items.flatMap (Item.wire writer), _, hwrite, defined_map_some _, hread⟩

/-- The reader gets the items of the writer exactly where the hosts have one byte
order, or the floating-point patterns have none. -/
theorem hosts_agree_iff (writer reader : ByteOrder) (items : List (Item Bytes)) (dst : Message)
    (hi : ∀ i ∈ items, i.Fits) :
    (∃ written data final,
        writeItems writer messageCreate items = some written ∧
        messageGetStream written = some data ∧
        readItems reader (messageSetStream dst data) (items.map Item.type) =
          some (items.map (Item.map terminated), final)) ↔
      writer = reader ∨ ∀ i ∈ items, i.HostFree := by
  obtain ⟨written, data, final, hwrite, hdata, hread⟩ :=
    readItems_seen writer reader items hi dst
  have hsame : (∃ written data final,
        writeItems writer messageCreate items = some written ∧
        messageGetStream written = some data ∧
        readItems reader (messageSetStream dst data) (items.map Item.type) =
          some (items.map (Item.map terminated), final)) ↔
      (items.map (Item.seen writer reader)).map (Item.map terminated) =
        items.map (Item.map terminated) := by
    constructor
    · intro hread
      obtain ⟨written', data', final', hw, hd, hr⟩ := hread
      obtain rfl := Option.some.inj (hwrite.symm.trans hw)
      obtain rfl := Option.some.inj (hdata.symm.trans hd)
      exact congrArg Prod.fst (Option.some.inj (hread.symm.trans hr))
    · intro h
      exact ⟨written, data, final, hwrite, hdata, h ▸ hread⟩
  rw [hsame, List.map_map, List.map_inj_left]
  constructor
  · intro h
    by_cases horder : writer = reader
    · exact Or.inl horder
    · right
      intro i hmem
      exact ((seen_eq_iff i).mp (map_terminated_inj (h i hmem))).resolve_left horder
  · intro h i hmem
    have hseen : i.seen writer reader = i := (seen_eq_iff i).mpr (h.imp_right fun hf => hf i hmem)
    rw [Function.comp_apply, hseen]

theorem hosts_agree_mixed :
    (∃ written data final,
        writeItems .little messageCreate [.ulong 7, .float 0, .string [0x61]] = some written ∧
        messageGetStream written = some data ∧
        readItems .big (messageSetStream messageCreate data)
            (([.ulong 7, .float 0, .string [0x61]] : List (Item Bytes)).map Item.type) =
          some (([.ulong 7, .float 0, .string [0x61]] : List (Item Bytes)).map
            (Item.map terminated), final)) ↔
      ByteOrder.little = .big ∨
        ∀ i ∈ ([.ulong 7, .float 0, .string [0x61]] : List (Item Bytes)), i.HostFree :=
  hosts_agree_iff .little .big [.ulong 7, .float 0, .string [0x61]] messageCreate (by decide)

/- The pattern of `1.0f`, from a little-endian host to a big-endian one. -/
theorem float_is_swapped :
    ¬ ∀ (writer reader : ByteOrder) (items : List (Item Bytes)) (dst : Message),
      (∀ i ∈ items, i.Fits) →
      ∃ written data final,
        writeItems writer messageCreate items = some written ∧
        messageGetStream written = some data ∧
        readItems reader (messageSetStream dst data) (items.map Item.type) =
          some (items.map (Item.map terminated), final) := by
  intro h
  obtain ⟨written, data, final, hwrite, hdata, hread⟩ :=
    h .little .big [.float 0x3f800000] messageCreate (by decide)
  have hwritten : writeItems .little messageCreate [.float 0x3f800000] =
      some ⟨[some 0, some 0, some 0x80, some 0x3f], 4⟩ := by decide +kernel
  obtain rfl := Option.some.inj (hwritten.symm.trans hwrite)
  obtain rfl : [0, 0, 0x80, 0x3f] = data := Option.some.inj hdata
  have hseen : (readItems .big (messageSetStream messageCreate [0, 0, 0x80, 0x3f])
      [.float]).map Prod.fst = some [.float 0x803f] := by decide +kernel
  rw [show ([.float 0x3f800000] : List (Item Bytes)).map Item.type = [.float] from rfl] at hread
  rw [hread, Option.map_some] at hseen
  have hitems := Option.some.inj hseen
  dsimp only at hitems
  exact absurd hitems (by decide)

end Fws
