import Fws.Networking.Connection
import Fws.Networking.Serial

/-!
# Values at the width of their field

A `long` and every size go through four bytes. What is read back where a value
was written, and what a peer is sent where a message is larger than its field
can say.
-/

namespace Fws
open Base.Digits Base.Cells

/- The item is read back at the position it was written at, with anything behind
it, and the reader ends behind the item. The writers themselves return 0. -/
def ReadsBack (o : ByteOrder) (m : Message) (post : List (Option Byte)) (i : Item Bytes) : Prop :=
  ∃ t, writeItem o m i = some t ∧
    readItem o ⟨t.stream ++ post, m.position⟩ i.type =
      some (i.map terminated, ⟨t.stream ++ post, m.position + (i.wire o).length⟩)

theorem messageStore_position {m t : Message} {data : Bytes} (h : messageStore m data = some t) :
    m.position ≤ messageGetSize m :=
  (Option.ite_none_right_eq_some.mp h).1

/-- Outside of its block nothing is written. -/
theorem readsBack_position {o : ByteOrder} {m : Message} {post : List (Option Byte)}
    {i : Item Bytes} (h : ReadsBack o m post i) : m.position ≤ messageGetSize m := by
  obtain ⟨t, ht, -⟩ := h
  cases i with
  | string s =>
    obtain ⟨u, hu, -⟩ := Option.bind_eq_some_iff.mp ht
    exact messageStore_position hu
  | _ => exact messageStore_position ht

section
variable (o : ByteOrder) {m : Message} (post : List (Option Byte))

/-- Four bytes hold the low 32 bits of what is written to them. -/
theorem word_written (n : ℕ) (hm : m.position ≤ messageGetSize m) :
    ∃ t bs, messageStore m (image o 4 (hton o 4 n)) = some t ∧
      messageLoad ⟨t.stream ++ post, m.position⟩ 4 =
        some (bs, ⟨t.stream ++ post, m.position + 4⟩) ∧
      ntoh o 4 (value o bs) = n % 2 ^ 32 := by
  obtain ⟨t, ht, hload⟩ := messageStore_load m (beBytes 4 n) post hm
  rw [beBytes_length] at hload
  refine ⟨t, beBytes 4 n, ?_, hload, ?_⟩
  · rw [image_hton]
    exact ht
  · rw [ntoh_value o (beBytes_length 4 n), beVal_beBytes]
    norm_num

theorem readUlong_written (x : UInt64) (hm : m.position ≤ messageGetSize m) :
    ∃ t, messageWriteUlong o m x = some t ∧
      messageReadUlong o ⟨t.stream ++ post, m.position⟩ =
        some (UInt64.ofNat (x.toNat % 2 ^ 32), ⟨t.stream ++ post, m.position + 4⟩) := by
  obtain ⟨t, bs, ht, hload, hval⟩ := word_written o post x.toNat hm
  refine ⟨t, ht, ?_⟩
  simp only [messageReadUlong, hload, Option.bind_eq_bind, Option.bind_some, hval]
  rfl

theorem readSlong_written (x : Int64) (hm : m.position ≤ messageGetSize m) :
    ∃ t, messageWriteSlong o m x = some t ∧
      messageReadSlong o ⟨t.stream ++ post, m.position⟩ =
        some ((UInt64.ofNat (x.toUInt64.toNat % 2 ^ 32)).toInt64,
          ⟨t.stream ++ post, m.position + 4⟩) := by
  obtain ⟨t, bs, ht, hload, hval⟩ := word_written o post x.toUInt64.toNat hm
  refine ⟨t, ht, ?_⟩
  simp only [messageReadSlong, hload, Option.bind_eq_bind, Option.bind_some, hval]
  rfl

theorem ulong_readsBack_iff (x : UInt64) :
    ReadsBack o m post (.ulong x) ↔ m.position ≤ messageGetSize m ∧ x.toNat < 2 ^ 32 := by
  by_cases hm : m.position ≤ messageGetSize m
  · obtain ⟨t, ht, hread⟩ := readUlong_written o post x hm
    have hback : ReadsBack o m post (.ulong x) ↔ UInt64.ofNat (x.toNat % 2 ^ 32) = x := by
      simp [ReadsBack, writeItem, readItem, Item.type, Item.map, Item.wire, ht, hread]
    have hval : (UInt64.ofNat (x.toNat % 2 ^ 32)).toNat = x.toNat % 2 ^ 32 := by
      rw [UInt64.toNat_ofNat']
      omega
    rw [hback, ← UInt64.toNat_inj, hval, and_iff_right hm]
    omega
  · constructor
    · intro hback
      exact absurd (readsBack_position hback) hm
    · intro h
      exact absurd h.1 hm

/-- The widening from `uint32_t` adds zero bits, whatever sign was written. -/
theorem slong_readsBack_iff (x : Int64) (hm : m.position ≤ messageGetSize m) :
    ReadsBack o m post (.slong x) ↔ 0 ≤ x.toInt ∧ x.toInt < 2 ^ 32 := by
  obtain ⟨t, ht, hread⟩ := readSlong_written o post x hm
  have hback : ReadsBack o m post (.slong x) ↔
      (UInt64.ofNat (x.toUInt64.toNat % 2 ^ 32)).toInt64 = x := by
    simp [ReadsBack, writeItem, readItem, Item.type, Item.map, Item.wire, ht, hread]
  have hval : (UInt64.ofNat (x.toUInt64.toNat % 2 ^ 32)).toInt64.toInt =
      ((x.toUInt64.toNat % 2 ^ 32 : ℕ) : ℤ) := by
    rw [UInt64.toInt64_ofNat', Int64.toInt_ofNat_of_lt (by omega)]
  have hint : x.toInt = (x.toUInt64.toNat : ℤ).bmod (2 ^ 64) :=
    BitVec.toInt_eq_toNat_bmod x.toBitVec
  have hlt := x.toUInt64.toNat_lt
  rw [hback, ← Int64.toInt_inj, hval, hint]
  simp only [Int.bmod]
  omega

/- The cells behind the four bytes of a length that was written at the position:
the rest of the block with what it grew by, and then the string. -/
def behindLength (m : Message) (s : Bytes) : List (Option Byte) :=
  (m.stream ++ List.replicate 4 none).drop (m.position + 4) ++ s.map some

/-- The length goes to the position and the string to the end of the block. What
is loaded as the string is whatever stands behind the length. -/
theorem string_loaded (s : Bytes) (hm : m.position ≤ messageGetSize m) :
    ∃ t, messageWriteString o m s = some t ∧
      messageGetSize t = messageGetSize m + 4 + s.length ∧
      t.stream.drop (m.position + 4) = behindLength m s ∧
      messageReadString o ⟨t.stream ++ post, m.position⟩ =
        (messageLoad ⟨t.stream ++ post, m.position + 4⟩ (s.length % 2 ^ 32)).map fun r =>
          ((s.length % 2 ^ 32, r.1 ++ [0]), r.2) := by
  have hfield : (beBytes 4 s.length).length = 4 := beBytes_length 4 _
  obtain ⟨u, hu, hload⟩ := messageStore_load m (beBytes 4 s.length) (s.map some ++ post) hm
  obtain ⟨hsize, hend⟩ := messageStore_size m _ u hu
  have hcells := messageStore_eq m (beBytes 4 s.length) hm
  rw [hu] at hcells
  rw [hfield] at hsize hload
  refine ⟨⟨u.stream ++ s.map some, messageGetSize u + s.length⟩, ?_, ?_, ?_, ?_⟩
  · rw [messageWriteString, image_hton, Option.bind_eq_bind, hu, Option.bind_some,
      messageStore_end u s hend]
  · rw [← hsize, messageGetSize, messageGetSize, List.length_append, List.length_map]
  · have hgrown : m.position ≤ (m.stream ++ List.replicate 4 (none : Option Byte)).length := by
      rw [List.length_append]
      exact Nat.le_add_right_of_le hm
    have hdrop := overwrite_drop (m.stream ++ List.replicate 4 none)
      ((beBytes 4 s.length).map some) (s.map some) m.position hgrown
    rw [List.length_map, hfield] at hdrop
    rw [hfield] at hcells
    cases hcells
    exact hdrop
  · rw [List.append_assoc, messageReadString, Option.bind_eq_bind, hload, Option.bind_some]
    simp only [ntoh_value o hfield, beVal_beBytes]
    rcases messageLoad ⟨u.stream ++ (s.map some ++ post), m.position + 4⟩ (s.length % 256 ^ 4) with
      _ | r
    · rfl
    · rfl

/-- A block that was written to before its end keeps an unset cell between what
it held and what is added. -/
theorem behindLength_iff (s : Bytes) (hm : m.position ≤ messageGetSize m) :
    (behindLength m s ++ post).take s.length = s.map some ↔
      m.position = messageGetSize m ∨
        (m.stream.drop (m.position + 4)).take s.length = s.map some := by
  rcases Nat.lt_or_eq_of_le hm with hlt | heq
  · have hne : ¬ m.position = messageGetSize m := by omega
    obtain ⟨n, hn⟩ : ∃ n, (List.replicate 4 (none : Option Byte)).drop
        (m.position + 4 - m.stream.length) = none :: List.replicate n none := by
      refine ⟨3 - (m.position + 4 - m.stream.length), ?_⟩
      rw [messageGetSize] at hlt
      rw [List.drop_replicate, ← List.replicate_succ]
      congr 1
      omega
    rw [or_iff_right hne, behindLength, List.drop_append, hn, List.append_assoc, List.append_assoc,
      List.cons_append, take_unset_iff]
  · have hnil : (m.stream ++ List.replicate 4 (none : Option Byte)).drop (m.position + 4) = [] := by
      apply List.drop_of_length_le
      rw [List.length_append, List.length_replicate, heq, messageGetSize]
    have hlen : (s.map some).length = s.length := List.length_map _
    rw [behindLength, hnil, List.nil_append, List.take_left' hlen]
    exact iff_of_true rfl (Or.inl heq)

theorem string_readsBack_iff (s : Bytes) :
    ReadsBack o m post (.string s) ↔ m.position ≤ messageGetSize m ∧ s.length < 2 ^ 32 ∧
      (m.position = messageGetSize m ∨
        (m.stream.drop (m.position + 4)).take s.length = s.map some) := by
  by_cases hm : m.position ≤ messageGetSize m
  · obtain ⟨t, ht, hsize, hbehind, hread⟩ := string_loaded o post s hm
    have hcells : (t.stream ++ post).drop (m.position + 4) = behindLength m s ++ post := by
      rw [messageGetSize] at hsize
      rw [List.drop_append_of_le_length (by omega), hbehind]
    rw [and_iff_right hm, ← behindLength_iff post s hm]
    constructor
    · intro hback
      obtain ⟨t', ht', hread'⟩ := hback
      obtain rfl : t = t' := Option.some.inj (ht.symm.trans ht')
      simp only [Item.type, readItem, hread, Option.map_map, Option.map_eq_some_iff] at hread'
      obtain ⟨⟨bs, u⟩, hload, hitem⟩ := hread'
      simp only [Function.comp, Item.map, terminated, Prod.mk.injEq, Item.string.injEq] at hitem
      obtain ⟨⟨hlen, hbs⟩, -⟩ := hitem
      obtain rfl := List.append_cancel_right hbs
      rw [hlen] at hload
      refine ⟨by omega, ?_⟩
      unfold messageLoad at hload
      obtain ⟨-, hload⟩ := Option.ite_none_right_eq_some.mp hload
      obtain ⟨cs, hcs, he⟩ := Option.map_eq_some_iff.mp hload
      cases he
      rw [← hcells]
      exact defined_eq_some hcs
    · intro h
      obtain ⟨hlt, hsame⟩ := h
      have hmod : s.length % 2 ^ 32 = s.length := Nat.mod_eq_of_lt hlt
      have hroom : m.position + 4 + s.length ≤ messageGetSize ⟨t.stream ++ post, m.position + 4⟩ := by
        rw [messageGetSize] at hsize
        rw [messageGetSize, List.length_append]
        omega
      have hload : messageLoad ⟨t.stream ++ post, m.position + 4⟩ s.length =
          some (s, ⟨t.stream ++ post, m.position + 4 + s.length⟩) := by
        rw [messageLoad, if_pos hroom]
        simp only [hcells, hsame, defined_map_some, Option.map_some]
      rw [hmod, hload] at hread
      refine ⟨t, ht, ?_⟩
      simp only [Item.type, readItem, hread, Option.map_some, Item.map, terminated, Item.wire,
        List.length_append, beBytes_length, Nat.add_assoc]
  · constructor
    · intro hback
      exact absurd (readsBack_position hback) hm
    · intro h
      exact absurd h.1 hm

end

/- Either a failure is reported and nothing was sent; or success is, and a peer
that receives what was sent, whatever follows it on the line, has the whole
message and stands behind it. -/
def SendsWhole (order : ByteOrder) (held : Line → ℕ → Byte) (c : Connection) (payload : Bytes)
    (line : Line) : Prop :=
  ∃ rv line', connectionSend (lineMachine order held) c
      (messageSetStream messageCreate payload) line = some (rv, line') ∧
    ((rv ≠ 0 ∧ line'.outgoing = line.outgoing) ∨
      (rv = 0 ∧ ∃ sent, line'.outgoing = line.outgoing ++ sent ∧
        ∀ (order' : ByteOrder) (held' : Line → ℕ → Byte) (peer : Connection) (rest out : Bytes),
          connectionRecv (lineMachine order' held') peer ⟨sent ++ rest, out⟩ =
            (some (messageSetStream messageCreate payload), ⟨rest, out⟩)))

theorem line_send_sent (order : ByteOrder) (held : Line → ℕ → Byte) (c : Connection)
    (payload : Bytes) {size : ℕ} (hsize : payload.length % 2 ^ 32 = size) (line : Line) :
    connectionSend (lineMachine order held) c (messageSetStream messageCreate payload) line =
      some (if 0 < cInt size then 0 else -1,
        ⟨line.incoming, line.outgoing ++ (beBytes 4 size ++ payload.take size)⟩) := by
  have hle : size ≤ payload.length := by
    rw [← hsize]
    exact Nat.mod_le _ _
  have hhead : (lineMachine order held).send line c.socket (beBytes 4 size) =
      (some 4, ⟨line.incoming, line.outgoing ++ beBytes 4 size⟩) := by
    simp only [lineMachine, beBytes_length]
  refine connectionSend_sent hsize hhead ?_
  simp only [lineMachine, List.length_take_of_le hle, List.append_assoc]

theorem sendsWhole_iff (order : ByteOrder) (held : Line → ℕ → Byte) (c : Connection)
    (payload : Bytes) (line : Line) :
    SendsWhole order held c payload line ↔ 0 < payload.length ∧ payload.length < 2 ^ 31 := by
  obtain ⟨size, hsize⟩ : ∃ size, payload.length % 2 ^ 32 = size := ⟨_, rfl⟩
  have hlt : size < 2 ^ 32 := by
    rw [← hsize]
    exact Nat.mod_lt _ (by norm_num)
  have hle : size ≤ payload.length := by
    rw [← hsize]
    exact Nat.mod_le _ _
  have hpart : (payload.take size).length = size := List.length_take_of_le hle
  have hsend := line_send_sent order held c payload hsize line
  have hframe : beBytes 4 size ++ payload.take size = frame (payload.take size) := by
    rw [frame, hpart]
  rw [hframe] at hsend
  constructor
  · intro h
    obtain ⟨rv, line', hsent, hcase⟩ := h
    obtain ⟨hrv, rfl⟩ := Prod.mk.inj (Option.some.inj (hsend.symm.trans hsent))
    rcases hcase with ⟨-, hnothing⟩ | ⟨hzero, sent, hout, hread⟩
    · have hlen := congrArg List.length hnothing
      simp only [List.length_append, frame_length] at hlen
      omega
    · obtain rfl := List.append_cancel_left hout
      have hint : 0 < cInt size := by
        by_contra hneg
        rw [if_neg hneg, hzero] at hrv
        cases hrv
      have hline := line_recv order held c [] [] (hpart.trans_lt hlt)
      rw [hread order held c [] [], hpart, if_pos hint] at hline
      have hwhole := congrArg messageGetSize (Option.some.inj (Prod.mk.inj hline).1)
      rw [messageGetSize_set, messageGetSize_set, hpart] at hwhole
      rw [hwhole]
      exact (cInt_pos_iff hlt).mp hint
  · intro h
    have hall : size = payload.length := by omega
    have hint : 0 < cInt size := (cInt_pos_iff hlt).mpr (by omega)
    rw [if_pos hint, hall, List.take_length] at hsend
    rw [hall] at hlt hint
    refine ⟨_, _, hsend, Or.inr ⟨rfl, frame payload, rfl, ?_⟩⟩
    intro order' held' peer rest out
    rw [line_recv order' held' peer rest out hlt, if_pos hint]

/-- A `long` in the range of 32 bits is read back with its value exactly where
it is not negative. -/
theorem slong_survives_iff (o : ByteOrder) (m : Message) (hm : m.position ≤ messageGetSize m)
    (post : List (Option Byte)) (v : Int64) (hlo : -2 ^ 31 ≤ v.toInt) (hhi : v.toInt < 2 ^ 31) :
    ReadsBack o m post (.slong v) ↔ 0 ≤ v.toInt := by
  rw [slong_readsBack_iff o post v hm]
  omega

theorem slong_survives_iff_seven :
    ReadsBack .little messageCreate [] (.slong 7) ↔ 0 ≤ (7 : Int64).toInt :=
  slong_survives_iff .little messageCreate (by decide) [] 7 (by decide) (by decide)

/- -1 comes back as 4294967295. -/
theorem minus_one_comes_back_positive :
    ¬ ∀ (o : ByteOrder) (m : Message), m.position ≤ messageGetSize m →
      ∀ (post : List (Option Byte)) (v : Int64), -2 ^ 31 ≤ v.toInt → v.toInt < 2 ^ 31 →
        ReadsBack o m post (.slong v) := by
  intro h
  obtain ⟨t, ht, hread⟩ := h .little messageCreate (by decide) [] (-1) (by decide) (by decide)
  obtain rfl : t = ⟨[some 255, some 255, some 255, some 255], 4⟩ :=
    Option.some.inj (ht.symm.trans (by decide))
  exact absurd hread (by decide)

/-- A value and the length of a string go over the wire unchanged exactly where
they are below `2 ^ 32`, and the size of a message where it is a positive `int`.
A string that does not start at the end of the stream is torn from its length,
unless the stream holds the same bytes behind it. -/
theorem sizes_survive_iff (order : ByteOrder) (held : Line → ℕ → Byte) (c : Connection) :
    (∀ (m : Message) (post : List (Option Byte)) (u : UInt64),
      ReadsBack order m post (.ulong u) ↔ m.position ≤ messageGetSize m ∧ u.toNat < 2 ^ 32) ∧
    (∀ (m : Message) (post : List (Option Byte)) (s : Bytes),
      ReadsBack order m post (.string s) ↔ m.position ≤ messageGetSize m ∧ s.length < 2 ^ 32 ∧
        (m.position = messageGetSize m ∨
          (m.stream.drop (m.position + 4)).take s.length = s.map some)) ∧
    ∀ (payload : Bytes) (line : Line),
      SendsWhole order held c payload line ↔ 0 < payload.length ∧ payload.length < 2 ^ 31 := by
  refine ⟨?_, ?_, ?_⟩
  · intro m post u
    exact ulong_readsBack_iff order post u
  · intro m post s
    exact string_readsBack_iff order post s
  · exact sendsWhole_iff order held c

/- `2 ^ 32` is written as 0. -/
theorem value_of_33_bits_is_lost :
    ¬ ∀ (order : ByteOrder) (m : Message) (post : List (Option Byte)) (u : UInt64),
      m.position ≤ messageGetSize m → ReadsBack order m post (.ulong u) := by
  intro h
  obtain ⟨t, ht, hread⟩ := h .little messageCreate [] 4294967296 (by decide)
  obtain rfl : t = ⟨[some 0, some 0, some 0, some 0], 4⟩ :=
    Option.some.inj (ht.symm.trans (by decide))
  exact absurd hread (by decide)

end Fws
