import Fws.Networking.Serial

/-!
# Mixed operations against a byte log

Any sequence of the operations of `message.c` on one message, beside the log
that each of them is meant to keep: `set` replaces, `clear` empties, `append`
and the writers add at the end, readers change nothing. The two agree as long
as nothing is written before the end of the stream.
-/

namespace Fws
open Base.Digits Base.Cells Base.Runs

inductive MessageOp where
  | setStream (data : Bytes)
  | appendStream (data : Bytes)
  | clearStream
  | write (i : Item Bytes)
  | read (t : ItemType)
  deriving DecidableEq, Repr

def messageOp (o : ByteOrder) (m : Message) : MessageOp → Option Message
  | .setStream data => some (messageSetStream m data)
  | .appendStream data => some (messageAppendStream m data)
  | .clearStream => some (messageClearStream m)
  | .write i => writeItem o m i
  | .read t => (readItem o m t).map Prod.snd

def messageOps (o : ByteOrder) : List MessageOp → Option Message :=
  exec (messageOp o) messageCreate

def logOp (o : ByteOrder) (log : Bytes) : MessageOp → Bytes
  | .setStream data => data
  | .appendStream data => log ++ data
  | .clearStream => []
  | .write i => log ++ i.wire o
  | .read _ => log

def logOps (o : ByteOrder) (ops : List MessageOp) : Bytes := ops.foldl (logOp o) []

/- The stream is the log after every operation of the sequence. -/
def StreamIsLog (o : ByteOrder) (ops : List MessageOp) : Prop :=
  ∀ pre, pre <+: ops → ∀ m, messageOps o pre = some m → m.stream = (logOps o pre).map some

/- Every write starts with the position at the end of the stream. -/
def WritesAtEnd (o : ByteOrder) (ops : List MessageOp) : Prop :=
  ∀ pre i, pre ++ [.write i] <+: ops → ∀ m, messageOps o pre = some m →
    m.position = messageGetSize m

theorem readItem_stream {o : ByteOrder} {m t : Message} {ty : ItemType} {i : Item (ℕ × Bytes)}
    (h : readItem o m ty = some (i, t)) : t.stream = m.stream ∧ t.position ≤ messageGetSize t := by
  cases ty with
  | string =>
    simp only [readItem, messageReadString, Option.map_eq_some_iff, Option.bind_eq_bind,
      Option.bind_eq_some_iff] at h
    obtain ⟨⟨r, u⟩, ⟨⟨bs, v⟩, hload, ⟨data, w⟩, hbody, hr⟩, he⟩ := h
    obtain ⟨rfl, -⟩ := messageLoad_eq_some hload
    obtain ⟨rfl, hle⟩ := messageLoad_eq_some hbody
    cases hr
    cases he
    exact ⟨rfl, hle⟩
  | _ =>
    simp only [readItem, messageReadUchar, messageReadSchar, messageReadUshort,
      messageReadSshort, messageReadUlong, messageReadSlong, messageReadFloat,
      messageReadDouble, Option.map_eq_some_iff, Option.bind_eq_bind,
      Option.bind_eq_some_iff] at h
    obtain ⟨⟨r, u⟩, ⟨⟨bs, v⟩, hload, hr⟩, he⟩ := h
    obtain ⟨rfl, hle⟩ := messageLoad_eq_some hload
    cases hr
    cases he
    exact ⟨rfl, hle⟩

/- The first store of a writer decides: behind it the position is at the end. -/
theorem writeItem_before_end {o : ByteOrder} {m : Message} (i : Item Bytes)
    (hp : m.position < messageGetSize m) :
    ∃ t, writeItem o m i = some t ∧ none ∈ t.stream := by
  have hstore : ∀ data : Bytes, data ≠ [] →
      ∃ t, messageStore m data = some t ∧ none ∈ t.stream := by
    intro data hd
    refine ⟨_, messageStore_eq m data (le_of_lt hp), ?_⟩
    exact List.mem_of_getLast? (messageStore_before_end m data _ hd hp
      (messageStore_eq m data (le_of_lt hp)))
  cases i with
  | string s =>
    obtain ⟨t, ht, hmem⟩ := hstore (beBytes 4 s.length) (by simp [beBytes])
    have hend := (messageStore_size m _ t ht).2
    have hbody := messageStore_end t s hend
    refine ⟨⟨t.stream ++ s.map some, messageGetSize t + s.length⟩, ?_,
      List.mem_append_left _ hmem⟩
    simp only [writeItem, messageWriteString, image_hton]
    show (messageStore m (beBytes 4 s.length)).bind (fun m => messageStore m s) = _
    rw [ht, Option.bind_some, hbody]
  | _ =>
    simp only [writeItem, messageWriteUchar, messageWriteSchar, messageWriteUshort,
      messageWriteSshort, messageWriteUlong, messageWriteSlong, messageWriteFloat,
      messageWriteDouble, image_hton]
    exact hstore _ (List.ne_nil_of_length_pos (by simp))

theorem messageOp_position {o : ByteOrder} {m t : Message} {op : MessageOp}
    (hm : m.position ≤ messageGetSize m) (h : messageOp o m op = some t) :
    t.position ≤ messageGetSize t := by
  cases op with
  | setStream data =>
    cases h
    exact Nat.zero_le _
  | appendStream data =>
    cases h
    exact Nat.zero_le _
  | clearStream =>
    cases h
    exact Nat.zero_le _
  | write i =>
    rcases Nat.lt_or_eq_of_le hm with hlt | heq
    · cases i with
      | string s =>
        simp only [messageOp, writeItem, messageWriteString, Option.bind_eq_bind,
          Option.bind_eq_some_iff] at h
        obtain ⟨u, -, hu⟩ := h
        exact le_of_eq (messageStore_size u s t hu).2
      | _ => exact le_of_eq (messageStore_size m _ t h).2
    · rw [messageOp, writeItem_end o m i heq] at h
      cases h
      simp [messageGetSize]
  | read ty =>
    obtain ⟨⟨i, u⟩, hu, he⟩ := Option.map_eq_some_iff.mp h
    cases he
    exact (readItem_stream hu).2

theorem messageOps_position {o : ByteOrder} {ops : List MessageOp} {m : Message}
    (h : messageOps o ops = some m) : m.position ≤ messageGetSize m :=
  exec_invariant (I := fun m : Message => m.position ≤ messageGetSize m)
    (fun _ _ _ hm hop => messageOp_position hm hop) (Nat.le_refl 0) h

/- One operation keeps the agreement, provided a write starts at the end. -/
theorem messageOp_log {o : ByteOrder} {m t : Message} {log : Bytes} {op : MessageOp}
    (hm : m.stream = log.map some) (hw : ∀ i, op = .write i → m.position = messageGetSize m)
    (h : messageOp o m op = some t) : t.stream = (logOp o log op).map some := by
  cases op with
  | setStream data =>
    cases h
    rfl
  | appendStream data =>
    cases h
    simp only [messageAppendStream, logOp, hm, List.map_append]
  | clearStream =>
    cases h
    rfl
  | write i =>
    rw [messageOp, writeItem_end o m i (hw i rfl)] at h
    cases h
    simp only [logOp, hm, List.map_append]
  | read ty =>
    obtain ⟨⟨i, u⟩, hu, he⟩ := Option.map_eq_some_iff.mp h
    cases he
    rw [(readItem_stream hu).1, hm]
    rfl

theorem writesAtEnd_log {o : ByteOrder} {ops : List MessageOp} (hw : WritesAtEnd o ops)
    {m : Message} (h : messageOps o ops = some m) : m.stream = (logOps o ops).map some := by
  induction ops using List.reverseRecOn generalizing m with
  | nil =>
    cases h
    rfl
  | append_singleton ops op ih =>
    obtain ⟨t, ht, hop⟩ := exec_snoc_eq_some h
    have hprev : WritesAtEnd o ops := fun pre i hpre =>
      hw pre i (hpre.trans (List.prefix_append ops [op]))
    have hlast : ∀ i, op = .write i → t.position = messageGetSize t := by
      intro i heq
      obtain rfl := heq
      exact hw ops i (List.prefix_refl _) t ht
    have hlog := messageOp_log (ih hprev ht) hlast hop
    rwa [logOps, List.foldl_append]

/-- A sequence of operations keeps the stream equal to the log exactly when
each of its writes finds the position at the end of the stream. -/
theorem stream_is_log_iff (o : ByteOrder) (ops : List MessageOp) :
    StreamIsLog o ops ↔ WritesAtEnd o ops := by
  constructor
  · intro hlog pre i hpre m hm
    by_contra hne
    have hlt : m.position < messageGetSize m :=
      lt_of_le_of_ne (messageOps_position hm) hne
    obtain ⟨t, ht, hnone⟩ := writeItem_before_end (o := o) i hlt
    have hrun : messageOps o (pre ++ [.write i]) = some t := by
      rw [messageOps, exec_snoc]
      show (messageOps o pre).bind _ = _
      rw [hm, Option.bind_some]
      exact ht
    rw [hlog _ hpre t hrun] at hnone
    simp at hnone
  · intro hw pre hpre m hm
    refine writesAtEnd_log ?_ hm
    intro p i hp
    exact hw p i (hp.trans hpre)

/- A one-byte write right after the stream was set lands on its first byte. -/
theorem write_after_set_overwrites :
    ¬ StreamIsLog .little [.setStream [1, 2, 3], .write (.uchar 9)] := by
  intro h
  have hrun := h _ (List.prefix_refl _) ⟨[some 9, some 2, some 3, none], 4⟩ (by decide)
  revert hrun
  decide

end Fws
