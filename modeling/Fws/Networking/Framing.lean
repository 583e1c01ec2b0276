import Fws.Networking.Connection

/-!
# Framing over a segmented byte stream

The peer has placed frames on one stream; each `recv` hands out some positive
number of the bytes that are left, at most as many as requested. A schedule
says how many, call by call.
-/

namespace Fws
open Base.Digits Base.Cells

structure Segments where
  stream : Bytes
  calls : ℕ
  deriving DecidableEq, Repr

/-- The most that call number `i` hands out. -/
def segment (sched : ℕ → ℕ) (i : ℕ) : ℕ := max 1 (sched i)

def segmentMachine (order : ByteOrder) (held : Segments → ℕ → Byte) (sched : ℕ → ℕ) :
    Machine Segments :=
  { inertMachine Segments order held with
    recv := fun w _ n =>
      let count := min (segment sched w.calls) n
      (some (w.stream.take count), ⟨w.stream.drop count, w.calls + 1⟩) }

variable {κ : Type}

def recvMessages (M : Machine κ) (c : Connection) : ℕ → κ → List (Option Message) × κ
  | 0, k => ([], k)
  | n + 1, k =>
    let (m, k) := connectionRecv M c k
    let (ms, k) := recvMessages M c n k
    (m :: ms, k)

/- The first `n` receives return the first `n` messages, and leave the stream at
the start of the next frame. -/
def FramesArrive (M : Machine Segments) (c : Connection) (msgs : List Bytes) (w : Segments) :
    Prop :=
  ∀ n ≤ msgs.length,
    (recvMessages M c n w).1 =
        (msgs.take n).map (fun b => some (messageSetStream messageCreate b)) ∧
      (recvMessages M c n w).2.stream = (msgs.drop n).flatMap frame

/- Call `i` hands out a whole length field and call `i + 1` the whole payload,
whose size is positive as an `int`. -/
def WholeReads (sched : ℕ → ℕ) (i : ℕ) (payload : Bytes) : Prop :=
  4 ≤ segment sched i ∧ payload.length ≤ segment sched (i + 1) ∧ payload.length < 2 ^ 31

section
variable (order : ByteOrder) (held : Segments → ℕ → Byte) (sched : ℕ → ℕ) (c : Connection)

theorem recv_frame_whole (payload rest : Bytes) (i : ℕ) (hpos : payload ≠ [])
    (h : WholeReads sched i payload) :
    connectionRecv (segmentMachine order held sched) c ⟨frame payload ++ rest, i⟩ =
      (some (messageSetStream messageCreate payload), ⟨rest, i + 2⟩) := by
  obtain ⟨hhead, hbody, hint⟩ := h
  have hlen : (beBytes 4 payload.length).length = 4 := beBytes_length 4 _
  have hread : (segmentMachine order held sched).recv ⟨frame payload ++ rest, i⟩ c.socket 4 =
      (some (beBytes 4 payload.length), ⟨payload ++ rest, i + 1⟩) := by
    simp only [segmentMachine, frame, List.append_assoc, min_eq_right hhead]
    rw [List.take_left' hlen, List.drop_left' hlen]
  have hrest : (segmentMachine order held sched).recv ⟨payload ++ rest, i + 1⟩ c.socket
      payload.length = (some payload, ⟨rest, i + 2⟩) := by
    simp only [segmentMachine, min_eq_right hbody]
    rw [List.take_left' rfl, List.drop_left' rfl]
  have hlt : payload.length < 2 ^ 32 := by omega
  have hp : 0 < cInt payload.length :=
    (cInt_pos_iff hlt).mpr ⟨List.length_pos_of_ne_nil hpos, hint⟩
  rw [connectionRecv_frame hlt hread hrest, if_pos hp]

/- A receive that hands out a message has taken two segments off the stream. -/
theorem recv_some_stream (w : Segments) (m : Message)
    (h : (connectionRecv (segmentMachine order held sched) c w).1 = some m) :
    ∃ got,
      m = messageSetStream messageCreate got ∧
      0 < cInt (((w.stream.drop (min (segment sched w.calls) 4)).take
        (min (segment sched (w.calls + 1)) got.length)).length) ∧
      (connectionRecv (segmentMachine order held sched) c w).2.stream =
        (w.stream.drop (min (segment sched w.calls) 4)).drop
          (min (segment sched (w.calls + 1)) got.length) ∧
      got.length = beVal (fill (w.stream.take (min (segment sched w.calls) 4)) 4
        (held ⟨w.stream.drop (min (segment sched w.calls) 4), w.calls + 1⟩)) := by
  simp only [connectionRecv, segmentMachine, inertMachine] at h ⊢
  rw [ntoh_value order (fill_length _ 4 _)] at h ⊢
  split_ifs at h with h1 h2
  simp only [Option.some.injEq] at h
  rw [if_pos h1, if_pos h2]
  refine ⟨_, h.symm, ?_, ?_, ?_⟩
  · rw [fill_length]
    exact h2
  · rw [fill_length]
  · rw [fill_length]

theorem wholeReads_of_recv (w : Segments) (payload rest : Bytes) (hlt : payload.length < 2 ^ 32)
    (hw : w.stream = frame payload ++ rest)
    (hm : (connectionRecv (segmentMachine order held sched) c w).1 =
      some (messageSetStream messageCreate payload))
    (hrest : (connectionRecv (segmentMachine order held sched) c w).2.stream = rest) :
    WholeReads sched w.calls payload := by
  obtain ⟨got, hgot, hpos, hstream, -⟩ := recv_some_stream order held sched c _ _ hm
  have hlen : got.length = payload.length := by
    have := congrArg (fun m : Message => m.stream.length) hgot
    simpa [messageSetStream] using this.symm
  rw [hstream] at hrest
  have htotal := congrArg List.length hrest
  simp only [List.length_drop, List.length_append, frame_length, List.length_take, hlen, hw]
    at htotal hpos
  -- the two segments together take exactly `4 + payload.length` bytes
  have hhead : 4 ≤ segment sched w.calls := by omega
  have hbody : payload.length ≤ segment sched (w.calls + 1) := by omega
  have hcount : min (min (segment sched (w.calls + 1)) payload.length)
      (4 + payload.length + rest.length - min (segment sched w.calls) 4) = payload.length := by
    omega
  rw [hcount] at hpos
  exact ⟨hhead, hbody, ((cInt_pos_iff hlt).mp hpos).2⟩

theorem recvMessages_zero (M : Machine κ) (k : κ) : (recvMessages M c 0 k).2 = k := rfl

theorem recvMessages_fst (M : Machine κ) (n : ℕ) (k : κ) :
    (recvMessages M c (n + 1) k).1 =
      (connectionRecv M c k).1 :: (recvMessages M c n (connectionRecv M c k).2).1 := rfl

theorem recvMessages_snd (M : Machine κ) (n : ℕ) (k : κ) :
    (recvMessages M c (n + 1) k).2 = (recvMessages M c n (connectionRecv M c k).2).2 := rfl

theorem framesArrive_first (payload : Bytes) (msgs : List Bytes) (w : Segments)
    (hlt : payload.length < 2 ^ 32) (hw : w.stream = frame payload ++ msgs.flatMap frame)
    (h : FramesArrive (segmentMachine order held sched) c (payload :: msgs) w) :
    WholeReads sched w.calls payload := by
  obtain ⟨hm, hrest⟩ := h (0 + 1) (by simp)
  rw [recvMessages_fst] at hm
  rw [recvMessages_snd, recvMessages_zero] at hrest
  exact wholeReads_of_recv order held sched c w payload _ hlt hw (List.cons.inj hm).1 hrest

theorem framesArrive_cons (payload : Bytes) (msgs : List Bytes) (i : ℕ)
    (hpos : payload ≠ []) (hlt : payload.length < 2 ^ 32) :
    FramesArrive (segmentMachine order held sched) c (payload :: msgs)
        ⟨frame payload ++ msgs.flatMap frame, i⟩ ↔
      WholeReads sched i payload ∧
        FramesArrive (segmentMachine order held sched) c msgs ⟨msgs.flatMap frame, i + 2⟩ := by
  constructor
  · intro h
    have hwhole := framesArrive_first order held sched c payload msgs _ hlt rfl h
    have hhead := recv_frame_whole order held sched c payload (msgs.flatMap frame) i hpos hwhole
    refine ⟨hwhole, ?_⟩
    intro n hn
    obtain ⟨hms, hrest⟩ := h (n + 1) (Nat.succ_le_succ hn)
    rw [recvMessages_fst, hhead] at hms
    rw [recvMessages_snd, hhead] at hrest
    exact ⟨(List.cons.inj hms).2, hrest⟩
  · intro hpre n hn
    obtain ⟨hwhole, h⟩ := hpre
    have hhead := recv_frame_whole order held sched c payload (msgs.flatMap frame) i hpos hwhole
    cases n with
    | zero => exact ⟨rfl, rfl⟩
    | succ n =>
      obtain ⟨hms, hrest⟩ := h n (Nat.le_of_succ_le_succ hn)
      rw [recvMessages_fst, recvMessages_snd, hhead]
      exact ⟨congrArg _ hms, hrest⟩

theorem framesArrive_from (msgs : List Bytes) (i : ℕ)
    (hmsgs : ∀ b ∈ msgs, b ≠ [] ∧ b.length < 2 ^ 32) :
    FramesArrive (segmentMachine order held sched) c msgs ⟨msgs.flatMap frame, i⟩ ↔
      ∀ n (h : n < msgs.length), WholeReads sched (i + 2 * n) msgs[n] := by
  induction msgs generalizing i with
  | nil =>
    refine ⟨fun _ n h => absurd h (Nat.not_lt_zero n), ?_⟩
    intro _ n hn
    have hz : n = 0 := by simpa using hn
    subst hz
    simp [recvMessages]
  | cons payload msgs ih =>
    obtain ⟨hpos, hlt⟩ := hmsgs payload (List.mem_cons_self ..)
    rw [List.flatMap_cons, framesArrive_cons order held sched c payload msgs i hpos hlt,
      ih (i + 2) (fun b hb => hmsgs b (List.mem_cons_of_mem _ hb))]
    constructor
    · intro hpre n hn
      obtain ⟨h0, h⟩ := hpre
      cases n with
      | zero => exact h0
      | succ n =>
        have hidx : i + 2 * (n + 1) = i + 2 + 2 * n := by ring
        rw [hidx]
        exact h n (by simpa using hn)
    · intro h
      refine ⟨h 0 (by simp), ?_⟩
      intro n hn
      have hidx : i + 2 + 2 * n = i + 2 * (n + 1) := by ring
      rw [hidx]
      exact h (n + 1) (by simpa using hn)

/-- Successive receives return the messages of the peer, in step with its
frames, exactly when every length field and every payload is handed out whole
by one call and no payload reaches `2 ^ 31` bytes. -/
theorem frames_arrive_iff (msgs : List Bytes) (hmsgs : ∀ b ∈ msgs, b ≠ [] ∧ b.length < 2 ^ 32) :
    FramesArrive (segmentMachine order held sched) c msgs ⟨msgs.flatMap frame, 0⟩ ↔
      ∀ n (h : n < msgs.length), WholeReads sched (2 * n) msgs[n] := by
  have h := framesArrive_from order held sched c msgs 0 hmsgs
  simpa only [Nat.zero_add] using h

end

theorem frames_arrive_two_messages :
    FramesArrive (segmentMachine .little (fun _ _ => 0) (fun _ => 8)) ⟨5, none⟩ [[1, 2, 3], [4]]
        ⟨[[1, 2, 3], [4]].flatMap frame, 0⟩ ↔
      ∀ n (h : n < [[1, 2, 3], [(4 : Byte)]].length),
        WholeReads (fun _ => 8) (2 * n) [[1, 2, 3], [(4 : Byte)]][n] :=
  frames_arrive_iff .little (fun _ _ => 0) (fun _ => 8) ⟨5, none⟩ [[1, 2, 3], [4]] (by decide)

/- The payload arrives in two segments: the first receive pads it with memory
contents, and the second one starts in the middle of the payload. -/
theorem split_payload_desynchronises :
    ¬ FramesArrive (segmentMachine .little (fun _ _ => 0) (fun i => if i = 1 then 2 else 8))
        ⟨5, none⟩ [[1, 2, 3], [4]] ⟨[[1, 2, 3], [4]].flatMap frame, 0⟩ := by
  intro h
  have h1 := (h 1 (by decide)).1
  revert h1
  decide

end Fws
