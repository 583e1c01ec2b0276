import Fws.Networking.Message

/-!
# Connections (networking/connection.c)

One message is one frame: its size as four bytes in network order, then its
bytes. Either side issues one call of the socket interface for each part.
-/

namespace Fws
open Base.Digits Base.Cells

structure Connection where
  socket : ℤ
  info : Option ℕ
  deriving DecidableEq, Repr

variable {κ : Type}

def connectionDestroy (M : Machine κ) (c : Connection) (k : κ) : κ :=
  match c.info with
  | none => k
  | some info => M.freeInfo k info

/- `NULL` is `none`. The count that `recv` returns is kept in an `int`, and the
part of a buffer that `recv` did not fill holds what the memory held. -/
def connectionRecv (M : Machine κ) (c : Connection) (k : κ) : Option Message × κ :=
  match M.recv k c.socket 4 with
  | (none, k) => (none, k)
  | (some got, k) =>
    if 0 < cInt got.length then
      let networkSize := value M.order (fill got 4 (M.held k))
      let bufferSize := ntoh M.order 4 networkSize
      match M.recv k c.socket bufferSize with
      | (none, k) => (none, k)
      | (some got, k) =>
        if 0 < cInt got.length then
          let buffer := fill got bufferSize (M.held k)
          (some (messageSetStream messageCreate buffer), k)
        else (none, k)
    else (none, k)

/- The size goes through a `uint32_t`, and that many bytes of the stream follow. -/
def connectionSend (M : Machine κ) (c : Connection) (m : Message) (k : κ) : Option (ℤ × κ) := do
  let buffer ← messageGetStream m
  let bufferSize := messageGetSize m % 2 ^ 32
  let networkSize := hton M.order 4 bufferSize
  match M.send k c.socket (image M.order 4 networkSize) with
  | (none, k) => some (-1, k)
  | (some n, k) =>
    if 0 < cInt n then
      match M.send k c.socket (buffer.take bufferSize) with
      | (none, k) => some (-1, k)
      | (some n, k) => if 0 < cInt n then some (0, k) else some (-1, k)
    else some (-1, k)

/-- A payload as `connection_send` lays it out. -/
def frame (payload : Bytes) : Bytes := beBytes 4 payload.length ++ payload

theorem frame_length (payload : Bytes) : (frame payload).length = 4 + payload.length := by
  simp only [frame, List.length_append, beBytes_length]

theorem four_pos : 0 < cInt (4 : ℕ) := by decide

/-- What one receive returns when the socket hands out the whole length field
and then the whole payload. -/
theorem connectionRecv_frame {M : Machine κ} {c : Connection} {k k₁ k₂ : κ} {payload : Bytes}
    (hlt : payload.length < 2 ^ 32)
    (hhead : M.recv k c.socket 4 = (some (beBytes 4 payload.length), k₁))
    (hbody : M.recv k₁ c.socket payload.length = (some payload, k₂)) :
    connectionRecv M c k =
      (if 0 < cInt payload.length then some (messageSetStream messageCreate payload) else none,
        k₂) := by
  have hlen : (beBytes 4 payload.length).length = 4 := beBytes_length 4 _
  have hfill : fill (beBytes 4 payload.length) 4 (M.held k₁) = beBytes 4 payload.length := by
    conv => lhs; arg 2; rw [← hlen]
    exact fill_all _ _
  have hsize : ntoh M.order 4 (value M.order (beBytes 4 payload.length)) = payload.length := by
    rw [ntoh_value M.order hlen]
    exact beVal_beBytes_of_lt (by norm_num; omega)
  simp only [connectionRecv, hhead, hlen, four_pos, if_true, hfill, hsize, hbody, fill_all]
  by_cases hp : 0 < cInt payload.length
  · rw [if_pos hp, if_pos hp]
  · rw [if_neg hp, if_neg hp]

/-- What one send returns on a socket that accepts both parts whole. Of a longer
message only as many bytes are sent as the length field says. -/
theorem connectionSend_sent {M : Machine κ} {c : Connection} {k k₁ k₂ : κ} {payload : Bytes}
    {size : ℕ} (hsize : payload.length % 2 ^ 32 = size)
    (hhead : M.send k c.socket (beBytes 4 size) = (some 4, k₁))
    (hbody : M.send k₁ c.socket (payload.take size) = (some size, k₂)) :
    connectionSend M c (messageSetStream messageCreate payload) k =
      some (if 0 < cInt size then 0 else -1, k₂) := by
  simp only [connectionSend, messageGetStream_set, messageGetSize_set, Option.bind_eq_bind,
    Option.bind_some, hsize, image_hton, hhead, four_pos, if_true, hbody]
  by_cases hp : 0 < cInt size
  · rw [if_pos hp, if_pos hp]
  · rw [if_neg hp, if_neg hp]

theorem connectionSend_frame {M : Machine κ} {c : Connection} {k k₁ k₂ : κ} {payload : Bytes}
    (hlt : payload.length < 2 ^ 32)
    (hhead : M.send k c.socket (beBytes 4 payload.length) = (some 4, k₁))
    (hbody : M.send k₁ c.socket payload = (some payload.length, k₂)) :
    connectionSend M c (messageSetStream messageCreate payload) k =
      some (if 0 < cInt payload.length then 0 else -1, k₂) := by
  refine connectionSend_sent (Nat.mod_eq_of_lt hlt) hhead ?_
  rw [List.take_length]
  exact hbody

/-! ### What a transfer does to the machine

Whatever each call on the socket keeps is kept by the transfer. -/

theorem connectionRecv_lift {M : Machine κ} {c : Connection} {k : κ} {R : κ → Prop}
    (hfirst : R (M.recv k c.socket 4).2) (hnext : ∀ k n, R k → R (M.recv k c.socket n).2) :
    R (connectionRecv M c k).2 := by
  unfold connectionRecv
  rcases hr : M.recv k c.socket 4 with ⟨_ | got, k₁⟩
  · rw [hr] at hfirst
    exact hfirst
  · rw [hr] at hfirst
    dsimp only at hfirst ⊢
    by_cases hpos : 0 < cInt got.length
    · rw [if_pos hpos]
      have hbody := hnext k₁ (ntoh M.order 4 (value M.order (fill got 4 (M.held k₁)))) hfirst
      generalize ntoh M.order 4 (value M.order (fill got 4 (M.held k₁))) = size at hbody
      rcases hb : M.recv k₁ c.socket size with ⟨_ | body, k₂⟩
      · rw [hb] at hbody
        exact hbody
      · rw [hb] at hbody
        dsimp only at hbody ⊢
        split_ifs
        · exact hbody
        · exact hbody
    · rw [if_neg hpos]
      exact hfirst

/-- A receive takes away nothing that `recv` keeps. -/
theorem connectionRecv_subset {M : Machine κ} {openFds : κ → Finset ℤ}
    (hrecv : ∀ k s n, openFds k ⊆ openFds (M.recv k s n).2) (c : Connection) (k : κ) :
    openFds k ⊆ openFds (connectionRecv M c k).2 := by
  apply connectionRecv_lift (R := fun k' => openFds k ⊆ openFds k')
  · exact hrecv k c.socket 4
  · intro k₁ n hk₁
    exact hk₁.trans (hrecv k₁ c.socket n)

theorem connectionSend_lift {M : Machine κ} {c : Connection} {m : Message} {k k' : κ} {rv : ℤ}
    {R : κ → Prop} (hnext : ∀ k bs, R k → R (M.send k c.socket bs).2) (hk : R k)
    (h : connectionSend M c m k = some (rv, k')) : R k' := by
  unfold connectionSend at h
  obtain ⟨buffer, -, h⟩ := Option.bind_eq_some_iff.mp h
  dsimp only at h
  generalize image M.order 4 (hton M.order 4 (messageGetSize m % 2 ^ 32)) = head at h
  generalize buffer.take (messageGetSize m % 2 ^ 32) = body at h
  have hhead := hnext k head hk
  rcases hs : M.send k c.socket head with ⟨_ | n, k₁⟩
  · rw [hs] at h hhead
    cases h
    exact hhead
  · rw [hs] at h hhead
    dsimp only at h hhead
    by_cases hpos : 0 < cInt n
    · rw [if_pos hpos] at h
      have hbody := hnext k₁ body hhead
      rcases hb : M.send k₁ c.socket body with ⟨_ | n', k₂⟩
      · rw [hb] at h hbody
        cases h
        exact hbody
      · rw [hb] at h hbody
        dsimp only at h hbody
        split_ifs at h
        · cases h
          exact hbody
        · cases h
          exact hbody
    · rw [if_neg hpos] at h
      cases h
      exact hhead

/-! ### Streams that are handed over whole

`get` and `put` are the states of the machine by the bytes that wait to be
received and by those that were sent. -/

theorem connectionRecv_stream {M : Machine κ} {c : Connection} {k : κ} (get : Bytes → κ)
    {payload rest : Bytes} (hlt : payload.length < 2 ^ 32)
    (hfirst : ∀ n, M.recv k c.socket n =
      (some ((frame payload ++ rest).take n), get ((frame payload ++ rest).drop n)))
    (hnext : ∀ bs n, M.recv (get bs) c.socket n = (some (bs.take n), get (bs.drop n))) :
    connectionRecv M c k =
      (if 0 < cInt payload.length then some (messageSetStream messageCreate payload) else none,
        get rest) := by
  have hlen : (beBytes 4 payload.length).length = 4 := beBytes_length 4 _
  have hhead := hfirst 4
  rw [frame, List.append_assoc, List.take_left' hlen, List.drop_left' hlen] at hhead
  have hbody := hnext (payload ++ rest) payload.length
  rw [List.take_left' rfl, List.drop_left' rfl] at hbody
  exact connectionRecv_frame hlt hhead hbody

theorem connectionSend_stream {M : Machine κ} {c : Connection} {k : κ} (put : Bytes → κ)
    {payload : Bytes} (hlt : payload.length < 2 ^ 32)
    (hfirst : ∀ bs, M.send k c.socket bs = (some bs.length, put bs))
    (hnext : ∀ sent bs, M.send (put sent) c.socket bs = (some bs.length, put (sent ++ bs))) :
    connectionSend M c (messageSetStream messageCreate payload) k =
      some (if 0 < cInt payload.length then 0 else -1, put (frame payload)) := by
  have hhead := hfirst (beBytes 4 payload.length)
  rw [beBytes_length] at hhead
  exact connectionSend_frame hlt hhead (hnext _ payload)

/-! ### One end of a line

A send is accepted whole, and a receive hands out what was requested, or all
there is. -/

structure Line where
  incoming : Bytes
  outgoing : Bytes
  deriving DecidableEq, Repr

def lineMachine (order : ByteOrder) (held : Line → ℕ → Byte) : Machine Line :=
  { inertMachine Line order held with
    recv := fun line _ n =>
      (some (line.incoming.take n), { line with incoming := line.incoming.drop n })
    send := fun line _ bs => (some bs.length, { line with outgoing := line.outgoing ++ bs }) }

section
variable (order : ByteOrder) (held : Line → ℕ → Byte) (c : Connection)

theorem line_recv {payload : Bytes} (rest outgoing : Bytes) (hlt : payload.length < 2 ^ 32) :
    connectionRecv (lineMachine order held) c ⟨frame payload ++ rest, outgoing⟩ =
      (if 0 < cInt payload.length then some (messageSetStream messageCreate payload) else none,
        ⟨rest, outgoing⟩) :=
  connectionRecv_stream (fun bs => (⟨bs, outgoing⟩ : Line)) hlt (fun _ => rfl) fun _ _ => rfl

theorem line_send {payload : Bytes} (line : Line) (hlt : payload.length < 2 ^ 32) :
    connectionSend (lineMachine order held) c (messageSetStream messageCreate payload) line =
      some (if 0 < cInt payload.length then 0 else -1,
        ⟨line.incoming, line.outgoing ++ frame payload⟩) := by
  refine connectionSend_stream (fun sent => (⟨line.incoming, line.outgoing ++ sent⟩ : Line)) hlt
    (fun _ => rfl) ?_
  intro sent bs
  simp only [lineMachine, List.append_assoc]

end

end Fws
