import Fws.Networking.Net

/-!
# How the bytes of a stream move

A receive hands out some of the bytes that are there, and a send takes some of
those it is given, as many as the network chooses. Either may fail.
-/

namespace Fws
open Base.Digits Base.Cells

/- The most bytes that the next call moves for a client, `none` where it fails.
With `pipe` a send to a client that has hung up raises SIGPIPE. -/
structure Wire where
  handed : Net → ℕ → ℕ → Option ℕ
  taken : Net → ℕ → ℕ → Option ℕ
  pipe : Bool

/- Both calls move one byte at least, where there is one. -/
def Wire.recv (wire : Wire) (net : Net) (c n : ℕ) (stream : Bytes) : Option (Bytes × Bytes) :=
  (wire.handed net c n).map fun most =>
    let count := min n (max 1 most)
    (stream.take count, stream.drop count)

def Wire.send (wire : Wire) (net : Net) (c : ℕ) (bs : Bytes) : Option Bytes :=
  (wire.taken net c bs.length).map fun most => bs.take (max 1 most)

/- All that is there or given goes over at once, as long as the client has not
hung up. -/
structure Wire.Whole (wire : Wire) (c : ℕ) : Prop where
  handed : ∀ net n, net.hung c = false → wire.handed net c n = some n
  taken : ∀ net n, net.hung c = false → wire.taken net c n = some n

def wholeWire : Wire := ⟨fun _ _ n => some n, fun _ _ n => some n, false⟩

section
variable {wire : Wire} {net : Net} {c : ℕ}

theorem Wire.recv_all {n : ℕ} (h : wire.handed net c n = some n) (stream : Bytes) :
    wire.recv net c n stream = some (stream.take n, stream.drop n) := by
  have hcount : min n (max 1 n) = n := by omega
  simp only [Wire.recv, h, Option.map_some, hcount]

theorem Wire.Whole.recv (h : wire.Whole c) (hopen : net.hung c = false) (n : ℕ) (stream : Bytes) :
    wire.recv net c n stream = some (stream.take n, stream.drop n) :=
  Wire.recv_all (h.handed net n hopen) stream

theorem Wire.Whole.send (h : wire.Whole c) (hopen : net.hung c = false) (bs : Bytes) :
    wire.send net c bs = some bs := by
  have hall : bs.take (max 1 bs.length) = bs := List.take_of_length_le (by omega)
  simp only [Wire.send, h.taken net bs.length hopen, Option.map_some, hall]

theorem Wire.recv_nil (wire : Wire) (net : Net) (c n : ℕ) :
    wire.recv net c n [] = none ∨ wire.recv net c n [] = some ([], []) := by
  unfold Wire.recv
  cases wire.handed net c n with
  | none => exact Or.inl rfl
  | some most =>
    right
    simp only [Option.map_some, List.take_nil, List.drop_nil]

end

/- The server's host, over such a network. -/
def wireMachine (listening : ℤ) (order : ByteOrder) (held : Net → ℕ → Byte) (wire : Wire) :
    Machine Net :=
  { netMachine listening order held with
    recv := fun net s n =>
      match net.fds s with
      | none => (none, net)
      | some c =>
        match wire.recv net c n (net.inbox c) with
        | none => (none, net)
        | some (got, rest) => (some got, net.setInbox c rest)
    send := fun net s bs =>
      match net.fds s with
      | none => (none, net)
      | some c =>
        match wire.send net c bs with
        | none => (none, net)
        | some sent => (some sent.length, net.setOutbox c (net.outbox c ++ sent)) }

section
variable (net : Net) (c : ℕ)

@[simp] theorem setInbox_self : net.setInbox c (net.inbox c) = net := by
  simp only [Net.setInbox, Function.update_eq_self]

@[simp] theorem setOutbox_self : net.setOutbox c (net.outbox c) = net := by
  simp only [Net.setOutbox, Function.update_eq_self]

end

/-! ### Transfers through a descriptor -/

section
variable (listening : ℤ) (order : ByteOrder) (held : Net → ℕ → Byte) (wire : Wire) {net : Net}
  {c : ℕ} {conn : Connection}

theorem wireMachine_recv (hfd : net.fds conn.socket = some c) (n : ℕ) :
    (wireMachine listening order held wire).recv net conn.socket n =
      match wire.recv net c n (net.inbox c) with
      | none => (none, net)
      | some (got, rest) => (some got, net.setInbox c rest) := by
  simp only [wireMachine, hfd]

theorem wireMachine_send (hfd : net.fds conn.socket = some c) (bs : Bytes) :
    (wireMachine listening order held wire).send net conn.socket bs =
      match wire.send net c bs with
      | none => (none, net)
      | some sent => (some sent.length, net.setOutbox c (net.outbox c ++ sent)) := by
  simp only [wireMachine, hfd]

/-- A receive takes from the stream of the client behind the descriptor, and nothing else. -/
theorem wire_recv_any (hfd : net.fds conn.socket = some c) :
    ∃ rest, (connectionRecv (wireMachine listening order held wire) conn net).2 =
      net.setInbox c rest := by
  have hnext : ∀ k n, (∃ rest, k = net.setInbox c rest) →
      ∃ rest, ((wireMachine listening order held wire).recv k conn.socket n).2 =
        net.setInbox c rest := by
    intro k n hk
    obtain ⟨rest, rfl⟩ := hk
    have hfd' : (net.setInbox c rest).fds conn.socket = some c := hfd
    rw [wireMachine_recv listening order held wire hfd']
    cases wire.recv (net.setInbox c rest) c n ((net.setInbox c rest).inbox c) with
    | none => exact ⟨rest, rfl⟩
    | some handed => exact ⟨handed.2, setInbox_setInbox net c rest handed.2⟩
  have hself : ∃ rest, net = net.setInbox c rest := ⟨net.inbox c, (setInbox_self net c).symm⟩
  apply connectionRecv_lift (R := fun k => ∃ rest, k = net.setInbox c rest)
  · exact hnext net 4 hself
  · exact hnext

/-- On a stream that has ended nothing is received. -/
theorem wire_recv_end (hfd : net.fds conn.socket = some c) (hinbox : net.inbox c = []) :
    connectionRecv (wireMachine listening order held wire) conn net = (none, net) := by
  have hzero : ¬ 0 < cInt (([] : Bytes).length : ℕ) := by decide
  have hself : net.setInbox c [] = net := by rw [← hinbox, setInbox_self]
  rw [connectionRecv, wireMachine_recv listening order held wire hfd, hinbox]
  rcases wire.recv_nil net c 4 with hrecv | hrecv
  · rw [hrecv]
  · simp only [hrecv, hself, if_neg hzero]

/-- A frame that is handed out whole is received at once. -/
theorem wire_recv_frame (hfd : net.fds conn.socket = some c)
    (hhanded : ∀ bs n, wire.handed (net.setInbox c bs) c n = some n) {payload rest : Bytes}
    (hlt : payload.length < 2 ^ 32) (hinbox : net.inbox c = frame payload ++ rest) :
    connectionRecv (wireMachine listening order held wire) conn net =
      (if 0 < cInt payload.length then some (messageSetStream messageCreate payload) else none,
        net.setInbox c rest) := by
  refine connectionRecv_stream (fun bs => net.setInbox c bs) hlt ?_ ?_
  · intro n
    have hself := hhanded (net.inbox c) n
    rw [setInbox_self] at hself
    rw [wireMachine_recv listening order held wire hfd, Wire.recv_all hself, hinbox]
  · intro bs n
    have hfd' : (net.setInbox c bs).fds conn.socket = some c := hfd
    rw [wireMachine_recv listening order held wire hfd', Wire.recv_all (hhanded bs n),
      setInbox_inbox, Function.update_self]
    simp only [setInbox_setInbox]

theorem wire_send_any (hfd : net.fds conn.socket = some c) {m : Message} {rv : ℤ} {net' : Net}
    (h : connectionSend (wireMachine listening order held wire) conn m net = some (rv, net')) :
    ∃ sent, net' = net.setOutbox c sent := by
  have hself : ∃ sent, net = net.setOutbox c sent := ⟨net.outbox c, (setOutbox_self net c).symm⟩
  refine connectionSend_lift (R := fun k => ∃ sent, k = net.setOutbox c sent) ?_ hself h
  intro k bs hk
  obtain ⟨sent, rfl⟩ := hk
  have hfd' : (net.setOutbox c sent).fds conn.socket = some c := hfd
  rw [wireMachine_send listening order held wire hfd']
  cases wire.send (net.setOutbox c sent) c bs with
  | none => exact ⟨sent, rfl⟩
  | some more => exact ⟨_, setOutbox_setOutbox net c sent _⟩

theorem wire_send_frame (hwire : wire.Whole c) (hopen : net.hung c = false)
    (hfd : net.fds conn.socket = some c) {payload : Bytes} (hlt : payload.length < 2 ^ 32) :
    connectionSend (wireMachine listening order held wire) conn
        (messageSetStream messageCreate payload) net =
      some (if 0 < cInt payload.length then 0 else -1,
        net.setOutbox c (net.outbox c ++ frame payload)) := by
  refine connectionSend_stream (fun sent => net.setOutbox c (net.outbox c ++ sent)) hlt ?_ ?_
  · intro bs
    rw [wireMachine_send listening order held wire hfd, hwire.send hopen]
  · intro sent bs
    have hfd' : (net.setOutbox c (net.outbox c ++ sent)).fds conn.socket = some c := hfd
    have hopen' : (net.setOutbox c (net.outbox c ++ sent)).hung c = false := hopen
    rw [wireMachine_send listening order held wire hfd', hwire.send hopen', setOutbox_outbox,
      Function.update_self]
    simp only [setOutbox_setOutbox, List.append_assoc]

end

end Fws
