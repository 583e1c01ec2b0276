import Fws.Networking.Connection
import Mathlib.Logic.Function.Basic

/-!
# A server's host with many clients

A client is the number of its connection: `fds` says which one is behind a
descriptor, `inbox` and `outbox` hold its two streams of bytes. What the kernel
is free to choose, the outcome of the next `select` and the descriptor of the
next `accept`, lies in the state.
-/

namespace Fws
open Base.Digits Base.Cells

structure Net where
  fds : ℤ → Option ℕ
  known : List ℕ
  pending : List ℕ
  inbox : ℕ → Bytes
  outbox : ℕ → Bytes
  hung : ℕ → Bool
  selected : SelectResult
  fresh : Option ℤ

def startNet : Net :=
  ⟨fun _ => none, [], [], fun _ => [], fun _ => [], fun _ => false, .timeout, none⟩

def Net.setInbox (net : Net) (c : ℕ) (bs : Bytes) : Net :=
  { net with inbox := Function.update net.inbox c bs }

def Net.setOutbox (net : Net) (c : ℕ) (bs : Bytes) : Net :=
  { net with outbox := Function.update net.outbox c bs }

def Net.setFd (net : Net) (s : ℤ) (client : Option ℕ) : Net :=
  { net with fds := Function.update net.fds s client }

/- `accept` takes the client that has waited longest. -/
def netMachine (listening : ℤ) (order : ByteOrder) (held : Net → ℕ → Byte) : Machine Net :=
  { inertMachine Net order held with
    socket := fun net => (some listening, net)
    bind := fun net _ _ => (true, net)
    listen := fun net _ _ => (true, net)
    recv := fun net s n =>
      match net.fds s with
      | none => (none, net)
      | some c => (some ((net.inbox c).take n), net.setInbox c ((net.inbox c).drop n))
    send := fun net s bs =>
      match net.fds s with
      | none => (none, net)
      | some c => (some bs.length, net.setOutbox c (net.outbox c ++ bs))
    select := fun net _ _ => (net.selected, net)
    accept := fun net _ =>
      match net.fresh, net.pending with
      | some s, c :: waiting => (some s, { net with pending := waiting }.setFd s (some c))
      | _, _ => (none, net)
    closesocket := fun net s => (true, net.setFd s none) }

section
variable (net : Net) (c : ℕ) (s : ℤ) (bs : Bytes) (client : Option ℕ)

@[simp] theorem setInbox_fds : (net.setInbox c bs).fds = net.fds := rfl
@[simp] theorem setOutbox_fds : (net.setOutbox c bs).fds = net.fds := rfl
@[simp] theorem setOutbox_inbox : (net.setOutbox c bs).inbox = net.inbox := rfl
@[simp] theorem setFd_inbox : (net.setFd s client).inbox = net.inbox := rfl

@[simp] theorem setInbox_inbox : (net.setInbox c bs).inbox = Function.update net.inbox c bs := rfl
@[simp] theorem setOutbox_outbox :
    (net.setOutbox c bs).outbox = Function.update net.outbox c bs := rfl

theorem setInbox_setInbox (bs' : Bytes) :
    (net.setInbox c bs).setInbox c bs' = net.setInbox c bs' := by
  simp only [Net.setInbox, Function.update_idem]

theorem setOutbox_setOutbox (bs' : Bytes) :
    (net.setOutbox c bs).setOutbox c bs' = net.setOutbox c bs' := by
  simp only [Net.setOutbox, Function.update_idem]

end

theorem net_accept_none {listening : ℤ} {order : ByteOrder} {held : Net → ℕ → Byte} {net net' : Net}
    {s : ℤ} (h : (netMachine listening order held).accept net s = (none, net')) : net' = net := by
  simp only [netMachine] at h
  split at h
  · cases h
  · cases h
    rfl

theorem net_accept_refused {listening : ℤ} {order : ByteOrder} {held : Net → ℕ → Byte}
    {net net' : Net} {s : ℤ}
    (h : (netMachine listening order held).accept net s = (none, net')) :
    net.fresh = none ∨ net.pending = [] := by
  simp only [netMachine] at h
  rcases hfresh : net.fresh with _ | fresh
  · exact Or.inl rfl
  · rcases hpending : net.pending with _ | ⟨c, waiting⟩
    · exact Or.inr rfl
    · simp only [hfresh, hpending] at h
      cases h

theorem net_accept_some {listening : ℤ} {order : ByteOrder} {held : Net → ℕ → Byte} {net net' : Net}
    {s clientSocket : ℤ}
    (h : (netMachine listening order held).accept net s = (some clientSocket, net')) :
    net.fresh = some clientSocket ∧ ∃ c waiting, net.pending = c :: waiting ∧
      net' = { net with pending := waiting }.setFd clientSocket (some c) := by
  simp only [netMachine] at h
  split at h
  · rename_i s' c waiting hfresh hpending
    cases h
    exact ⟨hfresh, c, waiting, hpending, rfl⟩
  · cases h

/-! ### Frames through a descriptor -/

section
variable (listening : ℤ) (order : ByteOrder) (held : Net → ℕ → Byte) {net : Net} {c : ℕ}
  {conn : Connection}

theorem net_recv_frame (hfd : net.fds conn.socket = some c) {payload rest : Bytes}
    (hlt : payload.length < 2 ^ 32) (hinbox : net.inbox c = frame payload ++ rest) :
    connectionRecv (netMachine listening order held) conn net =
      (if 0 < cInt payload.length then some (messageSetStream messageCreate payload) else none,
        net.setInbox c rest) := by
  refine connectionRecv_stream (fun bs => net.setInbox c bs) hlt ?_ ?_
  · intro n
    simp only [netMachine, hfd, hinbox]
  · intro bs n
    simp only [netMachine, setInbox_fds, hfd, setInbox_inbox, Function.update_self,
      setInbox_setInbox]

/-- On a stream that has ended nothing is received. -/
theorem net_recv_end (hfd : net.fds conn.socket = some c) (hinbox : net.inbox c = []) :
    connectionRecv (netMachine listening order held) conn net = (none, net.setInbox c []) := by
  have hzero : ¬ 0 < cInt (([] : Bytes).length : ℕ) := by decide
  simp only [connectionRecv, netMachine, hfd, hinbox, List.take_nil, List.drop_nil, if_neg hzero]

theorem net_send (hfd : net.fds conn.socket = some c) {payload : Bytes}
    (hlt : payload.length < 2 ^ 32) :
    connectionSend (netMachine listening order held) conn
        (messageSetStream messageCreate payload) net =
      some (if 0 < cInt payload.length then 0 else -1,
        net.setOutbox c (net.outbox c ++ frame payload)) := by
  refine connectionSend_stream (fun sent => net.setOutbox c (net.outbox c ++ sent)) hlt ?_ ?_
  · intro bs
    simp only [netMachine, hfd]
  · intro sent bs
    simp only [netMachine, setOutbox_fds, hfd, setOutbox_outbox, Function.update_self,
      setOutbox_setOutbox, List.append_assoc]

end

end Fws
