import Fws.Service.Call

/-!
# What is reported of a send

`connection_send` issues one `send` for the size of a message and one for its
bytes, and takes any positive count for success. Its callers drop its result.
-/

namespace Fws
open Base.Digits Base.Cells

variable {κ : Type}

/- Both calls of `send` take everything they are given. -/
def AllAccepted (M : Machine κ) (c : Connection) (stream : Bytes) (k : κ) : Prop :=
  ∃ n k₁ n' k₂, M.send k c.socket (beBytes 4 stream.length) = (some n, k₁) ∧ 4 ≤ n ∧
    M.send k₁ c.socket stream = (some n', k₂) ∧ stream.length ≤ n'

/- Both take something, as an `int` tells it, but not everything. -/
def ShortAccepted (M : Machine κ) (c : Connection) (stream : Bytes) (k : κ) : Prop :=
  ∃ n k₁ n' k₂, M.send k c.socket (beBytes 4 stream.length) = (some n, k₁) ∧ 0 < cInt n ∧
    M.send k₁ c.socket stream = (some n', k₂) ∧ 0 < cInt n' ∧ ¬ (4 ≤ n ∧ stream.length ≤ n')

/- A serve that has received in state `k` and sends a response from there. -/
structure Responds (M : Machine κ) (ctx : FwsCtx) (stream : Bytes) (k : κ) (r : Serve κ) :
    Prop where
  received : ∃ k₀ message, connectionRecv M ctx.clientConn k₀ = (some message, k) ∧
    fwsServerServe M ctx k₀ = some r
  sent : r.sent = [stream]

/- A call that sends its request. -/
structure Requests (M : Machine κ) (ctx : FwsCtx) (c : Connection) (stream : Bytes) (k : κ)
    (r : Called κ) : Prop where
  peer : ∃ status, ctx.peer = .client (some ⟨c, status⟩)
  called : ∃ messageType inMsg envReq request, buildRequest messageType inMsg = some envReq ∧
    encodeRequest envReq = some request ∧ request.2.take request.1 = stream ∧
    fwsClientCall M ctx messageType inMsg k = some r

/- Success is reported only of a message that was accepted whole; anything else
reaches the callers of the networking layer. -/
structure SendReports (M : Machine κ) (c : Connection) (m : Message) (stream : Bytes) (k : κ) :
    Prop where
  connection : ∀ k', connectionSend M c m k = some (0, k') → AllAccepted M c stream k
  server : ¬ AllAccepted M c stream k →
    ∀ rv k', serverSendMsg M m c k = some (rv, k') → rv ≠ 0
  serve : ¬ AllAccepted M c stream k →
    ∀ ctx r, ctx.clientConn = c → Responds M ctx stream k r → r.ret = retErr
  client : ¬ AllAccepted M c stream k →
    ∀ status rv k', clientSendMsg M ⟨c, status⟩ m k = some (rv, k') → rv ≠ 0
  call : ¬ AllAccepted M c stream k →
    ∀ ctx r, Requests M ctx c stream k r → r.ret = retErr

section
variable {M : Machine κ} {c : Connection} {m : Message} {stream : Bytes} {k : κ}

/- Only the bytes of a message matter. -/
theorem connectionSend_stream_only (hm : messageGetStream m = some stream) :
    connectionSend M c m k = connectionSend M c (messageSetStream messageCreate stream) k := by
  have hcells : m.stream = stream.map some := defined_eq_some hm
  have hsize : messageGetSize m = stream.length := by
    rw [messageGetSize, hcells, List.length_map]
  simp only [connectionSend, hm, hsize, messageGetStream_set, messageGetSize_set]

/-- Sending succeeds where both calls return a positive `int`. -/
theorem connectionSend_zero_iff (hm : messageGetStream m = some stream)
    (hlt : stream.length < 2 ^ 32) :
    (∃ k', connectionSend M c m k = some (0, k')) ↔
      ∃ n k₁ n' k₂, M.send k c.socket (beBytes 4 stream.length) = (some n, k₁) ∧ 0 < cInt n ∧
        M.send k₁ c.socket stream = (some n', k₂) ∧ 0 < cInt n' := by
  have hmod : stream.length % 2 ^ 32 = stream.length := Nat.mod_eq_of_lt hlt
  have hne : (-1 : ℤ) ≠ 0 := by decide
  rw [connectionSend_stream_only hm]
  simp only [connectionSend, messageGetStream_set, messageGetSize_set, Option.bind_eq_bind,
    Option.bind_some, hmod, image_hton, List.take_length]
  rcases hhead : M.send k c.socket (beBytes 4 stream.length) with ⟨_ | n, k₁⟩
  · simp
  · by_cases hpos : 0 < cInt n
    · rcases hbody : M.send k₁ c.socket stream with ⟨_ | n', k₂⟩
      · simp [hpos, hbody]
      · by_cases hpos' : 0 < cInt n'
        · simp [hpos, hbody, hpos']
        · simp [hpos, hbody, hpos']
    · simp [hpos]

/-- On its own `connection_send` is wrong about short counts only. -/
theorem connectionSend_reports_iff (hm : messageGetStream m = some stream)
    (hlt : stream.length < 2 ^ 32) :
    (∀ k', connectionSend M c m k = some (0, k') → AllAccepted M c stream k) ↔
      ¬ ShortAccepted M c stream k := by
  have hzero := connectionSend_zero_iff (M := M) (c := c) (k := k) hm hlt
  constructor
  · intro hall hsome
    obtain ⟨n, k₁, n', k₂, hhead, hpos, hbody, hpos', hshort⟩ := hsome
    obtain ⟨k', hk'⟩ := hzero.mpr ⟨n, k₁, n', k₂, hhead, hpos, hbody, hpos'⟩
    obtain ⟨a, l₁, a', l₂, ha, hfour, ha', hlen⟩ := hall k' hk'
    rw [hhead] at ha
    cases ha
    rw [hbody] at ha'
    cases ha'
    exact hshort ⟨hfour, hlen⟩
  · intro hshort k' hk'
    obtain ⟨n, k₁, n', k₂, hhead, hpos, hbody, hpos'⟩ := hzero.mp ⟨k', hk'⟩
    by_cases hwhole : 4 ≤ n ∧ stream.length ≤ n'
    · exact ⟨n, k₁, n', k₂, hhead, hwhole.1, hbody, hwhole.2⟩
    · exact absurd ⟨n, k₁, n', k₂, hhead, hpos, hbody, hpos', hwhole⟩ hshort

/-- The wrappers of both sides report success whatever happened. -/
theorem sendMsg_zero (hm : messageGetStream m = some stream) :
    ∃ k', serverSendMsg M m c k = some (0, k') := by
  obtain ⟨k', h⟩ := serverSendMsg_set (M := M) c stream k
  refine ⟨k', ?_⟩
  rw [serverSendMsg, ← connectionSend_stream_only hm] at h
  exact h

end

/-- What was not accepted whole is never reported. -/
theorem send_reports_iff (M : Machine κ) (c : Connection) (m : Message) (k : κ) {stream : Bytes}
    (hm : messageGetStream m = some stream) :
    SendReports M c m stream k ↔ AllAccepted M c stream k := by
  constructor
  · intro h
    by_contra hnot
    obtain ⟨k', hsend⟩ := sendMsg_zero (M := M) (c := c) (k := k) hm
    exact h.server hnot 0 k' hsend rfl
  · intro hall
    exact
      { connection := fun _ _ => hall
        server := fun hnot => absurd hall hnot
        serve := fun hnot => absurd hall hnot
        client := fun hnot => absurd hall hnot
        call := fun hnot => absurd hall hnot }

theorem send_reports_dead_socket :
    SendReports (inertMachine Unit .little fun _ _ => 0) ⟨4, none⟩
        (messageSetStream messageCreate [7]) [7] () ↔
      AllAccepted (inertMachine Unit .little fun _ _ => 0) ⟨4, none⟩ [7] () :=
  send_reports_iff _ ⟨4, none⟩ _ () (messageGetStream_set messageCreate [7])

/- A socket with room for one byte at a time. -/
def narrowMachine : Machine Unit :=
  { inertMachine Unit .little fun _ _ => 0 with send := fun k _ _ => (some 1, k) }

theorem short_count_is_success :
    ¬ ∀ (M : Machine Unit) (c : Connection) (m : Message) (stream : Bytes) (k : Unit),
      messageGetStream m = some stream → 0 < stream.length → stream.length < 2 ^ 32 →
      SendReports M c m stream k := by
  intro h
  have hreports := h narrowMachine ⟨4, none⟩ (messageSetStream messageCreate [7]) [7] ()
    (messageGetStream_set _ _) (by decide) (by decide)
  have hsend : connectionSend narrowMachine ⟨4, none⟩ (messageSetStream messageCreate [7]) () =
      some (0, ()) := by decide +kernel
  obtain ⟨n, k₁, n', k₂, hhead, hfour, -⟩ := hreports.connection () hsend
  cases hhead
  exact absurd hfour (by decide)

end Fws
