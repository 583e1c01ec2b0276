import Fws.Service.RpcRuns

/-!
# Serves that do not end

The server is with one connection at a time. A client that sends no more than the
length of a frame holds up every other one until it sends more or hangs up, and a
frame on which the decoder does not return holds them up for good.
-/

namespace Fws
open Base.Digits Base.Cells Base.Tlv Base.Runs Base.Calls

/- The client whose step it is; the others are the server's. -/
def RpcEvent.client : RpcEvent → Option ℕ
  | .connect c | .send c _ | .call c _ _ _ | .finish c _ | .hangup c => some c
  | .accept .. | .serve _ => none

/- What the steps from `s` to `t` have not changed. -/
structure Rpc.Frozen (s t : Rpc) (out : List RpcLabel) : Prop where
  ctx : t.ctx = s.ctx
  closed : t.closed = s.closed
  invocations : ∀ d, invocations d out = []
  unanswered : ∀ d, s.net.outbox d = [] → s.closed d = false →
    t.net.outbox d = [] ∧ results d out = []

/- A step of a client. What clients send is behind what they have sent, and only
their own steps are seen of them. -/
structure Rpc.Beside (s : Rpc) (e : RpcEvent) (t : Rpc) (out : List RpcLabel) : Prop where
  frozen : s.Frozen t out
  running : t.running = s.running
  serving : t.serving = s.serving
  fds : t.net.fds = s.net.fds
  inbox : ∀ d, ∃ more, t.net.inbox d = s.net.inbox d ++ more ∧ (e.client ≠ some d → more = [])
  hung : ∀ d, e.client ≠ some d → t.net.hung d = s.net.hung d

section
variable {listening : ℤ} {order : ByteOrder} {held : Net → ℕ → Byte} {fatal : ℕ × Bytes → Bool}
  {callers : ℕ → Option Caller}
  {s t u : Rpc} {c : ℕ} {out out' : List RpcLabel}

theorem Rpc.Frozen.refl (s : Rpc) : s.Frozen s [] :=
  ⟨rfl, rfl, fun _ => rfl, fun _ houtbox _ => ⟨houtbox, rfl⟩⟩

theorem Rpc.Frozen.trans (h : s.Frozen t out) (h' : t.Frozen u out') :
    s.Frozen u (out ++ out') where
  ctx := h'.ctx.trans h.ctx
  closed := h'.closed.trans h.closed
  invocations := by
    intro d
    rw [invocations_append, h.invocations d, h'.invocations d, List.append_nil]
  unanswered := by
    intro d houtbox hopen
    obtain ⟨houtbox₁, hresults⟩ := h.unanswered d houtbox hopen
    rw [← h.closed] at hopen
    obtain ⟨houtbox₂, hresults'⟩ := h'.unanswered d houtbox₁ hopen
    refine ⟨houtbox₂, ?_⟩
    rw [results_append, hresults, hresults', List.append_nil]

/-- What a log says of the callbacks and the results is as before. -/
theorem frozen_log (h : s.Frozen t out) (log : List RpcLabel) :
    (∀ d, invocations d (log ++ out) = invocations d log) ∧
      ∀ d, s.net.outbox d = [] → s.closed d = false →
        results d (log ++ out) = results d log := by
  constructor
  · intro d
    rw [invocations_append, h.invocations d, List.append_nil]
  · intro d houtbox hopen
    rw [results_append, (h.unanswered d houtbox hopen).2, List.append_nil]

theorem awaitResponse_net {caller : Caller} {wire : Wire} {d : ℕ} {ret : ℤ} {net : Net}
    {r : Called Net} (h : awaitResponse (caller.machine wire d) caller.client ret net = some r) :
    ∃ rest, r.k = net.setOutbox d rest := by
  obtain ⟨rest, hrest⟩ := caller_recv_any caller wire d caller.client.connection net
  refine ⟨rest, ?_⟩
  rw [awaitResponse, clientRecvMsg] at h
  generalize connectionRecv (caller.machine wire d) caller.client.connection net = received
    at h hrest
  obtain ⟨_ | message, k⟩ := received
  · cases h
    exact hrest
  · obtain ⟨stream, -, h⟩ := Option.bind_eq_some_iff.mp h
    obtain ⟨⟨rval, env⟩, -, h⟩ := Option.bind_eq_some_iff.mp h
    have hk : r.k = k := by
      dsimp only at h
      split at h <;> cases h <;> rfl
    rw [hk]
    exact hrest

theorem sent_behind (net : Net) (d : ℕ) (bs : Bytes) (e : RpcEvent) (he : e.client = some d)
    (d' : ℕ) : ∃ more, (net.setInbox d (net.inbox d ++ bs)).inbox d' = net.inbox d' ++ more ∧
      (e.client ≠ some d' → more = []) := by
  rw [setInbox_inbox]
  by_cases hd : d' = d
  · subst hd
    exact ⟨bs, Function.update_self .., fun hne => absurd he hne⟩
  · exact ⟨[], by rw [Function.update_of_ne hd, List.append_nil], fun _ => rfl⟩

theorem inbox_same (net : Net) (e : RpcEvent) (d : ℕ) :
    ∃ more, net.inbox d = net.inbox d ++ more ∧ (e.client ≠ some d → more = []) :=
  ⟨[], (List.append_nil _).symm, fun _ => rfl⟩

theorem Rpc.client_beside {e : RpcEvent} (hclient : e.client ≠ none)
    (hstep : rpcStep listening order held fatal callers s e = some (t, out)) :
    s.Beside e t out := by
  cases rpcStep_move hstep with
  | connect d =>
    exact ⟨⟨rfl, rfl, fun _ => rfl, fun _ hd _ => ⟨hd, rfl⟩⟩, rfl, rfl, rfl, inbox_same _ _,
      fun _ _ => rfl⟩
  | send d bs =>
    exact ⟨⟨rfl, rfl, fun _ => rfl, fun _ hd _ => ⟨hd, rfl⟩⟩, rfl, rfl, rfl,
      sent_behind s.net d bs _ rfl, fun _ _ => rfl⟩
  | call d wire messageType inMsg caller ret net hcaller hidle hopen hsend =>
    obtain ⟨more, rfl⟩ := sendRequest_any hsend
    exact ⟨⟨rfl, rfl, fun _ => rfl, fun _ hd _ => ⟨hd, rfl⟩⟩, rfl, rfl, rfl,
      sent_behind s.net d more _ rfl, fun _ _ => rfl⟩
  | finish d wire caller ret r hcaller hcalling hready hawait =>
    obtain ⟨rest, hk⟩ := awaitResponse_net hawait
    rw [hk]
    refine ⟨⟨rfl, rfl, fun _ => rfl, ?_⟩, rfl, rfl, rfl, inbox_same _ _, fun _ _ => rfl⟩
    intro d' houtbox hopen
    have hne : d' ≠ d := by
      rintro rfl
      rcases hready with hsent | hclosed
      · exact hsent houtbox
      · exact Bool.false_ne_true (hopen.symm.trans hclosed)
    rw [setOutbox_outbox, Function.update_of_ne hne, results_returned, if_neg hne.symm]
    exact ⟨houtbox, rfl⟩
  | hangup d =>
    refine ⟨⟨rfl, rfl, fun _ => rfl, fun _ hd _ => ⟨hd, rfl⟩⟩, rfl, rfl, rfl, inbox_same _ _, ?_⟩
    intro d' hne
    exact Function.update_of_ne (fun he => hne (congrArg some he.symm)) _ _
  | accept selected fresh => exact absurd rfl hclient
  | serve wire => exact absurd rfl hclient

/-- Where the serve is not possible, the server does nothing. -/
theorem Rpc.beside {e : RpcEvent} (hserving : s.serving = true)
    (hserve : ∀ wire, e = .serve wire → rpcStep listening order held fatal callers s e = none)
    (hstep : rpcStep listening order held fatal callers s e = some (t, out)) :
    s.Beside e t out := by
  cases e with
  | accept selected fresh =>
    cases rpcStep_move hstep with
    | accept selected fresh ret ctx net hrunning hidle =>
      exact absurd (hserving.symm.trans hidle) Bool.noConfusion
  | serve wire =>
    rw [hserve wire rfl] at hstep
    cases hstep
  | _ => exact Rpc.client_beside (Option.some_ne_none _) hstep

/-- What keeps the serve impossible keeps everything else. -/
theorem Rpc.frozen_run {I : Rpc → Prop} {es : List RpcEvent}
    (hserve : ∀ s wire, I s → .serve wire ∈ es →
      rpcStep listening order held fatal callers s (.serve wire) = none)
    (hkeep : ∀ s e t out, I s → e ∈ es → s.Beside e t out → I t)
    (hserving : ∀ s, I s → s.serving = true) (hs : I s) {log log' : List RpcLabel}
    (hrun : exec (withLog (rpcStep listening order held fatal callers)) (s, log) es =
      some (t, log')) :
    I t ∧ ∃ out, log' = log ++ out ∧ s.Frozen t out := by
  induction es generalizing s log with
  | nil =>
    cases hrun
    exact ⟨hs, [], (List.append_nil _).symm, .refl _⟩
  | cons e es ih =>
    obtain ⟨⟨u, next⟩, hu, hrest⟩ := Option.bind_eq_some_iff.mp hrun
    obtain ⟨⟨v, given⟩, hv, he⟩ := Option.map_eq_some_iff.mp hu
    cases he
    have hnone : ∀ wire, e = .serve wire →
        rpcStep listening order held fatal callers s e = none := by
      intro wire he
      rw [he]
      exact hserve s wire hs (he ▸ List.mem_cons_self ..)
    have hbeside := Rpc.beside (hserving s hs) hnone hv
    have hv' := hkeep s e v given hs (List.mem_cons_self ..) hbeside
    obtain ⟨hlast, out, rfl, hfrozen⟩ := ih
      (fun s wire hs he' => hserve s wire hs (List.mem_cons_of_mem _ he'))
      (fun s e' t out hs he' hb => hkeep s e' t out hs (List.mem_cons_of_mem _ he') hb) hv' hrest
    exact ⟨hlast, given ++ out, List.append_assoc .., hbeside.frozen.trans hfrozen⟩

end

/-! ### A frame that is not complete -/

/- The client has sent nothing since its last frame, or no more than the length of
the next one. -/
structure Net.Withheld (net : Net) (c : ℕ) : Prop where
  hung : net.hung c = false
  inbox : (net.inbox c).length ≤ 4

/- The server serves that client. -/
structure Rpc.Stalled (s : Rpc) (c : ℕ) : Prop where
  running : s.running = true
  serving : s.serving = true
  socket : s.ctx.clientConn.socket ≠ 0
  fd : s.net.fds s.ctx.clientConn.socket = some c
  withheld : s.net.Withheld c

section
variable {order : ByteOrder} {held : Net → ℕ → Byte} {fatal : ℕ × Bytes → Bool}
  {callers : ℕ → Option Caller}
  {s t : Rpc} {c : ℕ}

/-- The second receive would wait, if not the first. -/
theorem Net.Withheld.stalls (listening : ℤ) (order : ByteOrder) (held : Net → ℕ → Byte)
    {wire : Wire} (hwire : wire.Whole c) {net : Net} (h : net.Withheld c) {conn : Connection}
    (hfd : net.fds conn.socket = some c) :
    net.stalls (wireMachine listening order held wire) conn.socket = true := by
  have hrest : (net.inbox c).drop 4 = [] := List.drop_eq_nil_of_le h.inbox
  simp only [Net.stalls, recvWaits, wireMachine_recv listening order held wire hfd,
    hwire.recv h.hung, Net.blocks, hfd, Function.update_self, hrest, true_and, Net.setInbox, h.hung,
    decide_true, Bool.or_true]

theorem Rpc.Stalled.serve (listening : ℤ) {wire : Wire} (hwire : wire.Whole c)
    (h : s.Stalled c) : rpcStep listening order held fatal callers s (.serve wire) = none := by
  have hstalls := h.withheld.stalls listening order held hwire h.fd
  have hnot : ¬ (s.running = true ∧ s.serving = true ∧ (s.ctx.clientConn.socket = 0 ∨
      s.net.stalls (wireMachine listening order held wire) s.ctx.clientConn.socket = false)) := by
    intro hready
    rcases hready.2.2 with hzero | hgoes
    · exact h.socket hzero
    · rw [hstalls] at hgoes
      cases hgoes
  simp only [rpcStep, if_neg hnot]

theorem Rpc.Stalled.beside (h : s.Stalled c) {e : RpcEvent} {out : List RpcLabel}
    (hother : e.client ≠ some c) (hbeside : s.Beside e t out) : t.Stalled c := by
  obtain ⟨more, hinbox, hmore⟩ := hbeside.inbox c
  rw [hmore hother, List.append_nil] at hinbox
  obtain ⟨hrunning, hserving, hsocket, hfd, hhung, hwithheld⟩ := h
  refine ⟨hbeside.running.trans hrunning, hbeside.serving.trans hserving, ?_, ?_,
    (hbeside.hung c hother).trans hhung, ?_⟩
  · rw [hbeside.frozen.ctx]
    exact hsocket
  · rw [hbeside.frozen.ctx, hbeside.fds]
    exact hfd
  · rw [hinbox]
    exact hwithheld

end

/- As long as the client that is being served sends no more than a length, no callback
is invoked and no connection closed, whatever everybody else does, and a call
returns only where its response has been sent before. -/
theorem stalled_server_waits (listening : ℤ) (order : ByteOrder) (held : Net → ℕ → Byte)
    (fatal : ℕ × Bytes → Bool) (callers : ℕ → Option Caller) {s t : Rpc} {c : ℕ}
    (hstalled : s.Stalled c) {es : List RpcEvent} (hother : ∀ e ∈ es, e.client ≠ some c)
    (hwire : ∀ wire, .serve wire ∈ es → wire.Whole c) {log log' : List RpcLabel}
    (hrun : exec (withLog (rpcStep listening order held fatal callers)) (s, log) es =
      some (t, log')) :
    t.Stalled c ∧ t.ctx = s.ctx ∧ t.closed = s.closed ∧
      (∀ d, invocations d log' = invocations d log) ∧
      ∀ d, s.net.outbox d = [] → s.closed d = false → results d log' = results d log := by
  obtain ⟨hlast, out, rfl, hfrozen⟩ := Rpc.frozen_run (I := fun s => s.Stalled c)
    (fun s wire h he => h.serve listening (hwire wire he))
    (fun s e t out h he hbeside => h.beside (hother e he) hbeside) (fun s h => h.serving) hstalled
    hrun
  exact ⟨hlast, hfrozen.ctx, hfrozen.closed, frozen_log hfrozen log⟩

/- A client that sends the length of a frame and no more, and a caller behind it. -/
def lengthOnly : List RpcEvent :=
  [.connect 0, .connect 1, .send 0 [0, 0, 0, 5], .accept (.ready {3}) (some 4)]

def callBehind : List RpcEvent :=
  [.call 1 wholeWire testMessageEntry.funcIdentifier [7], .connect 2, .send 2 [1]]

theorem lengthOnly_stalls :
    ∃ s, exec (withLog oneCallerStep) (oneCallerStart, []) lengthOnly = some (s, []) ∧
      s.Stalled 0 ∧
      ∃ t, exec (withLog oneCallerStep) (s, []) callBehind =
        some (t, [.called 1 (ascii "TestMessage", [7])]) := by
  have hboth : (exec (withLog oneCallerStep) (oneCallerStart, []) lengthOnly).map
        (fun p => decide (p.2 = [] ∧ p.1.running = true ∧ p.1.serving = true ∧
          p.1.ctx.clientConn.socket = 4 ∧ p.1.net.fds 4 = some 0 ∧ p.1.net.hung 0 = false ∧
          (p.1.net.inbox 0).length ≤ 4 ∧
          (exec (withLog oneCallerStep) p callBehind).map
            Prod.snd = some [.called 1 (ascii "TestMessage", [7])])) = some true := by
    decide +kernel
  obtain ⟨⟨s, log⟩, hs, hstate⟩ := Option.map_eq_some_iff.mp hboth
  obtain ⟨rfl, hrunning, hserving, hsocket, hfd, hhung, hinbox, hbehind⟩ := of_decide_eq_true hstate
  obtain ⟨⟨t, log'⟩, ht, rfl⟩ := Option.map_eq_some_iff.mp hbehind
  have hopen : s.ctx.clientConn.socket ≠ 0 := by
    rw [hsocket]
    decide
  have hcurrent : s.net.fds s.ctx.clientConn.socket = some 0 := by
    rw [hsocket]
    exact hfd
  exact ⟨s, hs, ⟨hrunning, hserving, hopen, hcurrent, hhung, hinbox⟩, t, ht⟩

theorem stalled_server_waits_length_only :
    ∃ s, exec (withLog oneCallerStep) (oneCallerStart, []) lengthOnly = some (s, []) ∧
      s.Stalled 0 ∧
      ∃ t, exec (withLog oneCallerStep) (s, []) callBehind =
          some (t, [.called 1 (ascii "TestMessage", [7])]) ∧
        t.Stalled 0 ∧ t.ctx = s.ctx ∧ t.closed = s.closed ∧
        (∀ d, invocations d [(.called 1 (ascii "TestMessage", [7]) : RpcLabel)] =
          invocations d ([] : List RpcLabel)) ∧
        ∀ d, s.net.outbox d = [] → s.closed d = false →
          results d [(.called 1 (ascii "TestMessage", [7]) : RpcLabel)] =
            results d ([] : List RpcLabel) := by
  obtain ⟨s, hs, hstalled, t, ht⟩ := lengthOnly_stalls
  have hother : ∀ e ∈ callBehind, e.client ≠ some 0 := by decide
  have hwire : ∀ wire, .serve wire ∈ callBehind → wire.Whole 0 := by
    intro wire hserve
    simp [callBehind] at hserve
  exact ⟨s, hs, hstalled, t, ht,
    stalled_server_waits 3 .little _ (fun _ => false) oneCaller hstalled hother hwire ht⟩

end Fws
