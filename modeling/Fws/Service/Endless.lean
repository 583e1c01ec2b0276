import Fws.Asn1.Endless
import Fws.Service.EnvelopeBer
import Fws.Service.Stalls

/-!
# Frames on which the server does not return

The body or fault of an envelope is the CHOICE whose end the decoder may turn on.
Such a frame stops the server for everybody, and nothing that a client can do
gets it going again.
-/

namespace Fws
open Base.Digits Base.Cells Base.Tlv Base.Ber Base.Runs Base.Calls

/-! ### The envelopes -/

/- An accepted header of the envelope, and in what it announces the header's part
and a body or fault that does not end. -/
def EnvelopeEndless (bs : Bytes) : Prop :=
  ∃ outer left rest, bs = outer ++ rest ∧ HeaderAccepted 64 outer left ∧
    ∃ header enc choice, leftOf left rest = enc ++ choice ∧
      SequenceBer 2 headerComponents ⟨none⟩ enc header ∧
      ChoiceEndless 6 bodyOrFaultBranches choice

theorem bodyOrFault_returns (br : Branch BodyOrFault) (hbr : br ∈ bodyOrFaultBranches)
    (bs : Bytes) : br.alternative.decode bs ≠ none := by
  have hbody : ∀ m ∈ bodyComponents.map Component.member, ∀ st bs, m.decode st bs ≠ none := by
    intro m hm st bs
    rcases List.mem_cons.mp hm with rfl | hm
    · exact Option.some_ne_none _
    · rw [List.mem_singleton.mp hm]
      exact Option.some_ne_none _
  have hfault : ∀ m ∈ faultComponents.map Component.member, ∀ st bs, m.decode st bs ≠ none := by
    intro m hm st bs
    rcases List.mem_cons.mp hm with rfl | hm
    · exact Option.some_ne_none _
    · rw [List.mem_singleton.mp hm]
      exact Option.some_ne_none _
  rcases List.mem_cons.mp hbr with rfl | hbr
  · intro hnone
    exact sequenceDecodeBer_returns hbody (Option.map_eq_none_iff.mp hnone)
  · rw [List.mem_singleton.mp hbr]
    intro hnone
    exact sequenceDecodeBer_returns hfault (Option.map_eq_none_iff.mp hnone)

theorem header_returns (header : Header) (bs : Bytes) :
    sequenceDecodeBer [2] .implicit (headerComponents.map Component.member) bs header ≠ none := by
  apply sequenceDecodeBer_returns
  intro m hm st bs
  rw [List.mem_singleton.mp hm]
  exact Option.some_ne_none _

/-- Of an envelope's two members it is the second that does not return. -/
theorem stuck_envelope {bs : Bytes} (hbs : bs.length < 2 ^ 32) :
    Stuck envelopeComponents emptyEnvelope bs ↔
      ∃ header enc choice, bs = enc ++ choice ∧ SequenceBer 2 headerComponents ⟨none⟩ enc header ∧
        ChoiceEndless 6 bodyOrFaultBranches choice := by
  have hchoice : ∀ {choice : Bytes} (st : BodyOrFault), choice.length < 2 ^ 32 →
      (((∃ k, berFetchTag choice = .got k 6) ∧
          choiceDecodeBer [] .explicit (bodyOrFaultBranches.map Branch.alternative) choice st =
            none) ↔ ChoiceEndless 6 bodyOrFaultBranches choice) := by
    intro choice st hlen
    exact choice_none bodyOrFaultBranches_found bodyOrFault_returns (by decide) (by norm_num) hlen
      st
  unfold envelopeComponents
  constructor
  · intro h
    cases h with
    | here h => exact absurd (Option.map_eq_none_iff.mp h.2) (header_returns _ bs)
    | @later _ _ _ env enc choice hlang hs =>
      obtain ⟨header, hber, rfl⟩ := hlang
      rw [List.length_append] at hbs
      cases hs with
      | here h =>
        obtain ⟨hfetch, hnone⟩ := h
        exact ⟨header, enc, choice, rfl, hber,
          (hchoice _ (by omega)).mp ⟨hfetch, Option.map_eq_none_iff.mp hnone⟩⟩
      | later _ hs => cases hs
  · intro h
    obtain ⟨header, enc, choice, rfl, hber, hendless⟩ := h
    rw [List.length_append] at hbs
    have hlang : (sequenceComponent 2 [2] headerComponents Envelope.header fun env header =>
        { env with header := header }).lang emptyEnvelope enc ⟨header, .nothing⟩ :=
      ⟨header, hber, rfl⟩
    obtain ⟨hfetch, hnone⟩ := (hchoice .nothing (by omega)).mpr hendless
    exact .later hlang (.here ⟨hfetch, Option.map_eq_none_iff.mpr hnone⟩)

theorem berDecodeEnvelope_none {bs : Bytes} (hbs : bs.length < 2 ^ 32) :
    berDecodeEnvelope bs = none ↔ EnvelopeEndless bs := by
  have hchain : tagChain [64] .plain = [some 64] := rfl
  have hmembers : ∀ f ∈ envelopeComponents, f.member.tag ≠ 0 := by
    intro f hf
    rcases List.mem_cons.mp hf with rfl | hf
    · decide
    · rw [List.mem_singleton.mp hf]
      decide
  have hdecode : berDecodeEnvelope bs = sequenceDecodeBer [64] .plain
      (envelopeComponents.map Component.member) bs emptyEnvelope := rfl
  rw [hdecode, sequence_none envelopeComponents_table hmembers hchain (by decide) (by norm_num) hbs]
  apply exists_congr
  intro outer
  apply exists_congr
  intro left
  apply exists_congr
  intro rest
  apply and_congr_right
  intro hsplit
  apply and_congr_right
  intro _
  have hle := leftOf_length_le left rest
  rw [hsplit, List.length_append] at hbs
  exact stuck_envelope (by omega)

/- The decoder fails to return on these frames and on no others. -/
theorem decoder_turns_exactly (bs : Bytes) (hbs : bs.length < 2 ^ 32) :
    berDecodeEnvelope bs = none ↔ EnvelopeEndless bs :=
  berDecodeEnvelope_none hbs

/- An empty body, with one zero octet and another one where two should end it. -/
def endlessFrame : Bytes :=
  [0x30, 0x80, 0xA0, 0, 0xA1, 0x80, 0xA0, 4, 0x80, 0, 0x81, 0, 0, 1]

theorem decoder_turns_exactly_empty_body :
    endlessFrame.length < 2 ^ 32 ∧
      (berDecodeEnvelope endlessFrame = none ↔ EnvelopeEndless endlessFrame) :=
  ⟨by decide, decoder_turns_exactly endlessFrame (by decide)⟩

/-! ### The server -/

/- The server serves a client that has sent such a frame. -/
structure Rpc.Turning (s : Rpc) (c : ℕ) : Prop where
  running : s.running = true
  serving : s.serving = true
  socket : s.ctx.clientConn.socket ≠ 0
  peer : ∃ server, s.ctx.peer = .server (some server)
  fd : s.net.fds s.ctx.clientConn.socket = some c
  inbox : ∃ payload rest, s.net.inbox c = frame payload ++ rest ∧ payload.length < 2 ^ 31 ∧
    EnvelopeEndless payload

section
variable {listening : ℤ} {order : ByteOrder} {held : Net → ℕ → Byte} {fatal : ℕ × Bytes → Bool}
  {callers : ℕ → Option Caller}
  {s t : Rpc} {c : ℕ}

theorem EnvelopeEndless.pos {payload : Bytes} (h : EnvelopeEndless payload) :
    0 < payload.length := by
  apply List.length_pos_of_ne_nil
  rintro rfl
  have hnone := (berDecodeEnvelope_none (by decide)).mpr h
  have hmore : berDecodeEnvelope [] = some (⟨.rcWmore, 0⟩, emptyEnvelope) := by decide +kernel
  rw [hmore] at hnone
  cases hnone

theorem Rpc.Turning.serve {wire : Wire} (hwire : ∀ net n, wire.handed net c n = some n)
    (h : s.Turning c) : rpcStep listening order held fatal callers s (.serve wire) = none := by
  obtain ⟨-, -, hopen, ⟨server, hpeer⟩, hfd, payload, rest, hinbox, hlt, hendless⟩ := h
  have hlt' : payload.length < 2 ^ 32 := by omega
  have hpos := (cInt_pos_iff hlt').mpr ⟨hendless.pos, hlt⟩
  have hrecv := wire_recv_frame listening order held wire hfd (fun _ n => hwire _ n) hlt' hinbox
  rw [if_pos hpos] at hrecv
  have hdecode := (berDecodeEnvelope_none hlt').mpr hendless
  have hserve := fwsServerServe_received hopen hpeer hrecv
  rw [serveRequest, hdecode] at hserve
  simp only [rpcStep]
  split_ifs
  · rw [hserve]
    rfl
  · rfl

theorem Rpc.Turning.beside (h : s.Turning c) {e : RpcEvent} {out : List RpcLabel}
    (hbeside : s.Beside e t out) : t.Turning c := by
  obtain ⟨hrunning, hserving, hopen, hpeer, hfd, payload, rest, hinbox, hlt, hendless⟩ := h
  obtain ⟨more, hmore, -⟩ := hbeside.inbox c
  refine ⟨hbeside.running.trans hrunning, hbeside.serving.trans hserving, ?_, ?_, ?_, payload,
    rest ++ more, ?_, hlt, hendless⟩
  · rw [hbeside.frozen.ctx]
    exact hopen
  · rw [hbeside.frozen.ctx]
    exact hpeer
  · rw [hbeside.frozen.ctx, hbeside.fds]
    exact hfd
  · rw [hmore, hinbox, List.append_assoc]

end

/- From then on no callback is invoked and no connection closed, and a call returns
only where its response has been sent before, whatever anybody does, the client
itself included. -/
theorem endless_frame_stops (listening : ℤ) (order : ByteOrder) (held : Net → ℕ → Byte)
    (fatal : ℕ × Bytes → Bool) (callers : ℕ → Option Caller) {s t : Rpc} {c : ℕ}
    (hturning : s.Turning c) {es : List RpcEvent}
    (hwire : ∀ wire, .serve wire ∈ es → ∀ net n, wire.handed net c n = some n)
    {log log' : List RpcLabel}
    (hrun : exec (withLog (rpcStep listening order held fatal callers)) (s, log) es =
      some (t, log')) :
    t.Turning c ∧ t.ctx = s.ctx ∧ t.closed = s.closed ∧
      (∀ d, invocations d log' = invocations d log) ∧
      ∀ d, s.net.outbox d = [] → s.closed d = false → results d log' = results d log := by
  obtain ⟨hlast, out, rfl, hfrozen⟩ := Rpc.frozen_run (I := fun s => s.Turning c)
    (fun s wire h he => h.serve (hwire wire he)) (fun s e t out h _ hbeside => h.beside hbeside)
    (fun s h => h.serving) hturning hrun
  exact ⟨hlast, hfrozen.ctx, hfrozen.closed, frozen_log hfrozen log⟩

/- The frame, a caller behind it, and then the client hangs up. -/
def endlessSent : List RpcEvent :=
  [.connect 0, .connect 1, .send 0 (frame endlessFrame), .accept (.ready {3}) (some 4)]

def endlessBehind : List RpcEvent :=
  [.call 1 wholeWire testMessageEntry.funcIdentifier [7], .send 0 [0, 0], .hangup 0]

theorem endlessSent_turns :
    ∃ s, exec (withLog oneCallerStep) (oneCallerStart, []) endlessSent = some (s, []) ∧
      s.Turning 0 ∧
      ∃ t, exec (withLog oneCallerStep) (s, []) endlessBehind =
        some (t, [.called 1 (ascii "TestMessage", [7])]) := by
  have hboth : (exec (withLog oneCallerStep) (oneCallerStart, []) endlessSent).map
        (fun p => decide (p.2 = [] ∧ p.1.running = true ∧ p.1.serving = true ∧
          p.1.ctx.clientConn.socket = 4 ∧ p.1.net.fds 4 = some 0 ∧
          p.1.net.inbox 0 = frame endlessFrame ++ [] ∧
          (exec (withLog oneCallerStep) p endlessBehind).map
            Prod.snd = some [.called 1 (ascii "TestMessage", [7])])) = some true := by
    decide +kernel
  obtain ⟨⟨s, log⟩, hs, hstate⟩ := Option.map_eq_some_iff.mp hboth
  obtain ⟨rfl, hrunning, hserving, hsocket, hfd, hinbox, hbehind⟩ := of_decide_eq_true hstate
  obtain ⟨⟨t, log'⟩, ht, rfl⟩ := Option.map_eq_some_iff.mp hbehind
  have hopen : s.ctx.clientConn.socket ≠ 0 := by
    rw [hsocket]
    decide
  have hcurrent : s.net.fds s.ctx.clientConn.socket = some 0 := by
    rw [hsocket]
    exact hfd
  have hendless : EnvelopeEndless endlessFrame :=
    (berDecodeEnvelope_none (by decide)).mp (by decide +kernel)
  have horderly : ∀ e ∈ endlessSent, e.Orderly oneCaller := by
    simp [endlessSent, RpcEvent.Orderly]
  obtain ⟨ds, phases, -, hinv⟩ := rpc_refines (by decide) testMessage_replies horderly hs hrunning
  obtain ⟨server, conns, hosting⟩ := hinv.hosting
  exact ⟨s, hs, ⟨hrunning, hserving, hopen, ⟨server, hosting.table.peer⟩, hcurrent, endlessFrame,
    [], hinbox, by decide, hendless⟩, t, ht⟩

theorem endless_frame_stops_after_hangup :
    ∃ s, exec (withLog oneCallerStep) (oneCallerStart, []) endlessSent = some (s, []) ∧
      s.Turning 0 ∧
      ∃ t, exec (withLog oneCallerStep) (s, []) endlessBehind =
          some (t, [.called 1 (ascii "TestMessage", [7])]) ∧
        t.Turning 0 ∧ t.ctx = s.ctx ∧ t.closed = s.closed ∧
        (∀ d, invocations d [(.called 1 (ascii "TestMessage", [7]) : RpcLabel)] =
          invocations d ([] : List RpcLabel)) ∧
        ∀ d, s.net.outbox d = [] → s.closed d = false →
          results d [(.called 1 (ascii "TestMessage", [7]) : RpcLabel)] =
            results d ([] : List RpcLabel) := by
  obtain ⟨s, hs, hturning, t, ht⟩ := endlessSent_turns
  have hwire : ∀ wire, .serve wire ∈ endlessBehind → ∀ net n, wire.handed net 0 n = some n := by
    intro wire hserve
    simp [endlessBehind] at hserve
  exact ⟨s, hs, hturning, t, ht,
    endless_frame_stops 3 .little (fun _ _ => 0) (fun _ => false) oneCaller hturning hwire ht⟩

end Fws
