import Fws.Base.Blocks
import Fws.Networking.Wire
import Fws.Service.Call
import Fws.Service.Current

/-!
# The blocks of a call (fws/fws.c, networking/connection.c, networking/message.c)

Serving and calling once more, with the blocks they allocate and free: the
messages with their streams, the buffers, and the envelopes. An envelope is one
block, since it is freed with all that it holds.
-/

namespace Fws
open Base.Digits Base.Cells Base.Runs Base.Accounts Base.Blocks

/-! ### Messages -/

/- A `message_t` with its block, and that of its stream. -/
structure HeapMessage where
  message : Message
  block : ℕ
  stream : Option ℕ

def messageCreateOn (h : Heap) : HeapMessage × Heap :=
  let (block, h) := malloc h
  (⟨messageCreate, block, none⟩, h)

/- The block of a stream that is replaced is not freed. -/
def messageSetStreamOn (m : HeapMessage) (data : Bytes) (h : Heap) : HeapMessage × Heap :=
  let (stream, h) := malloc h
  (⟨messageSetStream m.message data, m.block, some stream⟩, h)

def messageDestroyOn (m : HeapMessage) (h : Heap) : Heap := free m.block (freePointer m.stream h)

variable {κ : Type}

def connectionRecvOn (M : Machine κ) (c : Connection) (k : κ) (h : Heap) :
    Option HeapMessage × κ × Heap :=
  match M.recv k c.socket 4 with
  | (none, k) => (none, k, h)
  | (some got, k) =>
    if 0 < cInt got.length then
      let networkSize := value M.order (fill got 4 (M.held k))
      let bufferSize := ntoh M.order 4 networkSize
      let (buffer, h) := malloc h
      match M.recv k c.socket bufferSize with
      | (none, k) => (none, k, free buffer h)
      | (some got, k) =>
        if 0 < cInt got.length then
          let (message, h) := messageCreateOn h
          let (message, h) :=
            messageSetStreamOn message (fill got bufferSize (M.held k)) (use buffer h)
          (some message, k, free buffer h)
        else (none, k, free buffer h)
    else (none, k, h)

/-! ### The server -/

/- The output of a callback is a block that it allocated. -/
def callbackOn (served : Served) (h : Heap) : Option ℕ × Heap :=
  match served.msgOut with
  | none => (none, h)
  | some _ => (some (malloc h).1, (malloc h).2)

/- Which block is the response's message is told, too. -/
def sendResponseOn (M : Machine κ) (ctx : FwsCtx) (envReq : Envelope) (served : Served)
    (msgOut : Option ℕ) (k : κ) (h : Heap) : Option (Serve κ × ℕ × Heap) :=
  let (messageOut, h) := messageCreateOn h
  if ctx.clientConn.socket ≠ 0 then do
    let response ← encodeResponse envReq served
    let (msgData, h) := malloc (usePointer msgOut h)
    match response with
    -- the message is destroyed only where something was encoded
    | none =>
      some (⟨retErr, served, [], ctx, k⟩, messageOut.block, freePointer msgOut (free msgData h))
    | some stream =>
      let (messageOut, h) := messageSetStreamOn messageOut stream (use msgData h)
      let (rv, k) ← serverSendMsg M messageOut.message ctx.clientConn k
      let h := messageDestroyOn messageOut (usePointer messageOut.stream h)
      some (⟨if rv ≠ 0 then retErr else served.ret, served, [stream], ctx, k⟩, messageOut.block,
        freePointer msgOut (free msgData h))
  else some (⟨retErr, served, [], ctx, k⟩, messageOut.block, h)

def fwsServerServeOn (M : Machine κ) (ctx : FwsCtx) (k : κ) (h : Heap) :
    Option (Serve κ × Option ℕ × Heap) :=
  if ctx.clientConn.socket = 0 then
    some (⟨retErr, ⟨retErr, none, none, none⟩, [], ctx, k⟩, none, h)
  else
    match ctx.peer with
    | .server server => do
      let server ← server
      let (envResp, h) := malloc h
      match connectionRecvOn M ctx.clientConn k h with
      | (none, k, h) => do
        let (server, clientConn, k) ← serverCloseConnection M server ctx.clientConn k
        let ctx := { ctx with peer := .server (some server), clientConn := clientConn }
        let (r, message, h) ←
          sendResponseOn M ctx emptyEnvelope ⟨retErr, some .receiving, none, none⟩ none k h
        some (r, some message, free envResp h)
      | (some messageIn, k, h) => do
        let msgIn ← messageGetStream messageIn.message
        let (envReq, served) ← serveRequest ctx.funcList msgIn
        let (request, h) := malloc (usePointer messageIn.stream h)
        let (msgOut, h) := callbackOn served h
        let h := messageDestroyOn messageIn h
        let (r, message, h) ← sendResponseOn M ctx envReq served msgOut k (use request h)
        some (r, some message, free envResp (free request h))
    | _ => some (⟨retOk, ⟨retOk, none, none, none⟩, [], ctx, k⟩, none, h)

/-! ### The same serves -/

theorem connectionRecvOn_eq (M : Machine κ) (c : Connection) (k : κ) (h : Heap) :
    ((connectionRecvOn M c k h).1.map HeapMessage.message, (connectionRecvOn M c k h).2.1) =
      connectionRecv M c k := by
  unfold connectionRecvOn connectionRecv
  rcases M.recv k c.socket 4 with ⟨_ | got, k₁⟩
  · rfl
  · dsimp only
    by_cases hgot : 0 < cInt got.length
    · rw [if_pos hgot, if_pos hgot]
      rcases M.recv k₁ c.socket (ntoh M.order 4 (value M.order (fill got 4 (M.held k₁)))) with
        ⟨_ | body, k₂⟩
      · rfl
      · dsimp only
        by_cases hbody : 0 < cInt body.length
        · rw [if_pos hbody, if_pos hbody]
          rfl
        · rw [if_neg hbody, if_neg hbody]
          rfl
    · rw [if_neg hgot, if_neg hgot]
      rfl

theorem sendResponseOn_eq (M : Machine κ) (ctx : FwsCtx) (envReq : Envelope) (served : Served)
    (msgOut : Option ℕ) (k : κ) (h : Heap) :
    (sendResponseOn M ctx envReq served msgOut k h).map Prod.fst =
      sendResponse M ctx envReq served k := by
  by_cases hopen : ctx.clientConn.socket ≠ 0
  · rcases henc : encodeResponse envReq served with _ | _ | stream
    · simp only [sendResponseOn, sendResponse, if_pos hopen, henc, Option.bind_eq_bind,
        Option.bind_none, Option.map_none]
    · simp only [sendResponseOn, sendResponse, if_pos hopen, henc, Option.bind_eq_bind,
        Option.bind_some, Option.map_some]
    · obtain ⟨k', hsend⟩ := serverSendMsg_set (M := M) ctx.clientConn stream k
      have hset : (messageSetStreamOn (messageCreateOn h).1 stream
          (use (malloc (usePointer msgOut (messageCreateOn h).2)).1
            (malloc (usePointer msgOut (messageCreateOn h).2)).2)).1.message =
          messageSetStream messageCreate stream := rfl
      simp only [sendResponseOn, sendResponse, if_pos hopen, henc, Option.bind_eq_bind,
        Option.bind_some, hset, hsend, Option.map_some]
  · simp only [sendResponseOn, sendResponse, if_neg hopen, Option.map_some]

theorem fwsServerServeOn_eq (M : Machine κ) (ctx : FwsCtx) (k : κ) (h : Heap) :
    (fwsServerServeOn M ctx k h).map Prod.fst = fwsServerServe M ctx k := by
  unfold fwsServerServeOn fwsServerServe
  by_cases hopen : ctx.clientConn.socket = 0
  · rw [if_pos hopen, if_pos hopen]
    rfl
  · rw [if_neg hopen, if_neg hopen]
    rcases hpeer : ctx.peer with _ | client | _ | server
    · rfl
    · rfl
    · rfl
    · have hctx : (⟨.server (some server), ctx.funcList, ctx.clientConn⟩ : FwsCtx) = ctx := by
        rw [← hpeer]
      simp only [Option.bind_eq_bind, Option.bind_some, serverRecvMsg]
      have hrecv := connectionRecvOn_eq M ctx.clientConn k (malloc h).2
      rcases hon : connectionRecvOn M ctx.clientConn k (malloc h).2 with ⟨_ | messageIn, k₁, h₁⟩
      · rw [hon] at hrecv
        rw [← hrecv]
        simp only [Option.map_none]
        rcases serverCloseConnection M server ctx.clientConn k₁ with _ | ⟨server', conn, k₂⟩
        · rfl
        · simp only [Option.bind_some]
          rw [← sendResponseOn_eq M _ _ _ none k₂ h₁]
          rcases sendResponseOn M _ _ _ none k₂ h₁ with _ | ⟨r, message, h₂⟩
          · rfl
          · rfl
      · rw [hon] at hrecv
        rw [← hrecv]
        simp only [Option.map_some, Option.bind_some, hctx]
        rcases messageGetStream messageIn.message with _ | msgIn
        · rfl
        · simp only [Option.bind_some]
          rcases serveRequest ctx.funcList msgIn with _ | ⟨envReq, served⟩
          · rfl
          · simp only [Option.bind_some]
            generalize (callbackOn served (malloc (usePointer messageIn.stream h₁)).2).1 = msgOut
            generalize use _ _ = h₂
            rw [← sendResponseOn_eq M ctx envReq served msgOut k₁ h₂]
            rcases sendResponseOn M ctx envReq served msgOut k₁ h₂ with _ | ⟨r, message, h₃⟩
            · rfl
            · rfl

/-! ### What a serve leaves allocated -/

/- A message that was received is two blocks; its buffer is gone. -/
inductive RecvOwns (live : List ℕ) : Option HeapMessage × κ × Heap → Prop where
  | failed (k : κ) {h : Heap} (hown : Owns live h) : RecvOwns live (none, k, h)
  | received (message : Message) (block stream : ℕ) (k : κ) {h : Heap}
      (hown : Owns (stream :: block :: live) h) :
      RecvOwns live (some ⟨message, block, some stream⟩, k, h)

section
variable {live : List ℕ} {h : Heap}

theorem connectionRecvOn_owns (M : Machine κ) (c : Connection) (k : κ) (hown : Owns live h) :
    RecvOwns live (connectionRecvOn M c k h) := by
  unfold connectionRecvOn
  rcases M.recv k c.socket 4 with ⟨_ | got, k₁⟩
  · exact .failed k₁ hown
  · dsimp only
    by_cases hgot : 0 < cInt got.length
    · rw [if_pos hgot]
      have hbuffer := hown.allocated
      rcases M.recv k₁ c.socket (ntoh M.order 4 (value M.order (fill got 4 (M.held k₁)))) with
        ⟨_ | body, k₂⟩
      · exact .failed k₂ (hbuffer.freed [])
      · dsimp only
        by_cases hbody : 0 < cInt body.length
        · rw [if_pos hbody]
          have hcreated := hbuffer.allocated
          have hset := (hcreated.used (List.mem_cons_of_mem _ (List.mem_cons_self ..))).allocated
          exact .received _ _ _ k₂ (hset.freed [_, _])
        · rw [if_neg hbody]
          exact .failed k₂ (hbuffer.freed [])
    · rw [if_neg hgot]
      exact .failed k₁ hown

/- The message is lost exactly where it was not sent. -/
def lost (sent : List Bytes) (message : ℕ) : List ℕ := if sent = [] then [message] else []

theorem sendResponseOn_owns {M : Machine κ} {ctx : FwsCtx} {envReq : Envelope} {served : Served}
    {msgOut : Option ℕ} {k : κ} (hown : Owns (msgOut.toList ++ live) h)
    (hout : ctx.clientConn.socket = 0 → msgOut = none) {r : Serve κ} {message : ℕ} {h' : Heap}
    (hr : sendResponseOn M ctx envReq served msgOut k h = some (r, message, h')) :
    r.ctx = ctx ∧ Owns (lost r.sent message ++ live) h' := by
  have hcreated := hown.allocated
  by_cases hopen : ctx.clientConn.socket ≠ 0
  · have hin : msgOut.toList ⊆ (malloc h).1 :: (msgOut.toList ++ live) :=
      fun p hp => List.mem_cons_of_mem _ (List.mem_append_left _ hp)
    have hdata := (hcreated.usedPointer hin).allocated
    rcases henc : encodeResponse envReq served with _ | _ | stream
    · simp only [sendResponseOn, if_pos hopen, henc, Option.bind_eq_bind, Option.bind_none] at hr
      cases hr
    · simp only [sendResponseOn, if_pos hopen, henc, Option.bind_eq_bind, Option.bind_some] at hr
      cases hr
      exact ⟨rfl, (hdata.freed []).freedPointer [_]⟩
    · obtain ⟨k', hsend⟩ := serverSendMsg_set (M := M) ctx.clientConn stream k
      have hset : (messageSetStreamOn (messageCreateOn h).1 stream
          (use (malloc (usePointer msgOut (messageCreateOn h).2)).1
            (malloc (usePointer msgOut (messageCreateOn h).2)).2)).1.message =
          messageSetStream messageCreate stream := rfl
      simp only [sendResponseOn, if_pos hopen, henc, Option.bind_eq_bind, Option.bind_some, hset,
        hsend] at hr
      cases hr
      have hstream := (hdata.used (List.mem_cons_self ..)).allocated
      have hsent := hstream.used (List.mem_cons_self ..)
      have hgone := (hsent.freed []).freed [_]
      exact ⟨rfl, (hgone.freed []).freedPointer []⟩
  · have hzero : ctx.clientConn.socket = 0 := not_not.mp hopen
    obtain rfl := hout hzero
    simp only [sendResponseOn, if_neg hopen] at hr
    cases hr
    exact ⟨rfl, hcreated⟩

theorem callbackOn_owns (served : Served) (hown : Owns live h) :
    Owns ((callbackOn served h).1.toList ++ live) (callbackOn served h).2 := by
  unfold callbackOn
  cases served.msgOut with
  | none => exact hown
  | some out => exact hown.allocated

/-- A serve on a connection frees what it allocated, but for the message of a
response that was not sent. -/
theorem fwsServerServeOn_owns {M : Machine κ} {ctx : FwsCtx} {server : Option Server} {k : κ}
    (hown : Owns live h) (hpeer : ctx.peer = .server server) (hopen : ctx.clientConn.socket ≠ 0)
    {r : Serve κ} {message : Option ℕ} {h' : Heap}
    (hr : fwsServerServeOn M ctx k h = some (r, message, h')) :
    (∃ server', r.ctx.peer = .server server') ∧
      ∃ block, message = some block ∧ Owns (lost r.sent block ++ live) h' := by
  rw [fwsServerServeOn, if_neg hopen, hpeer] at hr
  cases server with
  | none => cases hr
  | some server =>
    simp only [Option.bind_eq_bind, Option.bind_some] at hr
    have hrecv := connectionRecvOn_owns M ctx.clientConn k hown.allocated
    generalize connectionRecvOn M ctx.clientConn k (malloc h).2 = received at hr hrecv
    cases hrecv with
    | failed k₁ hfailed =>
      obtain ⟨⟨server', conn, k₂⟩, hclose, hr⟩ := Option.bind_eq_some_iff.mp hr
      obtain ⟨⟨r', block, h₂⟩, hsend, hr⟩ := Option.bind_eq_some_iff.mp hr
      cases hr
      obtain ⟨hctx, hlost⟩ := sendResponseOn_owns hfailed (fun _ => rfl) hsend
      exact ⟨⟨some server', by rw [hctx]⟩, block, rfl, hlost.freed _⟩
    | received message block stream k₁ hreceived =>
      obtain ⟨msgIn, -, hr⟩ := Option.bind_eq_some_iff.mp hr
      obtain ⟨⟨envReq, served⟩, -, hr⟩ := Option.bind_eq_some_iff.mp hr
      obtain ⟨⟨r', block, h₂⟩, hsend, hr⟩ := Option.bind_eq_some_iff.mp hr
      cases hr
      have hrequest := (hreceived.used (List.mem_cons_self ..)).allocated
      have hcalled := callbackOn_owns served hrequest
      -- the output stays live in front of the request while the message goes
      rw [← List.singleton_append, ← List.append_assoc] at hcalled
      have hdestroyed := (hcalled.freed _).freed _
      rw [List.append_assoc, List.singleton_append] at hdestroyed
      have hused := hdestroyed.used (List.mem_append_right _ (List.mem_cons_self ..))
      obtain ⟨hctx, hlost⟩ := sendResponseOn_owns hused (fun hzero => absurd hzero hopen) hsend
      exact ⟨⟨some server, by rw [hctx, hpeer]⟩, block, rfl, (hlost.freed _).freed _⟩

end

/-! ### Sessions -/

/- `silent` and `lost` are a record only: how many serves on a connection sent
nothing, and the messages created for their responses. -/
structure Ledger (κ : Type) where
  ctx : FwsCtx
  k : κ
  heap : Heap
  silent : ℕ
  lost : List ℕ

def ledgerStep (M : Machine κ) (s : Ledger κ) : SessionEvent → Option (Ledger κ)
  | .accept => do
    let (_, ctx, k) ← fwsServerAccept M s.ctx s.k
    some { s with ctx := ctx, k := k }
  | .serve => do
    let (r, message, heap) ← fwsServerServeOn M s.ctx s.k s.heap
    if s.ctx.clientConn.socket ≠ 0 ∧ r.sent = [] then
      some ⟨r.ctx, r.k, heap, s.silent + 1, message.toList ++ s.lost⟩
    else some ⟨r.ctx, r.k, heap, s.silent, s.lost⟩

/- The context is a server's, and what is lost are the messages of the silent serves. -/
structure LedgerOk (s : Ledger κ) : Prop where
  peer : ∃ server, s.ctx.peer = .server server
  owns : Owns s.lost s.heap
  silent : s.lost.length = s.silent

theorem LedgerOk.step {M : Machine κ} {s t : Ledger κ} (h : LedgerOk s) {e : SessionEvent}
    (hstep : ledgerStep M s e = some t) : LedgerOk t := by
  obtain ⟨server, hpeer⟩ := h.peer
  cases e with
  | accept =>
    obtain ⟨⟨ret, ctx, k⟩, haccept, hstep⟩ := Option.bind_eq_some_iff.mp hstep
    cases hstep
    simp only [fwsServerAccept, hpeer] at haccept
    obtain ⟨listening, -, haccept⟩ := Option.bind_eq_some_iff.mp haccept
    obtain ⟨r, -, haccept⟩ := Option.bind_eq_some_iff.mp haccept
    cases haccept
    exact ⟨⟨_, rfl⟩, h.owns, h.silent⟩
  | serve =>
    obtain ⟨⟨r, message, heap⟩, hserve, hstep⟩ := Option.bind_eq_some_iff.mp hstep
    by_cases hopen : s.ctx.clientConn.socket = 0
    · rw [fwsServerServeOn, if_pos hopen] at hserve
      cases hserve
      dsimp only at hstep
      rw [if_neg fun hsilent => hsilent.1 hopen] at hstep
      cases hstep
      exact ⟨h.peer, h.owns, h.silent⟩
    · obtain ⟨hserver, block, rfl, hlost⟩ := fwsServerServeOn_owns h.owns hpeer hopen hserve
      dsimp only at hstep
      unfold lost at hlost
      by_cases hsent : r.sent = []
      · rw [if_pos ⟨hopen, hsent⟩] at hstep
        rw [if_pos hsent] at hlost
        cases hstep
        refine ⟨hserver, hlost, ?_⟩
        rw [Option.toList_some, List.length_append, List.length_singleton, h.silent, Nat.add_comm]
      · rw [if_neg fun hsilent => hsent hsilent.2] at hstep
        rw [if_neg hsent] at hlost
        cases hstep
        exact ⟨hserver, hlost, h.silent⟩

/-- What a session does, it does with a heap beside it. -/
theorem ledger_session {M : Machine κ} {s : Ledger κ} {handed : Option Connection}
    {e : SessionEvent} {t : Session κ} (hstep : sessionStep M ⟨s.ctx, handed, s.k⟩ e = some t) :
    ∃ t', ledgerStep M s e = some t' ∧ t'.ctx = t.ctx ∧ t'.k = t.k := by
  cases e with
  | accept =>
    obtain ⟨⟨ret, ctx, k⟩, haccept, hstep⟩ := Option.bind_eq_some_iff.mp hstep
    cases hstep
    simp only [ledgerStep, haccept, Option.bind_eq_bind, Option.bind_some, Option.some.injEq,
      exists_eq_left', and_self]
  | serve =>
    obtain ⟨r, hserve, hstep⟩ := Option.bind_eq_some_iff.mp hstep
    cases hstep
    have hsame := fwsServerServeOn_eq M s.ctx s.k s.heap
    rw [hserve] at hsame
    obtain ⟨⟨r', message, heap⟩, hon, rfl⟩ := Option.map_eq_some_iff.mp hsame
    simp only [ledgerStep, hon, Option.bind_eq_bind, Option.bind_some]
    by_cases hsilent : s.ctx.clientConn.socket ≠ 0 ∧ r'.sent = []
    · rw [if_pos hsilent]
      exact ⟨_, rfl, rfl, rfl⟩
    · rw [if_neg hsilent]
      exact ⟨_, rfl, rfl, rfl⟩

/-- In every session no block is used after it was freed or freed twice, and what
is never freed are the messages created for the responses that were not sent. -/
theorem silent_serves_leak (M : Machine κ) (funcs : List FuncEntry) (port backlog : ℤ) {k : κ}
    {ctx : FwsCtx} {k' : κ}
    (hbind : fwsServerBind M (fwsServerSetFuncList fwsInit funcs) port backlog k =
      (retOk, ctx, k')) {es : List SessionEvent} {t : Session κ}
    (hrun : exec (sessionStep M) ⟨ctx, none, k'⟩ es = some t) :
    ∃ s, exec (ledgerStep M) ⟨ctx, k', [], 0, []⟩ es = some s ∧ s.ctx = t.ctx ∧ s.k = t.k ∧
      Proper s.heap ∧ Owns s.lost s.heap ∧ allocations s.heap = frees s.heap + s.silent := by
  obtain ⟨s, hs, hsame⟩ := exec_simulates (f := ledgerStep M)
    (R := fun (s : Ledger κ) (t : Session κ) => s.ctx = t.ctx ∧ s.k = t.k) (by
      intro s t e t' hr hstep
      obtain ⟨hctx, hk⟩ := hr
      obtain ⟨ctx, handed, k⟩ := t
      dsimp only at hctx hk
      subst hctx hk
      obtain ⟨s', hs', hctx', hk'⟩ := ledger_session hstep
      exact ⟨s', hs', hctx', hk'⟩) (s := ⟨ctx, k', [], 0, []⟩) ⟨rfl, rfl⟩ hrun
  have hstart : LedgerOk (⟨ctx, k', [], 0, []⟩ : Ledger κ) := by
    refine ⟨?_, .start, rfl⟩
    unfold fwsServerBind at hbind
    rcases hcreate : serverCreate M port backlog k with ⟨_ | server, k₁⟩
    · rw [hcreate] at hbind
      exact absurd (Prod.mk.inj hbind).1 retOk_ne_retErr
    · rw [hcreate] at hbind
      obtain ⟨-, hctx⟩ := Prod.mk.inj hbind
      obtain ⟨rfl, -⟩ := Prod.mk.inj hctx
      exact ⟨some server, rfl⟩
  have hok : LedgerOk s := exec_invariant (fun _ _ _ h hstep => LedgerOk.step h hstep) hstart hs
  refine ⟨s, hs, hsame.1, hsame.2, hok.owns.balanced.proper, hok.owns, ?_⟩
  rw [← hok.silent]
  exact hok.owns.counted

/- A client that sends one request and hangs up. -/
def oneRequest : Net := { startNet with
  pending := [0]
  inbox := fun _ => requestLine.incoming
  hung := fun _ => true
  selected := .ready {3}
  fresh := some 4 }

/- The request is answered, and the serve that finds the end of the stream is silent. -/
theorem silent_serves_leak_one :
    ∃ s, exec (ledgerStep (wireMachine 3 .little (fun _ _ => 0) wholeWire))
        ⟨boundCtx [testMessageEntry], oneRequest, [], 0, []⟩ [.accept, .serve, .serve] = some s ∧
      s.silent = 1 ∧ frees s.heap = 10 ∧
      Proper s.heap ∧ Owns s.lost s.heap ∧ allocations s.heap = frees s.heap + s.silent := by
  have hsome : (exec (sessionStep (wireMachine 3 .little (fun _ _ => 0) wholeWire))
      ⟨boundCtx [testMessageEntry], none, oneRequest⟩ [.accept, .serve, .serve]).isSome = true := by
    decide +kernel
  have hsilent : (exec (ledgerStep (wireMachine 3 .little (fun _ _ => 0) wholeWire))
      ⟨boundCtx [testMessageEntry], oneRequest, [], 0, []⟩ [.accept, .serve, .serve]).map
        (fun s => (s.silent, frees s.heap)) = some (1, 10) := by decide +kernel
  obtain ⟨t, ht⟩ := Option.isSome_iff_exists.mp hsome
  have hbind : fwsServerBind (wireMachine 3 .little (fun _ _ => 0) wholeWire)
      (fwsServerSetFuncList fwsInit [testMessageEntry]) 80 5 oneRequest =
        (retOk, boundCtx [testMessageEntry], oneRequest) := rfl
  obtain ⟨s, hs, -, -, hproper, hown, hcount⟩ := silent_serves_leak _ _ _ _ hbind ht
  rw [hs] at hsilent
  obtain ⟨hone, hfrees⟩ := Prod.mk.inj (Option.some.inj hsilent)
  exact ⟨s, hs, hone, hfrees, hproper, hown, hcount⟩

/-! ### The client -/

/- The call, the block it hands out, and that of the response. -/
def awaitResponseOn (M : Machine κ) (client : Client) (ret : ℤ) (k : κ) (h : Heap) :
    Option (Called κ × Option ℕ × Option ℕ × Heap) :=
  match connectionRecvOn M client.connection k h with
  | (none, k, h) => some (⟨retErr, none, k⟩, none, none, h)
  | (some messageOut, k, h) => do
    let stream ← messageGetStream messageOut.message
    let (_, envResp) ← berDecodeEnvelope stream
    let (response, h) := malloc (usePointer messageOut.stream h)
    match envResp.bodyOrFault with
    | .body body =>
      let (out, h) := malloc h
      some (⟨ret, some body.data, k⟩, some out, some response,
        messageDestroyOn messageOut (use response h))
    | .fault _ => some (⟨retErr, none, k⟩, none, some response, messageDestroyOn messageOut h)
    | .nothing => some (⟨ret, none, k⟩, none, some response, messageDestroyOn messageOut h)

def fwsClientCallOn (M : Machine κ) (ctx : FwsCtx) (messageType : CString) (inMsg : Bytes) (k : κ)
    (h : Heap) : Option (Called κ × Option ℕ × Heap) :=
  match ctx.peer with
  | .idle | .client none | .server none => some (⟨retErr, none, k⟩, none, h)
  | .server (some _) => some (⟨retOk, none, k⟩, none, h)
  | .client (some client) => do
    let (request, h) := malloc h
    let envReq ← buildRequest messageType inMsg
    let (msgData, h) := malloc h
    let (encoded, data) ← encodeRequest envReq
    let ret := if encoded ≤ 0 then retErr else retOk
    let (messageIn, h) := messageCreateOn h
    let (messageIn, h) := messageSetStreamOn messageIn (data.take encoded) (use msgData h)
    let (rv, k) ← clientSendMsg M client messageIn.message k
    let ret := if rv ≠ 0 then retErr else ret
    let h := free msgData (messageDestroyOn messageIn (usePointer messageIn.stream h))
    let (called, out, response, h) ← awaitResponseOn M client ret k h
    some (called, out, freePointer response (free request h))

theorem awaitResponseOn_eq (M : Machine κ) (client : Client) (ret : ℤ) (k : κ) (h : Heap) :
    (awaitResponseOn M client ret k h).map Prod.fst = awaitResponse M client ret k := by
  unfold awaitResponseOn awaitResponse clientRecvMsg
  have hrecv := connectionRecvOn_eq M client.connection k h
  rcases hon : connectionRecvOn M client.connection k h with ⟨_ | messageOut, k₁, h₁⟩
  · rw [hon] at hrecv
    rw [← hrecv]
    rfl
  · rw [hon] at hrecv
    rw [← hrecv]
    simp only [Option.map_some, Option.bind_eq_bind]
    rcases messageGetStream messageOut.message with _ | stream
    · rfl
    · simp only [Option.bind_some]
      rcases berDecodeEnvelope stream with _ | ⟨rval, envResp⟩
      · rfl
      · simp only [Option.bind_some]
        cases envResp.bodyOrFault with
        | nothing => rfl
        | body body => rfl
        | fault fault => rfl

theorem fwsClientCallOn_eq (M : Machine κ) (ctx : FwsCtx) (messageType : CString) (inMsg : Bytes)
    (k : κ) (h : Heap) :
    (fwsClientCallOn M ctx messageType inMsg k h).map Prod.fst =
      fwsClientCall M ctx messageType inMsg k := by
  unfold fwsClientCallOn fwsClientCall
  rcases ctx.peer with _ | (_ | client) | (_ | server)
  · rfl
  · rfl
  · simp only [Option.bind_eq_bind]
    rcases buildRequest messageType inMsg with _ | envReq
    · rfl
    · simp only [Option.bind_some]
      rcases encodeRequest envReq with _ | ⟨encoded, data⟩
      · rfl
      · simp only [Option.bind_some]
        generalize hset : messageSetStreamOn _ _ _ = messageIn
        have hmessage : messageIn.1.message =
            messageSetStream messageCreate (data.take encoded) := by
          rw [← hset]
          rfl
        rw [hmessage]
        rcases clientSendMsg M client (messageSetStream messageCreate (data.take encoded)) k with
          _ | ⟨rv, k₁⟩
        · rfl
        · simp only [Option.bind_some]
          generalize hret : (if rv ≠ 0 then retErr else _) = ret
          generalize free _ _ = h₁
          rw [← awaitResponseOn_eq M client ret k₁ h₁]
          rcases awaitResponseOn M client ret k₁ h₁ with _ | ⟨called, out, response, h₂⟩
          · rfl
          · rfl
  · rfl
  · rfl

section
variable {live : List ℕ} {h : Heap}

theorem awaitResponseOn_owns {M : Machine κ} {client : Client} {ret : ℤ} {k : κ}
    (hown : Owns live h) {r : Called κ} {out response : Option ℕ} {h' : Heap}
    (hr : awaitResponseOn M client ret k h = some (r, out, response, h')) :
    Owns (out.toList ++ (response.toList ++ live)) h' ∧ out.isSome = r.out.isSome := by
  unfold awaitResponseOn at hr
  have hrecv := connectionRecvOn_owns M client.connection k hown
  generalize connectionRecvOn M client.connection k h = received at hr hrecv
  cases hrecv with
  | failed k₁ hfailed =>
    cases hr
    exact ⟨hfailed, rfl⟩
  | received message block stream k₁ hreceived =>
    obtain ⟨msgIn, -, hr⟩ := Option.bind_eq_some_iff.mp hr
    obtain ⟨⟨rval, envResp⟩, -, hr⟩ := Option.bind_eq_some_iff.mp hr
    have hresponse := (hreceived.used (List.mem_cons_self ..)).allocated
    dsimp only at hr
    cases hbof : envResp.bodyOrFault with
    | nothing =>
      rw [hbof] at hr
      cases hr
      exact ⟨(hresponse.freed [_]).freed [_], rfl⟩
    | body body =>
      rw [hbof] at hr
      cases hr
      have hout := hresponse.allocated.used (List.mem_cons_of_mem _ (List.mem_cons_self ..))
      exact ⟨(hout.freed [_, _]).freed [_, _], rfl⟩
    | fault fault =>
      rw [hbof] at hr
      cases hr
      exact ⟨(hresponse.freed [_]).freed [_], rfl⟩

/-- A call frees what it allocated, but for what it hands out. -/
theorem fwsClientCallOn_owns {M : Machine κ} {ctx : FwsCtx} {messageType : CString} {inMsg : Bytes}
    {k : κ} (hown : Owns live h) {r : Called κ} {out : Option ℕ} {h' : Heap}
    (hr : fwsClientCallOn M ctx messageType inMsg k h = some (r, out, h')) :
    Owns (out.toList ++ live) h' ∧ out.isSome = r.out.isSome := by
  unfold fwsClientCallOn at hr
  rcases hpeer : ctx.peer with _ | (_ | client) | (_ | server)
  · rw [hpeer] at hr
    cases hr
    exact ⟨hown, rfl⟩
  · rw [hpeer] at hr
    cases hr
    exact ⟨hown, rfl⟩
  · rw [hpeer] at hr
    obtain ⟨envReq, -, hr⟩ := Option.bind_eq_some_iff.mp hr
    obtain ⟨⟨encoded, data⟩, -, hr⟩ := Option.bind_eq_some_iff.mp hr
    obtain ⟨⟨rv, k₁⟩, -, hr⟩ := Option.bind_eq_some_iff.mp hr
    obtain ⟨⟨called, out', response, h₁⟩, hawait, hr⟩ := Option.bind_eq_some_iff.mp hr
    cases hr
    have hdata := hown.allocated.allocated
    have hcreated := hdata.allocated
    have hset := (hcreated.used (List.mem_cons_of_mem _ (List.mem_cons_self ..))).allocated
    have hsent := hset.used (List.mem_cons_self ..)
    have hgone := ((hsent.freed []).freed []).freed []
    obtain ⟨howns, hsome⟩ := awaitResponseOn_owns hgone hawait
    rw [← List.append_assoc] at howns
    have hrequest := howns.freed _
    rw [List.append_assoc] at hrequest
    exact ⟨hrequest.freedPointer _, hsome⟩
  · rw [hpeer] at hr
    cases hr
    exact ⟨hown, rfl⟩
  · rw [hpeer] at hr
    cases hr
    exact ⟨hown, rfl⟩

end

/- Calls one after the other, and all that they handed out. -/
def callsStep (M : Machine κ) (ctx : FwsCtx) (s : κ × List Bytes) (e : CString × Bytes) :
    Option (κ × List Bytes) :=
  (fwsClientCall M ctx e.1 e.2 s.1).map fun r => (r.k, s.2 ++ r.out.toList)

structure CallLedger (κ : Type) where
  k : κ
  heap : Heap
  handed : List ℕ

def callsStepOn (M : Machine κ) (ctx : FwsCtx) (s : CallLedger κ) (e : CString × Bytes) :
    Option (CallLedger κ) :=
  (fwsClientCallOn M ctx e.1 e.2 s.k s.heap).map fun (r, out, heap) =>
    ⟨r.k, heap, out.toList ++ s.handed⟩

/- What is live was handed out, a block for each output. -/
structure CallLedgerOk (s : CallLedger κ) (t : κ × List Bytes) : Prop where
  k : s.k = t.1
  owns : Owns s.handed s.heap
  outputs : s.handed.length = t.2.length

theorem toList_length_eq {α β : Type} {o : Option α} {o' : Option β}
    (h : o.isSome = o'.isSome) : o.toList.length = o'.toList.length := by
  cases o with
  | none =>
    cases o' with
    | none => rfl
    | some b => cases h
  | some a =>
    cases o' with
    | none => cases h
    | some b => rfl

theorem callsStepOn_simulates {M : Machine κ} {ctx : FwsCtx} (s : CallLedger κ)
    (t : κ × List Bytes) (e : CString × Bytes) (t' : κ × List Bytes) (h : CallLedgerOk s t)
    (hstep : callsStep M ctx t e = some t') :
    ∃ s', callsStepOn M ctx s e = some s' ∧ CallLedgerOk s' t' := by
  obtain ⟨r, hcall, rfl⟩ := Option.map_eq_some_iff.mp hstep
  have hsame := fwsClientCallOn_eq M ctx e.1 e.2 s.k s.heap
  rw [h.k, hcall] at hsame
  obtain ⟨⟨r', out, heap⟩, hon, rfl⟩ := Option.map_eq_some_iff.mp hsame
  obtain ⟨howns, hsome⟩ := fwsClientCallOn_owns h.owns (h.k ▸ hon)
  refine ⟨⟨r'.k, heap, out.toList ++ s.handed⟩, ?_, rfl, howns, ?_⟩
  · rw [callsStepOn, h.k, hon]
    rfl
  · have hlen := toList_length_eq hsome
    rw [List.length_append, List.length_append, hlen, h.outputs, Nat.add_comm]

/-- In every series of calls no block is used after it was freed or freed twice,
and what is not freed is one block for each output that was handed out. -/
theorem calls_leave_outputs (M : Machine κ) (ctx : FwsCtx) (k : κ)
    {es : List (CString × Bytes)} {k' : κ} {outs : List Bytes}
    (hrun : exec (callsStep M ctx) (k, []) es = some (k', outs)) :
    ∃ s, exec (callsStepOn M ctx) ⟨k, [], []⟩ es = some s ∧ s.k = k' ∧ Proper s.heap ∧
      allocations s.heap = frees s.heap + outs.length := by
  obtain ⟨s, hs, hok⟩ := exec_simulates (f := callsStepOn M ctx) callsStepOn_simulates
    (s := ⟨k, [], []⟩) ⟨rfl, .start, rfl⟩ hrun
  refine ⟨s, hs, hok.k, hok.owns.balanced.proper, ?_⟩
  rw [← hok.outputs]
  exact hok.owns.counted

theorem calls_leave_outputs_one :
    ∃ s, exec (callsStepOn hostMachine calling) ⟨requestLine, [], []⟩
        [(testMessageEntry.funcIdentifier, [7])] = some s ∧ Proper s.heap ∧
      allocations s.heap = frees s.heap + 1 := by
  have hrun : (exec (callsStep hostMachine calling) (requestLine, [])
      [(testMessageEntry.funcIdentifier, [7])]).map Prod.snd = some [[7]] := by decide +kernel
  obtain ⟨⟨k', outs⟩, hs, houts⟩ := Option.map_eq_some_iff.mp hrun
  dsimp only at houts
  subst houts
  obtain ⟨s, hs, -, hproper, hcount⟩ := calls_leave_outputs hostMachine calling requestLine hs
  exact ⟨s, hs, hproper, hcount⟩

end Fws
