import Fws.Service.Call
import Fws.Service.Shutdown

/-!
# The life of a client (networking/client.c, fws/fws.c)

Connecting, calling and shutting down in any order, and what becomes of the
client's memory, of the sockets and of the records that hold the server's address.
-/

namespace Fws
open Base.Digits Base.Runs Base.Accounts

variable {κ : Type}

/- The host of a client; `gethostbyname` answers with the bytes at `h_addr`. A
`client_t` and its `connection_t` come and go together, as one block. -/
structure Dialler (κ : Type) where
  machine : Machine κ
  gethostbyname : κ → Bytes → Option Bytes × κ
  connect : κ → ℤ → ℤ → Bytes → Bool × κ
  mallocClient : κ → ℕ × κ
  readClient : κ → ℕ → κ
  freeClient : κ → ℕ → κ

/- What was taken is not given back where a later call fails. -/
def clientCreate (D : Dialler κ) (address : Bytes) (port : ℤ) (k : κ) : Option (ℕ × Client) × κ :=
  let (block, k) := D.mallocClient k
  match D.gethostbyname k address with
  | (none, k) => (none, k)
  | (some host, k) =>
    match D.machine.socket k with
    | (none, k) => (none, k)
    | (some socket, k) =>
      let (info, k) := D.machine.mallocInfo k
      match D.connect k socket (port % 2 ^ 16) host with
      | (false, k) => (none, k)
      | (true, k) => (some (block, ⟨⟨socket, some info⟩, 1⟩), D.machine.readInfo k info)

def fwsClientConnect (D : Dialler κ) (ctx : FwsCtx) (address : Bytes) (port : ℤ) (k : κ) :
    ℤ × Option ℕ × FwsCtx × κ :=
  let (created, k) := clientCreate D address port k
  (if created.isNone then retErr else retOk, created.map Prod.fst,
    { ctx with peer := .client (created.map Prod.snd) }, k)

/- `block` is what the context's pointer to the client points to. After a destroy
(`freed`) it still does, and a use of it then (`misused`) is undefined. -/
structure Life (κ : Type) where
  ctx : FwsCtx
  block : Option ℕ
  freed : Bool
  misused : Bool
  k : κ

inductive LifeEvent where
  | connect (address : Bytes) (port : ℤ)
  | call (messageType : CString) (inMsg : Bytes)
  | done

/- What a call and a shutdown do first. -/
def Life.touch (D : Dialler κ) (s : Life κ) : Life κ :=
  match s.block with
  | none => s
  | some block => { s with misused := s.freed, k := D.readClient s.k block }

/- A client that was destroyed is freed. -/
def Life.shut (D : Dialler κ) (s : Life κ) (rv : ℤ) (k : κ) : Life κ :=
  match s.block with
  | none => { s with k := k }
  | some block =>
    if rv = retOk then { s with freed := true, k := D.freeClient k block } else { s with k := k }

/- A use of a destroyed client is seen, but nothing can be said about what follows. -/
def lifeStep (D : Dialler κ) (s : Life κ) (e : LifeEvent) : Option (Life κ) :=
  if s.misused = true then none
  else
    match e with
    | .connect address port =>
      let (_, block, ctx, k) := fwsClientConnect D s.ctx address port s.k
      some ⟨ctx, block, false, false, k⟩
    | .call messageType inMsg =>
      let s := s.touch D
      if s.misused = true then some s
      else do
        let r ← fwsClientCall D.machine s.ctx messageType inMsg s.k
        some { s with k := r.k }
    | .done =>
      let s := s.touch D
      if s.misused = true then some s
      else do
        let (rv, k) ← fwsDone D.machine s.ctx s.k
        some (s.shut D rv k)

/- The client that the context still has. -/
def Life.held (s : Life κ) : Option ℕ := if s.freed = true then none else s.block

/-! ### The account of a run -/

inductive Resource where
  | client (p : ℕ)
  | socket (s : ℤ)
  | record (p : ℕ)
  deriving DecidableEq, Repr

abbrev Account := List (Entry Resource)

def allocates : Entry Resource → Bool
  | .opened (.client _) | .opened (.record _) => true
  | _ => false

def allocated (log : Account) : ℕ := log.countP allocates

/- Blocks and records are named by the order of their allocation. -/
def accountedMachine (M : Machine κ) : Machine (κ × Account) where
  order := M.order
  held k := M.held k.1
  recv k s n :=
    let (got, k') := M.recv k.1 s n
    (got, k', .used (.socket s) :: k.2)
  send k s bs :=
    let (count, k') := M.send k.1 s bs
    (count, k', .used (.socket s) :: k.2)
  socket k :=
    match M.socket k.1 with
    | (none, k') => (none, k', k.2)
    | (some s, k') => (some s, k', .opened (.socket s) :: k.2)
  bind k s port :=
    let (ok, k') := M.bind k.1 s port
    (ok, k', k.2)
  listen k s backlog :=
    let (ok, k') := M.listen k.1 s backlog
    (ok, k', k.2)
  select k maxfds fds :=
    let (reported, k') := M.select k.1 maxfds fds
    (reported, k', k.2)
  accept k s :=
    let (clientSocket, k') := M.accept k.1 s
    (clientSocket, k', k.2)
  closesocket k s :=
    match M.closesocket k.1 s with
    | (false, k') => (false, k', .used (.socket s) :: k.2)
    | (true, k') => (true, k', .closed (.socket s) :: k.2)
  mallocInfo k :=
    (allocated k.2, (M.mallocInfo k.1).2, .opened (.record (allocated k.2)) :: k.2)
  freeInfo k p := (M.freeInfo k.1 p, .closed (.record p) :: k.2)
  readInfo k p := (M.readInfo k.1 p, .used (.record p) :: k.2)

def accounted (D : Dialler κ) : Dialler (κ × Account) where
  machine := accountedMachine D.machine
  gethostbyname k address :=
    let (host, k') := D.gethostbyname k.1 address
    (host, k', k.2)
  connect k s port host :=
    let (ok, k') := D.connect k.1 s port host
    (ok, k', k.2)
  mallocClient k :=
    (allocated k.2, (D.mallocClient k.1).2, .opened (.client (allocated k.2)) :: k.2)
  readClient k p := (D.readClient k.1 p, .used (.client p) :: k.2)
  freeClient k p := (D.freeClient k.1 p, .closed (.client p) :: k.2)

/- What the host promises: a new socket is none of the open ones, and only a close
that succeeds takes one away. -/
structure DialLaws (D : Dialler κ) (openFds : κ → Finset ℤ) : Prop where
  socket_opens : ∀ k s k', D.machine.socket k = (some s, k') →
    0 ≤ s ∧ s ∉ openFds k ∧ s ∈ openFds k'
  socket_keeps : ∀ k, openFds k ⊆ openFds (D.machine.socket k).2
  name_keeps : ∀ k address, openFds k ⊆ openFds (D.gethostbyname k address).2
  connect_keeps : ∀ k s port host, openFds k ⊆ openFds (D.connect k s port host).2
  recv_keeps : ∀ k s n, openFds k ⊆ openFds (D.machine.recv k s n).2
  send_keeps : ∀ k s bs, openFds k ⊆ openFds (D.machine.send k s bs).2
  mallocInfo_keeps : ∀ k, openFds k ⊆ openFds (D.machine.mallocInfo k).2
  freeInfo_keeps : ∀ k p, openFds k ⊆ openFds (D.machine.freeInfo k p)
  readInfo_keeps : ∀ k p, openFds k ⊆ openFds (D.machine.readInfo k p)
  close_keeps : ∀ k s, (openFds k).erase s ⊆ openFds (D.machine.closesocket k s).2
  mallocClient_keeps : ∀ k, openFds k ⊆ openFds (D.mallocClient k).2
  readClient_keeps : ∀ k p, openFds k ⊆ openFds (D.readClient k p)
  freeClient_keeps : ∀ k p, openFds k ⊆ openFds (D.freeClient k p)
  close_fails : ∀ k s k', D.machine.closesocket k s = (false, k') → openFds k ⊆ openFds k'

/- The client is not one that was destroyed. -/
def Usable (s : Life κ) : LifeEvent → Prop
  | .connect _ _ => True
  | _ => s.freed = false

/- Nothing gets out of reach, either: every connect succeeds, and none is made over a
client that is still there. -/
def Tidy (D : Dialler κ) (s : Life κ) : LifeEvent → Prop
  | .connect address port => s.held = none ∧ (clientCreate D address port s.k).1 ≠ none
  | _ => s.freed = false

/-! ### What is open -/

/- These are open, and no name of theirs is given again. -/
structure Holding (openFds : κ → Finset ℤ) (live : List Resource) (k : κ × Account) : Prop where
  distinct : live.Nodup
  balanced : Balanced live k.2
  opened : ∀ x, .socket x ∈ live → x ∈ openFds k.1
  named : ∀ p, .client p ∈ live ∨ .record p ∈ live → p < allocated k.2

theorem allocated_cons (e : Entry Resource) (log : Account) :
    allocated (e :: log) = allocated log + if allocates e then 1 else 0 :=
  List.countP_cons

theorem allocated_le (e : Entry Resource) (log : Account) :
    allocated log ≤ allocated (e :: log) := by
  rw [allocated_cons]
  exact Nat.le_add_right _ _

section
variable {D : Dialler κ} {openFds : κ → Finset ℤ} {live pre post : List Resource}
  {k k' : κ × Account} {r : Resource}

theorem nodup_snoc (h : live.Nodup) (hr : r ∉ live) : (live ++ [r]).Nodup := by
  apply List.Nodup.append h (List.nodup_singleton r)
  intro a ha har
  rw [List.mem_singleton.mp har] at ha
  exact hr ha

theorem Holding.moved (h : Holding openFds live k) (hkeeps : openFds k.1 ⊆ openFds k'.1)
    (hlog : k'.2 = k.2) : Holding openFds live k' := by
  refine ⟨h.distinct, ?_, fun x hx => hkeeps (h.opened x hx), ?_⟩
  · rw [hlog]
    exact h.balanced
  · rw [hlog]
    exact h.named

theorem Holding.used (h : Holding openFds live k) (hr : r ∈ live)
    (hkeeps : openFds k.1 ⊆ openFds k'.1) (hlog : k'.2 = .used r :: k.2) :
    Holding openFds live k' := by
  refine ⟨h.distinct, ?_, fun x hx => hkeeps (h.opened x hx), ?_⟩
  · rw [hlog]
    exact h.balanced.used hr
  · intro p hp
    rw [hlog]
    exact lt_of_lt_of_le (h.named p hp) (allocated_le _ _)

theorem Holding.socket (laws : DialLaws D openFds) (h : Holding openFds live k) {s : ℤ}
    (hs : (accounted D).machine.socket k = (some s, k')) :
    Holding openFds (live ++ [.socket s]) k' ∧ 0 ≤ s := by
  have hcall : (accounted D).machine.socket k = match D.machine.socket k.1 with
    | (none, k') => (none, k', k.2)
    | (some s, k') => (some s, k', .opened (.socket s) :: k.2) := rfl
  have hkeeps := laws.socket_keeps k.1
  rw [hcall] at hs
  rcases hm : D.machine.socket k.1 with ⟨_ | s', k₁⟩
  · rw [hm] at hs
    cases hs
  · rw [hm] at hs hkeeps
    cases hs
    obtain ⟨hpos, hnew, hopen⟩ := laws.socket_opens k.1 s k₁ hm
    have hout : .socket s ∉ live := fun hmem => hnew (h.opened s hmem)
    refine ⟨⟨nodup_snoc h.distinct hout, h.balanced.opened hout, ?_, ?_⟩, hpos⟩
    · intro x hx
      rcases List.mem_append.mp hx with hx | hx
      · exact hkeeps (h.opened x hx)
      · cases List.mem_singleton.mp hx
        exact hopen
    · intro p hp
      simp only [List.mem_append, List.mem_singleton, reduceCtorEq, or_false] at hp
      exact lt_of_lt_of_le (h.named p hp) (allocated_le _ _)

theorem Holding.no_socket (laws : DialLaws D openFds) (h : Holding openFds live k)
    (hs : (accounted D).machine.socket k = (none, k')) : Holding openFds live k' := by
  have hcall : (accounted D).machine.socket k = match D.machine.socket k.1 with
    | (none, k') => (none, k', k.2)
    | (some s, k') => (some s, k', .opened (.socket s) :: k.2) := rfl
  have hkeeps := laws.socket_keeps k.1
  rw [hcall] at hs
  rcases hm : D.machine.socket k.1 with ⟨_ | s, k₁⟩
  · rw [hm] at hs hkeeps
    cases hs
    exact h.moved hkeeps rfl
  · rw [hm] at hs
    cases hs

/-- What is allocated gets the next name. -/
theorem Holding.block (h : Holding openFds live k)
    (hr : r = .client (allocated k.2) ∨ r = .record (allocated k.2))
    (hkeeps : openFds k.1 ⊆ openFds k'.1) (hlog : k'.2 = .opened r :: k.2) :
    Holding openFds (live ++ [r]) k' := by
  have hnew : r ∉ live := by
    intro hmem
    rcases hr with rfl | rfl
    · exact lt_irrefl _ (h.named _ (Or.inl hmem))
    · exact lt_irrefl _ (h.named _ (Or.inr hmem))
  refine ⟨nodup_snoc h.distinct hnew, ?_, ?_, ?_⟩
  · rw [hlog]
    exact h.balanced.opened hnew
  · intro x hx
    rcases List.mem_append.mp hx with hx | hx
    · exact hkeeps (h.opened x hx)
    · rcases hr with rfl | rfl
      · cases List.mem_singleton.mp hx
      · cases List.mem_singleton.mp hx
  · intro p hp
    rw [hlog, allocated_cons]
    rcases hr with rfl | rfl
    · simp only [List.mem_append, List.mem_singleton, Resource.client.injEq, reduceCtorEq,
        or_false] at hp
      simp only [allocates, if_true]
      rcases hp with (hp | rfl) | hp
      · exact Nat.lt_succ_of_lt (h.named p (Or.inl hp))
      · exact Nat.lt_succ_self _
      · exact Nat.lt_succ_of_lt (h.named p (Or.inr hp))
    · simp only [List.mem_append, List.mem_singleton, Resource.record.injEq, reduceCtorEq,
        or_false] at hp
      simp only [allocates, if_true]
      rcases hp with hp | hp | rfl
      · exact Nat.lt_succ_of_lt (h.named p (Or.inl hp))
      · exact Nat.lt_succ_of_lt (h.named p (Or.inr hp))
      · exact Nat.lt_succ_self _

theorem Holding.closed (h : Holding openFds (pre ++ r :: post) k) (hlog : k'.2 = .closed r :: k.2)
    (hkeeps : ∀ x, .socket x ≠ r → x ∈ openFds k.1 → x ∈ openFds k'.1) :
    Holding openFds (pre ++ post) k' := by
  obtain ⟨hout, hrest⟩ := List.nodup_middle.mp h.distinct |> List.nodup_cons.mp
  have hmem : ∀ a ∈ pre ++ post, a ∈ pre ++ r :: post := by
    intro a ha
    rcases List.mem_append.mp ha with ha | ha
    · exact List.mem_append_left _ ha
    · exact List.mem_append_right _ (List.mem_cons_of_mem _ ha)
  refine ⟨hrest, ?_, ?_, ?_⟩
  · rw [hlog]
    exact h.balanced.closed
  · intro x hx
    have hne : .socket x ≠ r := by
      intro he
      rw [he] at hx
      exact hout hx
    exact hkeeps x hne (h.opened x (hmem _ hx))
  · intro p hp
    rw [hlog]
    exact lt_of_lt_of_le (h.named p (hp.imp (hmem _) (hmem _))) (allocated_le _ _)

/-! ### Connecting -/

/- What `client_create` comes to: something was taken and is out of reach, or all of
it is the client's. -/
inductive Dialled (openFds : κ → Finset ℤ) (live : List Resource) :
    Option (ℕ × Client) × (κ × Account) → Prop where
  | failed (left : List Resource) (k' : κ × Account) (hleft : left ≠ [])
      (h : Holding openFds (live ++ left) k') : Dialled openFds live (none, k')
  | connected (block : ℕ) (socket : ℤ) (info : ℕ) (k' : κ × Account) (hpos : 0 ≤ socket)
      (h : Holding openFds (live ++ [.client block, .socket socket, .record info]) k') :
      Dialled openFds live (some (block, ⟨⟨socket, some info⟩, 1⟩), k')

theorem clientCreate_dialled (laws : DialLaws D openFds) (h : Holding openFds live k)
    (address : Bytes) (port : ℤ) :
    Dialled openFds live (clientCreate (accounted D) address port k) := by
  unfold clientCreate
  rcases hblock : (accounted D).mallocClient k with ⟨block, k₁⟩
  have hclient : Holding openFds (live ++ [.client block]) k₁ := by
    cases hblock
    exact h.block (Or.inl rfl) (laws.mallocClient_keeps k.1) rfl
  dsimp only
  rcases hhost : (accounted D).gethostbyname k₁ address with ⟨host, k₂⟩
  have hk₂ : ((D.gethostbyname k₁.1 address).2, k₁.2) = k₂ := congrArg Prod.snd hhost
  have hnamed : Holding openFds (live ++ [.client block]) k₂ :=
    hclient.moved (hk₂ ▸ laws.name_keeps k₁.1 address) (hk₂ ▸ rfl)
  cases host with
  | none => exact .failed [.client block] k₂ (List.cons_ne_nil _ _) hnamed
  | some host =>
    dsimp only
    rcases hsocket : (accounted D).machine.socket k₂ with ⟨_ | socket, k₃⟩
    · exact .failed [.client block] k₃ (List.cons_ne_nil _ _) (hnamed.no_socket laws hsocket)
    · obtain ⟨hopened, hpos⟩ := hnamed.socket laws hsocket
      dsimp only
      rcases hinfo : (accounted D).machine.mallocInfo k₃ with ⟨info, k₄⟩
      have hrecord : Holding openFds
          (live ++ [.client block] ++ [.socket socket] ++ [.record info]) k₄ := by
        cases hinfo
        exact hopened.block (Or.inr rfl) (laws.mallocInfo_keeps k₃.1) rfl
      rcases hconnect : (accounted D).connect k₄ socket (port % 2 ^ 16) host with ⟨ok, k₅⟩
      have hk₅ : ((D.connect k₄.1 socket (port % 2 ^ 16) host).2, k₄.2) = k₅ :=
        congrArg Prod.snd hconnect
      have hall : live ++ [.client block] ++ [.socket socket] ++ [.record info] =
          live ++ [.client block, .socket socket, .record info] := by
        simp only [List.append_assoc, List.cons_append, List.nil_append]
      rw [hall] at hrecord
      have hdialled : Holding openFds (live ++ [.client block, .socket socket, .record info]) k₅ :=
        hrecord.moved (hk₅ ▸ laws.connect_keeps k₄.1 socket _ host) (hk₅ ▸ rfl)
      simp only [hinfo, hconnect]
      cases ok with
      | false => exact .failed _ k₅ (List.cons_ne_nil _ _) hdialled
      | true =>
        refine .connected block socket info _ hpos (hdialled.used ?_ (laws.readInfo_keeps k₅.1 info)
          rfl)
        exact List.mem_append_right _ (List.mem_cons_of_mem _ (List.mem_cons_of_mem _
          (List.mem_singleton_self _)))

end

/-! ### Calling and shutting down -/

section
variable {M : Machine κ} {ctx : FwsCtx} {messageType : CString} {inMsg : Bytes} {k k' : κ}

/-- What receiving and sending on the client's socket keep, a call keeps. -/
theorem fwsClientCall_lift {client : Option Client} (hpeer : ctx.peer = .client client)
    {R : κ → Prop}
    (hrecv : ∀ c, client = some c → ∀ k n, R k → R (M.recv k c.connection.socket n).2)
    (hsend : ∀ c, client = some c → ∀ k bs, R k → R (M.send k c.connection.socket bs).2)
    (hk : R k) {r : Called κ} (h : fwsClientCall M ctx messageType inMsg k = some r) : R r.k := by
  cases client with
  | none =>
    simp only [fwsClientCall, hpeer, Option.some.injEq] at h
    rw [← h]
    exact hk
  | some c =>
    simp only [fwsClientCall, hpeer] at h
    obtain ⟨envReq, -, h⟩ := Option.bind_eq_some_iff.mp h
    obtain ⟨⟨encoded, msgData⟩, -, h⟩ := Option.bind_eq_some_iff.mp h
    obtain ⟨⟨rv, k₁⟩, hsent, h⟩ := Option.bind_eq_some_iff.mp h
    have hk₁ : R k₁ := by
      obtain ⟨⟨rv', k₂⟩, hsent, he⟩ := Option.bind_eq_some_iff.mp hsent
      cases he
      exact connectionSend_lift (hsend c rfl) hk hsent
    have hk₂ : R (connectionRecv M c.connection k₁).2 :=
      connectionRecv_lift (hrecv c rfl k₁ 4 hk₁) (hrecv c rfl)
    dsimp only at h
    unfold awaitResponse clientRecvMsg at h
    rcases hreceived : connectionRecv M c.connection k₁ with ⟨_ | messageOut, k₂⟩
    · rw [hreceived] at h hk₂
      cases h
      exact hk₂
    · rw [hreceived] at h hk₂
      obtain ⟨stream, -, h⟩ := Option.bind_eq_some_iff.mp h
      obtain ⟨⟨rval, envResp⟩, -, h⟩ := Option.bind_eq_some_iff.mp h
      dsimp only at h hk₂
      split at h
      · cases h
        exact hk₂
      · cases h
        exact hk₂
      · cases h
        exact hk₂

end

section
variable {D : Dialler κ} {openFds : κ → Finset ℤ} {live : List Resource} {k k' : κ × Account}
  {client : Client} {p : ℕ}

/-- Shutting down releases the socket and the record, or neither where the close fails. -/
theorem clientDestroy_holding (laws : DialLaws D openFds)
    (h : Holding openFds (live ++ [.socket client.connection.socket, .record p]) k)
    (hinfo : client.connection.info = some p) (hpos : 0 ≤ client.connection.socket)
    {rv : ℤ} (hdestroy : clientDestroy (accounted D).machine client k = some (rv, k')) :
    (rv = 0 ∧ Holding openFds live k') ∨ (rv = -1 ∧
      Holding openFds (live ++ [.socket client.connection.socket, .record p]) k') := by
  have hvalid : client.connection.socket ≠ invalidSocket := by
    unfold invalidSocket
    omega
  have hread : Holding openFds (live ++ [.socket client.connection.socket, .record p])
      ((accounted D).machine.readInfo k p) := by
    apply h.used _ (laws.readInfo_keeps k.1 p) rfl
    exact List.mem_append_right _ (List.mem_cons_of_mem _ (List.mem_singleton_self _))
  simp only [clientDestroy, if_pos hvalid, hinfo, Option.bind_eq_bind, Option.bind_some,
    connectionDestroy] at hdestroy
  generalize (accounted D).machine.readInfo k p = k₁ at hread hdestroy
  have hcall : (accounted D).machine.closesocket k₁ client.connection.socket =
      match D.machine.closesocket k₁.1 client.connection.socket with
      | (false, k') => (false, k', .used (.socket client.connection.socket) :: k₁.2)
      | (true, k') => (true, k', .closed (.socket client.connection.socket) :: k₁.2) := rfl
  have hkeeps := laws.close_keeps k₁.1 client.connection.socket
  rcases hclose : D.machine.closesocket k₁.1 client.connection.socket with ⟨_ | _, k₂⟩
  · rw [hclose] at hcall
    simp only [hcall, Option.some.injEq, Prod.mk.injEq] at hdestroy
    obtain ⟨rfl, rfl⟩ := hdestroy
    refine Or.inr ⟨rfl, hread.used ?_ (laws.close_fails k₁.1 _ k₂ hclose) rfl⟩
    exact List.mem_append_right _ (List.mem_cons_self ..)
  · rw [hclose] at hcall hkeeps
    simp only [hcall, Option.some.injEq, Prod.mk.injEq] at hdestroy
    obtain ⟨rfl, rfl⟩ := hdestroy
    have hclosed : Holding openFds (live ++ [.record p])
        (k₂, .closed (.socket client.connection.socket) :: k₁.2) := by
      refine hread.closed rfl ?_
      intro x hne hx
      apply hkeeps
      rw [Finset.mem_erase]
      exact ⟨fun he => hne (congrArg Resource.socket he), hx⟩
    have hfreed : Holding openFds (live ++ []) ((accounted D).machine.freeInfo
        (k₂, .closed (.socket client.connection.socket) :: k₁.2) p) := by
      refine hclosed.closed rfl ?_
      intro x hne hx
      exact laws.freeInfo_keeps k₂ p hx
    rw [List.append_nil] at hfreed
    exact Or.inl ⟨rfl, hfreed⟩

end

/-! ### A whole life -/

/- What the context's pointer points to. -/
inductive Pointed (s : Life κ) : List Resource → Prop where
  | nothing (hblock : s.block = none) (hfreed : s.freed = false)
      (hpeer : s.ctx.peer = .idle ∨ s.ctx.peer = .client none) : Pointed s []
  | client (block p : ℕ) (client : Client) (hblock : s.block = some block)
      (hfreed : s.freed = false) (hpeer : s.ctx.peer = .client (some client))
      (hinfo : client.connection.info = some p) (hpos : 0 ≤ client.connection.socket) :
      Pointed s [.client block, .socket client.connection.socket, .record p]
  | destroyed (block : ℕ) (hblock : s.block = some block) (hfreed : s.freed = true)
      (hpeer : ∃ client, s.ctx.peer = .client client) : Pointed s []

theorem Pointed.unique {s : Life κ} {own own' : List Resource} (h : Pointed s own)
    (h' : Pointed s own') : own = own' := by
  cases h with
  | nothing hblock hfreed hpeer =>
    cases h' with
    | nothing hblock' hfreed' hpeer' => rfl
    | client block' p' client' hblock' => cases hblock.symm.trans hblock'
    | destroyed block' hblock' => cases hblock.symm.trans hblock'
  | client block p client hblock hfreed hpeer hinfo hpos =>
    cases h' with
    | nothing hblock' => cases hblock.symm.trans hblock'
    | client block' p' client' hblock' hfreed' hpeer' hinfo' hpos' =>
      obtain rfl := Option.some.inj (hblock.symm.trans hblock')
      cases hpeer.symm.trans hpeer'
      obtain rfl := Option.some.inj (hinfo.symm.trans hinfo')
      rfl
    | destroyed block' hblock' hfreed' => cases hfreed.symm.trans hfreed'
  | destroyed block hblock hfreed hpeer =>
    cases h' with
    | nothing hblock' hfreed' => cases hfreed.symm.trans hfreed'
    | client block' p' client' hblock' hfreed' => cases hfreed.symm.trans hfreed'
    | destroyed block' hblock' hfreed' hpeer' => rfl

/- All that is open: what is out of reach, and what the client has. Of a client that
was destroyed nothing is open. -/
structure LifeOk (openFds : κ → Finset ℤ) (s : Life (κ × Account)) (lost own : List Resource) :
    Prop where
  usable : s.misused = false
  pointed : Pointed s own
  holding : Holding openFds (lost ++ own) s.k
  gone : ∀ block, s.freed = true → s.block = some block →
    openings (.client block) s.k.2 ≠ 0 ∧ .client block ∉ lost

theorem Pointed.held_iff {s : Life κ} {own : List Resource} (h : Pointed s own) :
    s.held = none ↔ own = [] := by
  unfold Life.held
  cases h with
  | nothing hblock hfreed hpeer => simp only [hfreed, hblock, Bool.false_eq_true, if_false]
  | client block p client hblock hfreed hpeer hinfo hpos =>
    simp only [hfreed, hblock, Bool.false_eq_true, if_false, reduceCtorEq, List.cons_ne_nil]
  | destroyed block hblock hfreed hpeer => simp only [hfreed, if_true]

section
variable {D : Dialler κ} {openFds : κ → Finset ℤ} {lost own : List Resource}
  {s t : Life (κ × Account)}

theorem LifeOk.connect (laws : DialLaws D openFds) (h : LifeOk openFds s lost own)
    {address : Bytes} {port : ℤ}
    (hstep : lifeStep (accounted D) s (.connect address port) = some t) :
    ∃ lost' own', LifeOk openFds t lost' own' ∧
      (lost' = [] ↔ lost = [] ∧ Tidy (accounted D) s (.connect address port)) := by
  have hdialled := clientCreate_dialled laws h.holding address port
  simp only [lifeStep, h.usable, Bool.false_eq_true, if_false, fwsClientConnect,
    Option.some.injEq] at hstep
  rcases hcreate : clientCreate (accounted D) address port s.k with ⟨created, k'⟩
  rw [hcreate] at hdialled hstep
  subst hstep
  simp only [Tidy, hcreate, h.pointed.held_iff]
  cases hdialled with
  | failed left k' hleft hk' =>
    refine ⟨lost ++ own ++ left, [], ⟨rfl, .nothing rfl rfl (Or.inr rfl), ?_, ?_⟩, ?_⟩
    · rw [List.append_nil]
      exact hk'
    · intro block hfreed
      cases hfreed
    · apply iff_of_false
      · intro hnil
        exact hleft (List.append_eq_nil_iff.mp hnil).2
      · intro htidy
        exact htidy.2.2 rfl
  | connected block socket info k' hpos hk' =>
    refine ⟨lost ++ own, _, ⟨rfl, .client block info ⟨⟨socket, some info⟩, 1⟩ rfl rfl rfl rfl hpos,
      hk', ?_⟩, ?_⟩
    · intro block hfreed
      cases hfreed
    · rw [List.append_eq_nil_iff]
      exact and_congr_right fun _ => (and_iff_left (Option.some_ne_none _)).symm

theorem touch_none (D : Dialler κ) {s : Life κ} (hblock : s.block = none) : s.touch D = s := by
  rw [Life.touch, hblock]

theorem touch_some (D : Dialler κ) {s : Life κ} {block : ℕ} (hblock : s.block = some block) :
    s.touch D = { s with misused := s.freed, k := D.readClient s.k block } := by
  rw [Life.touch, hblock]

theorem LifeOk.touch (laws : DialLaws D openFds) (h : LifeOk openFds s lost own)
    (hfreed : s.freed = false) :
    LifeOk openFds (s.touch (accounted D)) lost own ∧ (s.touch (accounted D)).freed = false := by
  rcases h.pointed with ⟨hblock, -, hpeer⟩ | ⟨block, p, client, hblock, -, hpeer, hinfo, hpos⟩ |
    ⟨block, hblock, hdestroyed, hpeer⟩
  · rw [touch_none _ hblock]
    exact ⟨h, hfreed⟩
  · rw [touch_some _ hblock]
    refine ⟨⟨hfreed, .client block p client hblock hfreed hpeer hinfo hpos, ?_, ?_⟩, hfreed⟩
    · refine h.holding.used ?_ (laws.readClient_keeps s.k.1 block) rfl
      exact List.mem_append_right _ (List.mem_cons_self ..)
    · intro block' hdestroyed
      exact absurd (hfreed.symm.trans hdestroyed) Bool.false_ne_true
  · exact absurd (hfreed.symm.trans hdestroyed) Bool.false_ne_true

/-- A use of the destroyed client is none of what is open. -/
theorem LifeOk.misuse (h : LifeOk openFds s lost own) (hfreed : s.freed = true) :
    (s.touch (accounted D)).misused = true ∧ ¬ Proper (s.touch (accounted D)).k.2 := by
  rcases h.pointed with ⟨-, hopen, -⟩ | ⟨block, p, client, -, hopen, -, -, -⟩ |
    ⟨block, hblock, -, -⟩
  · exact absurd (hopen.symm.trans hfreed) Bool.false_ne_true
  · exact absurd (hopen.symm.trans hfreed) Bool.false_ne_true
  · obtain ⟨hopened, hlost⟩ := h.gone block hfreed hblock
    have hbalanced := h.holding.balanced
    rw [List.append_nil] at hbalanced
    rw [touch_some _ hblock]
    exact ⟨hfreed, hbalanced.not_used hlost hopened⟩

theorem LifeOk.call (laws : DialLaws D openFds) (h : LifeOk openFds s lost own)
    (hfreed : s.freed = false) {messageType : CString} {inMsg : Bytes} {r : Called (κ × Account)}
    (hcall : fwsClientCall (accounted D).machine s.ctx messageType inMsg s.k = some r) :
    LifeOk openFds { s with k := r.k } lost own := by
  have hgone : ∀ block, s.freed = true → s.block = some block →
      openings (.client block) r.k.2 ≠ 0 ∧ .client block ∉ lost :=
    fun _ hdestroyed _ => absurd (hfreed.symm.trans hdestroyed) Bool.false_ne_true
  rcases h.pointed with ⟨hblock, -, hpeer⟩ | ⟨block, p, client, hblock, -, hpeer, hinfo, hpos⟩ |
    ⟨block, hblock, hdestroyed, hpeer⟩
  · have hk : s.k = r.k := by
      rcases hpeer with hpeer | hpeer
      · simp only [fwsClientCall, hpeer, Option.some.injEq] at hcall
        rw [← hcall]
      · simp only [fwsClientCall, hpeer, Option.some.injEq] at hcall
        rw [← hcall]
    rw [← hk]
    exact h
  · have hmem : ∀ c, some client = some c → .socket c.connection.socket ∈
        lost ++ [.client block, .socket client.connection.socket, .record p] := by
      intro c hc
      cases hc
      exact List.mem_append_right _ (List.mem_cons_of_mem _ (List.mem_cons_self ..))
    refine ⟨h.usable, .client block p client hblock hfreed hpeer hinfo hpos, ?_, hgone⟩
    exact fwsClientCall_lift hpeer
      (fun c hc k n hk => hk.used (hmem c hc) (laws.recv_keeps k.1 _ n) rfl)
      (fun c hc k bs hk => hk.used (hmem c hc) (laws.send_keeps k.1 _ bs) rfl) h.holding hcall
  · exact absurd (hfreed.symm.trans hdestroyed) Bool.false_ne_true

theorem shut_none (D : Dialler κ) {s : Life κ} (hblock : s.block = none) (rv : ℤ) (k : κ) :
    s.shut D rv k = { s with k := k } := by
  rw [Life.shut, hblock]

theorem shut_some (D : Dialler κ) {s : Life κ} {block : ℕ} (hblock : s.block = some block)
    (rv : ℤ) (k : κ) : s.shut D rv k =
      if rv = retOk then { s with freed := true, k := D.freeClient k block }
      else { s with k := k } := by
  rw [Life.shut, hblock]

theorem LifeOk.done (laws : DialLaws D openFds) (h : LifeOk openFds s lost own)
    (hfreed : s.freed = false) {rv : ℤ} {k : κ × Account}
    (hdone : fwsDone (accounted D).machine s.ctx s.k = some (rv, k)) :
    ∃ own', LifeOk openFds (s.shut (accounted D) rv k) lost own' := by
  have hgone : ∀ k : κ × Account, ∀ block, s.freed = true → s.block = some block →
      openings (.client block) k.2 ≠ 0 ∧ .client block ∉ lost :=
    fun _ _ hdestroyed _ => absurd (hfreed.symm.trans hdestroyed) Bool.false_ne_true
  rcases h.pointed with ⟨hblock, -, hpeer⟩ | ⟨block, p, client, hblock, -, hpeer, hinfo, hpos⟩ |
    ⟨block, hblock, hdestroyed, hpeer⟩
  · have hk : s.k = k := by
      rcases hpeer with hpeer | hpeer
      · simp only [fwsDone, hpeer, Option.some.injEq, Prod.mk.injEq] at hdone
        exact hdone.2
      · simp only [fwsDone, hpeer, Option.some.injEq, Prod.mk.injEq] at hdone
        exact hdone.2
    rw [shut_none _ hblock, ← hk]
    exact ⟨_, h⟩
  · rw [shut_some _ hblock]
    have hholding := h.holding
    rw [List.append_cons] at hholding
    simp only [fwsDone, hpeer] at hdone
    obtain ⟨⟨rv', k'⟩, hdestroy, he⟩ := Option.bind_eq_some_iff.mp hdone
    cases he
    rcases clientDestroy_holding laws hholding hinfo hpos hdestroy with ⟨rfl, hreleased⟩ |
      ⟨rfl, hkept⟩
    · have hmem : .client block ∈ lost ++ [.client block] :=
        List.mem_append_right _ (List.mem_singleton_self _)
      have hopened := hreleased.balanced.open_lt hmem
      have hout : .client block ∉ lost := by
        have hnodup := hreleased.distinct
        rw [List.nodup_append_comm, List.singleton_append, List.nodup_cons] at hnodup
        exact hnodup.1
      have hfree : Holding openFds (lost ++ []) ((accounted D).freeClient k' block) := by
        refine hreleased.closed rfl ?_
        intro x _ hx
        exact laws.freeClient_keeps k'.1 block hx
      refine ⟨[], h.usable, .destroyed block hblock rfl ⟨_, hpeer⟩, hfree, ?_⟩
      intro block' _ hblock'
      obtain rfl : block = block' := Option.some.inj (hblock.symm.trans hblock')
      refine ⟨?_, hout⟩
      show openings (.client block) (.closed (.client block) :: k'.2) ≠ 0
      rw [openings_closed]
      omega
    · have herr : ¬ (if (-1 : ℤ) ≠ 0 then retErr else retOk) = retOk := by decide
      rw [if_neg herr]
      rw [← List.append_cons] at hkept
      exact ⟨_, h.usable, .client block p client hblock hfreed hpeer hinfo hpos, hkept, hgone k'⟩
  · exact absurd (hfreed.symm.trans hdestroyed) Bool.false_ne_true

/- What a step comes to: it leaves everything in order, or uses a destroyed client. -/
theorem LifeOk.step (laws : DialLaws D openFds) (h : LifeOk openFds s lost own) {e : LifeEvent}
    (hstep : lifeStep (accounted D) s e = some t) :
    (Usable s e ∧ ∃ lost' own', LifeOk openFds t lost' own' ∧
        (lost' = [] ↔ lost = [] ∧ Tidy (accounted D) s e)) ∨
      (¬ Usable s e ∧ ¬ Tidy (accounted D) s e ∧ t.misused = true ∧ ¬ Proper t.k.2) := by
  have hfreed : s.freed = true ∨ s.freed = false := Bool.eq_false_or_eq_true s.freed
  cases e with
  | connect address port => exact Or.inl ⟨trivial, h.connect laws hstep⟩
  | call messageType inMsg =>
    rcases hfreed with hfreed | hfreed
    · obtain ⟨hmisused, himproper⟩ := h.misuse (D := D) hfreed
      simp only [lifeStep, h.usable, hmisused, Bool.false_eq_true, if_false, if_true,
        Option.some.injEq] at hstep
      subst hstep
      have hnot : ¬ s.freed = false := fun hf => Bool.false_ne_true (hf.symm.trans hfreed)
      exact Or.inr ⟨hnot, hnot, hmisused, himproper⟩
    · obtain ⟨htouch, htouched⟩ := h.touch laws hfreed
      have hgoes : ¬ (s.touch (accounted D)).misused = true := by
        rw [htouch.usable]
        exact Bool.false_ne_true
      simp only [lifeStep, h.usable, Bool.false_eq_true, if_false, if_neg hgoes] at hstep
      obtain ⟨r, hr, he⟩ := Option.bind_eq_some_iff.mp hstep
      cases he
      exact Or.inl ⟨hfreed, lost, own, htouch.call laws htouched hr, (and_iff_left hfreed).symm⟩
  | done =>
    rcases hfreed with hfreed | hfreed
    · obtain ⟨hmisused, himproper⟩ := h.misuse (D := D) hfreed
      simp only [lifeStep, h.usable, hmisused, Bool.false_eq_true, if_false, if_true,
        Option.some.injEq] at hstep
      subst hstep
      have hnot : ¬ s.freed = false := fun hf => Bool.false_ne_true (hf.symm.trans hfreed)
      exact Or.inr ⟨hnot, hnot, hmisused, himproper⟩
    · obtain ⟨htouch, htouched⟩ := h.touch laws hfreed
      have hgoes : ¬ (s.touch (accounted D)).misused = true := by
        rw [htouch.usable]
        exact Bool.false_ne_true
      simp only [lifeStep, h.usable, Bool.false_eq_true, if_false, if_neg hgoes] at hstep
      obtain ⟨⟨rv, k⟩, hdone, he⟩ := Option.bind_eq_some_iff.mp hstep
      cases he
      obtain ⟨own', hshut⟩ := htouch.done laws htouched hdone
      exact Or.inl ⟨hfreed, lost, own', hshut, (and_iff_left hfreed).symm⟩

/- Until a destroyed client is used everything is in order, and from then on nothing is. -/
def LifeInv (openFds : κ → Finset ℤ) (s : Life (κ × Account)) : Prop :=
  (∃ lost own, LifeOk openFds s lost own) ∨ (s.misused = true ∧ ¬ Proper s.k.2)

theorem lifeStep_usable {D : Dialler κ} {s t : Life κ} {e : LifeEvent}
    (hstep : lifeStep D s e = some t) : s.misused = false := by
  by_contra hmisused
  rw [Bool.not_eq_false] at hmisused
  simp only [lifeStep, hmisused, if_true] at hstep
  cases hstep

theorem LifeInv.ok (h : LifeInv openFds s) {e : LifeEvent}
    (hstep : lifeStep (accounted D) s e = some t) : ∃ lost own, LifeOk openFds s lost own := by
  apply h.resolve_right
  intro hmisused
  exact Bool.false_ne_true ((lifeStep_usable hstep).symm.trans hmisused.1)

theorem lifeStep_inv (laws : DialLaws D openFds) (s : Life (κ × Account)) (e : LifeEvent)
    (t : Life (κ × Account)) (h : LifeInv openFds s)
    (hstep : lifeStep (accounted D) s e = some t) : LifeInv openFds t := by
  obtain ⟨lost, own, hok⟩ := h.ok hstep
  rcases hok.step laws hstep with ⟨-, lost', own', hok', -⟩ | ⟨-, -, hmisused⟩
  · exact Or.inl ⟨lost', own', hok'⟩
  · exact Or.inr hmisused

theorem LifeInv.proper_iff (h : LifeInv openFds s) : Proper s.k.2 ↔ s.misused = false := by
  rcases h with ⟨lost, own, hok⟩ | ⟨hmisused, himproper⟩
  · exact iff_of_true hok.holding.balanced.proper hok.usable
  · refine iff_of_false himproper ?_
    intro husable
    exact Bool.false_ne_true (husable.symm.trans hmisused)

/- Nothing is out of reach. -/
def AllReached (openFds : κ → Finset ℤ) (s : Life (κ × Account)) : Prop :=
  ∃ own, LifeOk openFds s [] own

theorem LifeOk.reached_iff (h : LifeOk openFds s lost own) : AllReached openFds s ↔ lost = [] := by
  constructor
  · intro hreached
    obtain ⟨own', hok⟩ := hreached
    apply List.eq_nil_iff_forall_not_mem.mpr
    intro r hr
    have hcount := List.count_pos_iff.mpr hr
    have hall := h.holding.balanced.balance r
    have hown := hok.holding.balanced.balance r
    obtain rfl := h.pointed.unique hok.pointed
    rw [List.count_append] at hall
    rw [List.nil_append] at hown
    omega
  · intro hlost
    rw [hlost] at h
    exact ⟨own, h⟩

end

/- No socket, record or block of a client is used or released after its release
exactly where no client was called or shut down after its shutdown. All of them are
released, too, exactly where besides the client was shut down, none was connected over
another, and every connect succeeded. -/
theorem client_releases_iff {D : Dialler κ} {openFds : κ → Finset ℤ} (laws : DialLaws D openFds)
    {k : κ} {es : List LifeEvent} {s : Life (κ × Account)}
    (hrun : exec (lifeStep (accounted D)) ⟨fwsInit, none, false, false, k, []⟩ es = some s) :
    (Proper s.k.2 ↔
      Along (lifeStep (accounted D)) Usable ⟨fwsInit, none, false, false, k, []⟩ es) ∧
    (Proper s.k.2 ∧ AllClosed s.k.2 ↔
      Along (lifeStep (accounted D)) (Tidy (accounted D))
        ⟨fwsInit, none, false, false, k, []⟩ es ∧ s.held = none) := by
  have hstart : LifeOk openFds (⟨fwsInit, none, false, false, k, []⟩ : Life (κ × Account))
      [] [] := by
    refine ⟨rfl, .nothing rfl rfl (Or.inl rfl), ⟨List.nodup_nil, Balanced.start, ?_, ?_⟩, ?_⟩
    · intro x hx
      cases hx
    · intro p hp
      rcases hp with hp | hp <;> cases hp
    · intro block hfreed
      cases hfreed
  have hinv : LifeInv openFds s := exec_invariant (lifeStep_inv laws) (Or.inl ⟨[], [], hstart⟩) hrun
  constructor
  · rw [hinv.proper_iff]
    refine (along_iff_last (I := LifeInv openFds)
      (J := fun s : Life (κ × Account) => s.misused = false) ?_ ?_ (Or.inl ⟨[], [], hstart⟩) rfl
      hrun).symm
    · intro s e t hs ht
      exact ⟨lifeStep_inv laws s e t hs ht, fun _ => lifeStep_usable ht⟩
    · intro s e t hs _ ht
      obtain ⟨lost, own, hok⟩ := LifeInv.ok hs ht
      rcases hok.step laws ht with ⟨husable, lost', own', hok', -⟩ | ⟨hnot, -, hmisused, -⟩
      · exact iff_of_true husable hok'.usable
      · refine iff_of_false hnot ?_
        intro hmis
        exact Bool.false_ne_true (hmis.symm.trans hmisused)
  · have halong := exec_iff_along (J := AllReached openFds) (P := Tidy (accounted D))
      (lifeStep_inv laws) ?_ (Or.inl ⟨[], [], hstart⟩) hrun
    · rw [and_iff_right (hstart.reached_iff.mpr rfl)] at halong
      rw [← halong]
      rcases hinv with ⟨lost, own, hok⟩ | ⟨hmisused, himproper⟩
      · have hbalanced := hok.holding.balanced
        rw [and_iff_right hbalanced.proper, hbalanced.allClosed_iff, List.append_eq_nil_iff,
          hok.reached_iff, hok.pointed.held_iff]
      · apply iff_of_false
        · exact fun h => himproper h.1
        · intro h
          obtain ⟨⟨own, hok⟩, -⟩ := h
          exact Bool.false_ne_true (hok.usable.symm.trans hmisused)
    · intro s e t hs ht
      obtain ⟨lost, own, hok⟩ := LifeInv.ok hs ht
      rcases hok.step laws ht with ⟨-, lost', own', hok', hiff⟩ | ⟨-, hnot, hmisused, -⟩
      · rw [hok'.reached_iff, hok.reached_iff, hiff]
      · apply iff_of_false
        · intro hreached
          obtain ⟨own', hok'⟩ := hreached
          exact Bool.false_ne_true (hok'.usable.symm.trans hmisused)
        · exact fun h => hnot h.2

/- A host with one descriptor, and a server that listens. -/
def smallDialler : Dialler (Finset ℤ) where
  machine := { inertMachine (Finset ℤ) .little fun _ _ => 0 with
    socket := fun fds => if 3 ∈ fds then (none, fds) else (some 3, insert 3 fds)
    closesocket := fun fds s => (true, fds.erase s) }
  gethostbyname fds _ := (some [127, 0, 0, 1], fds)
  connect fds _ _ _ := (true, fds)
  mallocClient fds := (0, fds)
  readClient fds _ := fds
  freeClient fds _ := fds

theorem smallDialler_laws : DialLaws smallDialler id where
  socket_opens := by
    intro fds s fds' h
    by_cases hopen : (3 : ℤ) ∈ fds
    · have hnone : smallDialler.machine.socket fds = (none, fds) := if_pos hopen
      rw [hnone] at h
      cases h
    · have hsome : smallDialler.machine.socket fds = (some 3, insert 3 fds) :=
        if_neg hopen
      rw [hsome] at h
      cases h
      exact ⟨by norm_num, hopen, Finset.mem_insert_self ..⟩
  socket_keeps := by
    intro fds
    by_cases hopen : (3 : ℤ) ∈ fds
    · have hnone : smallDialler.machine.socket fds = (none, fds) := if_pos hopen
      rw [hnone]
    · have hsome : smallDialler.machine.socket fds = (some 3, insert 3 fds) :=
        if_neg hopen
      rw [hsome]
      exact Finset.subset_insert ..
  name_keeps _ _ := subset_rfl
  connect_keeps _ _ _ _ := subset_rfl
  recv_keeps _ _ _ := subset_rfl
  send_keeps _ _ _ := subset_rfl
  mallocInfo_keeps _ := subset_rfl
  freeInfo_keeps _ _ := subset_rfl
  readInfo_keeps _ _ := subset_rfl
  close_keeps _ _ := subset_rfl
  mallocClient_keeps _ := subset_rfl
  readClient_keeps _ _ := subset_rfl
  freeClient_keeps _ _ := subset_rfl
  close_fails := by
    intro fds s fds' h
    cases h

/- A second connection after the first was shut down, and then one shutdown too many. -/
def twoConnections : List LifeEvent :=
  [.connect [] 4242, .call testMessageEntry.funcIdentifier [7], .done, .connect [] 4242, .done,
    .done]

theorem client_releases_iff_two_connections :
    ∃ s, exec (lifeStep (accounted smallDialler)) ⟨fwsInit, none, false, false, ∅, []⟩
        twoConnections = some s ∧
      (Proper s.k.2 ↔ Along (lifeStep (accounted smallDialler)) Usable
        ⟨fwsInit, none, false, false, ∅, []⟩ twoConnections) ∧
      (Proper s.k.2 ∧ AllClosed s.k.2 ↔
        Along (lifeStep (accounted smallDialler)) (Tidy (accounted smallDialler))
          ⟨fwsInit, none, false, false, ∅, []⟩ twoConnections ∧ s.held = none) := by
  have hsome : (exec (lifeStep (accounted smallDialler)) ⟨fwsInit, none, false, false, ∅, []⟩
      twoConnections).isSome = true := by decide +kernel
  obtain ⟨s, hs⟩ := Option.isSome_iff_exists.mp hsome
  exact ⟨s, hs, client_releases_iff smallDialler_laws hs⟩

end Fws
