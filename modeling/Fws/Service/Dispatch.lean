import Fws.Base.Search
import Fws.Service.Envelope
import Mathlib.Data.List.GetD

/-!
# Requests and callbacks (fws/fws.c)

What `fws_server_serve` does between the message it has received and the
response it builds.
-/

namespace Fws
open Base.Digits Base.Tlv Base.Search

/-! ### The function table -/

/- A `char*`: the memory from there on, with the terminator of its string. -/
structure CString where
  memory : ℕ → Byte
  strlen : ℕ
  terminated : memory strlen = 0
  before : ∀ i < strlen, memory i ≠ 0

def CString.read (s : CString) (n : ℕ) : Bytes := (List.range n).map s.memory

def CString.text (s : CString) : Bytes := s.read s.strlen

/- `msg_out_data` with its `msg_out_size` bytes, where it is not `NULL`. -/
structure CallbackResult where
  ret : ℤ
  msgOut : Option Bytes
  deriving DecidableEq, Repr

structure FuncEntry where
  funcIdentifier : CString
  funcCallback : Bytes → CallbackResult

/- `memcmp(buf, s, size) == 0` for all the bytes of the buffer. -/
def memcmpEqual (buf : Bytes) (s : CString) : Bool := decide (buf = s.read buf.length)

/- The loop counter is an `int`, and so is the count it runs up to. -/
def funcLoop (type : Bytes) (count : ℤ) : ℕ → List FuncEntry → Option (ℕ × FuncEntry)
  | _, [] => none
  | i, entry :: entries =>
    if i < count then
      if memcmpEqual type entry.funcIdentifier then some (i, entry)
      else funcLoop type count (i + 1) entries
    else none

def funcIndex (funcs : List FuncEntry) (type : Bytes) : Option (ℕ × FuncEntry) :=
  funcLoop type (cInt funcs.length) 0 funcs

/-! ### Serving -/

inductive ErrCode where
  | receiving
  | decoding
  | serving
  | notFound
  | noBody
  deriving DecidableEq, Repr

def ascii (s : String) : Bytes := s.toList.map fun c => UInt8.ofNat c.toNat

def ErrCode.text : ErrCode → Bytes
  | .receiving => ascii "Error when receiving message"
  | .decoding => ascii "Error during BER decoding"
  | .serving => ascii "Error during serving request"
  | .notFound => ascii "Serve function has not been found"
  | .noBody => ascii "No body tag in incoming message"

def retOk : ℤ := 0

def retErr : ℤ := -1

/- The callback that was called, by its index, with the bytes it was handed. -/
structure Served where
  ret : ℤ
  errCode : Option ErrCode
  called : Option (ℕ × Bytes)
  msgOut : Option Bytes
  deriving DecidableEq, Repr

def serveEnvelope (funcs : List FuncEntry) (envReq : Envelope) : Served :=
  match envReq.bodyOrFault with
  | .body body =>
    match funcIndex funcs body.type with
    | some (i, entry) =>
      let r := entry.funcCallback body.data
      if r.ret ≠ 0 then ⟨retErr, some .serving, some (i, body.data), r.msgOut⟩
      else ⟨retOk, none, some (i, body.data), r.msgOut⟩
    | none => ⟨retErr, some .notFound, none, none⟩
  | _ => ⟨retErr, some .noBody, none, none⟩

/- `none` where the decoder never returns. -/
def serveRequest (funcs : List FuncEntry) (msgIn : Bytes) : Option (Envelope × Served) := do
  let (r, envReq) ← berDecodeEnvelope msgIn
  if r.consumed ≤ 0 then some (envReq, ⟨retErr, some .decoding, none, none⟩)
  else some (envReq, serveEnvelope funcs envReq)

theorem serveEnvelope_noBody {funcs : List FuncEntry} {env : Envelope}
    (h : ∀ body, env.bodyOrFault ≠ .body body) :
    serveEnvelope funcs env = ⟨retErr, some .noBody, none, none⟩ := by
  unfold serveEnvelope
  split
  · rename_i body hbody
    exact absurd hbody (h body)
  · rfl

theorem serveEnvelope_notFound {funcs : List FuncEntry} {env : Envelope} {body : Body}
    (hbody : env.bodyOrFault = .body body) (hfound : funcIndex funcs body.type = none) :
    serveEnvelope funcs env = ⟨retErr, some .notFound, none, none⟩ := by
  simp only [serveEnvelope, hbody, hfound]

theorem serveEnvelope_found {funcs : List FuncEntry} {env : Envelope} {body : Body} {i : ℕ}
    {entry : FuncEntry} (hbody : env.bodyOrFault = .body body)
    (hfound : funcIndex funcs body.type = some (i, entry)) {ret : ℤ} {msgOut : Option Bytes}
    (hcall : entry.funcCallback body.data = ⟨ret, msgOut⟩) :
    serveEnvelope funcs env =
      if ret ≠ 0 then ⟨retErr, some .serving, some (i, body.data), msgOut⟩
      else ⟨retOk, none, some (i, body.data), msgOut⟩ := by
  simp only [serveEnvelope, hbody, hfound, hcall]

/-- A request fails before any callback, or it has a body and reaches one. -/
theorem serveEnvelope_cases (funcs : List FuncEntry) (env : Envelope) :
    (∃ e, e ≠ .decoding ∧ serveEnvelope funcs env = ⟨retErr, some e, none, none⟩) ∨
      ∃ body i entry, env.bodyOrFault = .body body ∧
        funcIndex funcs body.type = some (i, entry) := by
  by_cases hbody : ∃ body, env.bodyOrFault = .body body
  · obtain ⟨body, hbody⟩ := hbody
    rcases hfound : funcIndex funcs body.type with _ | ⟨i, entry⟩
    · exact Or.inl ⟨.notFound, by decide, serveEnvelope_notFound hbody hfound⟩
    · exact Or.inr ⟨body, i, entry, hbody, hfound⟩
  · have hno : ∀ body, env.bodyOrFault ≠ .body body := fun body h => hbody ⟨body, h⟩
    exact Or.inl ⟨.noBody, by decide, serveEnvelope_noBody hno⟩

/-- A served request was decoded; then it was refused at once, or served. -/
theorem serveRequest_some {funcs : List FuncEntry} {msgIn : Bytes} {env : Envelope}
    {served : Served} (h : serveRequest funcs msgIn = some (env, served)) :
    (∃ r, berDecodeEnvelope msgIn = some (r, env)) ∧
      (served = ⟨retErr, some .decoding, none, none⟩ ∨ served = serveEnvelope funcs env) := by
  obtain ⟨⟨r, env'⟩, hdec, h⟩ := Option.bind_eq_some_iff.mp h
  dsimp only at h
  by_cases hzero : r.consumed ≤ 0
  · rw [if_pos hzero] at h
    cases h
    exact ⟨⟨r, hdec⟩, Or.inl rfl⟩
  · rw [if_neg hzero] at h
    cases h
    exact ⟨⟨r, hdec⟩, Or.inr rfl⟩

theorem ErrCode.text_length (e : ErrCode) : e.text.length < 256 := by
  cases e <;> decide

/-! ### The lookup -/

section
variable {funcs : List FuncEntry} {type : Bytes}

theorem CString.read_length (s : CString) (n : ℕ) : (s.read n).length = n := by
  simp only [CString.read, List.length_map, List.length_range]

/-- A string agrees with its own text. -/
theorem memcmpEqual_text (s : CString) : memcmpEqual s.text s = true := by
  simp only [memcmpEqual, CString.text, CString.read_length, decide_true]

theorem take_getElem? {α : Type} {xs : List α} {n i : ℕ} {x : α} (h : (xs.take n)[i]? = some x) :
    i < n ∧ xs[i]? = some x := by
  rw [List.getElem?_take] at h
  by_cases hi : i < n
  · rw [if_pos hi] at h
    exact ⟨hi, h⟩
  · rw [if_neg hi] at h
    cases h

/- The entries that the loop can reach. -/
def scanned (funcs : List FuncEntry) : ℕ := (cInt funcs.length).toNat

theorem funcLoop_eq (count : ℤ) (i : ℕ) (entries : List FuncEntry) :
    funcLoop type count i entries =
      firstMatch (fun entry => memcmpEqual type entry.funcIdentifier) i
        (entries.take (count - i).toNat) := by
  induction entries generalizing i with
  | nil => rw [List.take_nil, funcLoop, firstMatch]
  | cons entry entries ih =>
    rw [funcLoop]
    by_cases hi : (i : ℤ) < count
    · have hstep : (count - i).toNat = (count - ((i + 1 : ℕ) : ℤ)).toNat + 1 := by omega
      rw [if_pos hi, ih (i + 1), hstep, List.take_succ_cons, firstMatch]
    · have hzero : (count - i).toNat = 0 := by omega
      rw [if_neg hi, hzero, List.take_zero, firstMatch]

theorem funcIndex_eq :
    funcIndex funcs type =
      firstMatch (fun entry => memcmpEqual type entry.funcIdentifier) 0
        (funcs.take (scanned funcs)) := by
  rw [funcIndex, funcLoop_eq, scanned, Nat.cast_zero, sub_zero]

theorem funcIndex_some {i : ℕ} {entry : FuncEntry} (h : funcIndex funcs type = some (i, entry)) :
    i < scanned funcs ∧ funcs[i]? = some entry ∧
      memcmpEqual type entry.funcIdentifier = true ∧
      ∀ j < i, ∀ e, funcs[j]? = some e → memcmpEqual type e.funcIdentifier = false := by
  rw [funcIndex_eq] at h
  obtain ⟨-, hx, ht, hpre⟩ := firstMatch_some h
  rw [Nat.sub_zero] at hx hpre
  obtain ⟨hi, hx⟩ := take_getElem? hx
  refine ⟨hi, hx, ht, ?_⟩
  intro j hj e he
  apply hpre j hj e
  rw [List.getElem?_take, if_pos (by omega), he]

theorem funcIndex_none (h : funcIndex funcs type = none) :
    ∀ i < scanned funcs, ∀ e, funcs[i]? = some e → memcmpEqual type e.funcIdentifier = false := by
  rw [funcIndex_eq] at h
  intro i hi e he
  apply firstMatch_none h
  apply List.mem_of_getElem? (i := i)
  rw [List.getElem?_take, if_pos hi, he]

/-! ### Exact dispatch -/

/-- Entry `i` is the first whose identifier is the type. -/
def ExactAt (funcs : List FuncEntry) (type : Bytes) (i : ℕ) : Prop :=
  (∃ e, funcs[i]? = some e ∧ type = e.funcIdentifier.text) ∧
    ∀ j < i, ∀ e, funcs[j]? = some e → type ≠ e.funcIdentifier.text

/-- The callback of entry `i` is called exactly for the first entry that equals
the type, and no callback where there is none. -/
def DispatchExact (funcs : List FuncEntry) (type : Bytes) (served : Served) : Prop :=
  (∀ i, (∃ data, served.called = some (i, data)) ↔ ExactAt funcs type i) ∧
    ((∀ e : FuncEntry, e ∈ funcs → type ≠ e.funcIdentifier.text) →
      served.called = none ∧ served.errCode = some .notFound)

/-- Every entry in reach that agrees with the type on the bytes of the type
equals it or stands behind one that does; and where an entry equals the type,
one in reach does. -/
structure Unambiguous (funcs : List FuncEntry) (type : Bytes) : Prop where
  agreeing : ∀ i : ℕ, i < scanned funcs → ∀ e : FuncEntry, funcs[i]? = some e →
    memcmpEqual type e.funcIdentifier = true → type ≠ e.funcIdentifier.text →
    ∃ j < i, ∃ e' : FuncEntry, funcs[j]? = some e' ∧ type = e'.funcIdentifier.text
  reached : ∀ i : ℕ, ∀ e : FuncEntry, funcs[i]? = some e → type = e.funcIdentifier.text →
    ∃ j < scanned funcs, ∃ e' : FuncEntry, funcs[j]? = some e' ∧ type = e'.funcIdentifier.text

theorem ExactAt.unique {i j : ℕ} (hi : ExactAt funcs type i) (hj : ExactAt funcs type j) :
    i = j := by
  obtain ⟨⟨e, he, hte⟩, hlt⟩ := hi
  obtain ⟨⟨e', he', hte'⟩, hlt'⟩ := hj
  rcases lt_trichotomy i j with h | h | h
  · exact absurd hte (hlt' i h e he)
  · exact h
  · exact absurd hte' (hlt j h e' he')

theorem exists_exactAt {i : ℕ} {e : FuncEntry} (he : funcs[i]? = some e)
    (ht : type = e.funcIdentifier.text) : ∃ j ≤ i, ExactAt funcs type j := by
  induction i using Nat.strong_induction_on generalizing e with
  | _ i ih =>
    by_cases hearlier : ∃ j < i, ∃ e', funcs[j]? = some e' ∧ type = e'.funcIdentifier.text
    · obtain ⟨j, hj, e', he', ht'⟩ := hearlier
      obtain ⟨m, hm, hexact⟩ := ih j hj he' ht'
      exact ⟨m, by omega, hexact⟩
    · refine ⟨i, Nat.le_refl i, ⟨e, he, ht⟩, ?_⟩
      intro j hj e' he' ht'
      exact hearlier ⟨j, hj, e', he', ht'⟩

/-- The lookup stops at the first equal entry, and nowhere else, exactly on
tables that are not ambiguous for the type. -/
theorem funcIndex_exact_iff :
    (∀ i, (∃ e, funcIndex funcs type = some (i, e)) ↔ ExactAt funcs type i) ↔
      Unambiguous funcs type := by
  constructor
  · intro h
    constructor
    · intro i hi e he hagree hne
      rcases hfound : funcIndex funcs type with _ | ⟨m, e'⟩
      · have hnot := funcIndex_none hfound i hi e he
        rw [hagree] at hnot
        cases hnot
      · obtain ⟨-, he', -, hpre⟩ := funcIndex_some hfound
        obtain ⟨⟨e'', he'', ht''⟩, -⟩ := (h m).mp ⟨e', hfound⟩
        refine ⟨m, ?_, e'', he'', ht''⟩
        rcases lt_trichotomy m i with hlt | heq | hgt
        · exact hlt
        · rw [heq, he] at he''
          cases he''
          exact absurd ht'' hne
        · have hnot := hpre i hgt e he
          rw [hagree] at hnot
          cases hnot
    · intro i e he ht
      obtain ⟨j, -, hexact⟩ := exists_exactAt he ht
      obtain ⟨e', hfound⟩ := (h j).mpr hexact
      exact ⟨j, (funcIndex_some hfound).1, hexact.1⟩
  · intro h i
    rcases hfound : funcIndex funcs type with _ | ⟨m, e⟩
    · constructor
      · intro hfound
        obtain ⟨e, he⟩ := hfound
        cases he
      · intro hreached
        obtain ⟨⟨e, he, ht⟩, -⟩ := hreached
        obtain ⟨j, hj, e', he', ht'⟩ := h.reached i e he ht
        have hnot := funcIndex_none hfound j hj e' he'
        rw [ht', memcmpEqual_text] at hnot
        cases hnot
    · obtain ⟨hm, he, hagree, hpre⟩ := funcIndex_some hfound
      have hexact : ExactAt funcs type m := by
        have hearlier : ∀ j < m, ∀ e', funcs[j]? = some e' → type ≠ e'.funcIdentifier.text := by
          intro j hj e' he' ht'
          have hnot := hpre j hj e' he'
          rw [ht', memcmpEqual_text] at hnot
          cases hnot
        refine ⟨⟨e, he, ?_⟩, hearlier⟩
        by_contra hne
        obtain ⟨j, hj, e', he', ht'⟩ := h.agreeing m hm e he hagree hne
        exact hearlier j hj e' he' ht'
      constructor
      · intro hfound
        obtain ⟨e', he'⟩ := hfound
        cases he'
        exact hexact
      · intro hi
        have hmi := hexact.unique hi
        exact ⟨e, by rw [hmi]⟩

/-- What a decoded body leads to: the callback that the lookup found, or the
fault that it found none. -/
theorem serveEnvelope_called (funcs : List FuncEntry) {env : Envelope} {body : Body}
    (hbody : env.bodyOrFault = .body body) :
    (∀ i, (∃ data, (serveEnvelope funcs env).called = some (i, data)) ↔
        ∃ e, funcIndex funcs body.type = some (i, e)) ∧
      ((serveEnvelope funcs env).called = none →
        (serveEnvelope funcs env).errCode = some .notFound) := by
  rcases hfound : funcIndex funcs body.type with _ | ⟨m, e⟩
  · rw [serveEnvelope_notFound hbody hfound]
    simp
  · rw [serveEnvelope_found hbody hfound rfl]
    by_cases hret : (e.funcCallback body.data).ret = 0
    · simp [hret]
    · simp [hret]

theorem serveEnvelope_errCode (funcs : List FuncEntry) (env : Envelope) :
    (serveEnvelope funcs env).errCode ≠ some .decoding := by
  rcases serveEnvelope_cases funcs env with ⟨e, hne, he⟩ | ⟨body, i, entry, hbody, hfound⟩
  · rw [he]
    exact fun h => hne (Option.some.inj h)
  · rw [serveEnvelope_found hbody hfound rfl]
    split
    · intro h
      cases h
    · intro h
      cases h

end

/-- The lookup compares only the bytes of the type. -/
theorem dispatch_exact_iff (funcs : List FuncEntry) {msgIn : Bytes} {r : DecRval} {env : Envelope}
    {body : Body} (hdec : berDecodeEnvelope msgIn = some (r, env)) (hok : r.code = .rcOk)
    (hbody : env.bodyOrFault = .body body) :
    (∃ served, serveRequest funcs msgIn = some (env, served) ∧
        DispatchExact funcs body.type served) ↔
      Unambiguous funcs body.type := by
  have hconsumed : ¬ r.consumed ≤ 0 := by
    intro hle
    have hnot := (berDecodeEnvelope_consumed hdec).mp (Nat.le_zero.mp hle)
    exact hnot (berDecodeEnvelope_ok hdec hok)
  have hserve : serveRequest funcs msgIn = some (env, serveEnvelope funcs env) := by
    simp only [serveRequest, hdec, Option.bind_eq_bind, Option.bind_some, if_neg hconsumed]
  obtain ⟨hcalled, hfault⟩ := serveEnvelope_called funcs hbody
  rw [← funcIndex_exact_iff]
  constructor
  · intro hserved
    obtain ⟨served, hs, hexact⟩ := hserved
    rw [hserve] at hs
    cases hs
    intro i
    rw [← hcalled i]
    exact hexact.1 i
  · intro h
    refine ⟨_, hserve, ?_, ?_⟩
    · intro i
      rw [hcalled i]
      exact h i
    · intro hnone
      have hno : (serveEnvelope funcs env).called = none := by
        rcases hc : (serveEnvelope funcs env).called with _ | ⟨i, data⟩
        · rfl
        · obtain ⟨⟨e, he, ht⟩, -⟩ := (h i).mp ((hcalled i).mp ⟨data, hc⟩)
          exact absurd ht (hnone e (List.mem_of_getElem? he))
      exact ⟨hno, hfault hno⟩

/- A string that stands alone in memory. -/
def CString.ofBytes (text : Bytes) (h : ∀ b ∈ text, b ≠ 0) : CString where
  memory i := text.getD i 0
  strlen := text.length
  terminated := List.getD_eq_default _ _ (Nat.le_refl _)
  before i hi := by
    rw [List.getD_eq_getElem _ _ hi]
    exact h _ (List.getElem_mem hi)

/- The table of the sample server, with a callback that echoes. -/
def testMessageEntry : FuncEntry :=
  ⟨CString.ofBytes (ascii "TestMessage") (by decide +kernel), fun data => ⟨0, some data⟩⟩

theorem dispatch_exact_test_message :
    (∃ served, serveRequest [testMessageEntry] (bodyEnvelope (ascii "TestMessage") [7]).der =
        some (bodyEnvelope (ascii "TestMessage") [7], served) ∧
        DispatchExact [testMessageEntry] (ascii "TestMessage") served) ↔
      Unambiguous [testMessageEntry] (ascii "TestMessage") := by
  have hdec : berDecodeEnvelope (bodyEnvelope (ascii "TestMessage") [7]).der =
      some (⟨.rcOk, 24⟩, bodyEnvelope (ascii "TestMessage") [7]) := by decide +kernel
  exact dispatch_exact_iff [testMessageEntry] hdec rfl rfl

/- The type "Test" reaches the callback of "TestMessage". -/
theorem prefix_is_dispatched :
    berDecodeEnvelope (bodyEnvelope (ascii "Test") [7]).der =
        some (⟨.rcOk, 17⟩, bodyEnvelope (ascii "Test") [7]) ∧
      ¬ ∃ served, serveRequest [testMessageEntry] (bodyEnvelope (ascii "Test") [7]).der =
          some (bodyEnvelope (ascii "Test") [7], served) ∧
        DispatchExact [testMessageEntry] (ascii "Test") served := by
  have hserve : serveRequest [testMessageEntry] (bodyEnvelope (ascii "Test") [7]).der =
      some (bodyEnvelope (ascii "Test") [7], ⟨0, none, some (0, [7]), some [7]⟩) := by
    decide +kernel
  refine ⟨by decide +kernel, ?_⟩
  intro hserved
  obtain ⟨served, hs, hexact, -⟩ := hserved
  rw [hserve] at hs
  cases hs
  obtain ⟨⟨e, he, ht⟩, -⟩ := (hexact 0).mp ⟨[7], rfl⟩
  cases he
  revert ht
  decide +kernel

/-! ### Malformed requests -/

/- A request that was not decoded completely calls nothing, and is answered with
the decoding error. -/
def MalformedRefused (funcs : List FuncEntry) (msgIn : Bytes) : Prop :=
  ∀ r env, berDecodeEnvelope msgIn = some (r, env) → r.code ≠ .rcOk →
    ∃ served, serveRequest funcs msgIn = some (env, served) ∧ served.called = none ∧
      served.errCode = some .decoding

/-- The test is on the number of bytes consumed, which is zero only where the
outermost header is refused. -/
theorem malformed_refused_iff (funcs : List FuncEntry) (msgIn : Bytes) :
    MalformedRefused funcs msgIn ↔
      (headAccepted msgIn → ∀ r env, berDecodeEnvelope msgIn = some (r, env) → r.code = .rcOk) := by
  constructor
  · intro h hhead r env hdec
    by_contra hcode
    obtain ⟨served, hs, -, herr⟩ := h r env hdec hcode
    have hconsumed : ¬ r.consumed ≤ 0 := by
      intro hle
      exact (berDecodeEnvelope_consumed hdec).mp (Nat.le_zero.mp hle) hhead
    simp only [serveRequest, hdec, Option.bind_eq_bind, Option.bind_some, if_neg hconsumed] at hs
    cases hs
    exact serveEnvelope_errCode funcs env herr
  · intro h r env hdec hcode
    have hhead : ¬ headAccepted msgIn := fun hhead => hcode (h hhead r env hdec)
    have hconsumed : r.consumed ≤ 0 := le_of_eq ((berDecodeEnvelope_consumed hdec).mpr hhead)
    refine ⟨⟨retErr, some .decoding, none, none⟩, ?_, rfl, rfl⟩
    simp only [serveRequest, hdec, Option.bind_eq_bind, Option.bind_some, if_pos hconsumed]

/- The frame ends inside the data: one byte of three is there. -/
def truncatedRequest : Bytes :=
  [0x30, 0x19, 0xA0, 0x00, 0xA1, 0x15, 0xA0, 0x13, 0x80, 0x0B] ++ ascii "TestMessage" ++
    [0x81, 0x04, 0x07]

theorem truncated_request_is_served : ¬ MalformedRefused [testMessageEntry] truncatedRequest := by
  have hdec : berDecodeEnvelope truncatedRequest =
      some (⟨.rcWmore, 24⟩, bodyEnvelope (ascii "TestMessage") [7]) := by decide +kernel
  have hserve : serveRequest [testMessageEntry] truncatedRequest =
      some (bodyEnvelope (ascii "TestMessage") [7], ⟨0, none, some (0, [7]), some [7]⟩) := by
    decide +kernel
  intro h
  obtain ⟨served, hs, hcalled, -⟩ := h _ _ hdec (by decide)
  rw [hserve] at hs
  cases hs
  cases hcalled

end Fws
