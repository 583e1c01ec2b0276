import Fws.Sample.TestOperation
import Fws.Asn1.Integer
import Fws.Service.RpcRuns
import Mathlib.Data.List.TakeWhile

/-!
# The sample (sample/main.c)

A server with the one function `TestMessage`, and the calls that its client makes
of it.
-/

namespace Fws
open Base.Digits Base.Tlv Base.Runs Base.Calls Base.Integers

/-! ### The two sides -/

/- `der_encode_to_buffer`, and what it wrote. -/
def encodeOperation (op : TestOperation) (size : ℕ) : Option Bytes :=
  (derEncodeToBuffer (testOperationEncodeDer op) size).map fun (encoded, buffer) =>
    buffer.take encoded

/- A `long` as `%d` prints it, which takes it for an `int`, and a text up to its
terminator. -/
def shown (number text : Bytes) : Option (ℤ × Bytes) :=
  match asnINTEGER2long (some number) with
  | .ok num => some (cInt num, text.takeWhile fun b => decide (b ≠ 0))
  | .error _ => none

/- What `TestMessageFunc` shows of a request. It looks at no verdict, so that a text
that is cut off is shown as far as it goes; but members that were not decoded have
no buffers, and those of an output lie elsewhere. -/
def testMessageShown (inMsg : Bytes) : Option (ℤ × Bytes) :=
  match berDecodeTestOperation inMsg with
  | some (r, .input i) => if r.code = .rcOk ∨ i.text ≠ [] then shown i.number i.text else none
  | _ => none

/- And what it puts out, which is the same for every request. -/
def testMessageOutput : Option Bytes := do
  let result ← octetStringField (ascii "Response data" ++ [0]) (-1)
  encodeOperation (.output ⟨result, asnLong2INTEGER 0⟩) 512

/- `none` where what it shows is undefined. -/
def testMessageFunc (inMsg : Bytes) : Option CallbackResult :=
  (testMessageShown inMsg).map fun _ => ⟨retOk, testMessageOutput⟩

def testMessageFatal (e : ℕ × Bytes) : Bool := (testMessageFunc e.2).isNone

/- Where the process lives on after an undefined request, the output is the same. -/
def mainFuncs : List FuncEntry :=
  [⟨testMessageEntry.funcIdentifier,
    fun inMsg => (testMessageFunc inMsg).getD ⟨retOk, testMessageOutput⟩⟩]

/- `buffer` and `renc.encoded` of `main_client`, whose own request has the number 1
and the text "Request data". -/
def mainRequest (number : ℤ) (text : CString) : Option Bytes := do
  let str ← octetStringField (text.text ++ [0]) (-1)
  encodeOperation (.input ⟨asnLong2INTEGER number, str⟩) 1024

/- What `main_client` shows of a response. -/
def mainShown (out : Bytes) : Option (ℤ × Bytes) :=
  match berDecodeTestOperation out with
  | some (⟨.rcOk, _⟩, .output o) => shown o.code o.result
  | _ => none

/-! ### What is shown -/

theorem encodeOperation_some {op : TestOperation} (h : op.Storable) {size : ℕ} {data : Bytes}
    (hdata : encodeOperation op size = some data) : data = op.der ∧ op.der.length ≤ size := by
  rw [encodeOperation, derEncodeToBuffer_eq (testOperation_encodes h)] at hdata
  by_cases hle : op.der.length ≤ size
  · rw [if_pos hle] at hdata
    cases hdata
    exact ⟨List.take_length, hle⟩
  · rw [if_neg hle] at hdata
    cases hdata

theorem asnLong2INTEGER_length (v : ℤ) : (asnLong2INTEGER v).length ≤ 8 := by
  have hstrip := integerStrip_length_le (beBytes 8 (v % 2 ^ 64).toNat)
  rw [beBytes_length] at hstrip
  exact hstrip

theorem CString.text_nonzero (s : CString) : ∀ b ∈ s.text, b ≠ 0 := by
  intro b hb
  obtain ⟨i, hi, rfl⟩ := List.mem_map.mp hb
  exact s.before i (List.mem_range.mp hi)

theorem shown_long {v : ℤ} (hv : -2 ^ 63 ≤ v ∧ v < 2 ^ 63) (text : CString) :
    shown (integerStrip (asnLong2INTEGER v)) text.text = some (cInt v, text.text) := by
  obtain ⟨hvalue, hshortest⟩ := asnLong2INTEGER_value hv
  have hfits : Fits 7 (signedValue (asnLong2INTEGER v)) := by
    rw [hvalue]
    exact (fits_long v).mpr hv
  have hlong : asnINTEGER2long (some (integerStrip (asnLong2INTEGER v))) = .ok v := by
    rw [integerStrip_of_shortest hshortest, asnINTEGER2long_fits hfits, hvalue]
  have htext : text.text.takeWhile (fun b => decide (b ≠ 0)) = text.text := by
    rw [List.takeWhile_eq_self_iff]
    intro b hb
    exact decide_eq_true (text.text_nonzero b hb)
  rw [shown, hlong, htext]

/-- The server shows the number and the text that the client has put in. -/
theorem mainRequest_shown {number : ℤ} (hnumber : -2 ^ 63 ≤ number ∧ number < 2 ^ 63)
    {text : CString} (htext : text.strlen < 2 ^ 30) {data : Bytes}
    (hdata : mainRequest number text = some data) :
    testMessageShown data = some (cInt number, text.text) := by
  obtain ⟨str, hstr, hdata⟩ := Option.bind_eq_some_iff.mp hdata
  obtain ⟨-, rfl⟩ := (requestType_iff (lt_trans htext (by norm_num)) str).mp hstr
  have hlen : text.text.length = text.strlen := text.read_length text.strlen
  have hlong := asnLong2INTEGER_length number
  have hstorable : (TestOperation.input ⟨asnLong2INTEGER number, text.text⟩).Storable := by
    refine ⟨?_, ?_⟩
    · show (asnLong2INTEGER number).length < 2 ^ 30
      omega
    · show text.text.length < 2 ^ 30
      omega
  obtain ⟨rfl, hle⟩ := encodeOperation_some hstorable hdata
  have hdec := berDecodeTestOperation_der hstorable [] (by
    rw [List.append_nil]
    omega)
  rw [List.append_nil] at hdec
  rw [testMessageShown, hdec]
  exact (if_pos (Or.inl rfl)).trans (shown_long hnumber text)

def responseData : Bytes :=
  tlv 0xA1 (tlv 0x80 (ascii "Response data") ++ tlv 0x81 [0])

theorem testMessageOutput_eq : testMessageOutput = some responseData := by decide +kernel

theorem responseData_shown : mainShown responseData = some (0, ascii "Response data") := by
  decide +kernel

theorem testMessageFunc_output (inMsg : Bytes) :
    (testMessageFunc inMsg).getD ⟨retOk, testMessageOutput⟩ = ⟨retOk, some responseData⟩ := by
  rw [testMessageFunc, testMessageOutput_eq]
  cases testMessageShown inMsg with
  | none => rfl
  | some shows => rfl

theorem mainFuncs_replies : RepliesBounded mainFuncs := by
  intro e he data out hdata hreply
  rw [List.mem_singleton.mp he] at hreply
  simp only [testMessageFunc_output, Option.some.injEq] at hreply
  rw [← hreply]
  decide +kernel

theorem mainFuncs_found :
    funcIndex mainFuncs (ascii "TestMessage") = some (0, ⟨testMessageEntry.funcIdentifier,
      fun inMsg => (testMessageFunc inMsg).getD ⟨retOk, testMessageOutput⟩⟩) := by
  have hequal : memcmpEqual (ascii "TestMessage") testMessageEntry.funcIdentifier = true := by
    decide +kernel
  have hcount : ((0 : ℕ) : ℤ) < cInt mainFuncs.length := by decide +kernel
  unfold mainFuncs at hcount ⊢
  rw [funcIndex, funcLoop, if_pos hcount, if_pos hequal]

/- What a call of `TestMessage` does, and what it returns. -/
theorem testMessage_effects (data : Bytes) :
    (service mainFuncs).effects (ascii "TestMessage", data) = [(0, data)] := by
  show ((funcIndex mainFuncs (ascii "TestMessage")).map fun p => (p.1, data)).toList = _
  rw [mainFuncs_found]
  rfl

theorem testMessage_result (data : Bytes) :
    (service mainFuncs).result (ascii "TestMessage", data) = some (retOk, some responseData) := by
  have hzero : ¬ retOk ≠ 0 := fun h => h rfl
  simp only [service, mainFuncs_found, testMessageFunc_output, if_neg hzero, Option.map_some]

/-! ### Runs of the sample -/

/- The data that `main_client` hands to its call. -/
def testMessageCall (request : ℤ × CString) : Option (Bytes × Bytes) :=
  (mainRequest request.1 request.2).map fun data => (ascii "TestMessage", data)

theorem testMessageCall_served {request : ℤ × CString}
    (hnumber : -2 ^ 63 ≤ request.1 ∧ request.1 < 2 ^ 63) (htext : request.2.strlen < 2 ^ 30)
    {q : Bytes × Bytes} (hq : testMessageCall request = some q) :
    ((service mainFuncs).effects q).map (fun e => (e.1, testMessageShown e.2)) =
        [(0, some (cInt request.1, request.2.text))] ∧
      ((service mainFuncs).result q).map (fun r => (r.1, r.2.bind mainShown)) =
        some (retOk, some (0, ascii "Response data")) := by
  obtain ⟨data, hdata, rfl⟩ := Option.map_eq_some_iff.mp hq
  have hshown := mainRequest_shown hnumber htext hdata
  constructor
  · rw [testMessage_effects, List.map_singleton, hshown]
  · rw [testMessage_result, Option.map_some, Option.bind_some, responseData_shown]

/-- A client of the sample that makes any number of its calls is shown the response
to each, and the server is shown their numbers and texts, in the order of the calls
and each once, as long as no other client's request ends the server's process. -/
theorem test_messages_shown (listening : ℤ) (hlisten : 0 ≤ listening ∧ listening < 2 ^ 31)
    (order : ByteOrder) (held : Net → ℕ → Byte) (fatal : ℕ × Bytes → Bool)
    (callers : ℕ → Option Caller) (port backlog : ℤ) {es : List RpcEvent}
    (horderly : ∀ e ∈ es, e.Orderly callers) {s : Rpc} {log : List RpcLabel}
    (hrun : exec (withLog (rpcStep listening order held fatal callers))
      (rpcStart listening order held mainFuncs port backlog, []) es = some (s, log))
    (hrunning : s.running = true) {c : ℕ} (hc : (callers c).isSome = true)
    (requests : List (ℤ × CString))
    (hnumbers : ∀ request ∈ requests, -2 ^ 63 ≤ request.1 ∧ request.1 < 2 ^ 63)
    (htexts : ∀ request ∈ requests, request.2.strlen < 2 ^ 30)
    (hcalls : (calls c log).map some = requests.map testMessageCall) :
    ∃ returned performed, returned ≤ performed ∧ performed ≤ requests.length ∧
      requests.length ≤ returned + 1 ∧
      (results c log).map (fun r => (r.1, r.2.bind mainShown)) =
        List.replicate returned (retOk, some (0, ascii "Response data")) ∧
      (invocations c log).map (fun e => (e.1, testMessageShown e.2)) =
        (requests.take performed).map
          fun request => (0, some (cInt request.1, request.2.text)) := by
  obtain ⟨ds, phases, hatomic, -⟩ := rpc_refines hlisten mainFuncs_replies horderly hrun hrunning
  rw [← calls_seen hc log] at hcalls
  rw [← results_seen hc log, ← invocations_seen hc log]
  have hserved : ∀ request ∈ requests, ∀ q, testMessageCall request = some q →
      ((service mainFuncs).effects q).map (fun e => (e.1, testMessageShown e.2)) =
          [(0, some (cInt request.1, request.2.text))] ∧
        ((service mainFuncs).result q).map (fun r => (r.1, r.2.bind mainShown)) =
          some (retOk, some (0, ascii "Response data")) := by
    intro request hrequest q hq
    exact testMessageCall_served (hnumbers request hrequest) (htexts request hrequest) hq
  obtain ⟨returned, performed, hle, hperformed, hlast, hresults, hinvoked⟩ :=
    requests_in_order hatomic hserved hcalls
  have hreturned : (requests.take returned).length = returned :=
    List.length_take_of_le (le_trans hle hperformed)
  refine ⟨returned, performed, hle, hperformed, hlast, ?_, hinvoked⟩
  rw [hresults, List.map_const', hreturned]

/- The call of `main_client`, beside the client that sends a length field byte by byte. -/
def requestText : CString := CString.ofBytes (ascii "Request data") (by decide +kernel)

def requestData : Bytes := tlv 0xA0 (tlv 0x80 [1] ++ tlv 0x81 (ascii "Request data"))

def mainRequests : List (ℤ × CString) := [(1, requestText)]

def mainBesideGarbage : List RpcEvent :=
  [.connect 0, .connect 1, .send 0 [0, 0, 0, 5, 1],
    .call 1 slowWire testMessageEntry.funcIdentifier requestData, .accept (.ready {3}) (some 4),
    .serve slowWire, .accept (.ready {3}) (some 5), .serve slowWire, .finish 1 slowWire]

def mainLog : List RpcLabel :=
  [.called 1 (ascii "TestMessage", requestData), .invoked 1 (0, requestData),
    .returned 1 (retOk, some responseData)]

theorem mainBesideGarbage_orderly : ∀ e ∈ mainBesideGarbage, e.Orderly oneCaller := by
  have hwire : slowWire.Whole 1 := slowWire_whole one_ne_zero
  simp only [mainBesideGarbage, List.forall_mem_cons, List.not_mem_nil, false_imp_iff,
    RpcEvent.Orderly]
  exact ⟨trivial, trivial, trivial, ⟨hwire, by decide, by decide +kernel⟩, trivial,
    oneCaller_whole, trivial, oneCaller_whole, hwire, fun _ => trivial⟩

theorem test_messages_shown_main :
    ∃ s, exec (withLog (rpcStep 3 .little (fun _ _ => 0) testMessageFatal oneCaller))
        (rpcStart 3 .little (fun _ _ => 0) mainFuncs 4242 100, []) mainBesideGarbage =
          some (s, mainLog) ∧
      ∃ returned performed, returned ≤ performed ∧ performed ≤ mainRequests.length ∧
        mainRequests.length ≤ returned + 1 ∧
        (results 1 mainLog).map (fun r => (r.1, r.2.bind mainShown)) =
          List.replicate returned (retOk, some (0, ascii "Response data")) ∧
        (invocations 1 mainLog).map (fun e => (e.1, testMessageShown e.2)) =
          (mainRequests.take performed).map
            fun request => (0, some (cInt request.1, request.2.text)) := by
  have hlog : (exec (withLog (rpcStep 3 .little (fun _ _ => 0) testMessageFatal oneCaller))
      (rpcStart 3 .little (fun _ _ => 0) mainFuncs 4242 100, []) mainBesideGarbage).map
        Prod.snd = some mainLog := by decide +kernel
  have hstate : (exec (withLog (rpcStep 3 .little (fun _ _ => 0) testMessageFatal oneCaller))
      (rpcStart 3 .little (fun _ _ => 0) mainFuncs 4242 100, []) mainBesideGarbage).map
        (fun p => p.1.running) = some true := by decide +kernel
  have hcall : testMessageCall (1, requestText) = some (ascii "TestMessage", requestData) := by
    decide +kernel
  have hcalls : (calls 1 mainLog).map some = mainRequests.map testMessageCall := by
    rw [mainRequests, List.map_singleton, hcall]
    rfl
  have hnumbers : ∀ request ∈ mainRequests, -2 ^ 63 ≤ request.1 ∧ request.1 < 2 ^ 63 := by
    intro request hrequest
    rw [List.mem_singleton.mp hrequest]
    exact ⟨by norm_num, by norm_num⟩
  have htexts : ∀ request ∈ mainRequests, request.2.strlen < 2 ^ 30 := by
    intro request hrequest
    rw [List.mem_singleton.mp hrequest]
    decide +kernel
  obtain ⟨⟨s, log⟩, hrun, rfl⟩ := Option.map_eq_some_iff.mp hlog
  rw [hrun, Option.map_some, Option.some.injEq] at hstate
  exact ⟨s, hrun, test_messages_shown 3 (by decide) .little _ testMessageFatal oneCaller 4242
    100
    mainBesideGarbage_orderly hrun hstate rfl mainRequests hnumbers htexts hcalls⟩

end Fws
