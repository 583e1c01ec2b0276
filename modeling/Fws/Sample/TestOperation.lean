import Fws.Asn1.Endless
import Fws.Service.Frames

/-!
# Operations of the sample (sample/TestOperation.c, TestInput.c, TestOutput.c)

A CHOICE without a tag of its own between two sequences of a number and a text,
with the same automatic tags as the envelope's. INTEGER and SEQUENCE have the
universal tags 2 and 16 (8 and 64 as numbers).
-/

namespace Fws
open Base.Digits Base.Tlv Base.Ber

structure TestInput where
  number : Bytes
  text : Bytes
  deriving DecidableEq, Repr

structure TestOutput where
  result : Bytes
  code : Bytes
  deriving DecidableEq, Repr

inductive TestOperation where
  | nothing
  | input (input : TestInput)
  | output (output : TestOutput)
  deriving DecidableEq, Repr

/-! ### The member tables -/

def inputNumber : Member TestInput :=
  primitiveMember 2 0 [8] fun input number => { input with number := number }

def inputText : Member TestInput :=
  octetMember 6 0 [48] [48, 16] fun input text => { input with text := text }

def outputResult : Member TestOutput :=
  octetMember 2 0 [48] [48, 16] fun output result => { output with result := result }

def outputCode : Member TestOutput :=
  primitiveMember 6 0 [8] fun output code => { output with code := code }

def inputAlternative : Alternative TestOperation :=
  sequenceAlternative 2 [64] [inputNumber, inputText] ⟨[], []⟩ .input

def outputAlternative : Alternative TestOperation :=
  sequenceAlternative 6 [64] [outputResult, outputCode] ⟨[], []⟩ .output

/- `ber_decode(NULL, &asn_DEF_TestOperation, ...)` on a `NULL` structure. -/
def berDecodeTestOperation (bs : Bytes) : Option (DecRval × TestOperation) :=
  choiceDecodeBer [] .plain [inputAlternative, outputAlternative] bs .nothing

def testInputEncodeDer (input : TestInput) : Enc :=
  sequenceEncodeDer [64] [some (integerEncodeDer [8] input.number .implicit 2),
    some (octetStringEncodeDer [48] input.text .implicit 6)] .implicit 2

def testOutputEncodeDer (output : TestOutput) : Enc :=
  sequenceEncodeDer [64] [some (octetStringEncodeDer [48] output.result .implicit 2),
    some (integerEncodeDer [8] output.code .implicit 6)] .implicit 6

def testOperationEncodeDer (op : TestOperation) : Enc :=
  choiceEncodeDer []
    (match op with
      | .nothing => none
      | .input input => some (testInputEncodeDer input)
      | .output output => some (testOutputEncodeDer output)) .plain 0

/-! ### The encodings -/

def inputComponents : List (Component TestInput) :=
  [primitiveComponent 2 0 [8] fun input number => { input with number := number },
    octetComponent 6 0 [48] [48, 16] fun input text => { input with text := text }]

def outputComponents : List (Component TestOutput) :=
  [octetComponent 2 0 [48] [48, 16] fun output result => { output with result := result },
    primitiveComponent 6 0 [8] fun output code => { output with code := code }]

def testOperationBranches : List (Branch TestOperation) :=
  [sequenceBranch 2 [64] inputComponents ⟨[], []⟩ .input,
    sequenceBranch 6 [64] outputComponents ⟨[], []⟩ .output]

def TestOperation.Ber (op : TestOperation) (enc : Bytes) : Prop :=
  ∃ br ∈ testOperationBranches, br.lang enc op

theorem utf8_segments : SegmentTags [48, 16] := by
  apply segmentTags_two
  all_goals decide

theorem inputComponents_table : MemberTable (2 ^ 32) inputComponents := by
  apply MemberTable.cons (primitiveComponent_decides rfl (by decide) (by decide)) rfl
  apply MemberTable.cons (octetComponent_decides rfl utf8_segments (by decide) (by decide)) rfl
  exact .nil

theorem outputComponents_table : MemberTable (2 ^ 32) outputComponents := by
  apply MemberTable.cons (octetComponent_decides rfl utf8_segments (by decide) (by decide)) rfl
  apply MemberTable.cons (primitiveComponent_decides rfl (by decide) (by decide)) rfl
  exact .nil

theorem testOperationBranches_found : Branches (2 ^ 32) testOperationBranches where
  decides := by
    intro br hbr
    rcases List.mem_cons.mp hbr with rfl | hbr
    · exact sequenceBranch_decides inputComponents_table (by decide) (by decide)
    · rw [List.mem_singleton.mp hbr]
      exact sequenceBranch_decides outputComponents_table (by decide) (by decide)
  find := by
    intro br hbr
    rcases List.mem_cons.mp hbr with rfl | hbr
    · rfl
    · rw [List.mem_singleton.mp hbr]
      rfl

/- `berDecodeTestOperation` decides the encodings. -/
theorem testOperation_decides :
    Base.Ber.Decides (2 ^ 32) (fun enc (op : TestOperation) => op.Ber enc)
      (fun bs => answerOf (berDecodeTestOperation bs)) :=
  plainChoice_decides testOperationBranches_found .nothing

/-! ### The encoding as bytes -/

def TestInput.der (input : TestInput) : Bytes :=
  tlv (identifier 2 true 0) (tlv (identifier 2 false 0) (integerStrip input.number) ++
    tlv (identifier 2 false 1) input.text)

def TestOutput.der (output : TestOutput) : Bytes :=
  tlv (identifier 2 true 1) (tlv (identifier 2 false 0) output.result ++
    tlv (identifier 2 false 1) (integerStrip output.code))

def TestOperation.der : TestOperation → Bytes
  | .nothing => []
  | .input i => i.der
  | .output o => o.der

/- A number and a text that can be stored. -/
def TestOperation.Storable : TestOperation → Prop
  | .nothing => False
  | .input i => i.number.length < 2 ^ 30 ∧ i.text.length < 2 ^ 30
  | .output o => o.code.length < 2 ^ 30 ∧ o.result.length < 2 ^ 30

/- As the encoder writes it. -/
def TestOperation.shortened : TestOperation → TestOperation
  | .nothing => .nothing
  | .input i => .input { i with number := integerStrip i.number }
  | .output o => .output { o with code := integerStrip o.code }

/-- The length of a sequence of two strings. -/
theorem pair_length_lt (id₁ id₂ : Byte) {xs ys : Bytes} (hx : xs.length < 2 ^ 30)
    (hy : ys.length < 2 ^ 30) : (tlv id₁ xs ++ tlv id₂ ys).length < 2 ^ 62 := by
  have h1 := tlv_length_le id₁ xs (by omega)
  have h2 := tlv_length_le id₂ ys (by omega)
  rw [List.length_append]
  omega

theorem plainChoice_encodes {e : Enc} {bs : Bytes} (he : Encodes e bs) (tag : ℕ) :
    Encodes (choiceEncodeDer [] (some e) .plain tag) bs := by
  have hplain : ¬ (TagMode.plain = .explicit ∨ ([] : List ℕ) ≠ []) := by decide
  have hsame : choiceEncodeDer [] (some e) .plain tag = e := by
    funext cb
    simp only [choiceEncodeDer, Option.bind_eq_bind, Option.bind_some, if_neg hplain]
  rw [hsame]
  exact he

theorem testOperation_encodes {op : TestOperation} (h : op.Storable) :
    Encodes (testOperationEncodeDer op) op.der := by
  cases op with
  | nothing => exact absurd h id
  | input i =>
    have hstrip := lt_of_le_of_lt (integerStrip_length_le i.number) h.1
    have hlen := pair_length_lt (identifier 2 false 0) (identifier 2 false 1) hstrip h.2
    have hnumber : Encodes (integerEncodeDer [8] i.number .implicit 2)
        (tlv (identifier 2 false 0) (integerStrip i.number)) :=
      integerEncodeDer_encodes 2 (by decide) (by omega)
    have htext : Encodes (octetStringEncodeDer [48] i.text .implicit 6)
        (tlv (identifier 2 false 1) i.text) :=
      octetStringEncodeDer_encodes 6 (by decide) (lt_trans h.2 (by norm_num))
    have htags : writtenTags [64] .implicit 2 = [2] := rfl
    have hseq := sequenceEncodeDer_encodes htags (.present hnumber (.one htext)) (by decide)
      (by omega)
    exact plainChoice_encodes hseq 0
  | output o =>
    have hstrip := lt_of_le_of_lt (integerStrip_length_le o.code) h.1
    have hlen := pair_length_lt (identifier 2 false 0) (identifier 2 false 1) h.2 hstrip
    have hresult : Encodes (octetStringEncodeDer [48] o.result .implicit 2)
        (tlv (identifier 2 false 0) o.result) :=
      octetStringEncodeDer_encodes 2 (by decide) (lt_trans h.2 (by norm_num))
    have hcode : Encodes (integerEncodeDer [8] o.code .implicit 6)
        (tlv (identifier 2 false 1) (integerStrip o.code)) :=
      integerEncodeDer_encodes 6 (by decide) (by omega)
    have htags : writtenTags [64] .implicit 6 = [6] := rfl
    have hseq := sequenceEncodeDer_encodes htags (.present hresult (.one hcode)) (by decide)
      (by omega)
    exact plainChoice_encodes hseq 0

/-- What the encoder writes is an encoding of what the shortest octets say. -/
theorem TestOperation.Storable.ber {op : TestOperation} (h : op.Storable) :
    op.shortened.Ber op.der := by
  have hlarge : (2 : ℕ) ^ 62 < 256 ^ 126 := by norm_num
  cases op with
  | nothing => exact absurd h id
  | input i =>
    have hstrip := lt_of_le_of_lt (integerStrip_length_le i.number) h.1
    have hlen := pair_length_lt (identifier 2 false 0) (identifier 2 false 1) hstrip h.2
    have hnumber := primitiveLang_tlv 2 (by decide) (lt_trans hstrip (by norm_num))
    have htext := stringLang_tlv 6 [48, 16] (by decide) h.2
    have hcontents : Contents inputComponents ⟨[], []⟩
        (tlv (identifier 2 false 0) (integerStrip i.number) ++ tlv (identifier 2 false 1) i.text)
        ⟨integerStrip i.number, i.text⟩ :=
      .present ⟨_, hnumber, rfl⟩ (.one ⟨_, htext, rfl⟩)
    have hber := sequenceBer_tlv 2 (by decide) hcontents (by omega)
    exact ⟨_, List.mem_cons_self .., _, hber, rfl⟩
  | output o =>
    have hstrip := lt_of_le_of_lt (integerStrip_length_le o.code) h.1
    have hlen := pair_length_lt (identifier 2 false 0) (identifier 2 false 1) h.2 hstrip
    have hresult := stringLang_tlv 2 [48, 16] (by decide) h.2
    have hcode := primitiveLang_tlv 6 (by decide) (lt_trans hstrip (by norm_num))
    have hcontents : Contents outputComponents ⟨[], []⟩
        (tlv (identifier 2 false 0) o.result ++ tlv (identifier 2 false 1) (integerStrip o.code))
        ⟨o.result, integerStrip o.code⟩ :=
      .present ⟨_, hresult, rfl⟩ (.one ⟨_, hcode, rfl⟩)
    have hber := sequenceBer_tlv 6 (by decide) hcontents (by omega)
    exact ⟨_, List.mem_cons_of_mem _ (List.mem_singleton_self _), _, hber, rfl⟩

/-- It is read back, whatever follows. -/
theorem berDecodeTestOperation_der {op : TestOperation} (h : op.Storable) (rest : Bytes)
    (hlen : (op.der ++ rest).length < 2 ^ 32) :
    berDecodeTestOperation (op.der ++ rest) = some (⟨.rcOk, op.der.length⟩, op.shortened) :=
  answerOf_took.mp (testOperation_decides.takes op.der rest op.shortened h.ber hlen)

theorem operation_members_return :
    ∀ alt ∈ [inputAlternative, outputAlternative], ∀ bs, alt.decode bs ≠ none := by
  have hinput : ∀ m ∈ [inputNumber, inputText], ∀ st bs, m.decode st bs ≠ none := by
    intro m hm st bs
    rcases List.mem_cons.mp hm with rfl | hm
    · exact Option.some_ne_none _
    · rw [List.mem_singleton.mp hm]
      exact Option.some_ne_none _
  have houtput : ∀ m ∈ [outputResult, outputCode], ∀ st bs, m.decode st bs ≠ none := by
    intro m hm st bs
    rcases List.mem_cons.mp hm with rfl | hm
    · exact Option.some_ne_none _
    · rw [List.mem_singleton.mp hm]
      exact Option.some_ne_none _
  intro alt halt bs hnone
  rcases List.mem_cons.mp halt with rfl | halt
  · exact sequenceDecodeBer_returns hinput (Option.map_eq_none_iff.mp hnone)
  · rw [List.mem_singleton.mp halt] at hnone
    exact sequenceDecodeBer_returns houtput (Option.map_eq_none_iff.mp hnone)

/- The decoder returns on all bytes, unlike that of the envelopes. -/
theorem operations_always_return (bs : Bytes) :
    ∃ r op, berDecodeTestOperation bs = some (r, op) := by
  have hreturns := plainChoice_returns operation_members_return bs TestOperation.nothing
  obtain ⟨⟨r, op⟩, h⟩ := Option.ne_none_iff_exists'.mp hreturns
  exact ⟨r, op, h⟩

end Fws
