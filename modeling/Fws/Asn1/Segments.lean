import Fws.Asn1.BerHeaders
import Fws.Asn1.OctetString

/-!
# Strings in segments

The constructed encodings of a string, nested as deep as the sender likes, and
what the stack of expectations makes of them.
-/

namespace Fws
open Base.Digits Base.Tlv Base.Ber

/- The tag that the segments at a depth must carry. -/
def segmentTag (allTags : List ℕ) (depth : ℕ) : ℕ :=
  (allTags[depth]?).getD ((allTags.getLast?).getD 0)

/- Some segments in a row, and the string that they make. -/
inductive StringParts (allTags : List ℕ) : ℕ → Bytes → Bytes → Prop where
  | nil (depth : ℕ) : StringParts allTags depth [] []
  | primitive {depth : ℕ} {header contents closing encs str : Bytes} {left : ℤ}
      (h : TagFrame (segmentTag allTags depth) false contents.length header left closing)
      (hs : StringParts allTags depth encs str) :
      StringParts allTags depth (header ++ contents ++ encs) (contents ++ str)
  | constructed {depth : ℕ} {header inner closing part encs str : Bytes} {left : ℤ}
      (h : TagFrame (segmentTag allTags depth) true inner.length header left closing)
      (hinner : StringParts allTags (depth + 1) inner part) (hs : StringParts allTags depth encs str) :
      StringParts allTags depth (header ++ (inner ++ closing) ++ encs) (part ++ str)

/- The encodings of a string under a tag, with segments inside that are at a depth. -/
inductive StringBer (tag : ℕ) (allTags : List ℕ) (depth : ℕ) (str : Bytes) : Bytes → Prop where
  | primitive {header closing : Bytes} {left : ℤ}
      (h : TagFrame tag false str.length header left closing) :
      StringBer tag allTags depth str (header ++ str)
  | constructed {header inner closing : Bytes} {left : ℤ}
      (h : TagFrame tag true inner.length header left closing)
      (hinner : StringParts allTags depth inner str) :
      StringBer tag allTags depth str (header ++ (inner ++ closing))

/- Every tag can be fetched, and none is that of the end of contents. -/
structure SegmentTags (allTags : List ℕ) : Prop where
  nonempty : allTags ≠ []
  small : ∀ t ∈ allTags, berTagValue t < 2 ^ 30
  nonzero : ∀ t ∈ allTags, t ≠ 0

theorem segmentTag_mem {allTags : List ℕ} (h : allTags ≠ []) (depth : ℕ) :
    segmentTag allTags depth ∈ allTags := by
  unfold segmentTag
  rcases hget : allTags[depth]? with _ | t
  · rw [Option.getD_none, List.getLast?_eq_getLast_of_ne_nil h, Option.getD_some]
    exact List.getLast_mem h
  · exact List.mem_of_getElem? hget

theorem expectedTag_segment {allTags : List ℕ} (h : allTags ≠ []) (sel : StackEl)
    (below : List StackEl) (tlvTag : ℕ) :
    expectedTag allTags (sel :: below) tlvTag = segmentTag allTags below.length := by
  simp only [expectedTag, segmentTag, List.getLast?_eq_getLast_of_ne_nil h, Option.getD_some]

/-! ### Expectations -/

/- There is room for `n` more bytes. -/
def StackEl.Opens (sel : StackEl) (n : ℕ) : Prop :=
  sel.left = -1 ∧ sel.wantNulls = true ∨ (n : ℤ) ≤ sel.left

/- `n` bytes of contents have come. -/
def StackEl.after (sel : StackEl) (n : ℕ) : StackEl :=
  ⟨if sel.left = -1 then -1 else sel.left - n, sel.got + n, sel.wantNulls⟩

/- All has come, `n` bytes with the header. -/
structure StackEl.Met (sel : StackEl) (n : ℕ) : Prop where
  left : sel.left ≤ 0
  wantNulls : sel.wantNulls = false
  got : sel.got = n

section
variable {sel : StackEl} {m n : ℕ}

theorem StackEl.Opens.mono (h : sel.Opens n) (hle : m ≤ n) : sel.Opens m := by
  rcases h with h | h
  · exact Or.inl h
  · exact Or.inr (by omega)

theorem StackEl.Opens.after (h : sel.Opens (m + n)) : (sel.after m).Opens n := by
  rcases h with ⟨hleft, hnulls⟩ | h
  · left
    simp only [StackEl.after, hleft, if_true, hnulls, and_self]
  · right
    have hne : ¬ sel.left = -1 := by omega
    simp only [StackEl.after, if_neg hne]
    push_cast at h
    omega

theorem StackEl.after_after (h : sel.Opens (m + n)) :
    (sel.after m).after n = sel.after (m + n) := by
  unfold StackEl.after
  rcases h with ⟨hleft, -⟩ | h
  · simp only [hleft, if_true, Nat.cast_add, add_assoc]
  · have hne : ¬ sel.left = -1 := by omega
    have hne' : ¬ sel.left - (m : ℤ) = -1 := by
      push_cast at h
      omega
    simp only [if_neg hne, if_neg hne', Nat.cast_add, add_assoc, sub_sub]

/-- An expectation with room for something is not met. -/
theorem StackEl.Opens.unmet (h : sel.Opens n) (hn : 0 < n) :
    ¬ (sel.left ≤ 0 ∧ sel.wantNulls = false) := by
  intro hmet
  rcases h with ⟨-, hnulls⟩ | h
  · rw [hmet.2] at hnulls
    cases hnulls
  · have hle := hmet.1
    omega

theorem StackEl.Opens.window {enc : Bytes} (h : sel.Opens enc.length) (rest : Bytes) :
    ∃ w, leftOf sel.left (enc ++ rest) = enc ++ w := by
  rcases h with ⟨hleft, -⟩ | h
  · exact ⟨rest, by simp only [leftOf, hleft, Int.reduceNeg, Int.reduceLT, if_true]⟩
  · have hnonneg : ¬ sel.left < 0 := by omega
    refine ⟨rest.take (sel.left.toNat - enc.length), ?_⟩
    rw [leftOf, if_neg hnonneg, List.take_append, List.take_of_length_le (by omega)]

end

/-! ### Steps -/

section
variable {allTags : List ℕ}

theorem octetChunks_step {c c' : Chunks} (h : chunkStep allTags c = .inr c') :
    octetChunks allTags c = octetChunks allTags c' := by
  rw [octetChunks, h]

theorem octetChunks_stop {c : Chunks} {r : RcCode × Chunks} (h : chunkStep allTags c = .inl r) :
    octetChunks allTags c = r := by
  rw [octetChunks, h]

def Chunks.window (c : Chunks) : Bytes :=
  match c.stack with
  | [] => c.bs
  | sel :: _ => leftOf sel.left c.bs

theorem Chunks.window_cons (sel : StackEl) (below : List StackEl) (bs : Bytes) (consumed : ℕ)
    (st : OctetState) : Chunks.window ⟨sel :: below, bs, consumed, st⟩ = leftOf sel.left bs := by
  rfl

def roomLeft : List StackEl → ℤ
  | [] => -1
  | sel :: _ => sel.left

/- The expectation that a header sets up. -/
def pushed (stack : List StackEl) (tlvl : ℕ) (tlvLen : ℤ) : StackEl :=
  ⟨if roomLeft stack ≠ -1 ∧ tlvLen = -1 then roomLeft stack - tlvl else tlvLen, tlvl, tlvLen = -1⟩

theorem chunkPush_room {stack : List StackEl} {tlvl : ℕ} {tlvLen : ℤ}
    (h : ¬ (roomLeft stack ≠ -1 ∧ roomLeft stack < tlvl + (if tlvLen = -1 then 0 else tlvLen))) :
    chunkPush stack tlvl tlvLen = some (pushed stack tlvl tlvLen) := by
  cases stack with
  | nil =>
    simp only [roomLeft, ne_eq, not_true_eq_false, false_and, not_false_eq_true] at h
    simp only [chunkPush, pushed, roomLeft, ne_eq, not_true_eq_false, false_and, if_false]
  | cons sel below =>
    simp only [roomLeft] at h
    simp only [chunkPush, pushed, roomLeft, if_neg h]
    rfl

theorem chunkTlv_window (c : Chunks) : chunkTlv allTags c =
    match berFetchTag c.window with
    | .failed => .inl (.rcFail, c)
    | .more => .inl (.rcWmore, c)
    | .got tl tlvTag =>
      match berFetchLength (berTlvConstructed c.bs) (c.window.drop tl) with
      | .failed => .inl (.rcFail, c)
      | .more => .inl (.rcWmore, c)
      | .got ll tlvLen =>
        match chunkEnd c with
        | some c => .inr c
        | none =>
          if tlvTag ≠ expectedTag allTags c.stack tlvTag then .inl (.rcFail, c)
          else if 2 ^ 63 ≤ tlvLen + ((tl + ll : ℕ) : ℤ) then .inl (.rcFail, c)
          else
            match chunkPush c.stack (tl + ll) tlvLen with
            | none => .inl (.rcFail, c)
            | some el =>
              if berTlvConstructed c.bs then
                .inr ⟨el :: c.stack, c.bs.drop (tl + ll), c.consumed + (tl + ll), c.st⟩
              else chunkBody ⟨c.stack, c.bs.drop (tl + ll), c.consumed + (tl + ll), c.st⟩ el := by
  rfl

/-- An expectation that is met gives way to the one below it. -/
theorem octetChunks_pop {el sel : StackEl} {below : List StackEl} {bs : Bytes} {consumed n : ℕ}
    {st : OctetState} (hmet : el.Met n) (hopens : sel.Opens n) :
    octetChunks allTags ⟨el :: sel :: below, bs, consumed, st⟩ =
      octetChunks allTags ⟨sel.after n :: below, bs, consumed, st⟩ := by
  apply octetChunks_step
  have hfits : ¬ (sel.left ≠ -1 ∧ sel.left < el.got) := by
    rw [hmet.got]
    intro hshort
    rcases hopens with ⟨hleft, -⟩ | hle
    · exact hshort.1 hleft
    · omega
  simp only [chunkStep, hmet.left, hmet.wantNulls, and_self, if_true, chunkPop, if_neg hfits]
  by_cases hleft : sel.left = -1
  · simp only [StackEl.after, hleft, ne_eq, not_true_eq_false, if_false, if_true, hmet.got]
  · simp only [StackEl.after, hleft, ne_eq, not_false_eq_true, if_true, if_false, hmet.got]

/-- The outermost one ends the string. -/
theorem octetChunks_met {el : StackEl} {bs : Bytes} {consumed n : ℕ} {st : OctetState}
    (hmet : el.Met n) :
    octetChunks allTags ⟨[el], bs, consumed, st⟩ = (.rcOk, ⟨[el], bs, consumed, st⟩) := by
  apply octetChunks_stop
  simp only [chunkStep, hmet.left, hmet.wantNulls, and_self, if_true, chunkPop]

theorem octetChunks_tlv {sel : StackEl} {below : List StackEl} {bs : Bytes} {consumed : ℕ}
    {st : OctetState} (hunmet : ¬ (sel.left ≤ 0 ∧ sel.wantNulls = false)) :
    chunkStep allTags ⟨sel :: below, bs, consumed, st⟩ =
      chunkTlv allTags ⟨sel :: below, bs, consumed, st⟩ := by
  simp only [chunkStep, if_neg hunmet]

/-! ### Contents of a segment -/

theorem octetAppend_room {st : OctetState} (h : st.Fits) {bs : Bytes}
    (hlt : st.buf.length + bs.length < 2 ^ 30) :
    ∃ st', octetAppend st bs = some st' ∧ st'.Fits ∧ st'.buf = st.buf ++ bs := by
  have hsome : ∃ st', octetAppend st bs = some st' := by
    unfold octetAppend
    have hes : ¬ cInt ((st.buf.length + bs.length : ℕ) : ℤ) < 0 := by
      rw [cInt_neg_iff (by omega)]
      omega
    rw [if_neg hes]
    by_cases hgrow : st.context ≤ st.buf.length + bs.length
    · obtain ⟨j, hj, -, hmax⟩ := growTo_spec h (by omega) hgrow
      have hns : ¬ cInt ((2 ^ j : ℕ) : ℤ) < 0 := by
        rw [cInt_neg_iff (by omega)]
        omega
      simp only [if_pos hgrow, hj, if_neg hns, Option.some.injEq, exists_eq']
    · simp only [if_neg hgrow, Option.some.injEq, exists_eq']
  obtain ⟨st', hst'⟩ := hsome
  obtain ⟨hfits, hbuf⟩ := octetAppend_fits h (by omega) hst'
  exact ⟨st', hst', hfits, hbuf⟩

theorem append_contents {st : OctetState} (h : st.Fits) {bs : Bytes}
    (hlt : st.buf.length + bs.length < 2 ^ 30) :
    ∃ st', (if 0 < bs.length then octetAppend st bs else some st) = some st' ∧ st'.Fits ∧
      st'.buf = st.buf ++ bs := by
  by_cases hpos : 0 < bs.length
  · rw [if_pos hpos]
    exact octetAppend_room h hlt
  · have hnil : bs = [] := List.length_eq_zero_iff.mp (by omega)
    rw [if_neg hpos, hnil, List.append_nil]
    exact ⟨st, rfl, h, rfl⟩

/-- All the contents of a primitive segment. -/
theorem chunkBody_whole (stack : List StackEl) {contents : Bytes} (rest : Bytes)
    (consumed tlvl : ℕ) {st : OctetState} (h : st.Fits) (hlt : st.buf.length + contents.length < 2 ^ 30) :
    ∃ st' el, chunkBody ⟨stack, contents ++ rest, consumed, st⟩ ⟨contents.length, tlvl, false⟩ =
        .inr ⟨el :: stack, rest, consumed + contents.length, st'⟩ ∧
      el.Met (tlvl + contents.length) ∧ st'.Fits ∧ st'.buf = st.buf ++ contents := by
  obtain ⟨st', happ, hfits, hbuf⟩ := append_contents h hlt
  have hmin : min (contents ++ rest).length ((contents.length : ℕ) : ℤ).toNat =
      contents.length := by
    rw [List.length_append]
    omega
  refine ⟨st', ⟨0, ((tlvl + contents.length : ℕ) : ℤ), false⟩, ?_, ⟨le_refl 0, rfl, rfl⟩, hfits,
    hbuf⟩
  simp only [chunkBody, hmin, List.take_left, happ, List.drop_left, sub_self, ne_eq,
    not_true_eq_false, if_false, Nat.cast_add]

/-- A part of them asks for more. -/
theorem chunkBody_cut (stack : List StackEl) {p : Bytes} (consumed tlvl : ℕ) {n : ℕ}
    {st : OctetState} (h : st.Fits) (hp : p.length < n) (hlt : st.buf.length + p.length < 2 ^ 30) :
    ∃ c, chunkBody ⟨stack, p, consumed, st⟩ ⟨n, tlvl, false⟩ = .inl (.rcWmore, c) := by
  obtain ⟨st', happ, -, -⟩ := append_contents h hlt
  have hmin : min p.length ((n : ℕ) : ℤ).toNat = p.length := by omega
  have hne : (n : ℤ) - (p.length : ℤ) ≠ 0 := by omega
  simp only [chunkBody, hmin, List.take_length, happ, if_pos hne, Sum.inl.injEq, Prod.mk.injEq,
    true_and, exists_eq']

/-! ### What a header opens and its closing closes -/

def RoomFor (stack : List StackEl) (n : ℕ) : Prop :=
  roomLeft stack = -1 ∨ (n : ℤ) ≤ roomLeft stack

theorem StackEl.Opens.roomFor {sel : StackEl} {n : ℕ} (h : sel.Opens n) (below : List StackEl) :
    RoomFor (sel :: below) n := by
  rcases h with ⟨hleft, -⟩ | h
  · exact Or.inl hleft
  · exact Or.inr h

/- The next `n` bytes are those of a value with this tag. -/
structure Ready (allTags : List ℕ) (stack : List StackEl) (tag n : ℕ) : Prop where
  tag_lt : berTagValue tag < 2 ^ 30
  tag_ne : tag ≠ 0
  size : n < 2 ^ 62
  step : ∀ bs consumed st, chunkStep allTags ⟨stack, bs, consumed, st⟩ =
    chunkTlv allTags ⟨stack, bs, consumed, st⟩
  expected : expectedTag allTags stack tag = tag
  room : RoomFor stack n
  window : ∀ enc rest consumed st, enc.length ≤ n →
    ∃ w, Chunks.window ⟨stack, enc ++ rest, consumed, st⟩ = enc ++ w

theorem Ready.outermost {tag n : ℕ} (htag : berTagValue tag < 2 ^ 30) (hne : tag ≠ 0)
    (hn : n < 2 ^ 62) : Ready allTags [] tag n :=
  ⟨htag, hne, hn, fun _ _ _ => rfl, rfl, Or.inl rfl, fun _ rest _ _ _ => ⟨rest, rfl⟩⟩

theorem StackEl.Opens.ready {sel : StackEl} {n : ℕ} (h : sel.Opens n) (hpos : 0 < n)
    (hn : n < 2 ^ 62) (htags : SegmentTags allTags) (below : List StackEl) :
    Ready allTags (sel :: below) (segmentTag allTags below.length) n := by
  have hmem := segmentTag_mem htags.nonempty below.length
  refine ⟨htags.small _ hmem, htags.nonzero _ hmem, hn, ?_,
    expectedTag_segment htags.nonempty sel below _, h.roomFor below, ?_⟩
  · intro bs consumed st
    exact octetChunks_tlv (h.unmet hpos)
  · intro enc rest consumed st hle
    have hopens := h.mono hle
    exact hopens.window rest

section
variable {stack : List StackEl} {tag n : ℕ} {constructed : Bool} {header closing : Bytes} {left : ℤ}

theorem Ready.window_all (h : Ready allTags stack tag n) {p : Bytes} (hp : p.length ≤ n)
    (consumed : ℕ) (st : OctetState) : Chunks.window ⟨stack, p, consumed, st⟩ = p := by
  obtain ⟨w, hw⟩ := h.window p [] consumed st hp
  have hle : (Chunks.window ⟨stack, p ++ [], consumed, st⟩).length ≤ (p ++ []).length := by
    cases stack with
    | nil => exact Nat.le_refl _
    | cons sel below => exact leftOf_length_le _ _
  rw [hw, List.length_append, List.append_nil] at hle
  have hnil : w = [] := List.length_eq_zero_iff.mp (by omega)
  rw [List.append_nil, hnil, List.append_nil] at hw
  exact hw

/-- The header of a value sets up an expectation of its contents. -/
theorem Ready.fetched (hready : Ready allTags stack tag (header.length + n + closing.length))
    (h : TagFrame tag constructed n header left closing) (rest : Bytes) (consumed : ℕ)
    (st : OctetState) :
    chunkStep allTags ⟨stack, header ++ rest, consumed, st⟩ =
      if constructed then
        .inr ⟨pushed stack header.length left :: stack, rest, consumed + header.length, st⟩
      else
        chunkBody ⟨stack, rest, consumed + header.length, st⟩
          (pushed stack header.length left) := by
  have hleft := h.left
  have hsize := hready.size
  have hroom := hready.room
  obtain ⟨w, hw⟩ := hready.window header rest consumed st (by omega)
  have hend : chunkEnd ⟨stack, header ++ rest, consumed, st⟩ = none := by
    obtain ⟨b, bs, rfl, hb⟩ := tagFrame_ne_zero h hready.tag_ne
    have hstart : ((b :: bs) ++ rest).take 2 ≠ [0, 0] := by
      rw [List.cons_append, List.take_succ_cons]
      intro hzero
      exact hb (List.cons.inj hzero).1
    unfold chunkEnd
    rcases stack with _ | ⟨sel, below⟩
    · rfl
    · simp only [hstart, and_false, if_false]
  obtain ⟨ids, octets, rfl, -, -, hids, -, hlen, -⟩ := tagFrame_fetch h hready.tag_lt (by omega)
  have hwindow := hw.trans (List.append_assoc ids octets w)
  rw [List.length_append] at hsize hroom ⊢
  have hbig : ¬ 2 ^ 63 ≤ left + ((ids.length + octets.length : ℕ) : ℤ) := by
    rcases hleft with ⟨rfl, -⟩ | ⟨rfl, -⟩
    · push_cast
      omega
    · push_cast
      omega
  have hfits : ¬ (roomLeft stack ≠ -1 ∧ roomLeft stack <
      ((ids.length + octets.length : ℕ) : ℤ) + (if left = -1 then 0 else left)) := by
    rintro ⟨hlimit, hshort⟩
    rcases hroom with hroom | hroom
    · exact hlimit hroom
    · rcases hleft with ⟨rfl, -⟩ | ⟨rfl, -⟩
      · rw [if_neg (by omega)] at hshort
        omega
      · rw [if_pos rfl] at hshort
        omega
  have hsame : ¬ tag ≠ expectedTag allTags stack tag := fun h => h hready.expected.symm
  have hpush := chunkPush_room hfits
  have hconstr : berTlvConstructed (ids ++ octets ++ rest) = constructed := by
    rw [List.append_assoc]
    exact (hids _).2
  have hdrop : (ids ++ octets ++ rest).drop (ids.length + octets.length) = rest := by
    rw [← List.length_append, List.drop_left]
  rw [hready.step, chunkTlv_window]
  simp only [hwindow, (hids _).1, hconstr, List.drop_left, hlen, hend, if_neg hsame, if_neg hbig, hpush,
    hdrop]

/-- A header that is cut off asks for more. -/
theorem Ready.fetched_cut (hready : Ready allTags stack tag (header.length + n + closing.length))
    (h : TagFrame tag constructed n header left closing) {p q : Bytes} (hcut : header = p ++ q)
    (hq : q ≠ []) (consumed : ℕ) (st : OctetState) :
    ∃ c, octetChunks allTags ⟨stack, p, consumed, st⟩ = (.rcWmore, c) := by
  have hsize := hready.size
  have hlt := cut_length hcut hq
  have hwindow := hready.window_all (p := p) (by omega) consumed st
  obtain ⟨ids, octets, rfl, -, -, hids, hidsCut, -, hlenCut⟩ :=
    tagFrame_fetch h hready.tag_lt (by omega)
  have hstop : chunkTlv allTags ⟨stack, p, consumed, st⟩ =
      .inl (.rcWmore, ⟨stack, p, consumed, st⟩) := by
    rcases cut_append hcut with ⟨r, hhead, hr⟩ | ⟨r, rfl, hrest⟩
    · simp only [chunkTlv_window, hwindow, hidsCut p r hhead hr]
    · obtain ⟨hfetch, hconstr⟩ := hids r
      simp only [chunkTlv_window, hwindow, hfetch, hconstr, List.drop_left, hlenCut r q hrest hq]
  exact ⟨_, octetChunks_stop ((hready.step _ _ _).trans hstop)⟩

end

section
variable {stack : List StackEl} {tag n : ℕ} {constructed : Bool} {header closing : Bytes} {left : ℤ}

theorem pushed_definite (stack : List StackEl) (tlvl n : ℕ) :
    pushed stack tlvl n = ⟨n, tlvl, false⟩ := by
  have hne : ¬ ((n : ℤ) = -1) := by omega
  simp only [pushed, hne, and_false, if_false, decide_false]

theorem pushed_opens (h : TagFrame tag constructed n header left closing)
    (hroom : RoomFor stack (header.length + n + closing.length)) :
    (pushed stack header.length left).Opens n := by
  rcases h.left with ⟨rfl, -⟩ | ⟨rfl, rfl, -⟩
  · right
    rw [pushed_definite]
  · rcases hroom with hroom | hroom
    · left
      simp only [pushed, hroom, ne_eq, not_true_eq_false, false_and, if_false, decide_true,
        and_self]
    · right
      simp only [List.length_cons, List.length_nil] at hroom
      have hlimit : roomLeft stack ≠ -1 := by omega
      simp only [pushed, hlimit, ne_eq, not_false_eq_true, true_and, if_true]
      push_cast at hroom
      omega

/-- The expectation of an encoding of indefinite length, once its contents have come. -/
theorem pushed_after_indefinite {tlvl : ℕ} (hroom : RoomFor stack (tlvl + n + 2)) :
    ∃ left, (pushed stack tlvl (-1)).after n = ⟨left, ((tlvl + n : ℕ) : ℤ), true⟩ ∧
      (left = -1 ∨ 2 ≤ left) := by
  rcases hroom with hroom | hroom
  · refine ⟨-1, ?_, Or.inl rfl⟩
    simp only [StackEl.after, pushed, hroom, ne_eq, not_true_eq_false, false_and, if_false, if_true,
      decide_true, Nat.cast_add]
  · have hlimit : roomLeft stack ≠ -1 := by omega
    have hne : ¬ roomLeft stack - tlvl = -1 := by omega
    refine ⟨roomLeft stack - tlvl - n, ?_, Or.inr (by omega)⟩
    simp only [StackEl.after, pushed, hlimit, ne_eq, not_false_eq_true, true_and, if_true, hne,
      if_false, decide_true, Nat.cast_add]

theorem pushed_after_definite (stack : List StackEl) (tlvl n : ℕ) :
    (pushed stack tlvl n).after n = ⟨0, ((tlvl + n : ℕ) : ℤ), false⟩ := by
  have hne : ¬ ((n : ℤ) = -1) := by omega
  simp only [StackEl.after, pushed_definite, hne, if_false, sub_self, Nat.cast_add]

/-- The closing of an encoding meets its expectation. -/
theorem octetChunks_closing (h : TagFrame tag constructed n header left closing)
    (hroom : RoomFor stack (header.length + n + closing.length)) (rest : Bytes) (consumed : ℕ)
    (st : OctetState) :
    ∃ el, octetChunks allTags ⟨(pushed stack header.length left).after n :: stack, closing ++ rest,
        consumed, st⟩ =
      octetChunks allTags ⟨el :: stack, rest, consumed + closing.length, st⟩ ∧
      el.Met (header.length + n + closing.length) := by
  rcases h.left with ⟨rfl, rfl⟩ | ⟨rfl, rfl, -⟩
  · rw [pushed_after_definite]
    exact ⟨_, rfl, le_refl 0, rfl, rfl⟩
  · obtain ⟨left, hafter, hleft⟩ := pushed_after_indefinite hroom
    have hw : ∃ w, leftOf left (0 :: 0 :: rest) = 0 :: 0 :: w := by
      rcases hleft with rfl | hleft
      · exact ⟨rest, rfl⟩
      · obtain ⟨k, hk⟩ : ∃ k, left.toNat = k + 2 := ⟨left.toNat - 2, by omega⟩
        refine ⟨rest.take k, ?_⟩
        rw [leftOf, if_neg (by omega), hk, List.take_succ_cons, List.take_succ_cons]
    obtain ⟨w, hw⟩ := hw
    have hfetch : berFetchTag (0 :: 0 :: w) = .got 1 0 := rfl
    have hlen : berFetchLength (berTlvConstructed (0 :: 0 :: rest)) (List.drop 1 (0 :: 0 :: w)) =
      .got 1 0 := rfl
    refine ⟨⟨0, ((header.length + n : ℕ) : ℤ) + 2, false⟩, ?_, le_refl 0, rfl, ?_⟩
    · rw [hafter]
      apply octetChunks_step
      simp only [chunkStep, Bool.true_eq_false, and_false, if_false, chunkTlv_window,
        Chunks.window_cons, List.cons_append, List.nil_append, hw, hfetch, hlen]
      rfl
    · simp only [List.length_cons, List.length_nil]
      push_cast
      omega

theorem octetChunks_closing_cut (h : TagFrame tag constructed n header left closing)
    (hroom : RoomFor stack (header.length + n + closing.length)) {p q : Bytes}
    (hcut : closing = p ++ q) (hq : q ≠ []) (consumed : ℕ) (st : OctetState) :
    ∃ c, octetChunks allTags ⟨(pushed stack header.length left).after n :: stack, p,
      consumed, st⟩ = (.rcWmore, c) := by
  rcases h.left with ⟨-, rfl⟩ | ⟨rfl, rfl, -⟩
  · exact absurd hq (fun hq => cut_nil hcut hq)
  · obtain ⟨left, hafter, hleft⟩ := pushed_after_indefinite hroom
    have hall : leftOf left p = p := by
      have hlen := cut_length hcut hq
      simp only [List.length_cons, List.length_nil] at hlen
      rcases hleft with rfl | hleft
      · rfl
      · rw [leftOf, if_neg (by omega), List.take_of_length_le (by omega)]
    have hstop : chunkTlv allTags
          ⟨⟨left, ((header.length + n : ℕ) : ℤ), true⟩ :: stack, p, consumed, st⟩ =
        .inl (.rcWmore,
          ⟨⟨left, ((header.length + n : ℕ) : ℤ), true⟩ :: stack, p, consumed, st⟩) := by
      rcases cut_cons hcut with rfl | ⟨r, rfl, hrest⟩
      · simp only [chunkTlv_window, Chunks.window_cons, hall]
        rfl
      · rcases cut_cons hrest with rfl | ⟨r', rfl, hrest'⟩
        · simp only [chunkTlv_window, Chunks.window_cons, hall]
          rfl
        · exact absurd hq (fun hq => cut_nil hrest' hq)
    have hunmet : ¬ (left ≤ 0 ∧ true = false) := fun hmet => Bool.noConfusion hmet.2
    rw [hafter]
    exact ⟨_, octetChunks_stop ((octetChunks_tlv hunmet).trans hstop)⟩

end

/-! ### Runs over segments -/

section
variable {stack : List StackEl} {tag : ℕ} {header contents closing : Bytes} {left : ℤ}

theorem octetChunks_primitive
    (hready : Ready allTags stack tag (header.length + contents.length))
    (h : TagFrame tag false contents.length header left closing) {st : OctetState}
    (hfits : st.Fits) (hlt : st.buf.length + contents.length < 2 ^ 30) (consumed : ℕ)
    (rest : Bytes) :
    ∃ el st', octetChunks allTags ⟨stack, header ++ (contents ++ rest), consumed, st⟩ =
      octetChunks allTags
        ⟨el :: stack, rest, consumed + (header.length + contents.length), st'⟩ ∧
      el.Met (header.length + contents.length) ∧ st'.Fits ∧ st'.buf = st.buf ++ contents := by
  rcases h.left with ⟨rfl, rfl⟩ | ⟨-, -, hc⟩
  · obtain ⟨st', el, hbody, hmet, hfits', hbuf⟩ :=
      chunkBody_whole stack rest (consumed + header.length) header.length hfits hlt
    refine ⟨el, st', ?_, hmet, hfits', hbuf⟩
    apply octetChunks_step
    rw [hready.fetched h, if_neg (by decide), pushed_definite, hbody, Nat.add_assoc consumed]
  · cases hc

theorem octetChunks_primitive_cut
    (hready : Ready allTags stack tag (header.length + contents.length))
    (h : TagFrame tag false contents.length header left closing) {st : OctetState}
    (hfits : st.Fits) (hlt : st.buf.length + contents.length < 2 ^ 30) (consumed : ℕ)
    {p q : Bytes} (hcut : header ++ contents = p ++ q) (hq : q ≠ []) :
    ∃ c, octetChunks allTags ⟨stack, p, consumed, st⟩ = (.rcWmore, c) := by
  rcases h.left with ⟨rfl, rfl⟩ | ⟨-, -, hc⟩
  · rcases cut_append hcut with ⟨r, hhead, hr⟩ | ⟨r, rfl, hbody⟩
    · exact hready.fetched_cut h hhead hr consumed st
    · have hshort := cut_length hbody hq
      obtain ⟨c, hc⟩ := chunkBody_cut stack (consumed + header.length) header.length hfits hshort
        (by omega)
      refine ⟨c, octetChunks_stop ?_⟩
      rw [hready.fetched h, if_neg (by decide), pushed_definite, hc]
  · cases hc

end

/- What a string in segments needs to be read to its end. -/
structure Filling (allTags : List ℕ) (sel : StackEl) (encs str : Bytes) (st : OctetState) :
    Prop where
  tags : SegmentTags allTags
  opens : sel.Opens encs.length
  size : encs.length < 2 ^ 62
  fits : st.Fits
  short : st.buf.length + str.length < 2 ^ 30

theorem Filling.ready {sel : StackEl} {enc encs str : Bytes} {st : OctetState}
    (h : Filling allTags sel (enc ++ encs) str st) (hpos : 0 < enc.length)
    (below : List StackEl) :
    Ready allTags (sel :: below) (segmentTag allTags below.length) enc.length := by
  have hopens := h.opens
  have hsize := h.size
  rw [List.length_append] at hopens hsize
  exact (hopens.mono (Nat.le_add_right _ _)).ready hpos (by omega) h.tags below

theorem Filling.rest {sel : StackEl} {enc encs part str : Bytes} {st st' : OctetState}
    (h : Filling allTags sel (enc ++ encs) (part ++ str) st) (hfits : st'.Fits)
    (hbuf : st'.buf = st.buf ++ part) : Filling allTags (sel.after enc.length) encs str st' := by
  have hopens := h.opens
  have hsize := h.size
  have hshort := h.short
  rw [List.length_append] at hopens hsize hshort
  refine ⟨h.tags, hopens.after, by omega, hfits, ?_⟩
  rw [hbuf, List.length_append]
  omega

/-- All of it is appended, whatever follows. -/
def Runs (allTags : List ℕ) (below : List StackEl) (encs str : Bytes) : Prop :=
  ∀ sel consumed st rest, Filling allTags sel encs str st →
    ∃ st', octetChunks allTags ⟨sel :: below, encs ++ rest, consumed, st⟩ =
        octetChunks allTags ⟨sel.after encs.length :: below, rest, consumed + encs.length, st'⟩ ∧
      st'.Fits ∧ st'.buf = st.buf ++ str

/-- A part of it asks for more. -/
def Waits (allTags : List ℕ) (below : List StackEl) (encs str : Bytes) : Prop :=
  ∀ sel consumed st p q, Filling allTags sel encs str st → encs = p ++ q → q ≠ [] →
    ∃ c, octetChunks allTags ⟨sel :: below, p, consumed, st⟩ = (.rcWmore, c)

section
variable {stack : List StackEl} {tag : ℕ} {header inner closing part : Bytes} {left : ℤ}
  {st : OctetState}

theorem Ready.filling
    (hready : Ready allTags stack tag (header.length + inner.length + closing.length))
    (h : TagFrame tag true inner.length header left closing) (htags : SegmentTags allTags)
    (hfits : st.Fits) (hlt : st.buf.length + part.length < 2 ^ 30) :
    Filling allTags (pushed stack header.length left) inner part st := by
  have hsize := hready.size
  exact ⟨htags, pushed_opens h hready.room, by omega, hfits, hlt⟩

theorem Ready.opened
    (hready : Ready allTags stack tag (header.length + inner.length + closing.length))
    (h : TagFrame tag true inner.length header left closing) (rest : Bytes) (consumed : ℕ)
    (st : OctetState) :
    octetChunks allTags ⟨stack, header ++ rest, consumed, st⟩ =
      octetChunks allTags
        ⟨pushed stack header.length left :: stack, rest, consumed + header.length, st⟩ := by
  apply octetChunks_step
  rw [hready.fetched h, if_pos rfl]

theorem Runs.framed (hrun : Runs allTags stack inner part)
    (hready : Ready allTags stack tag (header.length + inner.length + closing.length))
    (h : TagFrame tag true inner.length header left closing) (htags : SegmentTags allTags)
    (hfits : st.Fits) (hlt : st.buf.length + part.length < 2 ^ 30) (consumed : ℕ) (rest : Bytes) :
    ∃ el st', octetChunks allTags
        ⟨stack, header ++ (inner ++ (closing ++ rest)), consumed, st⟩ =
      octetChunks allTags
        ⟨el :: stack, rest, consumed + (header.length + inner.length + closing.length), st'⟩ ∧
      el.Met (header.length + inner.length + closing.length) ∧ st'.Fits ∧
      st'.buf = st.buf ++ part := by
  have hfill := hready.filling h htags hfits hlt
  obtain ⟨st', hinner, hfits', hbuf⟩ :=
    hrun _ (consumed + header.length) _ (closing ++ rest) hfill
  obtain ⟨el, hclosing, hmet⟩ := octetChunks_closing h hready.room rest
    (consumed + header.length + inner.length) st'
  refine ⟨el, st', ?_, hmet, hfits', hbuf⟩
  calc octetChunks allTags ⟨stack, header ++ (inner ++ (closing ++ rest)), consumed, st⟩
    _ = octetChunks allTags ⟨pushed stack header.length left :: stack,
          inner ++ (closing ++ rest), consumed + header.length, st⟩ := hready.opened h _ _ _
    _ = octetChunks allTags ⟨(pushed stack header.length left).after inner.length :: stack,
          closing ++ rest, consumed + header.length + inner.length, st'⟩ := hinner
    _ = octetChunks allTags ⟨el :: stack, rest,
          consumed + header.length + inner.length + closing.length, st'⟩ := hclosing
    _ = octetChunks allTags ⟨el :: stack, rest,
          consumed + (header.length + inner.length + closing.length), st'⟩ := by
        rw [Nat.add_assoc consumed, Nat.add_assoc consumed]

theorem Waits.framed (hwait : Waits allTags stack inner part) (hrun : Runs allTags stack inner part)
    (hready : Ready allTags stack tag (header.length + inner.length + closing.length))
    (h : TagFrame tag true inner.length header left closing) (htags : SegmentTags allTags)
    (hfits : st.Fits) (hlt : st.buf.length + part.length < 2 ^ 30) (consumed : ℕ) {p q : Bytes}
    (hcut : header ++ (inner ++ closing) = p ++ q) (hq : q ≠ []) :
    ∃ c, octetChunks allTags ⟨stack, p, consumed, st⟩ = (.rcWmore, c) := by
  have hfill := hready.filling h htags hfits hlt
  rcases cut_append hcut with ⟨r, hhead, hr⟩ | ⟨r, rfl, hbody⟩
  · exact hready.fetched_cut h hhead hr consumed st
  · rw [hready.opened h]
    rcases cut_append hbody with ⟨r', hhead, hr⟩ | ⟨r', rfl, hlast⟩
    · exact hwait _ _ _ r r' hfill hhead hr
    · obtain ⟨st', hinner, -, -⟩ := hrun _ (consumed + header.length) _ r' hfill
      rw [hinner]
      exact octetChunks_closing_cut h hready.room hlast hq _ _

end

/-- A value that is read whole is taken off what the one below it waits for. -/
theorem Filling.pop {sel el : StackEl} {below : List StackEl} {enc encs str rest : Bytes}
    {consumed : ℕ} {st st' : OctetState} (h : Filling allTags sel (enc ++ encs) str st)
    (hmet : el.Met enc.length) :
    octetChunks allTags ⟨el :: sel :: below, rest, consumed, st'⟩ =
      octetChunks allTags ⟨sel.after enc.length :: below, rest, consumed, st'⟩ := by
  have hopens := h.opens
  rw [List.length_append] at hopens
  exact octetChunks_pop hmet (hopens.mono (Nat.le_add_right _ _))

theorem Filling.after_after {sel : StackEl} {enc encs str : Bytes} {st : OctetState}
    (h : Filling allTags sel (enc ++ encs) str st) :
    (sel.after enc.length).after encs.length = sel.after (enc ++ encs).length := by
  have hopens := h.opens
  rw [List.length_append] at hopens ⊢
  exact StackEl.after_after hopens

theorem StringParts.runs {depth : ℕ} {encs str : Bytes} (h : StringParts allTags depth encs str)
    {below : List StackEl} (hdepth : below.length = depth) : Runs allTags below encs str := by
  induction h generalizing below with
  | nil depth =>
    intro sel consumed st rest hfill
    have hsame : sel.after 0 = sel := by
      obtain ⟨left, got, wantNulls⟩ := sel
      simp only [StackEl.after, Nat.cast_zero, sub_zero, add_zero, StackEl.mk.injEq, and_true]
      split_ifs with hleft
      · exact hleft.symm
      · rfl
    refine ⟨st, ?_, hfill.fits, (List.append_nil _).symm⟩
    rw [List.length_nil, hsame, List.nil_append, Nat.add_zero]
  | @primitive depth header contents closing encs str left hframe hs ih =>
    intro sel consumed st rest hfill
    have hcount : (header ++ contents).length = header.length + contents.length :=
      List.length_append
    have htwo := tagFrame_two_le hframe
    have hready := hfill.ready (by rw [hcount]; omega) below
    rw [hdepth, hcount] at hready
    have hshort := hfill.short
    rw [List.length_append] at hshort
    obtain ⟨el, st₁, hread, hmet, hfits, hbuf⟩ := octetChunks_primitive hready hframe hfill.fits
      (by omega) consumed (encs ++ rest)
    rw [← hcount] at hread hmet
    obtain ⟨st₂, hrest, hfits', hbuf'⟩ := ih hdepth _ (consumed + _) _ rest
      (hfill.rest hfits hbuf)
    refine ⟨st₂, ?_, hfits', by rw [hbuf', hbuf, List.append_assoc]⟩
    rw [List.append_assoc, List.append_assoc, hread, hfill.pop hmet, hrest, hfill.after_after,
      Nat.add_assoc consumed, ← List.length_append]
  | @constructed depth header inner closing part encs str left hframe hinner hs ihinner ih =>
    intro sel consumed st rest hfill
    have hcount : (header ++ (inner ++ closing)).length =
        header.length + inner.length + closing.length := by
      rw [List.length_append, List.length_append, Nat.add_assoc]
    have htwo := tagFrame_two_le hframe
    have hready := hfill.ready (by rw [hcount]; omega) below
    rw [hdepth, hcount] at hready
    have hshort := hfill.short
    rw [List.length_append] at hshort
    have hrun : Runs allTags (sel :: below) inner part := ihinner (by rw [List.length_cons, hdepth])
    obtain ⟨el, st₁, hread, hmet, hfits, hbuf⟩ := hrun.framed hready hframe hfill.tags hfill.fits
      (by omega) consumed (encs ++ rest)
    rw [← hcount] at hread hmet
    obtain ⟨st₂, hrest, hfits', hbuf'⟩ := ih hdepth _ (consumed + _) _ rest
      (hfill.rest hfits hbuf)
    refine ⟨st₂, ?_, hfits', by rw [hbuf', hbuf, List.append_assoc]⟩
    rw [List.append_assoc, List.append_assoc, List.append_assoc, hread, hfill.pop hmet, hrest,
      hfill.after_after, Nat.add_assoc consumed, ← List.length_append]

theorem StringParts.waits {depth : ℕ} {encs str : Bytes} (h : StringParts allTags depth encs str)
    {below : List StackEl} (hdepth : below.length = depth) : Waits allTags below encs str := by
  induction h generalizing below with
  | nil depth =>
    intro sel consumed st p q hfill hcut hq
    exact absurd (List.append_eq_nil_iff.mp hcut.symm).2 hq
  | @primitive depth header contents closing encs str left hframe hs ih =>
    intro sel consumed st p q hfill hcut hq
    have hcount : (header ++ contents).length = header.length + contents.length :=
      List.length_append
    have htwo := tagFrame_two_le hframe
    have hready := hfill.ready (by rw [hcount]; omega) below
    rw [hdepth, hcount] at hready
    have hshort := hfill.short
    rw [List.length_append] at hshort
    rcases cut_append hcut with ⟨r, hone, hr⟩ | ⟨r, rfl, hmore⟩
    · exact octetChunks_primitive_cut hready hframe hfill.fits (by omega) consumed hone hr
    · obtain ⟨el, st₁, hread, hmet, hfits, hbuf⟩ := octetChunks_primitive hready hframe hfill.fits
        (by omega) consumed r
      rw [← hcount] at hread hmet
      rw [List.append_assoc, hread, hfill.pop hmet]
      exact ih hdepth _ _ _ r q (hfill.rest hfits hbuf) hmore hq
  | @constructed depth header inner closing part encs str left hframe hinner hs ihinner ih =>
    intro sel consumed st p q hfill hcut hq
    have hcount : (header ++ (inner ++ closing)).length =
        header.length + inner.length + closing.length := by
      rw [List.length_append, List.length_append, Nat.add_assoc]
    have htwo := tagFrame_two_le hframe
    have hready := hfill.ready (by rw [hcount]; omega) below
    rw [hdepth, hcount] at hready
    have hshort := hfill.short
    rw [List.length_append] at hshort
    have hbelow : (sel :: below).length = depth + 1 := by rw [List.length_cons, hdepth]
    have hrun : Runs allTags (sel :: below) inner part := hinner.runs hbelow
    rcases cut_append hcut with ⟨r, hone, hr⟩ | ⟨r, rfl, hmore⟩
    · exact (ihinner hbelow).framed hrun hready hframe hfill.tags hfill.fits (by omega) consumed
        hone hr
    · obtain ⟨el, st₁, hread, hmet, hfits, hbuf⟩ := hrun.framed hready hframe hfill.tags hfill.fits
        (by omega) consumed r
      rw [← hcount] at hread hmet
      rw [List.append_assoc, List.append_assoc, hread, hfill.pop hmet]
      exact ih hdepth _ _ _ r q (hfill.rest hfits hbuf) hmore hq

end

end Fws
