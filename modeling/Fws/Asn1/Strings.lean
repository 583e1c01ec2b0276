import Fws.Asn1.Segments

/-!
# The strings that are decoded

Every encoding of a string is taken, every part of one asks for more, and what is
taken was an encoding. For the last of these the stack of expectations is read as
the encodings that were begun, outermost last.
-/

namespace Fws
open Base.Digits Base.Tlv Base.Ber

section
variable {tags allTags : List ℕ} {tag : ℕ} {str enc : Bytes}

theorem octetAppend_buf {st st' : OctetState} {bs : Bytes} (h : octetAppend st bs = some st') :
    st'.buf = st.buf ++ bs := by
  unfold octetAppend at h
  simp only at h
  split_ifs at h
  all_goals
    cases h
    rfl

theorem octetPrimitive_whole {header : ℕ} (hstr : str.length < 2 ^ 30) (rest : Bytes) :
    octetPrimitive str.length (str ++ rest) header = (⟨.rcOk, header + str.length⟩, str) := by
  obtain ⟨context, happ⟩ := octetAppend_some hstr
  have hshort : ¬ (((str ++ rest).length : ℕ) : ℤ) < (str.length : ℤ) := by
    rw [List.length_append]
    omega
  simp only [octetPrimitive, if_neg hshort, Int.toNat_natCast, List.take_left' rfl, happ]

theorem octetPrimitive_cut (header : ℕ) {n : ℕ} {p : Bytes} (hn : n < 2 ^ 30) (hp : p.length < n) :
    ∃ r, octetPrimitive n p header = r ∧ r.1.code = .rcWmore := by
  obtain ⟨context, happ⟩ := octetAppend_some (show p.length < 2 ^ 30 by omega)
  have hshort : ((p.length : ℕ) : ℤ) < (n : ℤ) := by omega
  refine ⟨_, rfl, ?_⟩
  by_cases hnil : p = []
  · simp only [octetPrimitive, if_pos hshort, if_pos hnil]
  · simp only [octetPrimitive, if_pos hshort, if_neg hnil, happ]

/-- Every encoding is taken, whatever follows it. -/
theorem octetString_takes (htags : tags.length = 1) (hsegments : SegmentTags allTags)
    (htag : berTagValue tag < 2 ^ 30) (hne : tag ≠ 0) (h : StringBer tag allTags 0 str enc)
    (hstr : str.length < 2 ^ 30) (henc : enc.length < 2 ^ 62) (rest : Bytes) :
    octetStringDecodeBer tags allTags .implicit (enc ++ rest) = (⟨.rcOk, enc.length⟩, str) := by
  obtain ⟨t, rfl⟩ := List.length_eq_one_iff.mp htags
  have hchain : tagChain [t] .implicit = [none] := rfl
  cases h with
  | @primitive header closing left hframe =>
    rw [List.length_append] at henc
    have hcheck := berCheckTags_frame true hchain (Or.inl rfl) (Or.inl rfl) htag hframe
      (by omega) (str ++ rest)
    rcases hframe.left with ⟨rfl, -⟩ | ⟨-, -, hc⟩
    · rw [List.append_assoc]
      simp only [octetStringDecodeBer, hcheck, ne_eq, not_true_eq_false, if_false,
        Bool.false_eq_true, List.drop_left, octetPrimitive_whole hstr, List.length_append]
    · cases hc
  | @constructed header inner closing left hframe hinner =>
    rw [List.length_append, List.length_append] at henc
    have hcheck := berCheckTags_frame true hchain (Or.inl rfl) (Or.inl rfl) htag hframe
      (by omega) (inner ++ (closing ++ rest))
    have hready : Ready allTags [] tag (header.length + inner.length + closing.length) :=
      Ready.outermost htag hne (by omega)
    have hrun : Runs allTags [] inner str := hinner.runs rfl
    have hfits : OctetState.Fits ⟨[], 0⟩ := Or.inl ⟨rfl, rfl⟩
    obtain ⟨el, st', hread, hmet, -, hbuf⟩ := hrun.framed hready hframe hsegments hfits
      (by rw [List.length_nil]; omega) 0 rest
    rw [octetChunks_met hmet] at hread
    rw [List.append_assoc, List.append_assoc]
    simp only [octetStringDecodeBer, hcheck, ne_eq, not_true_eq_false, if_false, if_true, hread,
      hbuf, List.nil_append, List.length_append, Nat.zero_add, Nat.add_assoc]

/-- A part of an encoding asks for more. -/
theorem octetString_waits (htags : tags.length = 1) (hsegments : SegmentTags allTags)
    (htag : berTagValue tag < 2 ^ 30) (hne : tag ≠ 0) {p q : Bytes}
    (h : StringBer tag allTags 0 str (p ++ q)) (hstr : str.length < 2 ^ 30)
    (henc : (p ++ q).length < 2 ^ 62) (hq : q ≠ []) :
    ∃ r, octetStringDecodeBer tags allTags .implicit p = r ∧ r.1.code = .rcWmore := by
  obtain ⟨t, rfl⟩ := List.length_eq_one_iff.mp htags
  have hchain : tagChain [t] .implicit = [none] := rfl
  generalize hwhole : p ++ q = enc at h henc
  refine ⟨_, rfl, ?_⟩
  cases h with
  | @primitive header closing left hframe =>
    rw [List.length_append] at henc
    rcases cut_append hwhole.symm with ⟨r, hhead, hr⟩ | ⟨r, rfl, hbody⟩
    · have hcheck := berCheckTags_frame_cut true hchain (Or.inl rfl) (Or.inl rfl) htag
        hframe (by omega) hhead hr
      simp only [octetStringDecodeBer, hcheck, ne_eq, reduceCtorEq, not_false_eq_true, if_true]
    · have hcheck := berCheckTags_frame true hchain (Or.inl rfl) (Or.inl rfl) htag
        hframe (by omega) r
      rcases hframe.left with ⟨rfl, -⟩ | ⟨-, -, hc⟩
      · have hshort := cut_length hbody hq
        obtain ⟨a, ha, hcode⟩ := octetPrimitive_cut header.length hstr hshort
        simp only [octetStringDecodeBer, hcheck, ne_eq, not_true_eq_false, if_false,
          Bool.false_eq_true, List.drop_left, ha, hcode]
      · cases hc
  | @constructed header inner closing left hframe hinner =>
    rw [List.length_append, List.length_append] at henc
    rcases cut_append hwhole.symm with ⟨r, hhead, hr⟩ | ⟨r, rfl, hbody⟩
    · have hcheck := berCheckTags_frame_cut true hchain (Or.inl rfl) (Or.inl rfl) htag
        hframe (by omega) hhead hr
      simp only [octetStringDecodeBer, hcheck, ne_eq, reduceCtorEq, not_false_eq_true, if_true]
    · have hcheck := berCheckTags_frame true hchain (Or.inl rfl) (Or.inl rfl) htag
        hframe (by omega) r
      have hready : Ready allTags [] tag (header.length + inner.length + closing.length) :=
        Ready.outermost htag hne (by omega)
      have hrun : Runs allTags [] inner str := hinner.runs rfl
      have hwait : Waits allTags [] inner str := hinner.waits rfl
      have hfits : OctetState.Fits ⟨[], 0⟩ := Or.inl ⟨rfl, rfl⟩
      obtain ⟨c, hc⟩ := hwait.framed hrun hready hframe hsegments hfits
        (by rw [List.length_nil]; omega) 0 hwhole.symm hq
      simp only [octetStringDecodeBer, hcheck, ne_eq, not_true_eq_false, if_false, if_true, hc]

end

/-! ### What was taken -/

theorem StringParts.append {allTags : List ℕ} {depth : ℕ} {encs str encs' str' : Bytes}
    (h : StringParts allTags depth encs str) (h' : StringParts allTags depth encs' str') :
    StringParts allTags depth (encs ++ encs') (str ++ str') := by
  induction h with
  | nil depth => exact h'
  | primitive hframe hs ih =>
    have hmore := StringParts.primitive hframe (ih h')
    simp only [List.append_assoc] at hmore ⊢
    exact hmore
  | constructed hframe hinner hs ihinner ih =>
    have hmore := StringParts.constructed hframe hinner (ih h')
    simp only [List.append_assoc] at hmore ⊢
    exact hmore

/-- A string under the tag of the segments is a segment. -/
theorem StringBer.part {allTags : List ℕ} {depth : ℕ} {str enc : Bytes}
    (h : StringBer (segmentTag allTags depth) allTags (depth + 1) str enc) :
    StringParts allTags depth enc str := by
  cases h with
  | primitive hframe =>
    have hone := StringParts.primitive hframe (.nil depth)
    rw [List.append_nil, List.append_nil] at hone
    exact hone
  | constructed hframe hinner =>
    have hone := StringParts.constructed hframe hinner (.nil depth)
    rw [List.append_nil, List.append_nil] at hone
    exact hone

theorem StringBer.pos {tag : ℕ} {allTags : List ℕ} {depth : ℕ} {str enc : Bytes}
    (h : StringBer tag allTags depth str enc) : 0 < enc.length := by
  cases h with
  | primitive hframe =>
    have htwo := tagFrame_two_le hframe
    rw [List.length_append]
    omega
  | constructed hframe hinner =>
    have htwo := tagFrame_two_le hframe
    rw [List.length_append]
    omega

/- What an expectation has got: the header of a value with segments behind it, or
a value that is whole. -/
inductive Level (allTags : List ℕ) (tag depth : ℕ) (el : StackEl) : Bytes → Bytes → Prop where
  | begun {header inner part : Bytes} {left : ℤ} (h : Opened tag true header left)
      (hinner : StringParts allTags depth inner part)
      (hgot : el.got = header.length + inner.length)
      (hleft : el.wantNulls = true ∧ left = -1 ∨
        el.wantNulls = false ∧ 0 ≤ el.left ∧ el.left = left - inner.length) :
      Level allTags tag depth el (header ++ inner) part
  | whole {enc part : Bytes} (h : StringBer tag allTags depth part enc) (hgot : el.got = enc.length)
      (hleft : el.left = 0) (hnulls : el.wantNulls = false) :
      Level allTags tag depth el enc part

/- The tag of the value that the expectation above so many others waits for. -/
def levelTag (tag : ℕ) (allTags : List ℕ) : ℕ → ℕ
  | 0 => tag
  | depth + 1 => segmentTag allTags depth

/- The bytes that a stack stands for, and the string in them. -/
inductive Held (tag : ℕ) (allTags : List ℕ) : List StackEl → Bytes → Bytes → Prop where
  | nil : Held tag allTags [] [] []
  | cons {el : StackEl} {below : List StackEl} {taken str bytes part : Bytes}
      (hbelow : Held tag allTags below taken str)
      (h : Level allTags (levelTag tag allTags below.length) below.length el bytes part) :
      Held tag allTags (el :: below) (taken ++ bytes) (str ++ part)

theorem Held.empty {tag : ℕ} {allTags : List ℕ} {taken str : Bytes}
    (h : Held tag allTags [] taken str) : taken = [] ∧ str = [] := by
  cases h
  exact ⟨rfl, rfl⟩

theorem Held.top {tag : ℕ} {allTags : List ℕ} {el : StackEl} {below : List StackEl}
    {taken str : Bytes} (h : Held tag allTags (el :: below) taken str) :
    ∃ taken' str' bytes part, taken = taken' ++ bytes ∧ str = str' ++ part ∧
      Held tag allTags below taken' str' ∧
      Level allTags (levelTag tag allTags below.length) below.length el bytes part := by
  cases h with
  | cons hbelow hlevel => exact ⟨_, _, _, _, rfl, rfl, hbelow, hlevel⟩

section
variable {allTags : List ℕ} {tag depth : ℕ} {el : StackEl} {bytes part : Bytes}

/-- An expectation that is met got a whole value. -/
theorem Level.met (h : Level allTags tag depth el bytes part)
    (hmet : el.left ≤ 0 ∧ el.wantNulls = false) :
    StringBer tag allTags depth part bytes ∧ el.got = bytes.length := by
  obtain ⟨hle, hfalse⟩ := hmet
  cases h with
  | @begun header inner _ left hopened hinner hgot hleft =>
    rcases hleft with ⟨htrue, -⟩ | ⟨-, hge, heq⟩
    · rw [hfalse] at htrue
      cases htrue
    · have hframe := hopened.definite inner.length (by omega)
      have hwhole := StringBer.constructed hframe hinner
      rw [List.append_nil] at hwhole
      refine ⟨hwhole, ?_⟩
      rw [hgot, List.length_append, Nat.cast_add]
  | whole hwhole hgot hleft hnulls => exact ⟨hwhole, hgot⟩

/-- A whole value is one more segment of the expectation below it. -/
theorem Level.grow {enc str : Bytes}
    (h : Level allTags tag depth el bytes part)
    (hpart : StringParts allTags depth enc str) (hpos : 0 < enc.length)
    (hfits : ¬ (el.left ≠ -1 ∧ el.left < (enc.length : ℤ))) :
    Level allTags tag depth
      ⟨if el.left ≠ -1 then el.left - enc.length else el.left, el.got + enc.length, el.wantNulls⟩
      (bytes ++ enc) (part ++ str) := by
  cases h with
  | @begun header inner _ left hopened hinner hgot hleft =>
    rw [List.append_assoc]
    apply Level.begun hopened (hinner.append hpart)
    · simp only [hgot, List.length_append, Nat.cast_add]
      ring
    · rcases hleft with ⟨htrue, hleft⟩ | ⟨hfalse, hge, heq⟩
      · exact Or.inl ⟨htrue, hleft⟩
      · have hne : el.left ≠ -1 := by omega
        have hroom : (enc.length : ℤ) ≤ el.left := by
          by_contra hlt
          exact hfits ⟨hne, not_le.mp hlt⟩
        refine Or.inr ⟨hfalse, ?_, ?_⟩
        · simp only [if_pos hne]
          omega
        · simp only [if_pos hne, List.length_append, Nat.cast_add]
          omega
  | whole hwhole hgot hleft hnulls =>
    exact absurd ⟨by omega, by omega⟩ hfits

/-- Two zero octets end a value of indefinite length. -/
theorem Level.close (h : Level allTags tag depth el bytes part) (hnulls : el.wantNulls = true) :
    Level allTags tag depth ⟨0, el.got + 2, false⟩ (bytes ++ [0, 0]) part := by
  cases h with
  | @begun header inner _ left hopened hinner hgot hleft =>
    rcases hleft with ⟨-, hleft⟩ | ⟨hfalse, -⟩
    · have hframe := hopened.indefinite hleft inner.length
      have hwhole := StringBer.constructed hframe hinner
      rw [List.append_assoc]
      apply Level.whole hwhole
      · simp only [hgot, List.length_append, List.length_cons, List.length_nil]
        push_cast
        ring
      · rfl
      · rfl
    · rw [hnulls] at hfalse
      cases hfalse
  | whole hwhole hgot hleft hfalse =>
    rw [hnulls] at hfalse
    cases hfalse

/-! ### Steps -/

/-- A window is a part of the buffer, with the same first octet. -/
theorem Chunks.window_prefix (c : Chunks) : ∃ rest, c.bs = c.window ++ rest := by
  obtain ⟨stack, bs, consumed, st⟩ := c
  cases stack with
  | nil => exact ⟨[], (List.append_nil bs).symm⟩
  | cons sel below =>
    rw [Chunks.window_cons]
    by_cases hneg : sel.left < 0
    · rw [leftOf, if_pos hneg]
      exact ⟨[], (List.append_nil bs).symm⟩
    · rw [leftOf, if_neg hneg]
      exact ⟨bs.drop sel.left.toNat, (List.take_append_drop _ bs).symm⟩

theorem berTlvConstructed_append {bs : Bytes} (hpos : 0 < bs.length) (rest : Bytes) :
    berTlvConstructed (bs ++ rest) = berTlvConstructed bs := by
  cases bs with
  | nil => cases hpos
  | cons b bs => rfl

/-- The loop goes on behind the closing of a value or with the header of one. -/
theorem chunkTlv_sound {c c' : Chunks} (h : chunkTlv allTags c = .inr c') :
    chunkEnd c = some c' ∨
    ∃ t constructed header left rest, c.bs = header ++ rest ∧ Opened t constructed header left ∧
      berTagValue t < 2 ^ 30 ∧ (∃ k, berFetchTag c.window = .got k t) ∧
      t = expectedTag allTags c.stack t ∧
      (constructed = true ∧ c' = ⟨pushed c.stack header.length left :: c.stack, rest,
          c.consumed + header.length, c.st⟩ ∨
        constructed = false ∧ chunkBody ⟨c.stack, rest, c.consumed + header.length, c.st⟩
          (pushed c.stack header.length left) = .inr c') := by
  rw [chunkTlv_window] at h
  obtain ⟨behind, hbs⟩ := c.window_prefix
  rcases htag : berFetchTag c.window with _ | _ | ⟨tl, t⟩
  · simp only [htag] at h
    cases h
  · simp only [htag] at h
    cases h
  · have hpos : 0 < c.window.length := by
      have hgot := berFetchTag_got htag
      omega
    have hsame : berTlvConstructed c.bs = berTlvConstructed c.window := by
      rw [hbs]
      exact berTlvConstructed_append hpos behind
    rcases hlen : berFetchLength (berTlvConstructed c.bs) (c.window.drop tl) with
      _ | _ | ⟨ll, left⟩
    · simp only [htag, hlen] at h
      cases h
    · simp only [htag, hlen] at h
      cases h
    · rcases hend : chunkEnd c with _ | c₀
      · simp only [htag, hlen, hend] at h
        have hother : ¬ t ≠ expectedTag allTags c.stack t := by
          intro hother
          rw [if_pos hother] at h
          cases h
        have hbig : ¬ 2 ^ 63 ≤ left + ((tl + ll : ℕ) : ℤ) := by
          intro hbig
          rw [if_neg hother, if_pos hbig] at h
          cases h
        rw [if_neg hother, if_neg hbig] at h
        rcases hpush : chunkPush c.stack (tl + ll) left with _ | el
        · simp only [hpush] at h
          cases h
        · simp only [hpush] at h
          have hfits : ¬ (roomLeft c.stack ≠ -1 ∧
              roomLeft c.stack < ((tl + ll : ℕ) : ℤ) + (if left = -1 then 0 else left)) := by
            intro hshort
            have hnone : chunkPush c.stack (tl + ll) left = none := by
              unfold chunkPush
              rcases hs : c.stack with _ | ⟨sel, below⟩
              · rw [hs] at hshort
                exact absurd rfl hshort.1
              · rw [hs] at hshort
                simp only [roomLeft] at hshort
                simp only [if_pos hshort]
            rw [hnone] at hpush
            cases hpush
          rw [chunkPush_room hfits] at hpush
          cases hpush
          rw [hsame] at hlen
          obtain ⟨header, rest, hwindow, hheader, hopened, hvalue, -⟩ := opened_of_fetch htag hlen
          have hwhole : c.bs = header ++ (rest ++ behind) := by
            rw [hbs, hwindow, List.append_assoc]
          have hdrop : c.bs.drop (tl + ll) = rest ++ behind := by
            rw [hwhole, ← hheader, List.drop_left]
          rw [hdrop, ← hheader] at h
          refine Or.inr ⟨t, _, header, left, rest ++ behind, hwhole, hopened, hvalue, ⟨tl, rfl⟩,
            not_not.mp hother, ?_⟩
          rw [hsame] at h
          by_cases hc : berTlvConstructed c.window = true
          · rw [if_pos hc] at h
            cases h
            exact Or.inl ⟨hc, rfl⟩
          · rw [if_neg hc] at h
            exact Or.inr ⟨Bool.not_eq_true _ ▸ hc, h⟩
      · simp only [htag, hlen, hend] at h
        cases h
        exact Or.inl rfl

/-- The contents of a primitive value are all there. -/
theorem chunkBody_sound {stack : List StackEl} {bs : Bytes} {consumed : ℕ} {st : OctetState}
    {el : StackEl} {c' : Chunks} (h : chunkBody ⟨stack, bs, consumed, st⟩ el = .inr c') :
    ∃ contents rest st', bs = contents ++ rest ∧ (contents.length : ℤ) = el.left ∧
      st'.buf = st.buf ++ contents ∧
      c' = ⟨⟨0, el.got + contents.length, el.wantNulls⟩ :: stack, rest,
        consumed + contents.length, st'⟩ := by
  unfold chunkBody at h
  simp only at h
  generalize hlen : min bs.length el.left.toNat = len at h
  have htake : (bs.take len).length = len := by
    rw [List.length_take]
    omega
  rcases happ : (if 0 < len then octetAppend st (bs.take len) else some st) with _ | st'
  · rw [happ] at h
    cases h
  · rw [happ] at h
    have hbuf : st'.buf = st.buf ++ bs.take len := by
      by_cases hpos : 0 < len
      · rw [if_pos hpos] at happ
        exact octetAppend_buf happ
      · rw [if_neg hpos] at happ
        cases happ
        have hzero : len = 0 := by omega
        rw [hzero, List.take_zero, List.append_nil]
    by_cases hleft : el.left - len ≠ 0
    · simp only [if_pos hleft] at h
      cases h
    · simp only [if_neg hleft] at h
      cases h
      refine ⟨bs.take len, bs.drop len, st', (List.take_append_drop len bs).symm, ?_, hbuf, ?_⟩
      · rw [htake]
        omega
      · have hmet : el.left - len = 0 := not_not.mp hleft
        rw [htake, hmet]

theorem chunkEnd_sound {c c' : Chunks} (h : chunkEnd c = some c') :
    ∃ sel below rest, c.stack = sel :: below ∧ sel.wantNulls = true ∧ c.bs = [0, 0] ++ rest ∧
      c' = ⟨⟨0, sel.got + 2, false⟩ :: below, rest, c.consumed + 2, c.st⟩ := by
  unfold chunkEnd at h
  rcases hs : c.stack with _ | ⟨sel, below⟩
  · rw [hs] at h
    cases h
  · simp only [hs] at h
    split_ifs at h with hzero
    cases h
    refine ⟨sel, below, c.bs.drop 2, rfl, hzero.1, ?_, rfl⟩
    rw [← hzero.2, List.take_append_drop]

/- The bytes that are gone are those that the stack stands for. -/
structure Parsed (tag : ℕ) (allTags : List ℕ) (bs : Bytes) (c : Chunks) : Prop where
  first : ∃ k, berFetchTag bs = .got k tag
  held : ∃ taken, bs = taken ++ c.bs ∧ taken.length = c.consumed ∧
    Held tag allTags c.stack taken c.st.buf

/-- The header of a value begins one, or is followed by all of it. -/
theorem Parsed.header {bs : Bytes} {c c' : Chunks} {header rest : Bytes} {left : ℤ}
    {constructed : Bool} (h : Parsed tag allTags bs c) (hrest : c.bs = header ++ rest)
    (hopened : Opened (levelTag tag allTags c.stack.length) constructed header left)
    (hcase : constructed = true ∧ c' = ⟨pushed c.stack header.length left :: c.stack, rest,
        c.consumed + header.length, c.st⟩ ∨
      constructed = false ∧ chunkBody ⟨c.stack, rest, c.consumed + header.length, c.st⟩
        (pushed c.stack header.length left) = .inr c') : Parsed tag allTags bs c' := by
  obtain ⟨hfirst, taken, hbs, hlen, hheld⟩ := h
  refine ⟨hfirst, ?_⟩
  rcases hcase with ⟨rfl, rfl⟩ | ⟨rfl, hbody⟩
  · have hlevel : Level allTags (levelTag tag allTags c.stack.length) c.stack.length
        (pushed c.stack header.length left) (header ++ []) [] := by
      apply Level.begun hopened (.nil _)
      · simp only [pushed, List.length_nil, Nat.cast_zero, add_zero]
      · rcases hopened.extent with ⟨rfl, -⟩ | hge
        · exact Or.inl ⟨rfl, rfl⟩
        · have hne : ¬ left = -1 := by omega
          right
          simp only [pushed, hne, and_false, if_false, decide_false, List.length_nil,
            Nat.cast_zero, sub_zero]
          exact ⟨trivial, hge, trivial⟩
    have hmore := Held.cons hheld hlevel
    rw [List.append_nil, List.append_nil] at hmore
    refine ⟨taken ++ header, ?_, ?_, hmore⟩
    · rw [hbs, hrest, List.append_assoc]
    · rw [List.length_append, hlen]
  · obtain ⟨contents, rest', st', rfl, hcontents, hbuf, rfl⟩ := chunkBody_sound hbody
    have hge : 0 ≤ left := by
      rcases hopened.extent with ⟨-, hc⟩ | hge
      · cases hc
      · exact hge
    have hne : ¬ left = -1 := by omega
    have hpushed : pushed c.stack header.length left = ⟨left, header.length, false⟩ := by
      simp only [pushed, hne, and_false, if_false, decide_false]
    rw [hpushed] at hcontents ⊢
    have hframe := hopened.definite contents.length hcontents.symm
    have hlevel : Level allTags (levelTag tag allTags c.stack.length) c.stack.length
        ⟨0, (header.length : ℤ) + contents.length, false⟩ (header ++ contents) contents := by
      apply Level.whole (.primitive hframe)
      · rw [List.length_append, Nat.cast_add]
      · rfl
      · rfl
    have hmore := Held.cons hheld hlevel
    rw [← hbuf] at hmore
    refine ⟨taken ++ (header ++ contents), ?_, ?_, hmore⟩
    · rw [hbs, hrest, List.append_assoc, List.append_assoc]
    · rw [List.length_append, List.length_append, hlen, Nat.add_assoc]

theorem Parsed.tlv {bs : Bytes} {c c' : Chunks} (h : Parsed tag allTags bs c)
    (hnonempty : allTags ≠ []) (hstep : chunkTlv allTags c = .inr c') :
    Parsed tag allTags bs c' := by
  rcases chunkTlv_sound hstep with hend |
    ⟨t, constructed, header, left, rest, hrest, hopened, -, ⟨k', hfetch⟩, hexpected, hcase⟩
  · obtain ⟨hfirst, taken, hbs, hlen, hheld⟩ := h
    refine ⟨hfirst, ?_⟩
    obtain ⟨sel, below, rest, hstack, hnulls, hrest, rfl⟩ := chunkEnd_sound hend
    rw [hstack] at hheld
    obtain ⟨taken', str, bytes, part, rfl, hbuf, hbelow, hlevel⟩ := hheld.top
    have hclosed := Held.cons hbelow (hlevel.close hnulls)
    rw [← hbuf] at hclosed
    refine ⟨taken' ++ (bytes ++ [0, 0]), ?_, ?_, hclosed⟩
    · rw [hbs, hrest, List.append_assoc, List.append_assoc, List.append_assoc]
    · rw [← hlen, ← List.append_assoc, List.length_append]
      rfl
  · have htag : t = levelTag tag allTags c.stack.length := by
      obtain ⟨⟨k, hfirst⟩, taken, hbs, hlen, hheld⟩ := h
      rcases hstack : c.stack with _ | ⟨sel, below⟩
      · rw [hstack] at hheld
        obtain ⟨rfl, -⟩ := hheld.empty
        have hwindow : c.window = c.bs := by
          unfold Chunks.window
          rw [hstack]
        rw [hwindow, ← List.nil_append c.bs, ← hbs, hfirst] at hfetch
        cases hfetch
        rfl
      · rw [hstack, expectedTag_segment hnonempty] at hexpected
        exact hexpected
    rw [htag] at hopened
    exact h.header hrest hopened hcase

/-- What one turn of the loop keeps. -/
theorem Parsed.step {bs : Bytes} {c c' : Chunks} (h : Parsed tag allTags bs c)
    (hnonempty : allTags ≠ []) (hstep : chunkStep allTags c = .inr c') :
    Parsed tag allTags bs c' := by
  unfold chunkStep at hstep
  rcases hstack : c.stack with _ | ⟨sel, below⟩
  · rw [hstack] at hstep
    exact h.tlv hnonempty hstep
  · by_cases hmet : sel.left ≤ 0 ∧ sel.wantNulls = false
    · simp only [hstack, if_pos hmet] at hstep
      unfold chunkPop at hstep
      rcases below with _ | ⟨prev, below⟩
      · cases hstep
      · by_cases hfits : prev.left ≠ -1 ∧ prev.left < sel.got
        · simp only [if_pos hfits] at hstep
          cases hstep
        · simp only [if_neg hfits] at hstep
          cases hstep
          obtain ⟨hfirst, taken, hbs, hlen, hheld⟩ := h
          refine ⟨hfirst, taken, hbs, hlen, ?_⟩
          rw [hstack] at hheld
          obtain ⟨taken', str, bytes, part, rfl, hbuf, hbelow, hlevel⟩ := hheld.top
          obtain ⟨hwhole, hgot⟩ := hlevel.met hmet
          obtain ⟨taken'', str', bytes', part', rfl, rfl, hbelow', hlevel'⟩ := hbelow.top
          rw [hgot] at hfits ⊢
          have hgrown := hlevel'.grow hwhole.part hwhole.pos hfits
          have hmore := Held.cons hbelow' hgrown
          rw [← List.append_assoc, ← List.append_assoc, ← hbuf] at hmore
          exact hmore
    · simp only [hstack, if_neg hmet] at hstep
      exact h.tlv hnonempty hstep

/-- The loop ends well only where the outermost value is whole. -/
theorem Parsed.stop {bs : Bytes} {c c' : Chunks} (h : Parsed tag allTags bs c)
    (hstop : chunkStep allTags c = .inl (.rcOk, c')) :
    c' = c ∧ ∃ enc rest, bs = enc ++ rest ∧ enc.length = c.consumed ∧
      StringBer tag allTags 0 c.st.buf enc := by
  have htlv : ¬ chunkTlv allTags c = .inl (.rcOk, c') := by
    intro hbad
    rcases chunkTlv_cases hbad with ⟨code, hcode, he⟩ | ⟨c₀, -, he⟩ | ⟨tlvl, el, -, -, he | he⟩
    · cases he
      exact hcode rfl
    · cases he
    · cases he
    · rcases chunkBody_cases he.symm with hb | ⟨len, el', st, -, -, hb | hb⟩
      · cases hb
      · cases hb
      · cases hb
  unfold chunkStep at hstop
  rcases hstack : c.stack with _ | ⟨sel, below⟩
  · rw [hstack] at hstop
    exact absurd hstop htlv
  · by_cases hmet : sel.left ≤ 0 ∧ sel.wantNulls = false
    · simp only [hstack, if_pos hmet] at hstop
      unfold chunkPop at hstop
      rcases below with _ | ⟨prev, below⟩
      · cases hstop
        obtain ⟨-, taken, hbs, hlen, hheld⟩ := h
        rw [hstack] at hheld
        obtain ⟨taken', str, bytes, part, rfl, hbuf, hbelow, hlevel⟩ := hheld.top
        obtain ⟨rfl, rfl⟩ := hbelow.empty
        rw [List.nil_append] at hbuf hbs hlen
        rw [hbuf]
        exact ⟨rfl, bytes, c.bs, hbs, hlen, (hlevel.met hmet).1⟩
      · by_cases hfits : prev.left ≠ -1 ∧ prev.left < sel.got
        · simp only [if_pos hfits] at hstop
          cases hstop
        · simp only [if_neg hfits] at hstop
          cases hstop
    · simp only [hstack, if_neg hmet] at hstop
      exact absurd hstop htlv

theorem octetChunks_sound {bs : Bytes} {c c' : Chunks} (h : Parsed tag allTags bs c)
    (hnonempty : allTags ≠ []) (hrun : octetChunks allTags c = (.rcOk, c')) :
    ∃ enc rest, bs = enc ++ rest ∧ enc.length = c'.consumed ∧
      StringBer tag allTags 0 c'.st.buf enc := by
  induction c using octetChunks.induct allTags with
  | case1 c r hr =>
    rw [octetChunks_stop hr] at hrun
    rw [hrun] at hr
    obtain ⟨rfl, hwhole⟩ := h.stop hr
    exact hwhole
  | case2 c c₁ hr ih =>
    rw [octetChunks_step hr] at hrun
    exact ih (h.step hnonempty hr) hrun

theorem octetPrimitive_sound {n header : ℕ} {bs str : Bytes} {left : ℤ} (hleft : 0 ≤ left)
    (h : octetPrimitive left bs header = (⟨.rcOk, n⟩, str)) :
    ∃ rest, bs = str ++ rest ∧ left = str.length ∧ n = header + str.length := by
  unfold octetPrimitive at h
  simp only at h
  by_cases hshort : (bs.length : ℤ) < left
  · rw [if_pos hshort] at h
    by_cases hnil : bs = []
    · rw [if_pos hnil] at h
      cases h
    · rw [if_neg hnil] at h
      rcases happ : octetAppend ⟨[], 0⟩ bs with _ | st
      · rw [happ] at h
        cases h
      · rw [happ] at h
        cases h
  · rw [if_neg hshort] at h
    rcases happ : octetAppend ⟨[], 0⟩ (bs.take left.toNat) with _ | st
    · rw [happ] at h
      cases h
    · rw [happ] at h
      cases h
      have hbuf := octetAppend_buf happ
      rw [List.nil_append] at hbuf
      have hlen : (bs.take left.toNat).length = left.toNat := by
        rw [List.length_take]
        omega
      refine ⟨bs.drop left.toNat, ?_, ?_, ?_⟩
      · rw [hbuf, List.take_append_drop]
      · rw [hbuf, hlen]
        omega
      · rw [hbuf, hlen]

/-- What was taken was an encoding. -/
theorem octetString_sound {tags : List ℕ} {bs str : Bytes} {n k : ℕ} (htags : tags.length = 1)
    (hnonempty : allTags ≠ []) (htag : berFetchTag bs = .got k tag)
    (h : octetStringDecodeBer tags allTags .implicit bs = (⟨.rcOk, n⟩, str)) :
    ∃ enc rest, bs = enc ++ rest ∧ enc.length = n ∧ StringBer tag allTags 0 str enc := by
  obtain ⟨t, rfl⟩ := List.length_eq_one_iff.mp htags
  have hchain : tagChain [t] .implicit = [none] := rfl
  unfold octetStringDecodeBer at h
  simp only at h
  by_cases hcode : (berCheckTags true [t] .implicit none bs).rval.code = .rcOk
  · obtain ⟨tag', constructed, header, left, rest, hbs, hcheck, hopened, -, ⟨k', hfetch⟩, -, -⟩ :=
      berCheckTags_sound hchain hcode
    rw [htag] at hfetch
    cases hfetch
    rw [if_neg (not_not.mpr hcode), hcheck] at h
    simp only at h
    by_cases hc : constructed = true
    · rw [if_pos hc] at h
      rcases hrun : octetChunks allTags ⟨[], bs, 0, ⟨[], 0⟩⟩ with ⟨code, c⟩
      rw [hrun] at h
      cases h
      have hparsed : Parsed tag allTags bs ⟨[], bs, 0, ⟨[], 0⟩⟩ :=
        ⟨⟨k, htag⟩, [], rfl, rfl, .nil⟩
      exact octetChunks_sound hparsed hnonempty hrun
    · rw [if_neg hc, hbs, List.drop_left] at h
      rw [Bool.not_eq_true] at hc
      have hge : 0 ≤ left := by
        rcases hopened.extent with ⟨-, htrue⟩ | hge
        · rw [hc] at htrue
          cases htrue
        · exact hge
      obtain ⟨rest', rfl, hleft, rfl⟩ := octetPrimitive_sound hge h
      have hframe := hopened.definite str.length hleft
      rw [hc] at hframe
      refine ⟨header ++ str, rest', ?_, List.length_append, .primitive hframe⟩
      rw [hbs, List.append_assoc]
  · rw [if_pos hcode] at h
    have hrval := congrArg Prod.fst h
    simp only at hrval
    rw [hrval] at hcode
    exact absurd rfl hcode

end

/-! ### Primitive values -/

/- The encodings of a primitive value. -/
inductive PrimitiveBer (tag : ℕ) (contents : Bytes) : Bytes → Prop where
  | mk {header closing : Bytes} {left : ℤ}
      (h : TagFrame tag false contents.length header left closing) :
      PrimitiveBer tag contents (header ++ contents)

section
variable {tags : List ℕ} {tag : ℕ} {contents enc : Bytes}

theorem primitive_takes (htags : tags.length = 1) (htag : berTagValue tag < 2 ^ 30)
    (h : PrimitiveBer tag contents enc) (hlen : contents.length < 2 ^ 31)
    (henc : enc.length < 2 ^ 62) (rest : Bytes) :
    berDecodePrimitive tags .implicit (enc ++ rest) = (⟨.rcOk, enc.length⟩, contents) := by
  obtain ⟨t, rfl⟩ := List.length_eq_one_iff.mp htags
  have hchain : tagChain [t] .implicit = [none] := rfl
  cases h with
  | @mk header closing left hframe =>
    rw [List.length_append] at henc
    have hcheck := berCheckTags_frame false hchain (Or.inl rfl) (Or.inr rfl) htag hframe
      (by omega) (contents ++ rest)
    rcases hframe.left with ⟨rfl, -⟩ | ⟨-, -, hc⟩
    · have hshort : ¬ ((contents.length + rest.length : ℕ) : ℤ) < (contents.length : ℤ) := by
        omega
      have hint : cInt contents.length = contents.length := cInt_of_range (by omega) (by omega)
      rw [List.append_assoc]
      simp only [berDecodePrimitive, hcheck, ne_eq, not_true_eq_false, if_false, List.drop_left,
        if_neg hshort, hint, Int.toNat_natCast, List.take_left' rfl, List.length_append]
    · cases hc

theorem primitive_waits (htags : tags.length = 1) (htag : berTagValue tag < 2 ^ 30) {p q : Bytes}
    (h : PrimitiveBer tag contents (p ++ q)) (henc : (p ++ q).length < 2 ^ 62) (hq : q ≠ []) :
    ∃ r, berDecodePrimitive tags .implicit p = r ∧ r.1.code = .rcWmore := by
  obtain ⟨t, rfl⟩ := List.length_eq_one_iff.mp htags
  have hchain : tagChain [t] .implicit = [none] := rfl
  generalize hwhole : p ++ q = enc at h henc
  refine ⟨_, rfl, ?_⟩
  cases h with
  | @mk header closing left hframe =>
    rw [List.length_append] at henc
    rcases cut_append hwhole.symm with ⟨r, hhead, hr⟩ | ⟨r, rfl, hbody⟩
    · have hcheck := berCheckTags_frame_cut false hchain (Or.inl rfl) (Or.inr rfl) htag
        hframe (by omega) hhead hr
      simp only [berDecodePrimitive, hcheck, ne_eq, reduceCtorEq, not_false_eq_true, if_true]
    · have hcheck := berCheckTags_frame false hchain (Or.inl rfl) (Or.inr rfl) htag hframe
        (by omega) r
      rcases hframe.left with ⟨rfl, -⟩ | ⟨-, -, hc⟩
      · have hlt := cut_length hbody hq
        have hshort : ((r.length : ℕ) : ℤ) < (contents.length : ℤ) := by omega
        simp only [berDecodePrimitive, hcheck, ne_eq, not_true_eq_false, if_false, List.drop_left,
          if_pos hshort]
      · cases hc

theorem primitive_sound {bs : Bytes} {n k : ℕ} (htags : tags.length = 1)
    (htag : berFetchTag bs = .got k tag)
    (h : berDecodePrimitive tags .implicit bs = (⟨.rcOk, n⟩, contents)) :
    ∃ enc rest, bs = enc ++ rest ∧ enc.length = n ∧ PrimitiveBer tag contents enc ∧
      contents.length < 2 ^ 31 := by
  obtain ⟨t, rfl⟩ := List.length_eq_one_iff.mp htags
  have hchain : tagChain [t] .implicit = [none] := rfl
  unfold berDecodePrimitive at h
  simp only at h
  by_cases hcode : (berCheckTags false [t] .implicit (some false) bs).rval.code = .rcOk
  · obtain ⟨tag', constructed, header, left, rest, hbs, hcheck, hopened, -, ⟨k', hfetch⟩, -, hform, -⟩ :=
      berCheckTags_sound hchain hcode
    rw [htag] at hfetch
    cases hfetch
    obtain rfl : false = constructed := by
      rcases hform with hform | hform
      · cases hform
      · exact Option.some.inj hform
    have hge : 0 ≤ left := by
      rcases hopened.extent with ⟨-, hc⟩ | hge
      · cases hc
      · exact hge
    rw [if_neg (not_not.mpr hcode), hcheck] at h
    simp only at h
    rw [hbs, List.drop_left] at h
    by_cases hshort : (rest.length : ℤ) < left
    · rw [if_pos hshort] at h
      cases h
    · rw [if_neg hshort] at h
      by_cases hint : cInt left ≠ left
      · rw [if_pos hint] at h
        cases h
      · rw [if_neg hint] at h
        cases h
        have hlen : (rest.take left.toNat).length = left.toNat := by
          rw [List.length_take]
          omega
        have hframe := hopened.definite (rest.take left.toNat).length (by rw [hlen]; omega)
        refine ⟨header ++ rest.take left.toNat, rest.drop left.toNat, ?_, ?_, .mk hframe, ?_⟩
        · rw [hbs, List.append_assoc, List.take_append_drop]
        · rw [List.length_append, hlen]
        · have hbound : cInt left < 2 ^ 31 := by
            simp only [cInt, Int.bmod]
            omega
          rw [not_not.mp hint] at hbound
          rw [hlen]
          omega
  · rw [if_pos hcode] at h
    have hrval := congrArg Prod.fst h
    simp only at hrval
    rw [hrval] at hcode
    exact absurd rfl hcode

end

end Fws
