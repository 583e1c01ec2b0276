import Fws.Asn1.BerDecoder

/-!
# Decoding octet strings (asn1c/OCTET_STRING.c)

A string grows by doubling its buffer. The constructed form is a stack of
expectations that is filled and emptied while the chunks of the string are
appended; the string keeps what was appended even where the decoder fails.
-/

namespace Fws
open Base.Digits Base.Tlv

/- The string itself, with the size its buffer has been given. -/
structure OctetState where
  buf : Bytes
  context : ℕ

def growTo : ℕ → ℕ → ℕ → ℕ
  | 0, ns, _ => ns
  | fuel + 1, ns, es =>
    let ns := if ns = 0 then 16 else ns * 2
    if ns ≤ es then growTo fuel ns es else ns

/- `APPEND`. Doubling a `size_t` takes at most 64 turns. -/
def octetAppend (s : OctetState) (bs : Bytes) : Option OctetState :=
  let es := s.buf.length + bs.length
  if cInt es < 0 then none
  else if s.context ≤ es then
    let ns := growTo 64 s.context es
    if cInt ns < 0 then none else some ⟨s.buf ++ bs, ns⟩
  else some ⟨s.buf ++ bs, s.context⟩

structure StackEl where
  left : ℤ
  got : ℤ
  wantNulls : Bool

/- The innermost expectation comes first; its depth is the number of those below. -/
structure Chunks where
  stack : List StackEl
  bs : Bytes
  consumed : ℕ
  st : OctetState

def expectedTag (allTags : List ℕ) (stack : List StackEl) (tlvTag : ℕ) : ℕ :=
  match stack with
  | [] => tlvTag
  | _ :: below => (allTags[below.length]?).getD ((allTags.getLast?).getD tlvTag)

/- An expectation that is met hands what it got to the one below it. -/
def chunkPop (c : Chunks) (sel : StackEl) (below : List StackEl) : RcCode × Chunks ⊕ Chunks :=
  match below with
  | [] => .inl (.rcOk, c)
  | prev :: below =>
    if prev.left ≠ -1 ∧ prev.left < sel.got then .inl (.rcFail, c)
    else
      let left := if prev.left ≠ -1 then prev.left - sel.got else prev.left
      .inr { c with stack := ⟨left, prev.got + sel.got, prev.wantNulls⟩ :: below }

def chunkEnd (c : Chunks) : Option Chunks :=
  match c.stack with
  | [] => none
  | sel :: below =>
    if sel.wantNulls ∧ c.bs.take 2 = [0, 0] then
      some { c with
        stack := ⟨0, sel.got + 2, false⟩ :: below
        bs := c.bs.drop 2
        consumed := c.consumed + 2 }
    else none

def chunkPush (stack : List StackEl) (tlvl : ℕ) (tlvLen : ℤ) : Option StackEl :=
  let parentLeft := match stack with
    | [] => -1
    | prev :: _ => prev.left
  if parentLeft ≠ -1 ∧ parentLeft < tlvl + (if tlvLen = -1 then 0 else tlvLen) then none
  else
    let left := if parentLeft ≠ -1 ∧ tlvLen = -1 then parentLeft - tlvl else tlvLen
    some ⟨left, tlvl, tlvLen = -1⟩

/- The contents of a primitive chunk, as far as the buffer has them. -/
def chunkBody (c : Chunks) (el : StackEl) : RcCode × Chunks ⊕ Chunks :=
  let len := min c.bs.length el.left.toNat
  match (if 0 < len then octetAppend c.st (c.bs.take len) else some c.st) with
  | none => .inl (.rcFail, c)
  | some st =>
    let left := el.left - len
    let c : Chunks :=
      ⟨⟨left, el.got + len, el.wantNulls⟩ :: c.stack, c.bs.drop len, c.consumed + len, st⟩
    if left ≠ 0 then .inl (.rcWmore, c) else .inr c

def chunkTlv (allTags : List ℕ) (c : Chunks) : RcCode × Chunks ⊕ Chunks :=
  let window := match c.stack with
    | [] => c.bs
    | sel :: _ => leftOf sel.left c.bs
  match berFetchTag window with
  | .failed => .inl (.rcFail, c)
  | .more => .inl (.rcWmore, c)
  | .got tl tlvTag =>
    let tlvConstr := berTlvConstructed c.bs
    match berFetchLength tlvConstr (window.drop tl) with
    | .failed => .inl (.rcFail, c)
    | .more => .inl (.rcWmore, c)
    | .got ll tlvLen =>
      match chunkEnd c with
      | some c => .inr c
      | none =>
        let tlvl := tl + ll
        if tlvTag ≠ expectedTag allTags c.stack tlvTag then .inl (.rcFail, c)
        else if 2 ^ 63 ≤ tlvLen + tlvl then .inl (.rcFail, c)
        else
          match chunkPush c.stack tlvl tlvLen with
          | none => .inl (.rcFail, c)
          | some el =>
            let c := { c with bs := c.bs.drop tlvl, consumed := c.consumed + tlvl }
            if tlvConstr then .inr { c with stack := el :: c.stack } else chunkBody c el

def chunkStep (allTags : List ℕ) (c : Chunks) : RcCode × Chunks ⊕ Chunks :=
  match c.stack with
  | [] => chunkTlv allTags c
  | sel :: below =>
    if sel.left ≤ 0 ∧ sel.wantNulls = false then chunkPop c sel below else chunkTlv allTags c

/-! ### What a step can do -/

theorem chunkTlv_cases {allTags : List ℕ} {c : Chunks} {r : RcCode × Chunks ⊕ Chunks}
    (h : chunkTlv allTags c = r) :
    (∃ code, code ≠ .rcOk ∧ r = .inl (code, c)) ∨
    (∃ c', chunkEnd c = some c' ∧ r = .inr c') ∨
    ∃ tlvl el, 2 ≤ tlvl ∧ tlvl ≤ c.bs.length ∧
      (r = .inr ⟨el :: c.stack, c.bs.drop tlvl, c.consumed + tlvl, c.st⟩ ∨
        r = chunkBody ⟨c.stack, c.bs.drop tlvl, c.consumed + tlvl, c.st⟩ el) := by
  unfold chunkTlv at h
  simp only at h
  generalize hw : (match c.stack with
    | [] => c.bs
    | sel :: _ => leftOf sel.left c.bs) = window at h
  have hwindow : window.length ≤ c.bs.length := by
    rw [← hw]
    split
    · exact Nat.le_refl _
    · exact leftOf_length_le _ _
  rcases htag : berFetchTag window with _ | _ | ⟨tl, tlvTag⟩
  · rw [htag] at h
    exact Or.inl ⟨.rcFail, by decide, h.symm⟩
  · rw [htag] at h
    exact Or.inl ⟨.rcWmore, by decide, h.symm⟩
  · have ht := berFetchTag_got htag
    rcases hlen : berFetchLength (berTlvConstructed c.bs) (window.drop tl) with _ | _ | ⟨ll, tlvLen⟩
    · simp only [htag, hlen] at h
      exact Or.inl ⟨.rcFail, by decide, h.symm⟩
    · simp only [htag, hlen] at h
      exact Or.inl ⟨.rcWmore, by decide, h.symm⟩
    · obtain ⟨hlo, hhi, -⟩ := berFetchLength_got hlen
      rw [List.length_drop] at hhi
      rcases hend : chunkEnd c with _ | c'
      · by_cases hexp : tlvTag ≠ expectedTag allTags c.stack tlvTag
        · simp only [htag, hlen, hend, if_pos hexp] at h
          exact Or.inl ⟨.rcFail, by decide, h.symm⟩
        · by_cases hbig : 2 ^ 63 ≤ tlvLen + ((tl + ll : ℕ) : ℤ)
          · simp only [htag, hlen, hend, if_neg hexp, if_pos hbig] at h
            exact Or.inl ⟨.rcFail, by decide, h.symm⟩
          · rcases hpush : chunkPush c.stack (tl + ll) tlvLen with _ | el
            · simp only [htag, hlen, hend, if_neg hexp, if_neg hbig, hpush] at h
              exact Or.inl ⟨.rcFail, by decide, h.symm⟩
            · simp only [htag, hlen, hend, if_neg hexp, if_neg hbig, hpush] at h
              refine Or.inr (Or.inr ⟨tl + ll, el, by omega, by omega, ?_⟩)
              by_cases hconstr : berTlvConstructed c.bs = true
              · rw [if_pos hconstr] at h
                exact Or.inl h.symm
              · rw [if_neg hconstr] at h
                exact Or.inr h.symm
      · simp only [htag, hlen, hend] at h
        exact Or.inr (Or.inl ⟨c', rfl, h.symm⟩)

theorem chunkEnd_some {c c' : Chunks} (h : chunkEnd c = some c') :
    c'.bs = c.bs.drop 2 ∧ c'.consumed = c.consumed + 2 ∧ c'.st = c.st ∧ 2 ≤ c.bs.length ∧
      c'.stack.length = c.stack.length := by
  unfold chunkEnd at h
  rcases hs : c.stack with _ | ⟨sel, below⟩
  · rw [hs] at h
    cases h
  · simp only [hs] at h
    split_ifs at h with h0
    cases h
    have hlen : (c.bs.take 2).length = 2 := by
      rw [h0.2]
      rfl
    rw [List.length_take] at hlen
    exact ⟨rfl, rfl, rfl, by omega, rfl⟩

/- The contents are appended whole, or the string is left as it was. -/
theorem chunkBody_cases {c : Chunks} {el : StackEl} {r : RcCode × Chunks ⊕ Chunks}
    (h : chunkBody c el = r) :
    r = .inl (.rcFail, c) ∨
    ∃ len el' st, len ≤ c.bs.length ∧
      (st = c.st ∧ len = 0 ∨ octetAppend c.st (c.bs.take len) = some st) ∧
      (r = .inl (.rcWmore, ⟨el' :: c.stack, c.bs.drop len, c.consumed + len, st⟩) ∨
        r = .inr ⟨el' :: c.stack, c.bs.drop len, c.consumed + len, st⟩) := by
  unfold chunkBody at h
  simp only at h
  generalize hlen : min c.bs.length el.left.toNat = len at h
  have hle : len ≤ c.bs.length := by omega
  rcases ha : (if 0 < len then octetAppend c.st (c.bs.take len) else some c.st) with _ | st
  · rw [ha] at h
    exact Or.inl h.symm
  · rw [ha] at h
    refine Or.inr ⟨len, ⟨el.left - len, el.got + len, el.wantNulls⟩, st, hle, ?_, ?_⟩
    · by_cases hpos : 0 < len
      · rw [if_pos hpos] at ha
        exact Or.inr ha
      · rw [if_neg hpos] at ha
        cases ha
        exact Or.inl ⟨rfl, by omega⟩
    · by_cases hleft : el.left - len ≠ 0
      · simp only [if_pos hleft] at h
        exact Or.inl h.symm
      · simp only [if_neg hleft] at h
        exact Or.inr h.symm

theorem chunkStep_cases {allTags : List ℕ} {c : Chunks} {r : RcCode × Chunks ⊕ Chunks}
    (h : chunkStep allTags c = r) :
    chunkTlv allTags c = r ∨ (∃ code, r = .inl (code, c)) ∨
    ∃ stack, stack.length + 1 = c.stack.length ∧ r = .inr { c with stack := stack } := by
  unfold chunkStep at h
  rcases hs : c.stack with _ | ⟨sel, below⟩
  · rw [hs] at h
    exact Or.inl h
  · by_cases hmet : sel.left ≤ 0 ∧ sel.wantNulls = false
    · simp only [hs, if_pos hmet] at h
      unfold chunkPop at h
      rcases below with _ | ⟨prev, below⟩
      · exact Or.inr (Or.inl ⟨_, h.symm⟩)
      · by_cases hfit : prev.left ≠ -1 ∧ prev.left < sel.got
        · simp only [if_pos hfit] at h
          exact Or.inr (Or.inl ⟨_, h.symm⟩)
        · simp only [if_neg hfit] at h
          refine Or.inr (Or.inr ⟨_, ?_, h.symm⟩)
          rfl
    · simp only [hs, if_neg hmet] at h
      exact Or.inl h

/-! ### A step takes bytes or leaves the stack shorter -/

def Chunks.measure (c : Chunks) : ℕ := 2 * c.bs.length + c.stack.length

theorem chunkTlv_measure {allTags : List ℕ} {c c' : Chunks} (h : chunkTlv allTags c = .inr c') :
    c'.measure < c.measure := by
  rcases chunkTlv_cases h with ⟨code, -, he⟩ | ⟨c₀, hend, he⟩ | ⟨tlvl, el, hlo, hhi, he | he⟩
  · cases he
  · cases he
    obtain ⟨hbs, -, -, h2, hst⟩ := chunkEnd_some hend
    simp only [Chunks.measure, hbs, hst, List.length_drop]
    omega
  · cases he
    simp only [Chunks.measure, List.length_drop, List.length_cons]
    omega
  · rcases chunkBody_cases he.symm with hb | ⟨len, el', st, -, -, hb | hb⟩
    · cases hb
    · cases hb
    · cases hb
      simp only [Chunks.measure, List.length_drop, List.length_cons]
      omega

theorem chunkStep_measure {allTags : List ℕ} {c c' : Chunks} (h : chunkStep allTags c = .inr c') :
    c'.measure < c.measure := by
  rcases chunkStep_cases h with ht | ⟨code, he⟩ | ⟨stack, hlen, he⟩
  · exact chunkTlv_measure ht
  · cases he
  · cases he
    simp only [Chunks.measure]
    omega

def octetChunks (allTags : List ℕ) (c : Chunks) : RcCode × Chunks :=
  match _h : chunkStep allTags c with
  | .inl r => r
  | .inr c' => octetChunks allTags c'
termination_by c.measure
decreasing_by exact chunkStep_measure _h

def octetPrimitive (left : ℤ) (bs : Bytes) (consumed : ℕ) : DecRval × Bytes :=
  let st : OctetState := ⟨[], 0⟩
  if bs.length < left then
    if bs = [] then (⟨.rcWmore, consumed⟩, [])
    else
      match octetAppend st bs with
      | none => (⟨.rcFail, consumed⟩, [])
      | some st => (⟨.rcWmore, consumed + bs.length⟩, st.buf)
  else
    match octetAppend st (bs.take left.toNat) with
    | none => (⟨.rcFail, consumed⟩, [])
    | some st => (⟨.rcOk, consumed + left.toNat⟩, st.buf)

def octetStringDecodeBer (tags allTags : List ℕ) (tagMode : TagMode) (bs : Bytes) :
    DecRval × Bytes :=
  let r := berCheckTags true tags tagMode none bs
  if r.rval.code ≠ .rcOk then (r.rval, [])
  else if r.tlvForm then
    let (code, c) := octetChunks allTags ⟨[], bs, 0, ⟨[], 0⟩⟩
    (⟨code, c.consumed⟩, c.st.buf)
  else octetPrimitive r.lastLength (bs.drop r.rval.consumed) r.rval.consumed

/-! ### Strings stay below `2 ^ 30` bytes -/

/- Nothing was allocated yet, or a power of two below `2 ^ 31` that holds the
string and one more byte. -/
def OctetState.Fits (s : OctetState) : Prop :=
  s.context = 0 ∧ s.buf = [] ∨ ∃ k, k ≤ 30 ∧ s.context = 2 ^ k ∧ s.buf.length < 2 ^ k

theorem OctetState.Fits.length_lt {s : OctetState} (h : s.Fits) : s.buf.length < 2 ^ 30 := by
  rcases h with ⟨-, hnil⟩ | ⟨k, hk, -, hlt⟩
  · rw [hnil]
    exact Nat.two_pow_pos 30
  · exact lt_of_lt_of_le hlt (Nat.pow_le_pow_right (by norm_num) hk)

theorem growTo_pow (fuel k es : ℕ) (hes : es < 2 ^ 31) (hk : 2 ^ k ≤ es) (hfuel : 32 ≤ fuel + k) :
    ∃ j, growTo fuel (2 ^ k) es = 2 ^ j ∧ es < 2 ^ j ∧ 2 ^ j ≤ 2 * es := by
  induction fuel generalizing k with
  | zero =>
    have hpow : 2 ^ 32 ≤ 2 ^ k := Nat.pow_le_pow_right (by norm_num) (by omega)
    omega
  | succ fuel ih =>
    have hpos : ¬ 2 ^ k = 0 := (Nat.two_pow_pos k).ne'
    rw [growTo]
    simp only [if_neg hpos, ← pow_succ]
    by_cases hle : 2 ^ (k + 1) ≤ es
    · rw [if_pos hle]
      exact ih (k + 1) hle (by omega)
    · rw [if_neg hle]
      refine ⟨k + 1, rfl, by omega, ?_⟩
      rw [pow_succ]
      omega

theorem growTo_spec {s : OctetState} (h : s.Fits) {es : ℕ} (hes : es < 2 ^ 31)
    (hle : s.context ≤ es) :
    ∃ j, growTo 64 s.context es = 2 ^ j ∧ es < 2 ^ j ∧ 2 ^ j ≤ max 16 (2 * es) := by
  rcases h with ⟨h0, -⟩ | ⟨k, hk, hctx, -⟩
  · rw [h0, growTo]
    simp only [if_true]
    by_cases h16 : 16 ≤ es
    · rw [if_pos h16]
      obtain ⟨j, hj, hlt, hmax⟩ := growTo_pow 63 4 es hes h16 (by norm_num)
      exact ⟨j, hj, hlt, le_max_of_le_right hmax⟩
    · rw [if_neg h16]
      exact ⟨4, by norm_num, by omega, le_max_left _ _⟩
  · rw [hctx] at hle ⊢
    obtain ⟨j, hj, hlt, hmax⟩ := growTo_pow 64 k es hes hle (by omega)
    exact ⟨j, hj, hlt, le_max_of_le_right hmax⟩

theorem octetAppend_fits {s t : OctetState} {bs : Bytes} (hs : s.Fits)
    (hlt : s.buf.length + bs.length < 2 ^ 32) (h : octetAppend s bs = some t) :
    t.Fits ∧ t.buf = s.buf ++ bs := by
  unfold octetAppend at h
  simp only at h
  by_cases hneg : cInt ((s.buf.length + bs.length : ℕ) : ℤ) < 0
  · rw [if_pos hneg] at h
    cases h
  · have hes : s.buf.length + bs.length < 2 ^ 31 := by
      by_contra hge
      exact hneg ((cInt_neg_iff hlt).mpr (not_lt.mp hge))
    rw [if_neg hneg] at h
    by_cases hgrow : s.context ≤ s.buf.length + bs.length
    · obtain ⟨j, hj, hlo, hhi⟩ := growTo_spec hs hes hgrow
      have hj31 : j ≤ 31 := by
        by_contra hgt
        have hpow : 2 ^ 32 ≤ 2 ^ j := Nat.pow_le_pow_right (by norm_num) (by omega)
        omega
      simp only [if_pos hgrow, hj] at h
      have hpow : 2 ^ j < 2 ^ 32 := Nat.pow_lt_pow_right (by norm_num) (by omega)
      by_cases hneg' : cInt ((2 ^ j : ℕ) : ℤ) < 0
      · rw [if_pos hneg'] at h
        cases h
      · rw [if_neg hneg'] at h
        cases h
        have hj30 : j ≤ 30 := by
          by_contra hgt
          have h31 : j = 31 := by omega
          exact hneg' ((cInt_neg_iff hpow).mpr (by rw [h31]))
        refine ⟨Or.inr ⟨j, hj30, rfl, ?_⟩, rfl⟩
        rw [List.length_append]
        exact hlo
    · rw [if_neg hgrow] at h
      cases h
      refine ⟨Or.inr ?_, rfl⟩
      rcases hs with ⟨h0, -⟩ | ⟨k, hk, hctx, -⟩
      · omega
      · refine ⟨k, hk, hctx, ?_⟩
        rw [List.length_append]
        omega

/-- A string of less than `2 ^ 30` bytes is appended. -/
theorem octetAppend_some {bs : Bytes} (h : bs.length < 2 ^ 30) :
    ∃ context, octetAppend ⟨[], 0⟩ bs = some ⟨bs, context⟩ := by
  have hfits : OctetState.Fits ⟨[], 0⟩ := Or.inl ⟨rfl, rfl⟩
  obtain ⟨j, hj, -, hmax⟩ := growTo_spec hfits (show bs.length < 2 ^ 31 by omega) (Nat.zero_le _)
  have hpow : 2 ^ j < 2 ^ 31 := by omega
  have hes : ¬ cInt ((bs.length : ℕ) : ℤ) < 0 := by
    rw [cInt_neg_iff (by omega)]
    omega
  have hns : ¬ cInt ((2 ^ j : ℕ) : ℤ) < 0 := by
    rw [cInt_neg_iff (by omega)]
    omega
  refine ⟨2 ^ j, ?_⟩
  simp only [octetAppend, List.length_nil, Nat.zero_add, if_neg hes, Nat.zero_le, if_true, hj,
    if_neg hns, List.nil_append]

/- What the steps keep: the string came from the bytes that are gone. -/
structure Chunks.Ok (total : ℕ) (c : Chunks) : Prop where
  bytes : c.consumed + c.bs.length = total
  taken : c.st.buf.length ≤ c.consumed
  fits : c.st.Fits

theorem Chunks.Ok.advance {total : ℕ} {c : Chunks} (h : c.Ok total) {n : ℕ} (hn : n ≤ c.bs.length)
    (stack : List StackEl) : Chunks.Ok total ⟨stack, c.bs.drop n, c.consumed + n, c.st⟩ := by
  have hbytes := h.bytes
  have htaken := h.taken
  refine ⟨?_, ?_, h.fits⟩
  · simp only [List.length_drop]
    omega
  · simp only
    omega

theorem chunkBody_ok {total : ℕ} (htotal : total < 2 ^ 32) {c c' : Chunks} {el : StackEl}
    {code : RcCode} (h : c.Ok total)
    (hr : chunkBody c el = .inl (code, c') ∨ chunkBody c el = .inr c') : c'.Ok total := by
  have hnext : ∀ len el' st, len ≤ c.bs.length →
      (st = c.st ∧ len = 0 ∨ octetAppend c.st (c.bs.take len) = some st) →
      Chunks.Ok total ⟨el' :: c.stack, c.bs.drop len, c.consumed + len, st⟩ := by
    intro len el' st hle hst
    have hbytes := h.bytes
    have htaken := h.taken
    have hadv := h.advance hle (el' :: c.stack)
    rcases hst with ⟨rfl, -⟩ | happ
    · exact hadv
    · have hlen : (c.bs.take len).length = len := by
        rw [List.length_take]
        omega
      obtain ⟨hfits, hbuf⟩ := octetAppend_fits h.fits (by omega) happ
      refine ⟨hadv.bytes, ?_, hfits⟩
      simp only [hbuf, List.length_append, hlen]
      omega
  rcases hr with hr | hr
  · rcases chunkBody_cases hr with he | ⟨len, el', st, hle, hst, he | he⟩
    · cases he
      exact h
    · cases he
      exact hnext _ _ _ hle hst
    · cases he
  · rcases chunkBody_cases hr with he | ⟨len, el', st, hle, hst, he | he⟩
    · cases he
    · cases he
    · cases he
      exact hnext _ _ _ hle hst

theorem chunkStep_ok {total : ℕ} (htotal : total < 2 ^ 32) {allTags : List ℕ} {c c' : Chunks}
    {code : RcCode} (h : c.Ok total)
    (hr : chunkStep allTags c = .inl (code, c') ∨ chunkStep allTags c = .inr c') :
    c'.Ok total := by
  have htlv : ∀ r, chunkTlv allTags c = r → r = .inl (code, c') ∨ r = .inr c' → c'.Ok total := by
    intro r ht hr
    rcases chunkTlv_cases ht with ⟨code', -, rfl⟩ | ⟨c₀, hend, rfl⟩ | ⟨tlvl, el, -, hhi, rfl | he⟩
    · rcases hr with hr | hr
      · cases hr
        exact h
      · cases hr
    · rcases hr with hr | hr
      · cases hr
      · cases hr
        obtain ⟨hbs, hcons, hst, h2, -⟩ := chunkEnd_some hend
        have hadv := h.advance h2 c'.stack
        rw [← hbs, ← hcons, ← hst] at hadv
        exact hadv
    · rcases hr with hr | hr
      · cases hr
      · cases hr
        exact h.advance hhi _
    · rw [he] at hr
      exact chunkBody_ok htotal (h.advance hhi _) hr
  rcases hr with hr | hr
  · rcases chunkStep_cases hr with ht | ⟨code', he⟩ | ⟨stack, -, he⟩
    · exact htlv _ ht (Or.inl rfl)
    · cases he
      exact h
    · cases he
  · rcases chunkStep_cases hr with ht | ⟨code', he⟩ | ⟨stack, -, he⟩
    · exact htlv _ ht (Or.inr rfl)
    · cases he
    · cases he
      exact ⟨h.bytes, h.taken, h.fits⟩

theorem octetChunks_ok {total : ℕ} (htotal : total < 2 ^ 32) (allTags : List ℕ) (c : Chunks)
    (h : c.Ok total) : (octetChunks allTags c).2.Ok total := by
  induction c using octetChunks.induct allTags with
  | case1 c r hr =>
    rw [octetChunks, hr]
    exact chunkStep_ok htotal h (Or.inl hr)
  | case2 c c' hr ih =>
    rw [octetChunks, hr]
    have hok := @chunkStep_ok total htotal allTags c c' .rcOk h (Or.inr hr)
    exact ih hok

/-- Whatever the answer, the string that a frame leaves is shorter than `2 ^ 30`. -/
theorem octetStringDecodeBer_length {tags allTags : List ℕ} {tagMode : TagMode} {bs : Bytes}
    (hbs : bs.length < 2 ^ 32) :
    (octetStringDecodeBer tags allTags tagMode bs).2.length < 2 ^ 30 := by
  have hfits : OctetState.Fits ⟨[], 0⟩ := Or.inl ⟨rfl, rfl⟩
  have happend : ∀ (part : Bytes) (st : OctetState), part.length ≤ bs.length →
      octetAppend ⟨[], 0⟩ part = some st → st.buf.length < 2 ^ 30 := by
    intro part st hle h
    have hlt : ([] : Bytes).length + part.length < 2 ^ 32 := by
      rw [List.length_nil]
      omega
    exact (octetAppend_fits hfits hlt h).1.length_lt
  unfold octetStringDecodeBer
  simp only
  split_ifs
  · exact Nat.two_pow_pos 30
  · have h := octetChunks_ok hbs allTags ⟨[], bs, 0, ⟨[], 0⟩⟩ ⟨Nat.zero_add _, Nat.le_refl 0, hfits⟩
    exact h.fits.length_lt
  · unfold octetPrimitive
    simp only
    generalize hrest : bs.drop (berCheckTags true tags tagMode none bs).rval.consumed = rest
    have hle : rest.length ≤ bs.length := by
      rw [← hrest, List.length_drop]
      omega
    split_ifs
    · exact Nat.two_pow_pos 30
    · split
      · exact Nat.two_pow_pos 30
      · rename_i st hst
        exact happend _ st hle hst
    · split
      · exact Nat.two_pow_pos 30
      · rename_i st hst
        refine happend _ st ?_ hst
        rw [List.length_take]
        omega

/-- A primitive encoding is read back, and nothing behind it. -/
theorem octetStringDecodeBer_tlv {tags allTags : List ℕ} {tag : ℕ} {contents : Bytes}
    (rest : Bytes) (htags : tags.length = 1) (htag : berTagValue tag ≤ 30)
    (hlen : contents.length < 2 ^ 30) :
    octetStringDecodeBer tags allTags .implicit
        (tlv (identifier (berTagClass tag) false (berTagValue tag)) contents ++ rest) =
      (⟨.rcOk, (tlv (identifier (berTagClass tag) false (berTagValue tag)) contents).length⟩,
        contents) := by
  obtain ⟨t, rfl⟩ := List.length_eq_one_iff.mp htags
  have htags : tagChain [t] .implicit = [none] := rfl
  have hform : (none : Option Bool) = none ∨ none = some false := Or.inl rfl
  have hcheck := berCheckTags_tlv true (contents ++ rest) htags (Or.inl rfl) hform htag
    (show contents.length < 2 ^ 62 by omega)
  obtain ⟨context, happ⟩ := octetAppend_some hlen
  have hshort : ¬ (((contents ++ rest).length : ℕ) : ℤ) < (contents.length : ℤ) := by
    rw [List.length_append]
    omega
  rw [tlv_append]
  simp only [octetStringDecodeBer, hcheck, ne_eq, not_true_eq_false, if_false, Bool.false_eq_true,
    drop_header, octetPrimitive, if_neg hshort, Int.toNat_natCast, List.take_left' rfl, happ,
    tlv_length]

end Fws
