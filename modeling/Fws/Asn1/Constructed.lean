import Fws.Asn1.BerDecoder

/-!
# Decoding SEQUENCE and CHOICE (asn1c/constr_SEQUENCE.c, asn1c/constr_CHOICE.c)

Types without extensions and with at most eight optional members in a row, so
that the search for a member is the linear one. A result is `none` where the
decoder never returns.
-/

namespace Fws
open Base.Digits Base.Tlv

variable {σ : Type}

/- What is left of the buffer and of the structure (negative: terminators are
awaited), and the bytes consumed so far. -/
structure Cursor where
  bs : Bytes
  left : ℤ
  consumed : ℕ

def Cursor.advance (c : Cursor) (n : ℕ) : Cursor :=
  ⟨c.bs.drop n, if 0 ≤ c.left then c.left - n else c.left, c.consumed + n⟩

def Cursor.window (c : Cursor) : Bytes := leftOf c.left c.bs

/- Wanting more is fatal where the structure itself has ended. -/
def Cursor.starved (c : Cursor) : RcCode :=
  if 0 ≤ c.left ∧ c.left ≤ c.bs.length then .rcFail else .rcWmore

/-! ### SEQUENCE -/

structure Member (σ : Type) where
  tag : ℕ
  optional : ℕ
  decode : σ → Bytes → Option (DecRval × σ)

/- The first of the next `k` members that has the tag, and the members behind it. -/
def pick (tag : ℕ) : ℕ → List (Member σ) → Option (Member σ × List (Member σ))
  | 0, _ => none
  | _, [] => none
  | k + 1, m :: ms => if m.tag = tag then some (m, ms) else pick tag k ms

theorem pick_some {tag k : ℕ} {ms after : List (Member σ)} {m : Member σ}
    (h : pick tag k ms = some (m, after)) : after.length < ms.length ∧ m ∈ ms ∧ after ⊆ ms := by
  induction k generalizing ms with
  | zero => cases h
  | succ k ih =>
    cases ms with
    | nil => cases h
    | cons x xs =>
      unfold pick at h
      by_cases htag : x.tag = tag
      · rw [if_pos htag] at h
        cases h
        exact ⟨Nat.lt_succ_self _, List.mem_cons_self .., List.subset_cons_self _ _⟩
      · rw [if_neg htag] at h
        obtain ⟨hlen, hmem, hsub⟩ := ih h
        exact ⟨Nat.lt_succ_of_lt hlen, List.mem_cons_of_mem _ hmem,
          List.subset_cons_of_subset _ hsub⟩

/- Nothing but the terminators may follow the members. -/
def sequenceEnd (c : Cursor) : DecRval :=
  if c.left = 0 then ⟨.rcOk, c.consumed⟩
  else
    match berFetchTag c.window with
    | .more => ⟨c.starved, c.consumed⟩
    | .failed => ⟨.rcFail, c.consumed⟩
    | .got _ _ =>
      if c.left < 0 ∧ c.window.take 1 = [0] then
        if c.window.length < 2 then ⟨c.starved, c.consumed⟩
        else if c.window.take 2 = [0, 0] then
          sequenceEnd ⟨c.bs.drop 2, c.left + 1, c.consumed + 2⟩
        else ⟨.rcFail, c.consumed⟩
      else ⟨.rcFail, c.consumed⟩
termination_by (-c.left).toNat
decreasing_by omega

def sequenceMembers (ms : List (Member σ)) (c : Cursor) (st : σ) : Option (DecRval × σ) :=
  match ms with
  | [] => some (sequenceEnd c, st)
  | m :: ms =>
    if c.left = 0 ∧ m.optional = ms.length + 1 then some (⟨.rcOk, c.consumed⟩, st)
    else
      match berFetchTag c.window with
      | .more => some (⟨c.starved, c.consumed⟩, st)
      | .failed => some (⟨.rcFail, c.consumed⟩, st)
      | .got _ tlvTag =>
        if c.left < 0 ∧ c.window.take 1 = [0] ∧ c.window.length < 2 then
          some (⟨c.starved, c.consumed⟩, st)
        else if c.left < 0 ∧ c.window.take 2 = [0, 0] ∧ m.optional = ms.length + 1 then
          some (sequenceEnd c, st)
        else
          match _h : pick tlvTag (m.optional + 1) (m :: ms) with
          | none => some (⟨.rcFail, c.consumed⟩, st)
          | some (memb, after) =>
            match memb.decode st c.window with
            | none => none
            | some (rval, st) =>
              match rval.code with
              | .rcOk => sequenceMembers after (c.advance rval.consumed) st
              | .rcWmore =>
                if c.starved = .rcFail then some (⟨.rcFail, c.consumed⟩, st)
                else some (⟨.rcWmore, c.consumed + rval.consumed⟩, st)
              | .rcFail => some (⟨.rcFail, c.consumed⟩, st)
termination_by ms.length
decreasing_by exact (pick_some _h).1

def sequenceDecodeBer (tags : List ℕ) (tagMode : TagMode) (members : List (Member σ)) (bs : Bytes)
    (st : σ) : Option (DecRval × σ) :=
  let r := berCheckTags true tags tagMode (some true) bs
  if r.rval.code ≠ .rcOk then some (r.rval, st)
  else sequenceMembers members ⟨bs.drop r.rval.consumed, r.lastLength, r.rval.consumed⟩ st

/-! ### CHOICE -/

/- Decoding an alternative starts from its zeroed structure. -/
structure Alternative (σ : Type) where
  tag : ℕ
  decode : Bytes → Option (DecRval × σ)

/- The terminators. A zero byte in front of another byte is neither taken nor
refused: the loop turns on the spot. -/
def choiceEnd (c : Cursor) : Option DecRval :=
  if 0 ≤ c.left then some ⟨.rcOk, c.consumed⟩
  else
    match berFetchTag c.window with
    | .more => some ⟨c.starved, c.consumed⟩
    | .failed => some ⟨.rcFail, c.consumed⟩
    | .got _ _ =>
      if c.window.take 1 = [0] then
        if c.window.length < 2 then some ⟨c.starved, c.consumed⟩
        else if c.window.take 2 = [0, 0] then
          choiceEnd ⟨c.bs.drop 2, c.left + 1, c.consumed + 2⟩
        else none
      else some ⟨.rcFail, c.consumed⟩
termination_by (-c.left).toNat
decreasing_by omega

def choiceMember (tagged : Bool) (alts : List (Alternative σ)) (c : Cursor) (st : σ) :
    Option (DecRval × σ) :=
  match berFetchTag c.window with
  | .more => some (⟨c.starved, c.consumed⟩, st)
  | .failed => some (⟨.rcFail, c.consumed⟩, st)
  | .got _ tlvTag =>
    match alts.find? fun alt => decide (alt.tag = tlvTag) with
    | none => some (⟨.rcFail, c.consumed⟩, st)
    | some alt =>
      match alt.decode c.window with
      | none => none
      | some (rval, st) =>
        match rval.code with
        | .rcOk =>
          let c := c.advance rval.consumed
          if 0 < c.left then some (⟨.rcFail, c.consumed⟩, st)
          else if c.left = -1 ∧ tagged = false then some (⟨.rcOk, c.consumed⟩, st)
          else (choiceEnd c).map fun r => (r, st)
        | .rcWmore =>
          if c.starved = .rcFail then some (⟨.rcFail, c.consumed⟩, st)
          else some (⟨.rcWmore, c.consumed + rval.consumed⟩, st)
        | .rcFail => some (⟨.rcFail, c.consumed⟩, st)

def choiceDecodeBer (tags : List ℕ) (tagMode : TagMode) (alts : List (Alternative σ)) (bs : Bytes)
    (st : σ) : Option (DecRval × σ) :=
  if tagMode ≠ .plain ∨ tags ≠ [] then
    let r := berCheckTags true tags tagMode none bs
    if r.rval.code ≠ .rcOk then some (r.rval, st)
    else choiceMember true alts ⟨bs.drop r.rval.consumed, r.lastLength, r.rval.consumed⟩ st
  else choiceMember false alts ⟨bs, -1, 0⟩ st

/-! ### What the decoders keep -/

theorem Cursor.window_length_le (c : Cursor) : c.window.length ≤ c.bs.length :=
  leftOf_length_le c.left c.bs

theorem sequenceEnd_consumed (c : Cursor) : c.consumed ≤ (sequenceEnd c).consumed := by
  induction c using sequenceEnd.induct with
  | case1 c h => rw [sequenceEnd, if_pos h]
  | case5 c h n v ht h0 h2 h00 ih =>
    rw [sequenceEnd]
    simp only [if_neg h, ht, if_pos h0, if_neg h2, if_pos h00]
    simp only at ih
    omega
  | case2 c h ht | case3 c h ht | case4 c h n v ht h0 h2 | case6 c h n v ht h0 h2 h00
  | case7 c h n v ht h0 =>
    rw [sequenceEnd]
    simp only [*, if_true, if_false, and_self, Nat.le_refl]

/-- What a turn of the loop can do: stop by itself, or ask one of the members
that follow and go on behind it or stop. -/
theorem sequenceMembers_cases {m : Member σ} {ms : List (Member σ)} {c : Cursor} {st : σ}
    {R : Option (DecRval × σ)} (h : sequenceMembers (m :: ms) c st = R) :
    (∃ r, c.consumed ≤ r.consumed ∧ R = some (r, st)) ∨
    ∃ memb after, memb ∈ m :: ms ∧ after.length < (m :: ms).length ∧ after ⊆ m :: ms ∧
      (memb.decode st c.window = none ∧ R = none ∨
        ∃ rval st', memb.decode st c.window = some (rval, st') ∧
          (rval.code = .rcOk ∧ sequenceMembers after (c.advance rval.consumed) st' = R ∨
            ∃ r, c.consumed ≤ r.consumed ∧ R = some (r, st'))) := by
  rw [sequenceMembers] at h
  by_cases hend : c.left = 0 ∧ m.optional = ms.length + 1
  · rw [if_pos hend] at h
    exact Or.inl ⟨_, Nat.le_refl _, h.symm⟩
  · rw [if_neg hend] at h
    rcases htag : berFetchTag c.window with _ | _ | ⟨n, tlvTag⟩
    · simp only [htag] at h
      exact Or.inl ⟨_, Nat.le_refl _, h.symm⟩
    · simp only [htag] at h
      exact Or.inl ⟨_, Nat.le_refl _, h.symm⟩
    · simp only [htag] at h
      by_cases hshort : c.left < 0 ∧ c.window.take 1 = [0] ∧ c.window.length < 2
      · rw [if_pos hshort] at h
        exact Or.inl ⟨_, Nat.le_refl _, h.symm⟩
      · rw [if_neg hshort] at h
        by_cases heoc : c.left < 0 ∧ c.window.take 2 = [0, 0] ∧ m.optional = ms.length + 1
        · rw [if_pos heoc] at h
          exact Or.inl ⟨_, sequenceEnd_consumed c, h.symm⟩
        · rw [if_neg heoc] at h
          rcases hpick : pick tlvTag (m.optional + 1) (m :: ms) with _ | ⟨memb, after⟩
          · rw [hpick] at h
            exact Or.inl ⟨_, Nat.le_refl _, h.symm⟩
          · rw [hpick] at h
            obtain ⟨hlen, hmem, hsub⟩ := pick_some hpick
            refine Or.inr ⟨memb, after, hmem, hlen, hsub, ?_⟩
            rcases hdec : memb.decode st c.window with _ | ⟨rval, st'⟩
            · simp only [hdec] at h
              exact Or.inl ⟨rfl, h.symm⟩
            · simp only [hdec] at h
              refine Or.inr ⟨rval, st', rfl, ?_⟩
              rcases hcode : rval.code with _ | _ | _
              · simp only [hcode] at h
                exact Or.inl ⟨rfl, h⟩
              · simp only [hcode] at h
                by_cases hs : c.starved = .rcFail
                · rw [if_pos hs] at h
                  exact Or.inr ⟨_, Nat.le_refl _, h.symm⟩
                · rw [if_neg hs] at h
                  exact Or.inr ⟨_, Nat.le_add_right _ _, h.symm⟩
              · simp only [hcode] at h
                exact Or.inr ⟨_, Nat.le_refl _, h.symm⟩

/-- A property of the structure that every member keeps holds of the result,
and nothing that was consumed is given back. -/
theorem sequenceMembers_keeps {P : σ → Prop} {N : ℕ} {ms : List (Member σ)} {c : Cursor} {st : σ}
    (hm : ∀ m ∈ ms, ∀ st bs rval st', bs.length < N → P st → m.decode st bs = some (rval, st') →
      P st')
    (hN : c.bs.length < N) (hst : P st) {r : DecRval} {st' : σ}
    (h : sequenceMembers ms c st = some (r, st')) : P st' ∧ c.consumed ≤ r.consumed := by
  induction hn : ms.length using Nat.strong_induction_on generalizing ms c st with
  | _ n ih =>
    subst hn
    cases ms with
    | nil =>
      rw [sequenceMembers] at h
      cases h
      exact ⟨hst, sequenceEnd_consumed c⟩
    | cons m ms =>
      rcases sequenceMembers_cases h with ⟨r', hle, he⟩ |
        ⟨memb, after, hmem, hlen, hsub, ⟨-, he⟩ | ⟨rval, st₁, hdec, ⟨-, hrest⟩ | ⟨r', hle, he⟩⟩⟩
      · cases he
        exact ⟨hst, hle⟩
      · cases he
      · have hwindow := lt_of_le_of_lt c.window_length_le hN
        have hst₁ := hm memb hmem st c.window rval st₁ hwindow hst hdec
        have hbs : (c.advance rval.consumed).bs.length < N := by
          simp only [Cursor.advance, List.length_drop]
          omega
        obtain ⟨hP, hle⟩ := ih after.length hlen (fun x hx => hm x (hsub hx)) hbs hst₁ hrest rfl
        refine ⟨hP, ?_⟩
        simp only [Cursor.advance] at hle
        omega
      · cases he
        have hwindow := lt_of_le_of_lt c.window_length_le hN
        exact ⟨hm memb hmem st c.window rval _ hwindow hst hdec, hle⟩

/-- A SEQUENCE that is not decoded has consumed nothing exactly where its own
header was refused. -/
theorem sequenceDecodeBer_keeps {P : σ → Prop} {N : ℕ} {tags : List ℕ} {tagMode : TagMode}
    {members : List (Member σ)} {bs : Bytes} {st st' : σ} {r : DecRval} {tag : Option ℕ}
    (htags : tagChain tags tagMode = [tag])
    (hm : ∀ m ∈ members, ∀ st bs rval st', bs.length < N → P st →
      m.decode st bs = some (rval, st') → P st')
    (hN : bs.length < N) (hst : P st)
    (h : sequenceDecodeBer tags tagMode members bs st = some (r, st')) :
    P st' ∧ (r.consumed = 0 ↔
      (berCheckTags true tags tagMode (some true) bs).rval.code ≠ .rcOk) := by
  unfold sequenceDecodeBer at h
  simp only at h
  rcases berCheckTags_one true (some true) bs htags with
    ⟨hcode, hzero⟩ | ⟨hcode, htwo, -, -⟩
  · rw [if_pos hcode] at h
    cases h
    exact ⟨hst, fun _ => hcode, fun _ => hzero⟩
  · rw [if_neg (not_not.mpr hcode)] at h
    have hbs :
        (bs.drop (berCheckTags true tags tagMode (some true) bs).rval.consumed).length < N := by
      rw [List.length_drop]
      omega
    obtain ⟨hP, hle⟩ := sequenceMembers_keeps hm hbs hst h
    simp only at hle
    exact ⟨hP, fun h0 => by omega, fun hne => absurd hcode hne⟩

theorem sequenceDecodeBer_ok {tags : List ℕ} {tagMode : TagMode} {members : List (Member σ)}
    {bs : Bytes} {st st' : σ} {r : DecRval}
    (h : sequenceDecodeBer tags tagMode members bs st = some (r, st')) (hr : r.code = .rcOk) :
    (berCheckTags true tags tagMode (some true) bs).rval.code = .rcOk := by
  by_contra hcode
  unfold sequenceDecodeBer at h
  simp only [if_pos hcode] at h
  cases h
  exact hcode hr

theorem choiceDecodeBer_keeps {P : σ → Prop} {N : ℕ} {tags : List ℕ} {tagMode : TagMode}
    {alts : List (Alternative σ)} {bs : Bytes} {st st' : σ} {r : DecRval}
    (ha : ∀ alt ∈ alts, ∀ bs rval st', bs.length < N → alt.decode bs = some (rval, st') → P st')
    (hN : bs.length < N) (hst : P st)
    (h : choiceDecodeBer tags tagMode alts bs st = some (r, st')) : P st' := by
  have hmember : ∀ tagged c, c.bs.length < N → choiceMember tagged alts c st = some (r, st') →
      P st' := by
    intro tagged c hc hr
    unfold choiceMember at hr
    rcases htag : berFetchTag c.window with _ | _ | ⟨n, tlvTag⟩
    · simp only [htag] at hr
      cases hr
      exact hst
    · simp only [htag] at hr
      cases hr
      exact hst
    · rcases hfind : alts.find? (fun alt => decide (alt.tag = tlvTag)) with _ | alt
      · simp only [htag, hfind] at hr
        cases hr
        exact hst
      · rcases hdec : alt.decode c.window with _ | ⟨rval, st₁⟩
        · simp only [htag, hfind, hdec] at hr
          cases hr
        · have hst₁ := ha alt (List.mem_of_find?_eq_some hfind) c.window rval st₁
            (lt_of_le_of_lt c.window_length_le hc) hdec
          simp only [htag, hfind, hdec] at hr
          rcases hcode : rval.code with _ | _ | _
          · simp only [hcode] at hr
            split_ifs at hr
            · cases hr
              exact hst₁
            · cases hr
              exact hst₁
            · obtain ⟨r', -, he⟩ := Option.map_eq_some_iff.mp hr
              cases he
              exact hst₁
          · simp only [hcode] at hr
            split_ifs at hr
            all_goals
              cases hr
              exact hst₁
          · simp only [hcode] at hr
            cases hr
            exact hst₁
  unfold choiceDecodeBer at h
  by_cases htagged : tagMode ≠ .plain ∨ tags ≠ []
  · simp only [if_pos htagged] at h
    split_ifs at h
    · cases h
      exact hst
    · refine hmember true _ ?_ h
      simp only [List.length_drop]
      omega
  · rw [if_neg htagged] at h
    exact hmember false _ hN h

/-! ### Definite encodings are read back -/

/- On the encoding, followed by anything, the member stores `st'` and takes all
of the encoding. -/
structure Member.Reads (m : Member σ) (st : σ) (enc : Bytes) (st' : σ) : Prop where
  nonempty : enc ≠ []
  tag : ∀ rest, ∃ n, berFetchTag (enc ++ rest) = .got n m.tag
  decode : ∀ rest, m.decode st (enc ++ rest) = some (⟨.rcOk, enc.length⟩, st')

theorem window_append {enc : Bytes} {left : ℤ} (rest : Bytes) (consumed : ℕ)
    (h : (enc.length : ℤ) ≤ left) :
    ∃ rest', Cursor.window ⟨enc ++ rest, left, consumed⟩ = enc ++ rest' := by
  have hle : enc.length ≤ left.toNat := by omega
  have hnonneg : ¬ left < 0 := by omega
  refine ⟨rest.take (left.toNat - enc.length), ?_⟩
  simp only [Cursor.window, leftOf, if_neg hnonneg]
  rw [List.take_append, List.take_of_length_le hle]

theorem sequenceMembers_reads {m : Member σ} {ms : List (Member σ)} {st st' : σ}
    {enc rest : Bytes} {left : ℤ} {consumed : ℕ} (h : m.Reads st enc st')
    (hleft : (enc.length : ℤ) ≤ left) :
    sequenceMembers (m :: ms) ⟨enc ++ rest, left, consumed⟩ st =
      sequenceMembers ms ⟨rest, left - enc.length, consumed + enc.length⟩ st' := by
  obtain ⟨rest', hwindow⟩ := window_append rest consumed hleft
  obtain ⟨n, htag⟩ := h.tag rest'
  have hpos : 0 < enc.length := List.length_pos_of_ne_nil h.nonempty
  have h0 : ¬ (left = 0 ∧ m.optional = ms.length + 1) := by
    intro hzero
    obtain ⟨h0, -⟩ := hzero
    omega
  have h1 : ¬ (left < 0 ∧ (enc ++ rest').take 1 = [0] ∧ (enc ++ rest').length < 2) := by
    intro hzero
    obtain ⟨h0, -⟩ := hzero
    omega
  have h2 : ¬ (left < 0 ∧ (enc ++ rest').take 2 = [0, 0] ∧ m.optional = ms.length + 1) := by
    intro hzero
    obtain ⟨h0, -⟩ := hzero
    omega
  have hge : 0 ≤ left := by omega
  have hpick : pick m.tag (m.optional + 1) (m :: ms) = some (m, ms) := by
    rw [pick, if_pos rfl]
  rw [sequenceMembers]
  simp only [if_neg h0, hwindow, htag, if_neg h1, if_neg h2]
  rw [hpick]
  simp only [h.decode rest', Cursor.advance, if_pos hge, List.drop_left' rfl]

theorem sequenceMembers_done (rest : Bytes) (consumed : ℕ) (st : σ) :
    sequenceMembers [] ⟨rest, 0, consumed⟩ st = some (⟨.rcOk, consumed⟩, st) := by
  rw [sequenceMembers, sequenceEnd, if_pos rfl]

theorem sequenceMembers_optional {m : Member σ} (hm : m.optional = 1) (rest : Bytes)
    (consumed : ℕ) (st : σ) :
    sequenceMembers [m] ⟨rest, 0, consumed⟩ st = some (⟨.rcOk, consumed⟩, st) := by
  rw [sequenceMembers, if_pos ⟨rfl, hm⟩]

/- The encodings of the members in their order; a last optional member may be
missing. -/
inductive MembersRead : List (Member σ) → σ → Bytes → σ → Prop where
  | done (st : σ) : MembersRead [] st [] st
  | missing {m : Member σ} (st : σ) (h : m.optional = 1) : MembersRead [m] st [] st
  | present {m : Member σ} {ms : List (Member σ)} {st st' st'' : σ} {enc encs : Bytes}
      (h : m.Reads st enc st') (hs : MembersRead ms st' encs st'') :
      MembersRead (m :: ms) st (enc ++ encs) st''

theorem sequenceMembers_all {ms : List (Member σ)} {st st' : σ} {encs : Bytes}
    (h : MembersRead ms st encs st') (rest : Bytes) (consumed : ℕ) :
    sequenceMembers ms ⟨encs ++ rest, encs.length, consumed⟩ st =
      some (⟨.rcOk, consumed + encs.length⟩, st') := by
  induction h generalizing consumed with
  | done st => exact sequenceMembers_done rest consumed st
  | missing st hm => exact sequenceMembers_optional hm rest consumed st
  | present hm hs ih =>
    rename_i m ms st st₁ st₂ enc encs
    have hleft : (enc.length : ℤ) ≤ ((enc ++ encs).length : ℕ) := by
      rw [List.length_append]
      omega
    have hrest : (((enc ++ encs).length : ℕ) : ℤ) - enc.length = encs.length := by
      rw [List.length_append]
      omega
    rw [List.append_assoc, sequenceMembers_reads hm hleft, hrest, ih, List.length_append,
      Nat.add_assoc]

/-- A definite-length SEQUENCE hands its contents to its members. -/
theorem sequenceDecodeBer_tlv {tags : List ℕ} {tagMode : TagMode} {members : List (Member σ)}
    {tag : ℕ} {expected : Option ℕ} {contents : Bytes} {st st' : σ} (rest : Bytes)
    (htags : tagChain tags tagMode = [expected]) (hexpected : expected = none ∨ expected = some tag)
    (htag : berTagValue tag ≤ 30) (hlen : contents.length < 2 ^ 62)
    (hmembers : MembersRead members st contents st') :
    sequenceDecodeBer tags tagMode members
        (tlv (identifier (berTagClass tag) true (berTagValue tag)) contents ++ rest) st =
      some (⟨.rcOk, (tlv (identifier (berTagClass tag) true (berTagValue tag)) contents).length⟩,
        st') := by
  have hform : (some true : Option Bool) = none ∨ some true = some true := Or.inr rfl
  have hcheck := berCheckTags_tlv true (contents ++ rest) htags hexpected hform htag hlen
  rw [tlv_append]
  simp only [sequenceDecodeBer, hcheck, ne_eq, not_true_eq_false, if_false, drop_header,
    sequenceMembers_all hmembers, tlv_length]

/-- A definite-length explicit tag hands its contents to the alternative. -/
theorem choiceDecodeBer_tlv {alts : List (Alternative σ)} {alt : Alternative σ} {tag : ℕ}
    {contents : Bytes} {st st' : σ} (rest : Bytes) (htag : berTagValue tag ≤ 30)
    (hlen : contents.length < 2 ^ 62)
    (hfetch : ∃ n, berFetchTag contents = .got n alt.tag)
    (hfind : alts.find? (fun a => decide (a.tag = alt.tag)) = some alt)
    (hdecode : alt.decode contents = some (⟨.rcOk, contents.length⟩, st')) :
    choiceDecodeBer [] .explicit alts
        (tlv (identifier (berTagClass tag) true (berTagValue tag)) contents ++ rest) st =
      some (⟨.rcOk, (tlv (identifier (berTagClass tag) true (berTagValue tag)) contents).length⟩,
        st') := by
  have htags : tagChain [] .explicit = [none] := rfl
  have hform : (none : Option Bool) = none ∨ none = some true := Or.inl rfl
  have hcheck := berCheckTags_tlv true (contents ++ rest) htags (Or.inl rfl) hform htag hlen
  have htagged : TagMode.explicit ≠ .plain ∨ ([] : List ℕ) ≠ [] := Or.inl (by decide)
  obtain ⟨n, hn⟩ := hfetch
  have hwindow : ∀ consumed, Cursor.window ⟨contents ++ rest, contents.length, consumed⟩ =
      contents := by
    intro consumed
    have hneg : ¬ ((contents.length : ℕ) : ℤ) < 0 := by omega
    simp only [Cursor.window, leftOf, if_neg hneg, Int.toNat_natCast, List.take_left' rfl]
  have hnonneg : (0 : ℤ) ≤ contents.length := by omega
  have hend : ∀ rest consumed, choiceEnd ⟨rest, 0, consumed⟩ = some ⟨.rcOk, consumed⟩ := by
    intro rest consumed
    rw [choiceEnd, if_pos (le_refl 0)]
  have htaken : ¬ ((0 : ℤ) = -1 ∧ true = false) := by
    intro hzero
    obtain ⟨h0, -⟩ := hzero
    omega
  unfold choiceDecodeBer
  rw [tlv_append, if_pos htagged]
  simp only [hcheck, ne_eq, not_true_eq_false, if_false, drop_header, choiceMember, hwindow, hn,
    hfind, hdecode, Cursor.advance, if_pos hnonneg, sub_self, lt_irrefl, if_neg htaken, hend,
    Option.map_some, tlv_length]

end Fws
