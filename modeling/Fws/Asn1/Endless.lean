import Fws.Asn1.Members

/-!
# Where the decoder does not return

A CHOICE without a length of its own is ended by two zero octets. A zero octet in
front of another one is neither taken nor refused, and the decoder turns there
for good.
-/

namespace Fws
open Base.Digits Base.Tlv Base.Ber

variable {σ : Type}

/-! ### The end of a CHOICE -/

def LoneZero (bs : Bytes) : Prop := ∃ b rest, bs = 0 :: b :: rest ∧ b ≠ 0

theorem choiceEnd_none {c : Cursor} (hleft : c.left = -1 ∨ 0 ≤ c.left) :
    choiceEnd c = none ↔ c.left = -1 ∧ LoneZero c.bs := by
  rcases hleft with hminus | hge
  · have hneg : ¬ 0 ≤ c.left := by omega
    have hwindow : c.window = c.bs := by
      rw [Cursor.window, leftOf, if_pos (by omega)]
    rw [choiceEnd, if_neg hneg, hwindow, and_iff_right hminus]
    constructor
    · intro h
      cases hbs : c.bs with
      | nil =>
        rw [hbs] at h
        cases h
      | cons b₀ bs =>
        rw [hbs] at h
        rcases htag : berFetchTag (b₀ :: bs) with _ | _ | ⟨k, t⟩
        · simp only [htag] at h
          cases h
        · simp only [htag] at h
          cases h
        · simp only [htag] at h
          by_cases hzero : b₀ = 0
          · subst hzero
            cases bs with
            | nil => cases h
            | cons b rest =>
              have hlong : ¬ (0 :: b :: rest : Bytes).length < 2 := by
                simp only [List.length_cons]
                omega
              refine ⟨b, rest, rfl, ?_⟩
              rintro rfl
              simp only [List.take_succ_cons, List.take_zero, if_true, if_neg hlong] at h
              rw [choiceEnd_open (by simp only; omega)] at h
              cases h
          · have hone : ¬ (b₀ :: bs).take 1 = [0] := by
              intro hone
              exact hzero (List.cons.inj hone).1
            rw [if_neg hone] at h
            cases h
    · intro hlone
      obtain ⟨b, rest, hbs, hb⟩ := hlone
      have hfetch : berFetchTag (0 :: b :: rest) = .got 1 0 := rfl
      have hlong : ¬ (0 :: b :: rest : Bytes).length < 2 := by
        simp only [List.length_cons]
        omega
      have htwo : ¬ ([0, b] : Bytes) = [0, 0] := by
        intro hsame
        exact hb (List.cons.inj (List.cons.inj hsame).2).1
      rw [hbs]
      simp only [hfetch, List.take_succ_cons, List.take_zero, if_true, if_neg hlong]
      exact if_neg htwo
  · rw [choiceEnd_open hge]
    constructor
    · intro h
      cases h
    · intro h
      omega

/-! ### A CHOICE -/

section
variable {N : ℕ} {brs : List (Branch σ)}

/-- It is the end that does not return. -/
theorem choiceMember_none (hbrs : Branches N brs)
    (hreturns : ∀ br ∈ brs, ∀ bs, br.alternative.decode bs ≠ none) {c : Cursor} {st : σ}
    (hN : c.bs.length < N) (hleft : c.left = -1 ∨ 0 ≤ c.left) :
    choiceMember true (brs.map Branch.alternative) c st = none ↔
      c.left = -1 ∧ ∃ br ∈ brs, ∃ contents rest v, c.bs = contents ++ rest ∧ br.lang contents v ∧
        LoneZero rest := by
  constructor
  · intro h
    unfold choiceMember at h
    rcases hfetch : berFetchTag c.window with _ | _ | ⟨k, t⟩
    · simp only [hfetch] at h
      cases h
    · simp only [hfetch] at h
      cases h
    · rcases hfind : (brs.map Branch.alternative).find? (fun alt => decide (alt.tag = t)) with
        _ | alt
      · simp only [hfetch, hfind] at h
        cases h
      · obtain ⟨br, hbr, rfl⟩ := List.mem_map.mp (List.mem_of_find?_eq_some hfind)
        have htag := List.find?_some hfind
        simp only [decide_eq_true_eq] at htag
        rcases hdecode : br.alternative.decode c.window with _ | ⟨⟨code, n⟩, v⟩
        · exact absurd hdecode (hreturns br hbr c.window)
        · cases code with
          | rcWmore =>
            simp only [hfetch, hfind, hdecode] at h
            split_ifs at h
          | rcFail =>
            simp only [hfetch, hfind, hdecode] at h
            cases h
          | rcOk =>
            rw [← htag] at hfetch
            have htook := tagged_took.mpr ⟨⟨k, hfetch⟩, hdecode⟩
            obtain ⟨contents, rest, left', hbs, hlang, hadvance, hleft', hcloses⟩ :=
              Cursor.advance_sound (hbrs.decides br hbr).decides hN hleft htook
            rw [← htag] at hfind
            simp only [hfetch, hfind, hdecode, hadvance] at h
            have h1 : ¬ 0 < left' := by
              intro hpos
              rw [if_pos hpos] at h
              cases h
            have h2 : ¬ (left' = -1 ∧ true = false) := fun h => Bool.noConfusion h.2
            rw [if_neg h1, if_neg h2, Option.map_eq_none_iff] at h
            obtain ⟨hminus, hlone⟩ := (choiceEnd_none hleft').mp h
            have hopen : Closes c.left (contents.length + 0) [0, 0] :=
              hcloses 0 [0, 0] (Or.inr ⟨hminus, rfl⟩)
            rcases hopen with ⟨-, hnil⟩ | ⟨hopen, -⟩
            · cases hnil
            · exact ⟨hopen, br, hbr, contents, rest, v, hbs, hlang, hlone⟩
  · intro h
    obtain ⟨hminus, br, hbr, contents, rest, v, hbs, hlang, hlone⟩ := h
    obtain ⟨bs, left, consumed⟩ := c
    simp only at hbs hminus hN
    subst hbs hminus
    have hwindow : Cursor.window ⟨contents ++ rest, -1, consumed⟩ = contents ++ rest := rfl
    obtain ⟨⟨k, hfetch⟩, hdecode⟩ :=
      tagged_took.mp ((hbrs.decides br hbr).decides.takes contents rest v hlang hN)
    have hadvance : Cursor.advance ⟨contents ++ rest, -1, consumed⟩ contents.length =
        ⟨rest, -1, consumed + contents.length⟩ := by
      have hneg : ¬ 0 ≤ (-1 : ℤ) := by decide
      rw [Cursor.advance, if_neg hneg, List.drop_left]
    have h1 : ¬ 0 < (-1 : ℤ) := by decide
    have hend : choiceEnd ⟨rest, -1, consumed + contents.length⟩ = none :=
      (choiceEnd_none (Or.inl rfl)).mpr ⟨rfl, hlone⟩
    unfold choiceMember
    simp only [hwindow, hfetch, hbrs.find br hbr, hdecode, hadvance, if_neg h1, Bool.true_eq_false,
      and_false, if_false, hend, Option.map_none]

/- The bytes of a CHOICE under a tag, without a length of its own, up to where it
should end. -/
inductive ChoiceEndless (tag : ℕ) (brs : List (Branch σ)) : Bytes → Prop where
  | mk {br : Branch σ} {header contents rest : Bytes} {v : σ}
      (h : TagFrame tag true contents.length header (-1) [0, 0]) (hbr : br ∈ brs)
      (hlang : br.lang contents v) (hlone : LoneZero rest) :
      ChoiceEndless tag brs (header ++ (contents ++ rest))

theorem choice_none (hbrs : Branches N brs)
    (hreturns : ∀ br ∈ brs, ∀ bs, br.alternative.decode bs ≠ none) {tag : ℕ}
    (htag : berTagValue tag < 2 ^ 30) (hN : N ≤ 2 ^ 62) {bs : Bytes} (hlen : bs.length < N)
    (st : σ) :
    ((∃ k, berFetchTag bs = .got k tag) ∧
        choiceDecodeBer [] .explicit (brs.map Branch.alternative) bs st = none) ↔
      ChoiceEndless tag brs bs := by
  have hchain : tagChain [] .explicit = [none] := rfl
  have htagged : TagMode.explicit ≠ .plain ∨ ([] : List ℕ) ≠ [] := Or.inl (by decide)
  constructor
  · intro h
    obtain ⟨⟨k, hfetch⟩, h⟩ := h
    rw [choiceDecodeBer, if_pos htagged] at h
    by_cases hcode : (berCheckTags true [] .explicit none bs).rval.code = .rcOk
    · obtain ⟨tag', constructed, header, left, rest, rfl, hcheck, hopened, -, ⟨k', hfetch'⟩, -, -⟩ :=
        berCheckTags_sound hchain hcode
      rw [hfetch] at hfetch'
      cases hfetch'
      simp only [hcheck, ne_eq, not_true_eq_false, if_false, List.drop_left] at h
      rw [List.length_append] at hlen
      obtain ⟨hminus, br, hbr, contents, rest', v, hrest, hlang, hlone⟩ :=
        (choiceMember_none hbrs hreturns (c := ⟨rest, left, header.length⟩)
          (show rest.length < N by omega) hopened.closable).mp h
      simp only at hminus hrest
      subst hminus hrest
      have hframe := hopened.indefinite rfl contents.length
      obtain rfl : constructed = true := by
        rcases hframe.left with ⟨hbad, -⟩ | ⟨-, -, hconstructed⟩
        · omega
        · exact hconstructed
      exact .mk hframe hbr hlang hlone
    · simp only [ne_eq, hcode, not_false_eq_true, if_true] at h
      cases h
  · intro h
    cases h with
    | @mk br header contents rest v hframe hbr hlang hlone =>
      simp only [List.length_append] at hlen
      obtain ⟨ids, octets, rfl, -, -, hids, -⟩ := tagFrame_fetch hframe htag (by omega)
      refine ⟨⟨ids.length, ?_⟩, ?_⟩
      · rw [List.append_assoc]
        exact (hids _).1
      · have hcheck := berCheckTags_frame true hchain (Or.inl rfl) (Or.inl rfl) htag hframe
          (by omega) (contents ++ rest)
        have hmember : choiceMember true (brs.map Branch.alternative)
            ⟨contents ++ rest, -1, (ids ++ octets).length⟩ st = none :=
          (choiceMember_none hbrs hreturns (by simp only [List.length_append]; omega)
            (Or.inl rfl)).mpr ⟨rfl, br, hbr, contents, rest, v, rfl, hlang, hlone⟩
        rw [choiceDecodeBer, if_pos htagged]
        simp only [hcheck, ne_eq, not_true_eq_false, if_false, List.drop_left, hmember]

/-- Without a tag of its own the end of a CHOICE is not waited for. -/
theorem plainChoice_returns {alts : List (Alternative σ)}
    (hreturns : ∀ alt ∈ alts, ∀ bs, alt.decode bs ≠ none) (bs : Bytes) (st : σ) :
    choiceDecodeBer [] .plain alts bs st ≠ none := by
  have hplain : ¬ (TagMode.plain ≠ .plain ∨ ([] : List ℕ) ≠ []) := by decide
  have hneg : ¬ 0 ≤ (-1 : ℤ) := by decide
  have hclosed : ¬ 0 < (-1 : ℤ) := by decide
  intro h
  rw [choiceDecodeBer, if_neg hplain, choiceMember] at h
  generalize Cursor.window ⟨bs, -1, 0⟩ = window at h
  rcases hfetch : berFetchTag window with _ | _ | ⟨k, t⟩
  · simp only [hfetch] at h
    cases h
  · simp only [hfetch] at h
    cases h
  · rcases hfind : alts.find? (fun alt => decide (alt.tag = t)) with _ | alt
    · simp only [hfetch, hfind] at h
      cases h
    · have halt := List.mem_of_find?_eq_some hfind
      rcases hdecode : alt.decode window with _ | ⟨⟨code, n⟩, v⟩
      · exact hreturns alt halt window hdecode
      · simp only [hfetch, hfind, hdecode] at h
        cases code with
        | rcOk =>
          simp only [Cursor.advance, if_neg hneg, if_neg hclosed, and_self, if_true] at h
          cases h
        | rcWmore =>
          dsimp only at h
          split_ifs at h
        | rcFail => cases h

end

/-! ### A SEQUENCE -/

theorem sequenceMembers_returns {ms : List (Member σ)} {c : Cursor} {st : σ}
    (hreturns : ∀ m ∈ ms, ∀ st bs, m.decode st bs ≠ none) : sequenceMembers ms c st ≠ none := by
  intro h
  induction hlen : ms.length using Nat.strong_induction_on generalizing ms c st with
  | _ n ih =>
    subst hlen
    cases ms with
    | nil =>
      rw [sequenceMembers] at h
      cases h
    | cons m ms =>
      rcases sequenceMembers_cases h with
        ⟨r, -, hr⟩ | ⟨memb, after, hmem, hlt, hsub, ⟨hdecode, -⟩ | ⟨rval, st', -, hnext⟩⟩
      · cases hr
      · exact hreturns memb hmem st c.window hdecode
      · rcases hnext with ⟨-, hrest⟩ | ⟨r, -, hr⟩
        · exact ih _ hlt (fun x hx => hreturns x (hsub hx)) hrest rfl
        · cases hr

theorem sequenceDecodeBer_returns {tags : List ℕ} {tagMode : TagMode} {ms : List (Member σ)}
    {bs : Bytes} {st : σ} (hreturns : ∀ m ∈ ms, ∀ st bs, m.decode st bs ≠ none) :
    sequenceDecodeBer tags tagMode ms bs st ≠ none := by
  intro h
  rw [sequenceDecodeBer] at h
  split_ifs at h
  exact sequenceMembers_returns hreturns h

/- Encodings of the first members, and behind them one whose decoder does not return. -/
inductive Stuck : List (Component σ) → σ → Bytes → Prop where
  | here {f : Component σ} {fs : List (Component σ)} {st : σ} {bs : Bytes}
      (h : (∃ k, berFetchTag bs = .got k f.member.tag) ∧ f.member.decode st bs = none) :
      Stuck (f :: fs) st bs
  | later {f : Component σ} {fs : List (Component σ)} {st st' : σ} {enc bs : Bytes}
      (h : f.lang st enc st') (hs : Stuck fs st' bs) : Stuck (f :: fs) st (enc ++ bs)

theorem sequenceMembers_none_inv {m : Member σ} {ms : List (Member σ)} {c : Cursor} {st : σ}
    (hpick : ∀ t x after, pick t (m.optional + 1) (m :: ms) = some (x, after) →
      x = m ∧ after = ms ∧ t = m.tag)
    (h : sequenceMembers (m :: ms) c st = none) :
    ((∃ k, berFetchTag c.window = .got k m.tag) ∧ m.decode st c.window = none) ∨
      ∃ n st₁, tagged m.tag (m.decode st) c.window = .took n st₁ ∧
        sequenceMembers ms (c.advance n) st₁ = none := by
  rw [sequenceMembers] at h
  by_cases hend : c.left = 0 ∧ m.optional = ms.length + 1
  · rw [if_pos hend] at h
    cases h
  · rw [if_neg hend] at h
    rcases htag : berFetchTag c.window with _ | _ | ⟨k, tlvTag⟩
    · simp only [htag] at h
      cases h
    · simp only [htag] at h
      cases h
    · simp only [htag] at h
      by_cases hshort : c.left < 0 ∧ c.window.take 1 = [0] ∧ c.window.length < 2
      · rw [if_pos hshort] at h
        cases h
      · rw [if_neg hshort] at h
        by_cases heoc : c.left < 0 ∧ c.window.take 2 = [0, 0] ∧ m.optional = ms.length + 1
        · rw [if_pos heoc] at h
          cases h
        · rw [if_neg heoc] at h
          rcases hp : pick tlvTag (m.optional + 1) (m :: ms) with _ | ⟨memb, after⟩
          · rw [hp] at h
            cases h
          · rw [hp] at h
            obtain ⟨rfl, rfl, rfl⟩ := hpick _ _ _ hp
            rcases hdec : memb.decode st c.window with _ | ⟨⟨code, n⟩, st₁⟩
            · exact Or.inl ⟨⟨k, rfl⟩, rfl⟩
            · cases code with
              | rcOk =>
                simp only [hdec] at h
                exact Or.inr ⟨n, st₁, tagged_took.mpr ⟨⟨k, htag⟩, hdec⟩, h⟩
              | rcWmore =>
                simp only [hdec] at h
                split_ifs at h
              | rcFail =>
                simp only [hdec] at h
                cases h

theorem fetched_nonzero {bs : Bytes} {k tag : ℕ} (h : berFetchTag bs = .got k tag)
    (hne : tag ≠ 0) : ∃ b rest, bs = b :: rest ∧ b ≠ 0 := by
  cases bs with
  | nil => cases h
  | cons b rest =>
    refine ⟨b, rest, rfl, ?_⟩
    rintro rfl
    have hzero : berFetchTag (0 :: rest) = .got 1 0 := rfl
    rw [hzero] at h
    cases h
    exact hne rfl

theorem sequenceMembers_stops {m : Member σ} {ms : List (Member σ)} {c : Cursor} {st : σ} {k : ℕ}
    (hfetch : berFetchTag c.window = .got k m.tag) (hne : m.tag ≠ 0)
    (hdecode : m.decode st c.window = none) : sequenceMembers (m :: ms) c st = none := by
  obtain ⟨b, bs, hwindow, hb⟩ := fetched_nonzero hfetch hne
  obtain ⟨h1, h2, h3⟩ := Cursor.window_goes_on hwindow hb (m.optional = ms.length + 1)
  have hpick : pick m.tag (m.optional + 1) (m :: ms) = some (m, ms) := by
    rw [pick, if_pos rfl]
  rw [sequenceMembers, if_neg h1]
  simp only [hfetch, if_neg h2, if_neg h3]
  rw [hpick]
  simp only [hdecode]

/-- The window moves with the cursor. -/
theorem Cursor.advance_window (c : Cursor) {n : ℕ} (hleft : c.left = -1 ∨ 0 ≤ c.left)
    (hn : n ≤ c.window.length) :
    (c.advance n).window = c.window.drop n ∧
      ((c.advance n).left = -1 ∨ 0 ≤ (c.advance n).left) := by
  obtain ⟨bs, left, consumed⟩ := c
  rcases hleft with rfl | hge
  · exact ⟨rfl, Or.inl rfl⟩
  · have hge' : 0 ≤ left := hge
    have hneg : ¬ left < 0 := by omega
    simp only [Cursor.window, leftOf, if_neg hneg, List.length_take] at hn ⊢
    have hrest : 0 ≤ left - n := by omega
    have hneg' : ¬ left - n < 0 := by omega
    have hcount : (left - n).toNat = left.toNat - n := by omega
    simp only [Cursor.advance, if_pos hge', if_neg hneg', hcount, List.drop_take, true_and]
    exact Or.inr hrest

/-- It is one of the members that does not return. -/
theorem sequenceMembers_none {N : ℕ} {fs : List (Component σ)} (htable : MemberTable N fs)
    (htags : ∀ f ∈ fs, f.member.tag ≠ 0) {c : Cursor} {st : σ} (hN : c.bs.length < N)
    (hleft : c.left = -1 ∨ 0 ≤ c.left) :
    sequenceMembers (fs.map Component.member) c st = none ↔ Stuck fs st c.window := by
  induction fs generalizing c st with
  | nil =>
    rw [List.map_nil, sequenceMembers]
    constructor
    · intro h
      cases h
    · intro h
      cases h
  | cons f fs ih =>
    obtain ⟨hf, hfs⟩ := htable.head
    have hwin := c.window_length_le
    have hne := htags f (List.mem_cons_self ..)
    have hrest : ∀ n, (c.advance n).bs.length < N := by
      intro n
      rw [Cursor.advance, List.length_drop]
      omega
    have ih' : ∀ {n : ℕ} {st₁ : σ}, n ≤ c.window.length →
        (sequenceMembers (fs.map Component.member) (c.advance n) st₁ = none ↔
          Stuck fs st₁ (c.window.drop n)) := by
      intro n st₁ hn
      obtain ⟨hwindow, hleft'⟩ := c.advance_window hleft hn
      rw [ih hfs (fun g hg => htags g (List.mem_cons_of_mem _ hg)) (hrest n) hleft', hwindow]
    rw [List.map_cons]
    constructor
    · intro h
      have hpick : ∀ t x after,
          pick t (f.member.optional + 1) (f.member :: fs.map Component.member) = some (x, after) →
          x = f.member ∧ after = fs.map Component.member ∧ t = f.member.tag := by
        cases htable with
        | last _ hopt => exact pick_only
        | cons _ hopt _ => exact fun t x after hp => pick_first t x after hopt hp
      rcases sequenceMembers_none_inv hpick h with hhere | ⟨n, st₁, htook, hnone⟩
      · exact .here hhere
      · obtain ⟨hle, hlang⟩ := (hf.decides st).sound c.window n st₁ (by omega) htook
        have hlater := Stuck.later hlang ((ih' hle).mp hnone)
        rw [List.take_append_drop] at hlater
        exact hlater
    · intro h
      generalize hw : c.window = w at h
      cases h with
      | here hhere =>
        obtain ⟨⟨k, hfetch⟩, hdecode⟩ := hhere
        rw [← hw] at hfetch hdecode
        exact sequenceMembers_stops hfetch hne hdecode
      | @later _ _ _ st₁ enc bs hlang hs =>
        have hlen := congrArg List.length hw
        rw [List.length_append] at hlen
        have htook := (hf.decides st).takes enc bs st₁ hlang (by rw [List.length_append]; omega)
        rw [← hw] at htook
        have hfirst : ∃ b rest, c.window = b :: rest ∧ b ≠ 0 := by
          obtain ⟨b, rest, rfl, hb⟩ := hf.nonzero st enc st₁ hlang
          exact ⟨b, rest ++ bs, hw, hb⟩
        rw [sequenceMembers_took htook hfirst, ih' (by omega), hw, List.drop_left]
        exact hs

/- A header of a constructed value that is accepted. -/
structure HeaderAccepted (tag : ℕ) (header : Bytes) (left : ℤ) : Prop where
  opened : Opened tag true header left
  limit : left + 1024 < 2 ^ 63
  whole : 0 ≤ left → left + header.length < 2 ^ 63

theorem HeaderAccepted.check {tags : List ℕ} {tagMode : TagMode} {tag : ℕ} {header : Bytes} {left : ℤ}
    (h : HeaderAccepted tag header left) (htags : tagChain tags tagMode = [some tag])
    (htag : berTagValue tag < 2 ^ 30) (hheader : header.length < 2 ^ 62) (rest : Bytes) :
    berCheckTags true tags tagMode (some true) (header ++ rest) =
      ⟨⟨.rcOk, header.length⟩, left, true⟩ := by
  have hlimit := h.limit
  have hwhole := h.whole
  rcases h.opened.closable with hminus | hge
  · have hframe := h.opened.indefinite hminus 0
    exact berCheckTags_header true htags (Or.inr rfl) (Or.inr rfl) htag hframe (by norm_num)
      (by omega) rest
  · obtain ⟨n, rfl⟩ := Int.eq_ofNat_of_zero_le hge
    have hframe := h.opened.definite n rfl
    exact berCheckTags_header true htags (Or.inr rfl) (Or.inr rfl) htag hframe (by omega)
      (by omega) rest

theorem sequence_none {N : ℕ} {fs : List (Component σ)} {tags : List ℕ} {tagMode : TagMode}
    {tag : ℕ} (htable : MemberTable N fs) (hmembers : ∀ f ∈ fs, f.member.tag ≠ 0)
    (htags : tagChain tags tagMode = [some tag]) (htag : berTagValue tag < 2 ^ 30)
    (hN : N ≤ 2 ^ 62) {bs : Bytes} (hlen : bs.length < N) (st : σ) :
    sequenceDecodeBer tags tagMode (fs.map Component.member) bs st = none ↔
      ∃ header left rest, bs = header ++ rest ∧ HeaderAccepted tag header left ∧
        Stuck fs st (leftOf left rest) := by
  constructor
  · intro h
    rw [sequenceDecodeBer] at h
    by_cases hcode : (berCheckTags true tags tagMode (some true) bs).rval.code = .rcOk
    · obtain ⟨tag', constructed, header, left, rest, rfl, hcheck, hopened, -, -, hexpected, hform,
        hlimit, hwhole⟩ := berCheckTags_sound htags hcode
      obtain rfl : tag = tag' := by
        rcases hexpected with hexpected | hexpected
        · cases hexpected
        · exact Option.some.inj hexpected
      obtain rfl : true = constructed := by
        rcases hform with hform | hform
        · cases hform
        · exact Option.some.inj hform
      simp only [hcheck, ne_eq, not_true_eq_false, if_false, List.drop_left] at h
      rw [List.length_append] at hlen
      have hstuck := (sequenceMembers_none htable hmembers (c := ⟨rest, left, header.length⟩)
        (show rest.length < N by omega) hopened.closable).mp h
      exact ⟨header, left, rest, rfl, ⟨hopened, hlimit, hwhole⟩, hstuck⟩
    · simp only [ne_eq, hcode, not_false_eq_true, if_true] at h
      cases h
  · intro h
    obtain ⟨header, left, rest, rfl, haccepted, hstuck⟩ := h
    rw [List.length_append] at hlen
    have hcheck := haccepted.check htags htag (by omega) rest
    rw [sequenceDecodeBer]
    simp only [hcheck, ne_eq, not_true_eq_false, if_false, List.drop_left]
    exact (sequenceMembers_none htable hmembers (c := ⟨rest, left, header.length⟩)
      (show rest.length < N by omega) haccepted.opened.closable).mpr hstuck

end Fws
