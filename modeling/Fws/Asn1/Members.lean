import Fws.Asn1.Strings
import Fws.Asn1.Constructed

/-!
# The structures that are decoded

The encodings of a SEQUENCE by those of its members and of a CHOICE by those of
its alternatives, with definite lengths and without. What holds of the members
(`Decides`) holds of the structure.
-/

namespace Fws
open Base.Digits Base.Tlv Base.Ber

variable {σ τ : Type}

/-! ### Answers -/

/- A decoder that never returns has refused as well. -/
def answerOf {α : Type} : Option (DecRval × α) → Answer α
  | some (⟨.rcOk, n⟩, v) => .took n v
  | some (⟨.rcWmore, _⟩, _) => .more
  | _ => .refused

theorem answerOf_took {α : Type} {r : Option (DecRval × α)} {n : ℕ} {v : α} :
    answerOf r = .took n v ↔ r = some (⟨.rcOk, n⟩, v) := by
  rcases r with _ | ⟨⟨code, m⟩, w⟩
  · constructor
    · intro h
      cases h
    · intro h
      cases h
  · cases code with
    | rcOk =>
      constructor
      · intro h
        injection h with hn hv
        rw [hn, hv]
      · intro h
        cases h
        rfl
    | rcWmore =>
      constructor
      · intro h
        cases h
      · intro h
        cases h
    | rcFail =>
      constructor
      · intro h
        cases h
      · intro h
        cases h

theorem answerOf_more {α : Type} {r : Option (DecRval × α)} :
    answerOf r = .more ↔ ∃ rval v, r = some (rval, v) ∧ rval.code = .rcWmore := by
  rcases r with _ | ⟨⟨code, m⟩, w⟩
  · constructor
    · intro h
      cases h
    · rintro ⟨rval, v, h, -⟩
      cases h
  · cases code with
    | rcOk =>
      constructor
      · intro h
        cases h
      · rintro ⟨rval, v, h, hcode⟩
        cases h
        cases hcode
    | rcWmore => exact ⟨fun _ => ⟨_, _, rfl, rfl⟩, fun _ => rfl⟩
    | rcFail =>
      constructor
      · intro h
        cases h
      · rintro ⟨rval, v, h, hcode⟩
        cases h
        cases hcode

/- The answer of a decoder that is only asked where it finds its tag. -/
def tagged {α : Type} (tag : ℕ) (decode : Bytes → Option (DecRval × α)) (bs : Bytes) : Answer α :=
  match berFetchTag bs with
  | .failed => .refused
  | .more => .more
  | .got _ t => if t = tag then answerOf (decode bs) else .refused

theorem tagged_took {α : Type} {tag : ℕ} {decode : Bytes → Option (DecRval × α)} {bs : Bytes}
    {n : ℕ} {v : α} :
    tagged tag decode bs = .took n v ↔
      (∃ k, berFetchTag bs = .got k tag) ∧ decode bs = some (⟨.rcOk, n⟩, v) := by
  unfold tagged
  rcases berFetchTag bs with _ | _ | ⟨k, t⟩
  · constructor
    · intro h
      cases h
    · rintro ⟨⟨k, hk⟩, -⟩
      cases hk
  · constructor
    · intro h
      cases h
    · rintro ⟨⟨k, hk⟩, -⟩
      cases hk
  · by_cases ht : t = tag
    · simp only [if_pos ht, answerOf_took]
      rw [ht]
      exact ⟨fun h => ⟨⟨k, rfl⟩, h⟩, fun h => h.2⟩
    · simp only [if_neg ht]
      constructor
      · intro h
        cases h
      · rintro ⟨⟨k', hk⟩, -⟩
        cases hk
        exact absurd rfl ht

theorem tagged_more {α : Type} {tag : ℕ} {decode : Bytes → Option (DecRval × α)} {bs : Bytes}
    (h : tagged tag decode bs = .more) :
    berFetchTag bs = .more ∨ (∃ k, berFetchTag bs = .got k tag) ∧
      ∃ rval v, decode bs = some (rval, v) ∧ rval.code = .rcWmore := by
  unfold tagged at h
  rcases htag : berFetchTag bs with _ | _ | ⟨k, t⟩
  · rw [htag] at h
    cases h
  · exact Or.inl rfl
  · rw [htag] at h
    by_cases ht : t = tag
    · simp only [if_pos ht] at h
      rw [ht]
      exact Or.inr ⟨⟨k, rfl⟩, answerOf_more.mp h⟩
    · simp only [if_neg ht] at h
      cases h

/- Every encoding begins with this tag. -/
def Begins {α : Type} (tag : ℕ) (lang : Bytes → α → Prop) : Prop :=
  ∀ enc v, lang enc v → ∃ constructed ids body, enc = ids ++ body ∧ TagForm tag constructed ids

theorem tagFrame_begins {tag n : ℕ} {constructed : Bool} {header closing : Bytes} {left : ℤ}
    (h : TagFrame tag constructed n header left closing) (body : Bytes) :
    ∃ constructed ids body', header ++ body = ids ++ body' ∧ TagForm tag constructed ids := by
  cases h with
  | @mk ids octets _ _ hid hext =>
    exact ⟨constructed, ids, octets ++ body, List.append_assoc ids octets body, hid⟩

/-- A decoder decides its encodings where what it was asked for has its tag. -/
theorem tagged_decides {α : Type} {N tag : ℕ} {lang : Bytes → α → Prop}
    {decode : Bytes → Option (DecRval × α)} (htag : berTagValue tag < 2 ^ 30)
    (hbegins : Begins tag lang)
    (htakes : ∀ enc rest v, lang enc v → (enc ++ rest).length < N →
      decode (enc ++ rest) = some (⟨.rcOk, enc.length⟩, v))
    (hwaits : ∀ p q v, lang (p ++ q) v → q ≠ [] → (p ++ q).length < N →
      ∃ r w, decode p = some (r, w) ∧ r.code = .rcWmore)
    (hsound : ∀ bs k r v, bs.length < N → berFetchTag bs = .got k tag →
      decode bs = some (r, v) → r.code = .rcOk →
      ∃ enc rest, bs = enc ++ rest ∧ enc.length = r.consumed ∧ lang enc v) :
    Base.Ber.Decides N lang (tagged tag decode) where
  takes := by
    intro enc rest v hlang hN
    obtain ⟨constructed, ids, body, rfl, hid⟩ := hbegins enc v hlang
    apply tagged_took.mpr
    refine ⟨⟨ids.length, ?_⟩, htakes _ rest v hlang hN⟩
    rw [List.append_assoc]
    exact berFetchTag_form hid htag _
  waits := by
    intro p q v hlang hq hN
    obtain ⟨r, w, hdecode, hcode⟩ := hwaits p q v hlang hq hN
    obtain ⟨constructed, ids, body, hwhole, hid⟩ := hbegins _ v hlang
    unfold tagged
    rcases cut_append hwhole.symm with ⟨r', hone, hr⟩ | ⟨r', rfl, -⟩
    · rw [berFetchTag_form_cut hid htag hone hr]
    · rw [berFetchTag_form hid htag]
      simp only [if_true]
      exact answerOf_more.mpr ⟨r, w, hdecode, hcode⟩
  sound := by
    intro bs n v hN htook
    obtain ⟨⟨k, hfetch⟩, hdecode⟩ := tagged_took.mp htook
    obtain ⟨enc, rest, rfl, hlen, hlang⟩ := hsound bs k _ v hN hfetch hdecode rfl
    simp only at hlen
    rw [← hlen, List.take_left, List.length_append]
    exact ⟨Nat.le_add_right _ _, hlang⟩

theorem tagged_map {α β : Type} (tag : ℕ) (decode : Bytes → Option (DecRval × α)) (f : α → β)
    (bs : Bytes) :
    tagged tag (fun bs => (decode bs).map fun rv => (rv.1, f rv.2)) bs =
      (tagged tag decode bs).map f := by
  unfold tagged
  rcases berFetchTag bs with _ | _ | ⟨k, t⟩
  · rfl
  · rfl
  · by_cases ht : t = tag
    · simp only [if_pos ht]
      rcases decode bs with _ | ⟨⟨code, n⟩, v⟩
      · rfl
      · cases code with
        | rcOk => rfl
        | rcWmore => rfl
        | rcFail => rfl
    · simp only [if_neg ht]
      rfl

/-- A decoder whose values are stored. -/
theorem stored_decides {α β : Type} {N tag : ℕ} {lang : Bytes → α → Prop}
    {decode : Bytes → Option (DecRval × α)} (h : Base.Ber.Decides N lang (tagged tag decode))
    (f : α → β) :
    Base.Ber.Decides N (fun enc w => ∃ v, lang enc v ∧ w = f v)
      (tagged tag fun bs => (decode bs).map fun rv => (rv.1, f rv.2)) := by
  have hmap := h.map f
  have hsame : (fun bs => (tagged tag decode bs).map f) =
      tagged tag fun bs => (decode bs).map fun rv => (rv.1, f rv.2) :=
    funext fun bs => (tagged_map tag decode f bs).symm
  rw [hsame] at hmap
  exact hmap

/- An encoding does not begin as the end of contents does. -/
def Nonzero {α : Type} (lang : Bytes → α → Prop) : Prop :=
  ∀ enc v, lang enc v → ∃ b bs, enc = b :: bs ∧ b ≠ 0

theorem Begins.stored {α β : Type} {tag : ℕ} {lang : Bytes → α → Prop} (h : Begins tag lang)
    (f : α → β) : Begins tag (fun enc w => ∃ v, lang enc v ∧ w = f v) := by
  intro enc w hlang
  obtain ⟨v, hlang, -⟩ := hlang
  exact h enc v hlang

theorem Begins.nonzero {α : Type} {tag : ℕ} {lang : Bytes → α → Prop} (h : Begins tag lang)
    (hne : tag ≠ 0) : Nonzero lang := by
  intro enc v hlang
  obtain ⟨constructed, ids, body, rfl, hid⟩ := h enc v hlang
  obtain ⟨b, bs, rfl, hb⟩ := tagForm_ne_zero hne hid
  exact ⟨b, _, rfl, hb⟩

/- A member and the encodings it takes, as they change the structure. -/
structure Component (σ : Type) where
  member : Member σ
  lang : σ → Bytes → σ → Prop

structure Component.Decides (N : ℕ) (f : Component σ) : Prop where
  nonzero : ∀ st, Nonzero (f.lang st)
  decides : ∀ st, Base.Ber.Decides N (f.lang st) (tagged f.member.tag (f.member.decode st))

/- The encodings of the members in their order; a last optional one may be missing. -/
inductive Contents : List (Component σ) → σ → Bytes → σ → Prop where
  | done (st : σ) : Contents [] st [] st
  | missing {f : Component σ} (st : σ) (h : f.member.optional = 1) : Contents [f] st [] st
  | present {f : Component σ} {fs : List (Component σ)} {st st' st'' : σ} {enc encs : Bytes}
      (h : f.lang st enc st') (hs : Contents fs st' encs st'') :
      Contents (f :: fs) st (enc ++ encs) st''

/- The tables of the generated types: at most the last member is optional. -/
inductive MemberTable (N : ℕ) : List (Component σ) → Prop where
  | nil : MemberTable N []
  | last {f : Component σ} (h : f.Decides N) (hopt : f.member.optional = 1) : MemberTable N [f]
  | cons {f : Component σ} {fs : List (Component σ)} (h : f.Decides N) (hopt : f.member.optional = 0)
      (hs : MemberTable N fs) : MemberTable N (f :: fs)

/-! ### The end of a structure -/

/- What ends contents of which `n` bytes are still to come. -/
def Closes (left : ℤ) (n : ℕ) (closing : Bytes) : Prop :=
  left = n ∧ closing = [] ∨ left = -1 ∧ closing = [0, 0]

theorem sequenceEnd_zero {c : Cursor} (h : c.left = 0) : sequenceEnd c = ⟨.rcOk, c.consumed⟩ := by
  rw [sequenceEnd, if_pos h]

theorem sequenceEnd_closing {left : ℤ} {closing : Bytes} (h : Closes left 0 closing) (rest : Bytes)
    (consumed : ℕ) :
    sequenceEnd ⟨closing ++ rest, left, consumed⟩ = ⟨.rcOk, consumed + closing.length⟩ := by
  rcases h with ⟨rfl, rfl⟩ | ⟨rfl, rfl⟩
  · exact sequenceEnd_zero rfl
  · have hnext : sequenceEnd ⟨rest, -1 + 1, consumed + 2⟩ = ⟨.rcOk, consumed + 2⟩ :=
      sequenceEnd_zero rfl
    have hfetch : berFetchTag (0 :: 0 :: rest) = .got 1 0 := rfl
    have hlen : ¬ (0 :: 0 :: rest : Bytes).length < 2 := by
      simp only [List.length_cons]
      omega
    have hne : ¬ ((-1 : ℤ) = 0) := by decide
    rw [sequenceEnd, if_neg hne]
    simp only [Cursor.window, leftOf, List.cons_append, List.nil_append, Int.reduceNeg,
      Int.reduceLT, if_true, hfetch, List.take_succ_cons, List.take_zero, and_self, if_neg hlen,
      List.drop_succ_cons, List.drop_zero]
    exact hnext

theorem Cursor.starved_open {c : Cursor} (h : c.left < 0 ∨ (c.bs.length : ℤ) < c.left) :
    c.starved = .rcWmore := by
  unfold Cursor.starved
  rw [if_neg (by omega)]

theorem sequenceEnd_cut {left : ℤ} {closing p q : Bytes} (h : Closes left 0 closing)
    (hcut : closing = p ++ q) (hq : q ≠ []) (consumed : ℕ) :
    (sequenceEnd ⟨p, left, consumed⟩).code = .rcWmore := by
  rcases h with ⟨-, rfl⟩ | ⟨rfl, rfl⟩
  · exact absurd hq (fun hq => cut_nil hcut hq)
  · have hstarved : Cursor.starved ⟨p, -1, consumed⟩ = .rcWmore :=
      Cursor.starved_open (Or.inl (show (-1 : ℤ) < 0 by decide))
    have hne : ¬ ((-1 : ℤ) = 0) := by decide
    rw [sequenceEnd, if_neg hne]
    rcases cut_cons hcut with rfl | ⟨r, rfl, hrest⟩
    · simp only [Cursor.window, leftOf, Int.reduceNeg, Int.reduceLT, if_true]
      exact hstarved
    · rcases cut_cons hrest with rfl | ⟨r', rfl, hrest'⟩
      · simp only [Cursor.window, leftOf, Int.reduceNeg, Int.reduceLT, if_true]
        exact hstarved
      · exact absurd hq (fun hq => cut_nil hrest' hq)

theorem Cursor.starved_ne (c : Cursor) : c.starved ≠ .rcOk := by
  unfold Cursor.starved
  split_ifs
  · decide
  · decide

theorem sequenceEnd_sound {c : Cursor} (h : (sequenceEnd c).code = .rcOk)
    (hleft : c.left = -1 ∨ 0 ≤ c.left) :
    ∃ closing rest, c.bs = closing ++ rest ∧ Closes c.left 0 closing ∧
      (sequenceEnd c).consumed = c.consumed + closing.length := by
  by_cases hzero : c.left = 0
  · refine ⟨[], c.bs, rfl, Or.inl ⟨hzero, rfl⟩, ?_⟩
    rw [sequenceEnd_zero hzero]
    rfl
  · rw [sequenceEnd, if_neg hzero] at h ⊢
    rcases htag : berFetchTag c.window with _ | _ | ⟨k, t⟩
    · simp only [htag] at h
      cases h
    · simp only [htag] at h
      exact absurd h c.starved_ne
    · simp only [htag] at h ⊢
      by_cases hnull : c.left < 0 ∧ c.window.take 1 = [0]
      · have hminus : c.left = -1 := by
          have hneg := hnull.1
          omega
        have hwindow : c.window = c.bs := by
          rw [Cursor.window, leftOf, if_pos hnull.1]
        rw [if_pos hnull] at h ⊢
        by_cases hshort : c.window.length < 2
        · rw [if_pos hshort] at h
          exact absurd h c.starved_ne
        · rw [if_neg hshort] at h ⊢
          by_cases hzeros : c.window.take 2 = [0, 0]
          · rw [if_pos hzeros] at h ⊢
            refine ⟨[0, 0], c.bs.drop 2, ?_, Or.inr ⟨hminus, rfl⟩, ?_⟩
            · rw [← hzeros, hwindow, List.take_append_drop]
            · have hnext : c.left + 1 = 0 := by omega
              rw [sequenceEnd_zero hnext]
              rfl
          · rw [if_neg hzeros] at h
            cases h
      · rw [if_neg hnull] at h
        cases h

/-! ### Members -/

section
variable {m : Member σ} {ms : List (Member σ)} {c : Cursor} {st st' : σ}

theorem Cursor.window_zero {c : Cursor} (h : c.left = 0) : c.window = [] := by
  rw [Cursor.window, h]
  rfl

/-- In front of a byte that is not zero nothing ends. -/
theorem Cursor.window_goes_on {c : Cursor} {b : Byte} {bs : Bytes} (hwindow : c.window = b :: bs)
    (hb : b ≠ 0) (last : Prop) :
    ¬ (c.left = 0 ∧ last) ∧ ¬ (c.left < 0 ∧ c.window.take 1 = [0] ∧ c.window.length < 2) ∧
      ¬ (c.left < 0 ∧ c.window.take 2 = [0, 0] ∧ last) := by
  refine ⟨?_, ?_, ?_⟩
  · intro h
    rw [Cursor.window_zero h.1] at hwindow
    cases hwindow
  · intro h
    have hzero := h.2.1
    rw [hwindow, List.take_succ_cons] at hzero
    exact hb (List.cons.inj hzero).1
  · intro h
    have hzero := h.2.1
    rw [hwindow, List.take_succ_cons] at hzero
    exact hb (List.cons.inj hzero).1

theorem sequenceMembers_took {n : ℕ} (htook : tagged m.tag (m.decode st) c.window = .took n st')
    (hfirst : ∃ b bs, c.window = b :: bs ∧ b ≠ 0) :
    sequenceMembers (m :: ms) c st = sequenceMembers ms (c.advance n) st' := by
  obtain ⟨⟨k, hfetch⟩, hdecode⟩ := tagged_took.mp htook
  obtain ⟨b, bs, hwindow, hb⟩ := hfirst
  obtain ⟨h1, h2, h3⟩ := Cursor.window_goes_on hwindow hb (m.optional = ms.length + 1)
  have hpick : pick m.tag (m.optional + 1) (m :: ms) = some (m, ms) := by
    rw [pick, if_pos rfl]
  rw [sequenceMembers, if_neg h1]
  simp only [hfetch, if_neg h2, if_neg h3]
  rw [hpick]
  simp only [hdecode]

theorem sequenceMembers_more (hmore : tagged m.tag (m.decode st) c.window = .more)
    (hfirst : c.window = [] ∨ ∃ b bs, c.window = b :: bs ∧ b ≠ 0) (hleft : c.left ≠ 0)
    (hstarved : c.starved = .rcWmore) :
    ∃ r st', sequenceMembers (m :: ms) c st = some (r, st') ∧ r.code = .rcWmore := by
  have h1 : ¬ (c.left = 0 ∧ m.optional = ms.length + 1) := fun h => hleft h.1
  rcases tagged_more hmore with hfetch | ⟨⟨k, hfetch⟩, rval, st', hdecode, hcode⟩
  · refine ⟨⟨c.starved, c.consumed⟩, st, ?_, hstarved⟩
    rw [sequenceMembers, if_neg h1]
    simp only [hfetch]
  · rcases hfirst with hnil | ⟨b, bs, hwindow, hb⟩
    · rw [hnil] at hfetch
      cases hfetch
    · obtain ⟨-, h2, h3⟩ := Cursor.window_goes_on hwindow hb (m.optional = ms.length + 1)
      have hpick : pick m.tag (m.optional + 1) (m :: ms) = some (m, ms) := by
        rw [pick, if_pos rfl]
      have hopen : ¬ c.starved = .rcFail := by
        rw [hstarved]
        decide
      refine ⟨⟨.rcWmore, c.consumed + rval.consumed⟩, st', ?_, rfl⟩
      rw [sequenceMembers, if_neg h1]
      simp only [hfetch, if_neg h2, if_neg h3]
      rw [hpick]
      simp only [hdecode, hcode, if_neg hopen]

end

section
variable {left : ℤ} {closing : Bytes}

theorem Closes.window {n : ℕ} {encs : Bytes} (h : Closes left n closing) (hn : encs.length = n)
    (rest : Bytes) (consumed : ℕ) :
    ∃ behind, Cursor.window ⟨encs ++ (closing ++ rest), left, consumed⟩ =
      encs ++ (closing ++ behind) := by
  rcases h with ⟨rfl, rfl⟩ | ⟨rfl, rfl⟩
  · have hneg : ¬ ((n : ℤ) < 0) := by omega
    refine ⟨[], ?_⟩
    rw [Cursor.window, leftOf, if_neg hneg, Int.toNat_natCast, List.nil_append, ← hn,
      List.take_left, List.append_nil, List.append_nil]
  · exact ⟨rest, rfl⟩

theorem Closes.window_cut {n : ℕ} {encs p q : Bytes} (h : Closes left n closing)
    (hn : encs.length = n) (hcut : encs ++ closing = p ++ q) (hq : q ≠ []) (consumed : ℕ) :
    Cursor.window ⟨p, left, consumed⟩ = p ∧ Cursor.starved ⟨p, left, consumed⟩ = .rcWmore := by
  rcases h with ⟨rfl, rfl⟩ | ⟨rfl, rfl⟩
  · rw [List.append_nil] at hcut
    have hlt := cut_length hcut hq
    have hle : p.length ≤ n := by omega
    have hneg : ¬ ((n : ℤ) < 0) := by omega
    constructor
    · rw [Cursor.window, leftOf, if_neg hneg, Int.toNat_natCast, List.take_of_length_le hle]
    · apply Cursor.starved_open
      right
      show (p.length : ℤ) < (n : ℤ)
      omega
  · exact ⟨rfl, Cursor.starved_open (Or.inl (show (-1 : ℤ) < 0 by decide))⟩

theorem Closes.advance {enc encs : Bytes} (h : Closes left (enc ++ encs).length closing)
    (rest : Bytes) (consumed : ℕ) :
    ∃ left', Cursor.advance ⟨enc ++ rest, left, consumed⟩ enc.length =
      ⟨rest, left', consumed + enc.length⟩ ∧ Closes left' encs.length closing := by
  rw [List.length_append] at h
  rcases h with ⟨rfl, rfl⟩ | ⟨rfl, rfl⟩
  · refine ⟨encs.length, ?_, Or.inl ⟨rfl, rfl⟩⟩
    have hnonneg : (0 : ℤ) ≤ ((enc.length + encs.length : ℕ) : ℤ) := by omega
    have hdiff : ((enc.length + encs.length : ℕ) : ℤ) - enc.length = encs.length := by
      push_cast
      omega
    simp only [Cursor.advance, List.drop_left, if_pos hnonneg, hdiff]
  · refine ⟨-1, ?_, Or.inr ⟨rfl, rfl⟩⟩
    have hneg : ¬ ((0 : ℤ) ≤ -1) := by decide
    simp only [Cursor.advance, List.drop_left, if_neg hneg]

end

/-- The encodings of the members are taken, with what ends them. -/
theorem sequenceMembers_takes {N : ℕ} {fs : List (Component σ)} {st st' : σ} {encs closing : Bytes}
    {left : ℤ} (rest : Bytes) (consumed : ℕ) (hs : Contents fs st encs st') (htable : MemberTable N fs)
    (hc : Closes left encs.length closing) (hN : (encs ++ (closing ++ rest)).length < N) :
    sequenceMembers (fs.map Component.member) ⟨encs ++ (closing ++ rest), left, consumed⟩ st =
      some (⟨.rcOk, consumed + encs.length + closing.length⟩, st') := by
  induction hs generalizing left consumed with
  | done st =>
    rw [List.map_nil, sequenceMembers, List.nil_append, sequenceEnd_closing hc]
    rfl
  | @missing f st hopt =>
    rw [List.map_cons, List.map_nil, List.nil_append, List.length_nil, Nat.add_zero]
    rcases hc with ⟨rfl, rfl⟩ | ⟨rfl, rfl⟩
    · exact sequenceMembers_optional hopt _ _ _
    · have hend := sequenceEnd_closing (Or.inr ⟨rfl, rfl⟩) rest consumed
      have hfetch : berFetchTag (0 :: 0 :: rest) = .got 1 0 := rfl
      have hlen : ¬ (0 :: 0 :: rest : Bytes).length < 2 := by
        simp only [List.length_cons]
        omega
      have h1 : ¬ ((-1 : ℤ) = 0 ∧ f.member.optional = ([] : List (Member σ)).length + 1) :=
        fun h => absurd h.1 (by decide)
      rw [sequenceMembers, if_neg h1]
      simp only [Cursor.window, leftOf, List.cons_append, List.nil_append, Int.reduceNeg,
        Int.reduceLT, if_true, hfetch, List.take_succ_cons, List.take_zero, hlen, and_false,
        if_false, hopt, List.length_nil, Nat.zero_add, and_self]
      exact congrArg (fun r => some (r, st)) hend
  | @present f fs st st₁ st₂ enc encs hf hs ih =>
    have hfield : f.Decides N ∧ MemberTable N fs := by
      cases htable with
      | last h hopt => exact ⟨h, .nil⟩
      | cons h hopt htable => exact ⟨h, htable⟩
    obtain ⟨hdec, htable'⟩ := hfield
    obtain ⟨behind, hwindow⟩ := hc.window rfl rest consumed
    have hle : (enc ++ encs ++ (closing ++ behind)).length < N := by
      have hshort := Cursor.window_length_le ⟨enc ++ encs ++ (closing ++ rest), left, consumed⟩
      rw [hwindow] at hshort
      exact lt_of_le_of_lt hshort hN
    simp only [List.append_assoc] at hwindow hle ⊢
    have htook := (hdec.decides st).takes enc (encs ++ (closing ++ behind)) st₁ hf hle
    rw [← hwindow] at htook
    obtain ⟨b, bs, henc, hb⟩ := hdec.nonzero st enc st₁ hf
    have hfirst : ∃ b bs, Cursor.window ⟨enc ++ (encs ++ (closing ++ rest)), left, consumed⟩ =
        b :: bs ∧ b ≠ 0 := by
      refine ⟨b, bs ++ (encs ++ (closing ++ behind)), ?_, hb⟩
      rw [hwindow, henc]
      rfl
    obtain ⟨left', hadvance, hc'⟩ := hc.advance (encs ++ (closing ++ rest)) consumed
    have hN' : (encs ++ (closing ++ rest)).length < N := by
      rw [List.append_assoc, List.length_append] at hN
      omega
    rw [List.map_cons, sequenceMembers_took htook hfirst, hadvance, ih _ htable' hc' hN',
      List.length_append, Nat.add_assoc consumed enc.length]

theorem MemberTable.head {N : ℕ} {f : Component σ} {fs : List (Component σ)} (h : MemberTable N (f :: fs)) :
    f.Decides N ∧ MemberTable N fs := by
  cases h with
  | last h hopt => exact ⟨h, .nil⟩
  | cons h hopt hs => exact ⟨h, hs⟩

/-- A part of them asks for more. -/
theorem sequenceMembers_waits {N : ℕ} {fs : List (Component σ)} {st st' : σ} {encs closing p q : Bytes}
    {left : ℤ} (consumed : ℕ) (hs : Contents fs st encs st') (htable : MemberTable N fs)
    (hc : Closes left encs.length closing) (hN : (encs ++ closing).length < N)
    (hcut : encs ++ closing = p ++ q) (hq : q ≠ []) :
    ∃ r st'', sequenceMembers (fs.map Component.member) ⟨p, left, consumed⟩ st = some (r, st'') ∧
      r.code = .rcWmore := by
  induction hs generalizing left consumed p with
  | done st =>
    refine ⟨_, st, ?_, sequenceEnd_cut hc hcut hq consumed⟩
    rw [List.map_nil, sequenceMembers]
  | @missing f st hopt =>
    obtain ⟨hwindow, hstarved⟩ := hc.window_cut rfl hcut hq consumed
    rcases hc with ⟨rfl, rfl⟩ | ⟨rfl, rfl⟩
    · exact absurd hq (fun hq => cut_nil hcut hq)
    · have h1 : ¬ ((-1 : ℤ) = 0 ∧ f.member.optional = ([] : List (Member σ)).length + 1) :=
        fun h => absurd h.1 (by decide)
      refine ⟨⟨.rcWmore, consumed⟩, st, ?_, rfl⟩
      rw [List.map_cons, List.map_nil, sequenceMembers, if_neg h1]
      rw [List.nil_append] at hcut
      rcases cut_cons hcut with rfl | ⟨r, rfl, hrest⟩
      · simp only [hwindow, hstarved]
        rfl
      · rcases cut_cons hrest with rfl | ⟨r', rfl, hrest'⟩
        · simp only [hwindow, hstarved]
          rfl
        · exact absurd hq (fun hq => cut_nil hrest' hq)
  | @present f fs st st₁ st₂ enc encs hf hs ih =>
    obtain ⟨hdec, htable'⟩ := htable.head
    obtain ⟨b, bs, henc, hb⟩ := hdec.nonzero st enc st₁ hf
    obtain ⟨hwindow, hstarved⟩ := hc.window_cut rfl hcut hq consumed
    simp only [List.append_assoc] at hcut hN
    have hne : left ≠ 0 := by
      rcases hc with ⟨rfl, -⟩ | ⟨rfl, -⟩
      · rw [henc, List.cons_append, List.length_cons]
        omega
      · decide
    rcases cut_append hcut with ⟨r, hone, hr⟩ | ⟨r, rfl, hmore⟩
    · have hN' : (p ++ r).length < N := by
        rw [← hone]
        rw [List.length_append] at hN
        omega
      have hlang : f.lang st (p ++ r) st₁ := by
        rw [← hone]
        exact hf
      have hwait := (hdec.decides st).waits p r st₁ hlang hr hN'
      rw [← hwindow] at hwait
      apply sequenceMembers_more hwait _ hne hstarved
      rw [hwindow]
      rw [henc] at hone
      rcases cut_cons hone with rfl | ⟨p', rfl, -⟩
      · exact Or.inl rfl
      · exact Or.inr ⟨b, p', rfl, hb⟩
    · have hN' : (enc ++ r).length < N := by
        have hlt := congrArg List.length hmore
        simp only [List.length_append] at hN hlt ⊢
        omega
      have htook := (hdec.decides st).takes enc r st₁ hf hN'
      rw [← hwindow] at htook
      have hfirst : ∃ b bs, Cursor.window ⟨enc ++ r, left, consumed⟩ = b :: bs ∧ b ≠ 0 := by
        rw [hwindow, henc]
        exact ⟨b, _, rfl, hb⟩
      obtain ⟨left', hadvance, hc'⟩ := hc.advance r consumed
      have hN'' : (encs ++ closing).length < N := by
        rw [List.length_append] at hN
        omega
      rw [List.map_cons, sequenceMembers_took htook hfirst, hadvance]
      exact ih _ htable' hc' hN'' hmore

/-- What a turn of the loop was that ended well. -/
theorem sequenceMembers_inv {m : Member σ} {ms : List (Member σ)} {c : Cursor} {st st' : σ}
    {r : DecRval} (hpick : ∀ t x after, pick t (m.optional + 1) (m :: ms) = some (x, after) →
      x = m ∧ after = ms ∧ t = m.tag)
    (h : sequenceMembers (m :: ms) c st = some (r, st')) (hr : r.code = .rcOk) :
    (m.optional = ms.length + 1 ∧ (c.left = 0 ∨ c.left < 0) ∧ r = sequenceEnd c ∧ st' = st) ∨
    ∃ n st₁, tagged m.tag (m.decode st) c.window = .took n st₁ ∧
      sequenceMembers ms (c.advance n) st₁ = some (r, st') := by
  rw [sequenceMembers] at h
  by_cases hend : c.left = 0 ∧ m.optional = ms.length + 1
  · rw [if_pos hend] at h
    cases h
    exact Or.inl ⟨hend.2, Or.inl hend.1, (sequenceEnd_zero hend.1).symm, rfl⟩
  · rw [if_neg hend] at h
    rcases htag : berFetchTag c.window with _ | _ | ⟨k, tlvTag⟩
    · simp only [htag] at h
      cases h
      cases hr
    · simp only [htag] at h
      cases h
      exact absurd hr c.starved_ne
    · simp only [htag] at h
      by_cases hshort : c.left < 0 ∧ c.window.take 1 = [0] ∧ c.window.length < 2
      · rw [if_pos hshort] at h
        cases h
        exact absurd hr c.starved_ne
      · rw [if_neg hshort] at h
        by_cases heoc : c.left < 0 ∧ c.window.take 2 = [0, 0] ∧ m.optional = ms.length + 1
        · rw [if_pos heoc] at h
          cases h
          exact Or.inl ⟨heoc.2.2, Or.inr heoc.1, rfl, rfl⟩
        · rw [if_neg heoc] at h
          rcases hp : pick tlvTag (m.optional + 1) (m :: ms) with _ | ⟨memb, after⟩
          · rw [hp] at h
            cases h
            cases hr
          · rw [hp] at h
            obtain ⟨rfl, rfl, rfl⟩ := hpick _ _ _ hp
            rcases hdec : memb.decode st c.window with _ | ⟨⟨code, n⟩, st₁⟩
            · simp only [hdec] at h
              cases h
            · cases code with
              | rcOk =>
                simp only [hdec] at h
                exact Or.inr ⟨n, st₁, tagged_took.mpr ⟨⟨k, htag⟩, hdec⟩, h⟩
              | rcWmore =>
                simp only [hdec] at h
                split_ifs at h
                all_goals
                  cases h
                  cases hr
              | rcFail =>
                simp only [hdec] at h
                cases h
                cases hr

theorem pick_only {m : Member σ} (t : ℕ) (x : Member σ) (after : List (Member σ))
    (h : pick t (m.optional + 1) [m] = some (x, after)) :
    x = m ∧ after = [] ∧ t = m.tag := by
  rw [pick] at h
  by_cases htag : m.tag = t
  · rw [if_pos htag] at h
    cases h
    exact ⟨rfl, rfl, htag.symm⟩
  · rw [if_neg htag] at h
    cases hk : m.optional with
    | zero =>
      rw [hk] at h
      cases h
    | succ k =>
      rw [hk] at h
      cases h

theorem pick_first {m : Member σ} {ms : List (Member σ)} (t : ℕ) (x : Member σ)
    (after : List (Member σ)) (hopt : m.optional = 0)
    (h : pick t (m.optional + 1) (m :: ms) = some (x, after)) :
    x = m ∧ after = ms ∧ t = m.tag := by
  rw [pick] at h
  by_cases htag : m.tag = t
  · rw [if_pos htag] at h
    cases h
    exact ⟨rfl, rfl, htag.symm⟩
  · rw [if_neg htag, hopt] at h
    cases h

/-- What was taken from the window, and where the next begins. -/
theorem Cursor.advance_sound {N n : ℕ} {lang : Bytes → σ → Prop} {dec : Bytes → Answer σ}
    (hdec : Base.Ber.Decides N lang dec) {c : Cursor} {v : σ} (hN : c.bs.length < N)
    (hleft : c.left = -1 ∨ 0 ≤ c.left) (htook : dec c.window = .took n v) :
    ∃ enc rest left', c.bs = enc ++ rest ∧ lang enc v ∧
      c.advance n = ⟨rest, left', c.consumed + enc.length⟩ ∧ (left' = -1 ∨ 0 ≤ left') ∧
      ∀ k closing, Closes left' k closing → Closes c.left (enc.length + k) closing := by
  have hwin := c.window_length_le
  obtain ⟨hle, hlang⟩ := hdec.sound c.window n v (by omega) htook
  have htake : c.window.take n = c.bs.take n := by
    unfold Cursor.window at hle ⊢
    unfold leftOf at hle ⊢
    by_cases hneg : c.left < 0
    · rw [if_pos hneg]
    · rw [if_neg hneg, List.length_take] at hle
      rw [if_neg hneg, List.take_take, Nat.min_eq_left (by omega)]
  rw [htake] at hlang
  have hlen : (c.bs.take n).length = n := by
    rw [List.length_take]
    omega
  refine ⟨c.bs.take n, c.bs.drop n, if 0 ≤ c.left then c.left - n else c.left,
    (List.take_append_drop n c.bs).symm, hlang, ?_, ?_, ?_⟩
  · rw [hlen]
    rfl
  · rcases hleft with hm | hge
    · rw [if_neg (by omega)]
      exact Or.inl hm
    · rw [if_pos hge]
      right
      rw [Cursor.window, leftOf, if_neg (by omega), List.length_take] at hle
      omega
  · intro k closing hc
    rw [hlen]
    rcases hleft with hm | hge
    · rw [if_neg (by omega)] at hc
      rcases hc with ⟨hk, -⟩ | hc
      · omega
      · exact Or.inr hc
    · rw [if_pos hge] at hc
      rw [Cursor.window, leftOf, if_neg (by omega), List.length_take] at hle
      rcases hc with ⟨hk, hnil⟩ | ⟨hk, -⟩
      · exact Or.inl ⟨by push_cast; omega, hnil⟩
      · omega

/-- What was taken were encodings of the members. -/
theorem sequenceMembers_sound {N : ℕ} {fs : List (Component σ)} (htable : MemberTable N fs) {c : Cursor}
    {st st' : σ} {r : DecRval} (hN : c.bs.length < N) (hleft : c.left = -1 ∨ 0 ≤ c.left)
    (h : sequenceMembers (fs.map Component.member) c st = some (r, st')) (hr : r.code = .rcOk) :
    ∃ encs closing rest, c.bs = encs ++ (closing ++ rest) ∧ Contents fs st encs st' ∧
      Closes c.left encs.length closing ∧
      r.consumed = c.consumed + encs.length + closing.length := by
  have hmissing : ∀ c : Cursor, (c.left = -1 ∨ 0 ≤ c.left) →
      (sequenceEnd c).code = .rcOk → ∃ closing rest, c.bs = [] ++ (closing ++ rest) ∧
        Closes c.left ([] : Bytes).length closing ∧
        (sequenceEnd c).consumed = c.consumed + ([] : Bytes).length + closing.length := by
    intro c hleft hcode
    obtain ⟨closing, rest, hbs, hcloses, hconsumed⟩ := sequenceEnd_sound hcode hleft
    exact ⟨closing, rest, hbs, hcloses, hconsumed⟩
  induction htable generalizing c st with
  | nil =>
    rw [List.map_nil, sequenceMembers] at h
    cases h
    obtain ⟨closing, rest, hbs, hcloses, hconsumed⟩ := hmissing c hleft hr
    exact ⟨[], closing, rest, hbs, .done _, hcloses, hconsumed⟩
  | @last f hf hopt =>
    have hpick : ∀ t x after, pick t (f.member.optional + 1) [f.member] = some (x, after) →
        x = f.member ∧ after = [] ∧ t = f.member.tag :=
      pick_only
    rcases sequenceMembers_inv hpick h hr with ⟨-, -, rfl, rfl⟩ | ⟨n, st₁, htook, hrest⟩
    · obtain ⟨closing, rest, hbs, hcloses, hconsumed⟩ := hmissing c hleft hr
      exact ⟨[], closing, rest, hbs, .missing st' hopt, hcloses, hconsumed⟩
    · obtain ⟨enc, rest, left', hbs, hlang, hadvance, hleft', hcloses⟩ :=
        Cursor.advance_sound (hf.decides _) hN hleft htook
      rw [hadvance, sequenceMembers] at hrest
      cases hrest
      obtain ⟨closing, rest', hrest, hend, hconsumed⟩ := hmissing ⟨rest, left', _⟩ hleft' hr
      simp only at hrest
      refine ⟨enc ++ [], closing, rest', ?_, .present hlang (.done st'), ?_, ?_⟩
      · rw [hbs, hrest, List.append_nil]
        rfl
      · rw [List.length_append]
        exact hcloses _ _ hend
      · rw [hconsumed, List.append_nil]
        rfl
  | @cons f fs hf hopt htable ih =>
    have hpick : ∀ t x after,
        pick t (f.member.optional + 1) (f.member :: fs.map Component.member) = some (x, after) →
        x = f.member ∧ after = fs.map Component.member ∧ t = f.member.tag :=
      fun t x after hp => pick_first t x after hopt hp
    rcases sequenceMembers_inv hpick h hr with ⟨hbad, -⟩ | ⟨n, st₁, htook, hrest⟩
    · omega
    · obtain ⟨enc, rest, left', hbs, hlang, hadvance, hleft', hcloses⟩ :=
        Cursor.advance_sound (hf.decides _) hN hleft htook
      rw [hadvance] at hrest
      have hN' : rest.length < N := by
        rw [hbs, List.length_append] at hN
        omega
      obtain ⟨encs, closing, rest', hrest', hs, hend, hconsumed⟩ := ih hN' hleft' hrest
      simp only at hrest' hend hconsumed
      refine ⟨enc ++ encs, closing, rest', ?_, .present hlang hs, ?_, ?_⟩
      · rw [hbs, hrest', List.append_assoc]
      · rw [List.length_append]
        exact hcloses _ _ hend
      · rw [hconsumed, List.length_append]
        omega

/-! ### A structure with its header -/

theorem tagFrame_closes {tag n : ℕ} {constructed : Bool} {header closing : Bytes} {left : ℤ}
    (h : TagFrame tag constructed n header left closing) : Closes left n closing := by
  rcases h.left with hdef | ⟨hleft, hclosing, -⟩
  · exact Or.inl hdef
  · exact Or.inr ⟨hleft, hclosing⟩

theorem Opened.frame {tag n : ℕ} {constructed : Bool} {header closing : Bytes} {left : ℤ}
    (h : Opened tag constructed header left) (hc : Closes left n closing) :
    TagFrame tag constructed n header left closing := by
  rcases hc with ⟨hleft, rfl⟩ | ⟨hleft, rfl⟩
  · exact h.definite n hleft
  · exact h.indefinite hleft n

theorem Opened.closable {tag : ℕ} {constructed : Bool} {header : Bytes} {left : ℤ}
    (h : Opened tag constructed header left) : left = -1 ∨ 0 ≤ left := by
  rcases h.extent with ⟨hleft, -⟩ | hge
  · exact Or.inl hleft
  · exact Or.inr hge

/- The encodings of a SEQUENCE under a tag. -/
inductive SequenceBer (tag : ℕ) (fs : List (Component σ)) (st : σ) : Bytes → σ → Prop where
  | mk {header contents closing : Bytes} {left : ℤ} {st' : σ}
      (h : TagFrame tag true contents.length header left closing)
      (hs : Contents fs st contents st') :
      SequenceBer tag fs st (header ++ (contents ++ closing)) st'

theorem SequenceBer.begins (tag : ℕ) (fs : List (Component σ)) (st : σ) :
    Begins tag (SequenceBer tag fs st) := by
  intro enc v h
  cases h with
  | mk hframe hs => exact tagFrame_begins hframe _

section
variable {tags : List ℕ} {tagMode : TagMode} {expected : Option ℕ} {tag N : ℕ}
  {fs : List (Component σ)} {st st' : σ} {enc : Bytes}

theorem sequence_takes (htags : tagChain tags tagMode = [expected])
    (hexpected : expected = none ∨ expected = some tag) (htag : berTagValue tag < 2 ^ 30)
    (htable : MemberTable N fs) (hN : N ≤ 2 ^ 62) (h : SequenceBer tag fs st enc st') (rest : Bytes)
    (hlen : (enc ++ rest).length < N) :
    sequenceDecodeBer tags tagMode (fs.map Component.member) (enc ++ rest) st =
      some (⟨.rcOk, enc.length⟩, st') := by
  cases h with
  | @mk header contents closing left _ hframe hs =>
    simp only [List.length_append] at hlen
    have hcheck := berCheckTags_frame true htags hexpected (Or.inr rfl) htag hframe (by omega)
      (contents ++ (closing ++ rest))
    have hmembers := sequenceMembers_takes rest header.length hs htable (tagFrame_closes hframe)
      (by simp only [List.length_append]; omega)
    rw [List.append_assoc, List.append_assoc]
    simp only [sequenceDecodeBer, hcheck, ne_eq, not_true_eq_false, if_false, List.drop_left,
      hmembers, List.length_append, Nat.add_assoc]

theorem sequence_waits (htags : tagChain tags tagMode = [expected])
    (hexpected : expected = none ∨ expected = some tag) (htag : berTagValue tag < 2 ^ 30)
    (htable : MemberTable N fs) (hN : N ≤ 2 ^ 62) {p q : Bytes} (h : SequenceBer tag fs st (p ++ q) st')
    (hq : q ≠ []) (hlen : (p ++ q).length < N) :
    ∃ r st'', sequenceDecodeBer tags tagMode (fs.map Component.member) p st = some (r, st'') ∧
      r.code = .rcWmore := by
  generalize hwhole : p ++ q = enc at h hlen
  cases h with
  | @mk header contents closing left _ hframe hs =>
    simp only [List.length_append] at hlen
    rcases cut_append hwhole.symm with ⟨r, hhead, hr⟩ | ⟨r, rfl, hbody⟩
    · have hcheck := berCheckTags_frame_cut true htags hexpected (Or.inr rfl) htag hframe
        (by omega) hhead hr
      refine ⟨⟨.rcWmore, 0⟩, st, ?_, rfl⟩
      simp only [sequenceDecodeBer, hcheck, ne_eq, reduceCtorEq, not_false_eq_true, if_true]
    · have hcheck := berCheckTags_frame true htags hexpected (Or.inr rfl) htag hframe (by omega) r
      obtain ⟨a, st'', hmembers, hcode⟩ := sequenceMembers_waits header.length hs htable
        (tagFrame_closes hframe) (by rw [List.length_append]; omega) hbody hq
      refine ⟨a, st'', ?_, hcode⟩
      simp only [sequenceDecodeBer, hcheck, ne_eq, not_true_eq_false, if_false, List.drop_left,
        hmembers]

theorem sequence_sound (htags : tagChain tags tagMode = [expected]) (htable : MemberTable N fs)
    {bs : Bytes} {r : DecRval} (hlen : bs.length < N)
    (h : sequenceDecodeBer tags tagMode (fs.map Component.member) bs st = some (r, st'))
    (hr : r.code = .rcOk) :
    ∃ tag enc rest, bs = enc ++ rest ∧ enc.length = r.consumed ∧ SequenceBer tag fs st enc st' ∧
      (∃ k, berFetchTag bs = .got k tag) ∧ (expected = none ∨ expected = some tag) := by
  have hcode := sequenceDecodeBer_ok h hr
  obtain ⟨tag, constructed, header, left, rest, hbs, hcheck, hopened, -, hfetch, hexpected, hform, -⟩ :=
    berCheckTags_sound htags hcode
  obtain rfl : true = constructed := by
    rcases hform with hform | hform
    · cases hform
    · exact Option.some.inj hform
  unfold sequenceDecodeBer at h
  simp only [hcheck, ne_eq, not_true_eq_false, if_false] at h
  rw [hbs, List.drop_left] at h
  rw [hbs, List.length_append] at hlen
  obtain ⟨contents, closing, rest', hrest, hs, hcloses, hconsumed⟩ := sequenceMembers_sound
    (c := ⟨rest, left, header.length⟩) htable (show rest.length < N by omega) hopened.closable h hr
  simp only at hrest hcloses hconsumed
  refine ⟨tag, header ++ (contents ++ closing), rest', ?_, ?_, .mk (hopened.frame hcloses) hs,
    hfetch, hexpected⟩
  · rw [hbs, hrest, List.append_assoc, List.append_assoc]
  · rw [hconsumed, List.length_append, List.length_append, Nat.add_assoc]

end

/-! ### Alternatives -/

/- An alternative and the encodings it takes. -/
structure Branch (σ : Type) where
  alternative : Alternative σ
  lang : Bytes → σ → Prop

structure Branch.Decides (N : ℕ) (br : Branch σ) : Prop where
  nonzero : Nonzero br.lang
  decides : Base.Ber.Decides N br.lang (tagged br.alternative.tag br.alternative.decode)

/- Each alternative is found by its tag. -/
structure Branches (N : ℕ) (brs : List (Branch σ)) : Prop where
  decides : ∀ br ∈ brs, br.Decides N
  find : ∀ br ∈ brs, (brs.map Branch.alternative).find?
    (fun alt => decide (alt.tag = br.alternative.tag)) = some br.alternative

/- The encodings of a CHOICE under an explicit tag, whose form is not looked at. -/
inductive ChoiceBer (tag : ℕ) (brs : List (Branch σ)) : Bytes → σ → Prop where
  | mk {constructed : Bool} {br : Branch σ} {header contents closing : Bytes} {left : ℤ} {v : σ}
      (h : TagFrame tag constructed contents.length header left closing) (hbr : br ∈ brs)
      (hlang : br.lang contents v) : ChoiceBer tag brs (header ++ (contents ++ closing)) v

theorem ChoiceBer.begins (tag : ℕ) (brs : List (Branch σ)) : Begins tag (ChoiceBer tag brs) := by
  intro enc v h
  cases h with
  | mk hframe hbr hlang => exact tagFrame_begins hframe _

theorem choiceEnd_open {c : Cursor} (h : 0 ≤ c.left) : choiceEnd c = some ⟨.rcOk, c.consumed⟩ := by
  rw [choiceEnd, if_pos h]

theorem choiceEnd_closing {left : ℤ} {closing : Bytes} (h : Closes left 0 closing) (rest : Bytes)
    (consumed : ℕ) :
    choiceEnd ⟨closing ++ rest, left, consumed⟩ = some ⟨.rcOk, consumed + closing.length⟩ := by
  rcases h with ⟨rfl, rfl⟩ | ⟨rfl, rfl⟩
  · exact choiceEnd_open (le_refl _)
  · have hnext : choiceEnd ⟨rest, -1 + 1, consumed + 2⟩ = some ⟨.rcOk, consumed + 2⟩ :=
      choiceEnd_open (le_refl 0)
    have hfetch : berFetchTag (0 :: 0 :: rest) = .got 1 0 := rfl
    have hlen : ¬ (0 :: 0 :: rest : Bytes).length < 2 := by
      simp only [List.length_cons]
      omega
    have hneg : ¬ (0 ≤ (-1 : ℤ)) := by decide
    rw [choiceEnd, if_neg hneg]
    simp only [Cursor.window, leftOf, List.cons_append, List.nil_append, Int.reduceNeg,
      Int.reduceLT, if_true, hfetch, List.take_succ_cons, List.take_zero, if_neg hlen,
      List.drop_succ_cons, List.drop_zero]
    exact hnext

theorem choiceEnd_cut {left : ℤ} {closing p q : Bytes} (h : Closes left 0 closing)
    (hcut : closing = p ++ q) (hq : q ≠ []) (consumed : ℕ) :
    choiceEnd ⟨p, left, consumed⟩ = some ⟨.rcWmore, consumed⟩ := by
  rcases h with ⟨-, rfl⟩ | ⟨rfl, rfl⟩
  · exact absurd hq (fun hq => cut_nil hcut hq)
  · have hstarved : Cursor.starved ⟨p, -1, consumed⟩ = .rcWmore :=
      Cursor.starved_open (Or.inl (show (-1 : ℤ) < 0 by decide))
    have hneg : ¬ (0 ≤ (-1 : ℤ)) := by decide
    rw [choiceEnd, if_neg hneg]
    rcases cut_cons hcut with rfl | ⟨r, rfl, hrest⟩
    · simp only [Cursor.window, leftOf, Int.reduceNeg, Int.reduceLT, if_true, hstarved]
      rfl
    · rcases cut_cons hrest with rfl | ⟨r', rfl, hrest'⟩
      · simp only [Cursor.window, leftOf, Int.reduceNeg, Int.reduceLT, if_true, hstarved]
        rfl
      · exact absurd hq (fun hq => cut_nil hrest' hq)

theorem choiceEnd_sound {c : Cursor} {r : DecRval} (h : choiceEnd c = some r) (hr : r.code = .rcOk)
    (hleft : c.left = -1 ∨ c.left = 0) :
    ∃ closing rest, c.bs = closing ++ rest ∧ Closes c.left 0 closing ∧
      r.consumed = c.consumed + closing.length := by
  rcases hleft with hminus | hzero
  · have hneg : ¬ 0 ≤ c.left := by omega
    have hwindow : c.window = c.bs := by
      rw [Cursor.window, leftOf, if_pos (by omega)]
    rw [choiceEnd, if_neg hneg] at h
    rcases htag : berFetchTag c.window with _ | _ | ⟨k, t⟩
    · simp only [htag] at h
      cases h
      cases hr
    · simp only [htag] at h
      cases h
      exact absurd hr c.starved_ne
    · simp only [htag] at h
      by_cases hnull : c.window.take 1 = [0]
      · rw [if_pos hnull] at h
        by_cases hshort : c.window.length < 2
        · rw [if_pos hshort] at h
          cases h
          exact absurd hr c.starved_ne
        · rw [if_neg hshort] at h
          by_cases hzeros : c.window.take 2 = [0, 0]
          · rw [if_pos hzeros, choiceEnd_open (by simp only; omega)] at h
            cases h
            refine ⟨[0, 0], c.bs.drop 2, ?_, Or.inr ⟨hminus, rfl⟩, rfl⟩
            rw [← hzeros, hwindow, List.take_append_drop]
          · rw [if_neg hzeros] at h
            cases h
      · rw [if_neg hnull] at h
        cases h
        cases hr
  · rw [choiceEnd_open (by omega)] at h
    cases h
    exact ⟨[], c.bs, rfl, Or.inl ⟨hzero, rfl⟩, rfl⟩

theorem choiceMember_takes {N : ℕ} {brs : List (Branch σ)} {br : Branch σ} {v : σ}
    {contents closing : Bytes} {left : ℤ} (rest : Bytes) (consumed : ℕ) (st : σ)
    (hbrs : Branches N brs) (hbr : br ∈ brs) (hlang : br.lang contents v)
    (hc : Closes left contents.length closing)
    (hN : (contents ++ (closing ++ rest)).length < N) :
    choiceMember true (brs.map Branch.alternative) ⟨contents ++ (closing ++ rest), left, consumed⟩
        st =
      some (⟨.rcOk, consumed + contents.length + closing.length⟩, v) := by
  obtain ⟨behind, hwindow⟩ := hc.window rfl rest consumed
  have hle : (contents ++ (closing ++ behind)).length < N := by
    have hshort := Cursor.window_length_le ⟨contents ++ (closing ++ rest), left, consumed⟩
    rw [hwindow] at hshort
    exact lt_of_le_of_lt hshort hN
  have htook := (hbrs.decides br hbr).decides.takes contents (closing ++ behind) v hlang hle
  obtain ⟨⟨k, hfetch⟩, hdecode⟩ := tagged_took.mp htook
  have hc' : Closes left (contents ++ []).length closing := by
    rw [List.append_nil]
    exact hc
  obtain ⟨left', hadvance, hend⟩ := hc'.advance (closing ++ rest) consumed
  have h1 : ¬ 0 < left' := by
    rcases hend with ⟨hleft, -⟩ | ⟨hleft, -⟩
    · rw [hleft, List.length_nil]
      decide
    · rw [hleft]
      decide
  have h2 : ¬ (left' = -1 ∧ true = false) := fun h => Bool.noConfusion h.2
  unfold choiceMember
  simp only [hwindow, hfetch, hbrs.find br hbr, hdecode, hadvance, if_neg h1, if_neg h2]
  rw [choiceEnd_closing hend]
  rfl

theorem choiceMember_waits {N : ℕ} {brs : List (Branch σ)} {br : Branch σ} {v : σ}
    {contents closing p q : Bytes} {left : ℤ} (consumed : ℕ) (st : σ) (hbrs : Branches N brs)
    (hbr : br ∈ brs) (hlang : br.lang contents v) (hc : Closes left contents.length closing)
    (hN : (contents ++ closing).length < N) (hcut : contents ++ closing = p ++ q) (hq : q ≠ []) :
    ∃ r v', choiceMember true (brs.map Branch.alternative) ⟨p, left, consumed⟩ st = some (r, v') ∧
      r.code = .rcWmore := by
  obtain ⟨hwindow, hstarved⟩ := hc.window_cut rfl hcut hq consumed
  have hdec := (hbrs.decides br hbr).decides
  rcases cut_append hcut with ⟨r, hone, hr⟩ | ⟨r, rfl, hmore⟩
  · have hlang' : br.lang (p ++ r) v := by
      rw [← hone]
      exact hlang
    have hN' : (p ++ r).length < N := by
      rw [← hone]
      rw [List.length_append] at hN
      omega
    have hopen : ¬ Cursor.starved ⟨p, left, consumed⟩ = .rcFail := by
      rw [hstarved]
      decide
    rcases tagged_more (hdec.waits p r v hlang' hr hN') with hfetch |
      ⟨⟨k, hfetch⟩, rval, v', hdecode, hcode⟩
    · refine ⟨⟨.rcWmore, consumed⟩, st, ?_, rfl⟩
      unfold choiceMember
      simp only [hwindow, hfetch, hstarved]
    · refine ⟨⟨.rcWmore, consumed + rval.consumed⟩, v', ?_, rfl⟩
      unfold choiceMember
      simp only [hwindow, hfetch, hbrs.find br hbr, hdecode, hcode, if_neg hopen]
  · have hN' : (contents ++ r).length < N := by
      have hlt := congrArg List.length hmore
      simp only [List.length_append] at hN hlt ⊢
      omega
    obtain ⟨⟨k, hfetch⟩, hdecode⟩ := tagged_took.mp (hdec.takes contents r v hlang hN')
    have hc' : Closes left (contents ++ []).length closing := by
      rw [List.append_nil]
      exact hc
    obtain ⟨left', hadvance, hend⟩ := hc'.advance r consumed
    have h1 : ¬ 0 < left' := by
      rcases hend with ⟨hleft, -⟩ | ⟨hleft, -⟩
      · rw [hleft, List.length_nil]
        decide
      · rw [hleft]
        decide
    have h2 : ¬ (left' = -1 ∧ true = false) := fun h => Bool.noConfusion h.2
    refine ⟨⟨.rcWmore, consumed + contents.length⟩, v, ?_, rfl⟩
    unfold choiceMember
    simp only [hwindow, hfetch, hbrs.find br hbr, hdecode, hadvance, if_neg h1, if_neg h2]
    rw [choiceEnd_cut hend hmore hq]
    rfl

theorem choiceMember_sound {N : ℕ} {brs : List (Branch σ)} (hbrs : Branches N brs) {c : Cursor}
    {st v : σ} {r : DecRval} (hN : c.bs.length < N) (hleft : c.left = -1 ∨ 0 ≤ c.left)
    (h : choiceMember true (brs.map Branch.alternative) c st = some (r, v)) (hr : r.code = .rcOk) :
    ∃ br ∈ brs, ∃ contents closing rest, c.bs = contents ++ (closing ++ rest) ∧
      br.lang contents v ∧ Closes c.left contents.length closing ∧
      r.consumed = c.consumed + contents.length + closing.length := by
  unfold choiceMember at h
  rcases hfetch : berFetchTag c.window with _ | _ | ⟨k, t⟩
  · simp only [hfetch] at h
    cases h
    cases hr
  · simp only [hfetch] at h
    cases h
    exact absurd hr c.starved_ne
  · rcases hfind : (brs.map Branch.alternative).find? (fun alt => decide (alt.tag = t)) with _ | alt
    · simp only [hfetch, hfind] at h
      cases h
      cases hr
    · obtain ⟨br, hbr, rfl⟩ := List.mem_map.mp (List.mem_of_find?_eq_some hfind)
      have htag := List.find?_some hfind
      simp only [decide_eq_true_eq] at htag
      rcases hdecode : br.alternative.decode c.window with _ | ⟨⟨code, n⟩, v'⟩
      · simp only [hfetch, hfind, hdecode] at h
        cases h
      · cases code with
        | rcWmore =>
          simp only [hfetch, hfind, hdecode] at h
          split_ifs at h
          all_goals
            cases h
            cases hr
        | rcFail =>
          simp only [hfetch, hfind, hdecode] at h
          cases h
          cases hr
        | rcOk =>
          rw [← htag] at hfetch
          have htook := tagged_took.mpr ⟨⟨k, hfetch⟩, hdecode⟩
          obtain ⟨contents, rest, left', hbs, hlang, hadvance, hleft', hcloses⟩ :=
            Cursor.advance_sound (hbrs.decides br hbr).decides hN hleft htook
          rw [← htag] at hfind
          simp only [hfetch, hfind, hdecode, hadvance] at h
          have h1 : ¬ 0 < left' := by
            intro hpos
            rw [if_pos hpos] at h
            cases h
            cases hr
          have h2 : ¬ (left' = -1 ∧ true = false) := fun h => Bool.noConfusion h.2
          rw [if_neg h1, if_neg h2] at h
          obtain ⟨r', hend, he⟩ := Option.map_eq_some_iff.mp h
          cases he
          obtain ⟨closing, rest', hrest, hclosed, hconsumed⟩ :=
            choiceEnd_sound hend hr (show left' = -1 ∨ left' = 0 by omega)
          simp only at hrest hconsumed
          refine ⟨br, hbr, contents, closing, rest', ?_, hlang, hcloses 0 closing hclosed,
            hconsumed⟩
          rw [hbs, hrest]

section
variable {tag N : ℕ} {brs : List (Branch σ)} {st v : σ} {enc : Bytes}

theorem choice_takes (htag : berTagValue tag < 2 ^ 30) (hbrs : Branches N brs) (hN : N ≤ 2 ^ 62)
    (h : ChoiceBer tag brs enc v) (rest : Bytes) (hlen : (enc ++ rest).length < N) :
    choiceDecodeBer [] .explicit (brs.map Branch.alternative) (enc ++ rest) st =
      some (⟨.rcOk, enc.length⟩, v) := by
  have hchain : tagChain [] .explicit = [none] := rfl
  have htagged : TagMode.explicit ≠ .plain ∨ ([] : List ℕ) ≠ [] := Or.inl (by decide)
  cases h with
  | @mk constructed br header contents closing left _ hframe hbr hlang =>
    simp only [List.length_append] at hlen
    have hcheck := berCheckTags_frame true hchain (Or.inl rfl) (Or.inl rfl) htag hframe (by omega)
      (contents ++ (closing ++ rest))
    have hmember := choiceMember_takes rest header.length st hbrs hbr hlang
      (tagFrame_closes hframe) (by simp only [List.length_append]; omega)
    rw [List.append_assoc, List.append_assoc, choiceDecodeBer, if_pos htagged]
    simp only [hcheck, ne_eq, not_true_eq_false, if_false, List.drop_left, hmember,
      List.length_append, Nat.add_assoc]

theorem choice_waits (htag : berTagValue tag < 2 ^ 30) (hbrs : Branches N brs) (hN : N ≤ 2 ^ 62)
    {p q : Bytes} (h : ChoiceBer tag brs (p ++ q) v) (hq : q ≠ []) (hlen : (p ++ q).length < N) :
    ∃ r v', choiceDecodeBer [] .explicit (brs.map Branch.alternative) p st = some (r, v') ∧
      r.code = .rcWmore := by
  have hchain : tagChain [] .explicit = [none] := rfl
  have htagged : TagMode.explicit ≠ .plain ∨ ([] : List ℕ) ≠ [] := Or.inl (by decide)
  generalize hwhole : p ++ q = enc at h hlen
  rw [choiceDecodeBer, if_pos htagged]
  cases h with
  | @mk constructed br header contents closing left _ hframe hbr hlang =>
    simp only [List.length_append] at hlen
    rcases cut_append hwhole.symm with ⟨r, hhead, hr⟩ | ⟨r, rfl, hbody⟩
    · have hcheck := berCheckTags_frame_cut true hchain (Or.inl rfl) (Or.inl rfl) htag hframe
        (by omega) hhead hr
      refine ⟨⟨.rcWmore, 0⟩, st, ?_, rfl⟩
      simp only [hcheck, ne_eq, reduceCtorEq, not_false_eq_true, if_true]
    · have hcheck := berCheckTags_frame true hchain (Or.inl rfl) (Or.inl rfl) htag hframe
        (by omega) r
      obtain ⟨a, v', hmember, hcode⟩ := choiceMember_waits header.length st hbrs hbr hlang
        (tagFrame_closes hframe) (by rw [List.length_append]; omega) hbody hq
      refine ⟨a, v', ?_, hcode⟩
      simp only [hcheck, ne_eq, not_true_eq_false, if_false, List.drop_left, hmember]

theorem choice_sound (hbrs : Branches N brs) {bs : Bytes} {r : DecRval} {k : ℕ}
    (hlen : bs.length < N) (hfetch : berFetchTag bs = .got k tag)
    (h : choiceDecodeBer [] .explicit (brs.map Branch.alternative) bs st = some (r, v))
    (hr : r.code = .rcOk) :
    ∃ enc rest, bs = enc ++ rest ∧ enc.length = r.consumed ∧ ChoiceBer tag brs enc v := by
  have hchain : tagChain [] .explicit = [none] := rfl
  have htagged : TagMode.explicit ≠ .plain ∨ ([] : List ℕ) ≠ [] := Or.inl (by decide)
  rw [choiceDecodeBer, if_pos htagged] at h
  by_cases hcode : (berCheckTags true [] .explicit none bs).rval.code = .rcOk
  · obtain ⟨tag', constructed, header, left, rest, hbs, hcheck, hopened, -, ⟨k', hfetch'⟩, -, -⟩ :=
      berCheckTags_sound hchain hcode
    rw [hfetch] at hfetch'
    cases hfetch'
    simp only [hcheck, ne_eq, not_true_eq_false, if_false] at h
    rw [hbs, List.drop_left] at h
    rw [hbs, List.length_append] at hlen
    obtain ⟨br, hbr, contents, closing, rest', hrest, hlang, hcloses, hconsumed⟩ :=
      choiceMember_sound (c := ⟨rest, left, header.length⟩) hbrs (show rest.length < N by omega)
        hopened.closable h hr
    simp only at hrest hcloses hconsumed
    refine ⟨header ++ (contents ++ closing), rest', ?_, ?_, .mk (hopened.frame hcloses) hbr hlang⟩
    · rw [hbs, hrest, List.append_assoc, List.append_assoc]
    · rw [hconsumed, List.length_append, List.length_append, Nat.add_assoc]
  · simp only [ne_eq, hcode, not_false_eq_true, if_true] at h
    cases h
    exact absurd hr hcode

end

/-! ### A CHOICE without a tag of its own -/

section
variable {N : ℕ} {brs : List (Branch σ)}

/-- The answer is that of the alternative whose tag is there. -/
theorem plainChoice_answer (st : σ) {alts : List (Alternative σ)} {alt : Alternative σ} {bs : Bytes} {k : ℕ}
    {r : DecRval} {v : σ} (hfetch : berFetchTag bs = .got k alt.tag)
    (hfind : alts.find? (fun a => decide (a.tag = alt.tag)) = some alt)
    (hdecode : alt.decode bs = some (r, v)) :
    answerOf (choiceDecodeBer [] .plain alts bs st) = answerOf (some (r, v)) := by
  have hplain : ¬ (TagMode.plain ≠ .plain ∨ ([] : List ℕ) ≠ []) := by decide
  have hwindow : Cursor.window ⟨bs, -1, 0⟩ = bs := rfl
  have hstarved : Cursor.starved ⟨bs, -1, 0⟩ = .rcWmore :=
    Cursor.starved_open (Or.inl (show (-1 : ℤ) < 0 by decide))
  obtain ⟨code, n⟩ := r
  rw [choiceDecodeBer, if_neg hplain, choiceMember]
  cases code with
  | rcOk =>
    have hadvance : Cursor.advance ⟨bs, -1, 0⟩ n = ⟨bs.drop n, -1, n⟩ := by
      have hneg : ¬ (0 ≤ (-1 : ℤ)) := by decide
      rw [Cursor.advance, if_neg hneg, Nat.zero_add]
    have hclosed : ¬ (0 < (-1 : ℤ)) := by decide
    simp only [hwindow, hfetch, hfind, hdecode, hadvance, if_neg hclosed, true_and, if_true]
  | rcWmore =>
    have hopen : ¬ (RcCode.rcWmore = .rcFail) := by decide
    simp only [hwindow, hfetch, hfind, hdecode, hstarved, if_neg hopen]
    rfl
  | rcFail =>
    simp only [hwindow, hfetch, hfind, hdecode]
    rfl

theorem plainChoice_decides (hbrs : Branches N brs) (st : σ) :
    Base.Ber.Decides N (fun enc v => ∃ br ∈ brs, br.lang enc v)
      (fun bs => answerOf (choiceDecodeBer [] .plain (brs.map Branch.alternative) bs st)) where
  takes := by
    intro enc rest v hlang hN
    obtain ⟨br, hbr, hlang⟩ := hlang
    have htook := (hbrs.decides br hbr).decides.takes enc rest v hlang hN
    obtain ⟨⟨k, hfetch⟩, hdecode⟩ := tagged_took.mp htook
    exact plainChoice_answer st hfetch (hbrs.find br hbr) hdecode
  waits := by
    intro p q v hlang hq hN
    obtain ⟨br, hbr, hlang⟩ := hlang
    have hmore := (hbrs.decides br hbr).decides.waits p q v hlang hq hN
    rcases tagged_more hmore with hfetch | ⟨⟨k, hfetch⟩, r, w, hdecode, hcode⟩
    · have hplain : ¬ (TagMode.plain ≠ .plain ∨ ([] : List ℕ) ≠ []) := by decide
      have hwindow : Cursor.window ⟨p, -1, 0⟩ = p := rfl
      have hstarved : Cursor.starved ⟨p, -1, 0⟩ = .rcWmore :=
        Cursor.starved_open (Or.inl (show (-1 : ℤ) < 0 by decide))
      simp only [choiceDecodeBer, if_neg hplain, choiceMember, hwindow, hfetch, hstarved, answerOf]
    · have hanswer := plainChoice_answer st hfetch (hbrs.find br hbr) hdecode
      exact hanswer.trans (answerOf_more.mpr ⟨r, w, rfl, hcode⟩)
  sound := by
    intro bs n v hN htook
    have hplain : ¬ (TagMode.plain ≠ .plain ∨ ([] : List ℕ) ≠ []) := by decide
    have hwindow : Cursor.window ⟨bs, -1, 0⟩ = bs := rfl
    have h := answerOf_took.mp htook
    rw [choiceDecodeBer, if_neg hplain, choiceMember] at h
    cases hfetch : berFetchTag bs with
    | failed =>
      simp only [hwindow, hfetch] at h
      cases h
    | more =>
      simp only [hwindow, hfetch] at h
      have hcode := congrArg (fun r => r.1.code) (Option.some.inj h)
      exact absurd hcode (Cursor.starved_ne ⟨bs, -1, 0⟩)
    | got k t =>
      cases hfind : (brs.map Branch.alternative).find? (fun alt => decide (alt.tag = t)) with
      | none =>
        simp only [hwindow, hfetch, hfind] at h
        cases h
      | some alt =>
        obtain ⟨br, hbr, rfl⟩ := List.mem_map.mp (List.mem_of_find?_eq_some hfind)
        have htag := List.find?_some hfind
        simp only [decide_eq_true_eq] at htag
        subst htag
        rcases hdecode : br.alternative.decode bs with _ | ⟨r, v'⟩
        · simp only [hwindow, hfetch, hfind, hdecode] at h
          cases h
        · rw [plainChoice_answer st hfetch hfind hdecode] at htook
          have hlang := (hbrs.decides br hbr).decides.sound bs n v hN
            (tagged_took.mpr ⟨⟨k, hfetch⟩, hdecode.trans (answerOf_took.mp htook)⟩)
          exact ⟨hlang.1, br, hbr, hlang.2⟩

end

end Fws
