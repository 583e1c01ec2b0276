import Fws.Asn1.Members
import Fws.Service.Envelope

/-!
# Every encoding of an envelope

The tables of the members once more, each with the encodings that it takes: any
form of the tags and lengths, and strings in segments. The decoder is decided by
them, and what the encoder writes is one of them.
-/

namespace Fws
open Base.Digits Base.Tlv Base.Ber

variable {σ τ : Type}

/-! ### Values by their kind -/

def StringLang (tag : ℕ) (allTags : List ℕ) (enc str : Bytes) : Prop :=
  StringBer tag allTags 0 str enc ∧ str.length < 2 ^ 30

def PrimitiveLang (tag : ℕ) (enc contents : Bytes) : Prop :=
  PrimitiveBer tag contents enc ∧ contents.length < 2 ^ 31

section
variable {tag : ℕ} {tags allTags : List ℕ}

theorem stringLang_begins (tag : ℕ) (allTags : List ℕ) : Begins tag (StringLang tag allTags) := by
  intro enc str h
  obtain ⟨hber, -⟩ := h
  cases hber with
  | primitive hframe => exact tagFrame_begins hframe _
  | constructed hframe hinner => exact tagFrame_begins hframe _

theorem primitiveLang_begins (tag : ℕ) : Begins tag (PrimitiveLang tag) := by
  intro enc contents h
  obtain ⟨hber, -⟩ := h
  cases hber with
  | mk hframe => exact tagFrame_begins hframe _

theorem strings_decided (htags : tags.length = 1) (hsegments : SegmentTags allTags)
    (htag : berTagValue tag < 2 ^ 30) (hne : tag ≠ 0) :
    Base.Ber.Decides (2 ^ 32) (StringLang tag allTags)
      (tagged tag fun bs => some (octetStringDecodeBer tags allTags .implicit bs)) := by
  apply tagged_decides htag (stringLang_begins tag allTags)
  · intro enc rest str h hN
    obtain ⟨hber, hstr⟩ := h
    rw [List.length_append] at hN
    rw [octetString_takes htags hsegments htag hne hber hstr (by omega) rest]
  · intro p q str h hq hN
    obtain ⟨hber, hstr⟩ := h
    obtain ⟨r, hdecode, hcode⟩ :=
      octetString_waits htags hsegments htag hne hber hstr (by omega) hq
    exact ⟨r.1, r.2, congrArg some hdecode, hcode⟩
  · intro bs k r str hN hfetch h hr
    obtain ⟨code, n⟩ := r
    simp only at hr
    subst hr
    have hdecode := Option.some.inj h
    obtain ⟨enc, rest, hbs, hlen, hber⟩ :=
      octetString_sound htags hsegments.nonempty hfetch hdecode
    have hshort : (octetStringDecodeBer tags allTags .implicit bs).2.length < 2 ^ 30 :=
      octetStringDecodeBer_length hN
    rw [hdecode] at hshort
    exact ⟨enc, rest, hbs, hlen, hber, hshort⟩

theorem primitives_decided (htags : tags.length = 1) (htag : berTagValue tag < 2 ^ 30) :
    Base.Ber.Decides (2 ^ 32) (PrimitiveLang tag)
      (tagged tag fun bs => some (berDecodePrimitive tags .implicit bs)) := by
  apply tagged_decides htag (primitiveLang_begins tag)
  · intro enc rest contents h hN
    obtain ⟨hber, hlen⟩ := h
    rw [List.length_append] at hN
    rw [primitive_takes htags htag hber hlen (by omega) rest]
  · intro p q contents h hq hN
    obtain ⟨hber, hlen⟩ := h
    obtain ⟨r, hdecode, hcode⟩ := primitive_waits htags htag hber (by omega) hq
    exact ⟨r.1, r.2, congrArg some hdecode, hcode⟩
  · intro bs k r contents hN hfetch h hr
    obtain ⟨code, n⟩ := r
    simp only at hr
    subst hr
    exact primitive_sound htags hfetch (Option.some.inj h)

theorem sequences_decided {t : ℕ} {fs : List (Component τ)} (st : τ)
    (htable : MemberTable (2 ^ 32) fs) (htag : berTagValue tag < 2 ^ 30) :
    Base.Ber.Decides (2 ^ 32) (SequenceBer tag fs st)
      (tagged tag fun bs => sequenceDecodeBer [t] .implicit (fs.map Component.member) bs st) := by
  have hchain : tagChain [t] .implicit = [none] := rfl
  apply tagged_decides htag (SequenceBer.begins tag fs st)
  · intro enc rest v hber hN
    exact sequence_takes hchain (Or.inl rfl) htag htable (by norm_num) hber rest hN
  · intro p q v hber hq hN
    exact sequence_waits hchain (Or.inl rfl) htag htable (by norm_num) hber hq hN
  · intro bs k r v hN hfetch hdecode hr
    obtain ⟨tag', enc, rest, hbs, hlen, hber, ⟨k', hfetch'⟩, -⟩ :=
      sequence_sound hchain htable hN hdecode hr
    rw [hfetch] at hfetch'
    cases hfetch'
    exact ⟨enc, rest, hbs, hlen, hber⟩

theorem choices_decided {brs : List (Branch τ)} (st : τ) (hbrs : Branches (2 ^ 32) brs)
    (htag : berTagValue tag < 2 ^ 30) :
    Base.Ber.Decides (2 ^ 32) (ChoiceBer tag brs)
      (tagged tag fun bs =>
        choiceDecodeBer [] .explicit (brs.map Branch.alternative) bs st) := by
  apply tagged_decides htag (ChoiceBer.begins tag brs)
  · intro enc rest v hber hN
    exact choice_takes htag hbrs (by norm_num) hber rest hN
  · intro p q v hber hq hN
    exact choice_waits htag hbrs (by norm_num) hber hq hN
  · intro bs k r v hN hfetch hdecode hr
    exact choice_sound hbrs hN hfetch hdecode hr

end

/-! ### Members by the kind of their type -/

def octetComponent (tag optional : ℕ) (tags allTags : List ℕ) (set : σ → Bytes → σ) :
    Component σ where
  member := octetMember tag optional tags allTags set
  lang st enc st' := ∃ str, StringLang tag allTags enc str ∧ st' = set st str

def primitiveComponent (tag optional : ℕ) (tags : List ℕ) (set : σ → Bytes → σ) : Component σ where
  member := primitiveMember tag optional tags set
  lang st enc st' := ∃ contents, PrimitiveLang tag enc contents ∧ st' = set st contents

def sequenceComponent (tag : ℕ) (tags : List ℕ) (fs : List (Component τ)) (get : σ → τ)
    (set : σ → τ → σ) : Component σ where
  member := sequenceMember tag tags (fs.map Component.member) get set
  lang st enc st' := ∃ v, SequenceBer tag fs (get st) enc v ∧ st' = set st v

def sequenceBranch (tag : ℕ) (tags : List ℕ) (fs : List (Component τ)) (zero : τ) (inj : τ → σ) :
    Branch σ where
  alternative := sequenceAlternative tag tags (fs.map Component.member) zero inj
  lang enc v := ∃ w, SequenceBer tag fs zero enc w ∧ v = inj w

def choiceComponent (tag : ℕ) (brs : List (Branch τ)) (get : σ → τ) (set : σ → τ → σ) :
    Component σ where
  member := choiceAsMember tag (brs.map Branch.alternative) get set
  lang st enc st' := ∃ v, ChoiceBer tag brs enc v ∧ st' = set st v

section
variable {tag optional : ℕ} {tags allTags : List ℕ}

theorem octetComponent_decides {set : σ → Bytes → σ} (htags : tags.length = 1)
    (hsegments : SegmentTags allTags) (htag : berTagValue tag < 2 ^ 30) (hne : tag ≠ 0) :
    (octetComponent tag optional tags allTags set).Decides (2 ^ 32) where
  nonzero st := ((stringLang_begins tag allTags).stored (set st)).nonzero hne
  decides st := stored_decides (strings_decided htags hsegments htag hne) (set st)

theorem primitiveComponent_decides {set : σ → Bytes → σ} (htags : tags.length = 1)
    (htag : berTagValue tag < 2 ^ 30) (hne : tag ≠ 0) :
    (primitiveComponent tag optional tags set).Decides (2 ^ 32) where
  nonzero st := ((primitiveLang_begins tag).stored (set st)).nonzero hne
  decides st := stored_decides (primitives_decided htags htag) (set st)

theorem sequenceComponent_decides {t : ℕ} {fs : List (Component τ)} {get : σ → τ} {set : σ → τ → σ}
    (htable : MemberTable (2 ^ 32) fs) (htag : berTagValue tag < 2 ^ 30) (hne : tag ≠ 0) :
    (sequenceComponent tag [t] fs get set).Decides (2 ^ 32) where
  nonzero st := ((SequenceBer.begins tag fs (get st)).stored (set st)).nonzero hne
  decides st := stored_decides (sequences_decided (get st) htable htag) (set st)

theorem sequenceBranch_decides {t : ℕ} {fs : List (Component τ)} {zero : τ} {inj : τ → σ}
    (htable : MemberTable (2 ^ 32) fs) (htag : berTagValue tag < 2 ^ 30) (hne : tag ≠ 0) :
    (sequenceBranch tag [t] fs zero inj).Decides (2 ^ 32) where
  nonzero := ((SequenceBer.begins tag fs zero).stored inj).nonzero hne
  decides := stored_decides (sequences_decided zero htable htag) inj

theorem choiceComponent_decides {brs : List (Branch τ)} {get : σ → τ} {set : σ → τ → σ}
    (hbrs : Branches (2 ^ 32) brs) (htag : berTagValue tag < 2 ^ 30) (hne : tag ≠ 0) :
    (choiceComponent tag brs get set).Decides (2 ^ 32) where
  nonzero st := ((ChoiceBer.begins tag brs).stored (set st)).nonzero hne
  decides st := stored_decides (choices_decided (get st) hbrs htag) (set st)

end

/-! ### The tables -/

def headerComponents : List (Component Header) :=
  [octetComponent 2 1 [16] [16] fun header block => { header with block := some block }]

def bodyComponents : List (Component Body) :=
  [octetComponent 2 0 [104] [104, 16] fun body type => { body with type := type },
    octetComponent 6 0 [16] [16] fun body data => { body with data := data }]

def faultComponents : List (Component Fault) :=
  [primitiveComponent 2 0 [2] fun fault code => { fault with code := code },
    octetComponent 6 1 [48] [48, 16] fun fault reason => { fault with reason := some reason }]

def bodyOrFaultBranches : List (Branch BodyOrFault) :=
  [sequenceBranch 2 [2] bodyComponents ⟨[], []⟩ .body,
    sequenceBranch 6 [6] faultComponents ⟨[], none⟩ .fault]

def envelopeComponents : List (Component Envelope) :=
  [sequenceComponent 2 [2] headerComponents Envelope.header fun env header =>
      { env with header := header },
    choiceComponent 6 bodyOrFaultBranches Envelope.bodyOrFault fun env bodyOrFault =>
      { env with bodyOrFault := bodyOrFault }]

/- The encodings of an envelope. -/
def Envelope.Ber (env : Envelope) (enc : Bytes) : Prop :=
  SequenceBer 64 envelopeComponents emptyEnvelope enc env

theorem segmentTags_two {u v : ℕ} (hu : berTagValue u < 2 ^ 30) (hv : berTagValue v < 2 ^ 30)
    (hu' : u ≠ 0) (hv' : v ≠ 0) : SegmentTags [u, v] where
  nonempty := List.cons_ne_nil _ _
  small := by
    intro t ht
    rcases List.mem_cons.mp ht with rfl | ht
    · exact hu
    · rw [List.mem_singleton.mp ht]
      exact hv
  nonzero := by
    intro t ht
    rcases List.mem_cons.mp ht with rfl | ht
    · exact hu'
    · rw [List.mem_singleton.mp ht]
      exact hv'

theorem segmentTags_one : SegmentTags [16] where
  nonempty := List.cons_ne_nil _ _
  small := by decide
  nonzero := by decide

theorem headerComponents_table : MemberTable (2 ^ 32) headerComponents :=
  .last (octetComponent_decides rfl segmentTags_one (by decide) (by decide)) rfl

theorem bodyComponents_table : MemberTable (2 ^ 32) bodyComponents := by
  have htype := segmentTags_two (u := 104) (v := 16) (by decide) (by decide) (by decide) (by decide)
  apply MemberTable.cons (octetComponent_decides rfl htype (by decide) (by decide)) rfl
  apply MemberTable.cons (octetComponent_decides rfl segmentTags_one (by decide) (by decide)) rfl
  exact .nil

theorem faultComponents_table : MemberTable (2 ^ 32) faultComponents := by
  have hreason := segmentTags_two (u := 48) (v := 16) (by decide) (by decide) (by decide)
    (by decide)
  apply MemberTable.cons (primitiveComponent_decides rfl (by decide) (by decide)) rfl
  exact .last (octetComponent_decides rfl hreason (by decide) (by decide)) rfl

theorem bodyOrFaultBranches_found : Branches (2 ^ 32) bodyOrFaultBranches where
  decides := by
    intro br hbr
    rcases List.mem_cons.mp hbr with rfl | hbr
    · exact sequenceBranch_decides bodyComponents_table (by decide) (by decide)
    · rw [List.mem_singleton.mp hbr]
      exact sequenceBranch_decides faultComponents_table (by decide) (by decide)
  find := by
    intro br hbr
    rcases List.mem_cons.mp hbr with rfl | hbr
    · rfl
    · rw [List.mem_singleton.mp hbr]
      rfl

theorem envelopeComponents_table : MemberTable (2 ^ 32) envelopeComponents := by
  apply MemberTable.cons
    (sequenceComponent_decides headerComponents_table (by decide) (by decide)) rfl
  apply MemberTable.cons
    (choiceComponent_decides bodyOrFaultBranches_found (by decide) (by decide)) rfl
  exact .nil

/- `berDecodeEnvelope` decides the encodings. -/
theorem envelope_decides :
    Base.Ber.Decides (2 ^ 32) (fun enc (env : Envelope) => env.Ber enc)
      (fun bs => answerOf (berDecodeEnvelope bs)) where
  takes := by
    intro enc rest env h hN
    have hchain : tagChain [64] .plain = [some 64] := rfl
    have htakes := sequence_takes hchain (Or.inr rfl) (by decide) envelopeComponents_table
      (by norm_num) h rest hN
    exact answerOf_took.mpr htakes
  waits := by
    intro p q env h hq hN
    have hchain : tagChain [64] .plain = [some 64] := rfl
    exact answerOf_more.mpr (sequence_waits hchain (Or.inr rfl) (by decide)
      envelopeComponents_table (by norm_num) h hq hN)
  sound := by
    intro bs n env hN htook
    have hchain : tagChain [64] .plain = [some 64] := rfl
    obtain ⟨tag, enc, rest, rfl, hlen, hber, -, hexpected⟩ := sequence_sound hchain
      envelopeComponents_table hN (answerOf_took.mp htook) rfl
    obtain rfl : 64 = tag := by
      rcases hexpected with hexpected | hexpected
      · cases hexpected
      · exact Option.some.inj hexpected
    simp only at hlen
    rw [← hlen, List.take_left, List.length_append]
    exact ⟨Nat.le_add_right _ _, hber⟩

end Fws
