import Fws.Service.Dispatch

/-!
# What the lookup reads (fws/fws.c)

`fws_server_serve` compares the type with one identifier after the other, each
time over as many bytes as the peer gave the type.
-/

namespace Fws
open Base.Digits Base.Search

/- The entries that are compared with the type, up to the first match. -/
def comparedLoop (type : Bytes) (count : ℤ) : ℕ → List FuncEntry → List FuncEntry
  | _, [] => []
  | i, entry :: entries =>
    if i < count then
      if memcmpEqual type entry.funcIdentifier then [entry]
      else entry :: comparedLoop type count (i + 1) entries
    else []

def compared (funcs : List FuncEntry) (type : Bytes) : List FuncEntry :=
  comparedLoop type (cInt funcs.length) 0 funcs

/- `memcmp(buf, s, n)` may look at `n` bytes of both: none of them lies behind
the buffer or behind the terminator of the string. -/
def MemcmpWithin (buf : Bytes) (s : CString) (n : ℕ) : Prop :=
  ∀ j < n, j < buf.length ∧ j ≤ s.strlen

def LookupWithin (funcs : List FuncEntry) (type : Bytes) : Prop :=
  ∀ entry ∈ compared funcs type, MemcmpWithin type entry.funcIdentifier type.length

/-- Every identifier in reach that is shorter than the type, with its terminator,
stands behind one that starts with the type. -/
def ShortOnesBehindMatch (funcs : List FuncEntry) (type : Bytes) : Prop :=
  ∀ i < scanned funcs, ∀ e : FuncEntry, funcs[i]? = some e →
    e.funcIdentifier.strlen + 1 < type.length →
    ∃ j < i, ∃ e' : FuncEntry, funcs[j]? = some e' ∧ type <+: e'.funcIdentifier.text ++ [0]

section
variable {funcs : List FuncEntry} {type : Bytes}

theorem comparedLoop_eq (count : ℤ) (i : ℕ) (entries : List FuncEntry) :
    comparedLoop type count i entries =
      entries.take
        (match funcLoop type count i entries with
        | some (m, _) => m - i + 1
        | none => (count - i).toNat) := by
  induction entries generalizing i with
  | nil => rw [comparedLoop, List.take_nil]
  | cons entry entries ih =>
    rw [comparedLoop, funcLoop]
    by_cases hi : (i : ℤ) < count
    · rw [if_pos hi, if_pos hi]
      by_cases ht : memcmpEqual type entry.funcIdentifier = true
      · rw [if_pos ht, if_pos ht]
        dsimp only
        rw [Nat.sub_self]
        rfl
      · rw [if_neg ht, if_neg ht, ih (i + 1)]
        rcases hfound : funcLoop type count (i + 1) entries with _ | ⟨m, e⟩
        · have hstep : (count - i).toNat = (count - ((i + 1 : ℕ) : ℤ)).toNat + 1 := by omega
          dsimp only
          rw [hstep, List.take_succ_cons]
        · rw [funcLoop_eq] at hfound
          have hle := (firstMatch_some hfound).1
          have hstep : m - i = m - (i + 1) + 1 := by omega
          dsimp only
          rw [hstep, List.take_succ_cons]
    · have hzero : (count - i).toNat = 0 := by omega
      rw [if_neg hi, if_neg hi, hzero, List.take_zero]

/-- The lookup compares the entries up to the one it finds, or all in reach. -/
theorem compared_eq :
    compared funcs type =
      funcs.take
        (match funcIndex funcs type with
        | some (m, _) => m + 1
        | none => scanned funcs) := by
  rw [compared, comparedLoop_eq, funcIndex, scanned]
  rcases funcLoop type (cInt funcs.length) 0 funcs with _ | ⟨m, e⟩
  · rw [Nat.cast_zero, sub_zero]
  · rfl

theorem mem_compared_iff {entry : FuncEntry} :
    entry ∈ compared funcs type ↔
      ∃ i < scanned funcs, funcs[i]? = some entry ∧
        ∀ j < i, ∀ e, funcs[j]? = some e → memcmpEqual type e.funcIdentifier = false := by
  rw [compared_eq, List.mem_iff_getElem?]
  rcases hfound : funcIndex funcs type with _ | ⟨m, e⟩
  · have hnone := funcIndex_none hfound
    dsimp only
    constructor
    · intro h
      obtain ⟨i, hi⟩ := h
      obtain ⟨hlt, hat⟩ := take_getElem? hi
      exact ⟨i, hlt, hat, fun j hj => hnone j (by omega)⟩
    · intro h
      obtain ⟨i, hlt, hat, -⟩ := h
      exact ⟨i, by rw [List.getElem?_take, if_pos hlt, hat]⟩
  · obtain ⟨hm, hat, hmatch, hbefore⟩ := funcIndex_some hfound
    dsimp only
    constructor
    · intro h
      obtain ⟨i, hi⟩ := h
      obtain ⟨hlt, hat'⟩ := take_getElem? hi
      exact ⟨i, by omega, hat', fun j hj => hbefore j (by omega)⟩
    · intro h
      obtain ⟨i, -, hat', hearlier⟩ := h
      have hle : i ≤ m := by
        by_contra hlt
        have hnot := hearlier m (by omega) e hat
        rw [hmatch] at hnot
        cases hnot
      exact ⟨i, by rw [List.getElem?_take, if_pos (by omega), hat']⟩

theorem memcmpWithin_iff (buf : Bytes) (s : CString) :
    MemcmpWithin buf s buf.length ↔ buf.length ≤ s.strlen + 1 := by
  constructor
  · intro h
    by_contra hlong
    have hlast := (h (s.strlen + 1) (by omega)).2
    omega
  · intro hle j hj
    exact ⟨hj, by omega⟩

theorem CString.text_terminated (s : CString) : s.text ++ [0] = s.read (s.strlen + 1) := by
  rw [CString.read, List.range_succ, List.map_append, List.map_singleton, s.terminated]
  rfl

/-- A comparison that stays inside finds a match where the string starts with the buffer. -/
theorem memcmpEqual_iff {buf : Bytes} {s : CString} (h : buf.length ≤ s.strlen + 1) :
    memcmpEqual buf s = true ↔ buf <+: s.text ++ [0] := by
  rw [s.text_terminated, List.prefix_iff_eq_take, memcmpEqual, decide_eq_true_iff, CString.read,
    CString.read, ← List.map_take, List.take_range, min_eq_left h]

theorem prefix_length_le {s : CString} (h : type <+: s.text ++ [0]) :
    type.length ≤ s.strlen + 1 := by
  have hle := h.length_le
  rwa [s.text_terminated, s.read_length] at hle

end

/-- The comparisons of the lookup stay inside of the type and of the identifiers
exactly where no identifier is met that is too short for the type. -/
theorem lookup_within_iff (funcs : List FuncEntry) (type : Bytes) :
    LookupWithin funcs type ↔ ShortOnesBehindMatch funcs type := by
  constructor
  · intro h i hi e he hshort
    by_contra hnone
    -- the first entry that is too short or matches is compared
    have hmem : e ∈ compared funcs type := by
      rw [mem_compared_iff]
      refine ⟨i, hi, he, ?_⟩
      intro j hj
      induction j using Nat.strong_induction_on with
      | _ j ih =>
        intro e' he'
        have hmem' : e' ∈ compared funcs type := by
          rw [mem_compared_iff]
          exact ⟨j, by omega, he', fun m hm => ih m hm (by omega)⟩
        have hle := (memcmpWithin_iff type e'.funcIdentifier).mp (h e' hmem')
        rw [Bool.eq_false_iff, ne_eq, memcmpEqual_iff hle]
        intro hprefix
        exact hnone ⟨j, hj, e', he', hprefix⟩
    have hle := (memcmpWithin_iff type e.funcIdentifier).mp (h e hmem)
    omega
  · intro h entry hentry
    obtain ⟨i, hi, he, hbefore⟩ := mem_compared_iff.mp hentry
    rw [memcmpWithin_iff]
    by_contra hlong
    obtain ⟨j, hj, e', he', hprefix⟩ := h i hi entry he (by omega)
    have hnot := hbefore j hj e' he'
    rw [(memcmpEqual_iff (prefix_length_le hprefix)).mpr hprefix] at hnot
    cases hnot

/- A request whose type has two bytes more than the identifier. -/
theorem longer_type_reads_past_identifier :
    berDecodeEnvelope (bodyEnvelope (ascii "TestMessage-2") [7]).der =
        some (⟨.rcOk, 26⟩, bodyEnvelope (ascii "TestMessage-2") [7]) ∧
      ¬ ∀ (funcs : List FuncEntry) (type : Bytes), LookupWithin funcs type := by
  refine ⟨by decide +kernel, ?_⟩
  intro h
  have hfirst : testMessageEntry ∈ compared [testMessageEntry] (ascii "TestMessage-2") := by
    rw [mem_compared_iff]
    exact ⟨0, by decide, rfl, fun j hj => absurd hj (Nat.not_lt_zero j)⟩
  have hpast := (h [testMessageEntry] (ascii "TestMessage-2") _ hfirst 12 (by decide +kernel)).2
  revert hpast
  decide +kernel

end Fws
