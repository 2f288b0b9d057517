import GraphHarbor.RedisStream
import GraphHarbor.Kit.PyStr
import Mathlib.Data.Prod.Lex
import Mathlib.Data.Set.Basic

/-!
# Stream ids

The ids `ms-seq` as the strings they are: how they are generated, parsed and compared.
`ms_seq_id_gt` filters by a cursor, `ms_seq_id_sort_key` sorts a restored history. They use
one order on a set of ids exactly when its unparsed ids stand, as strings, before its
positive ids and after the others.
-/

namespace GraphHarbor

open Kit

namespace StreamId

/-- `_id_last_ms` and `_id_seq`. -/
structure Clock where
  lastMs : Int := 0
  seq : Nat := 0
  deriving DecidableEq, Repr

def dash : CodePoint := PyStr.ofChar '-'

/-- The numbers of the next id at the clock `ms`. -/
def Clock.tick (clock : Clock) (ms : Int) : Clock :=
  if clock.lastMs < ms then ⟨ms, 0⟩ else ⟨clock.lastMs, clock.seq + 1⟩

/-- `f"{_id_last_ms}-{_id_seq}"`; `_id_last_ms` is never negative. -/
def Clock.id (clock : Clock) : Option PyStr :=
  match PyStr.str clock.lastMs.toNat, PyStr.str clock.seq with
  | some ms, some seq => some (ms ++ dash :: seq)
  | _, _ => none

/-- The clocks after each call of `_generate_ms_seq_id`, for the readings of `time.time`. -/
def Clock.ticks (clock : Clock) : List Int → List Clock
  | [] => []
  | ms :: readings => clock.tick ms :: (clock.tick ms).ticks readings

/-- `_generate_ms_seq_id`, called once for each reading: the ids returned. -/
def generateMsSeqIds (readings : List Int) : List PyStr :=
  (({} : Clock).ticks readings).filterMap Clock.id

/-- `_parse_ms_seq_id`. -/
def parseMsSeqId (mid : PyStr) : Option (Int × Int) :=
  match PyStr.splitOnce dash mid with
  | none => none
  | some (ms, seq) =>
      match PyStr.int ms, PyStr.int seq with
      | some ms, some seq => some (ms, seq)
      | _, _ => none

/-- `ms_seq_id_gt`. -/
def msSeqIdGt (left right : PyStr) : Bool :=
  match parseMsSeqId left, parseMsSeqId right with
  | some pl, some pr => decide (toLex pr < toLex pl)
  | _, _ => decide (right < left)

/-- `ms_seq_id_sort_key`. -/
def msSeqIdSortKey (mid : PyStr) : Int ×ₗ (Int ×ₗ PyStr) :=
  match parseMsSeqId mid with
  | some (ms, seq) => toLex (ms, toLex (seq, []))
  | none => toLex (0, toLex (0, mid))

/-! ## The generator -/

/-- The order of the clocks. -/
def Clock.Before (a b : Clock) : Prop :=
  a.lastMs < b.lastMs ∨ a.lastMs = b.lastMs ∧ a.seq < b.seq

theorem Clock.Before.trans {a b c : Clock} (h : a.Before b) (h' : b.Before c) : a.Before c := by
  unfold Clock.Before at *
  omega

theorem Clock.before_tick (clock : Clock) (ms : Int) : clock.Before (clock.tick ms) := by
  unfold Clock.tick
  split
  · exact .inl ‹_›
  · exact .inr ⟨rfl, Nat.lt_succ_self _⟩

theorem Clock.tick_nonneg {clock : Clock} (h : 0 ≤ clock.lastMs) (ms : Int) :
    0 ≤ (clock.tick ms).lastMs := by
  unfold Clock.tick
  split
  · show 0 ≤ ms
    omega
  · exact h

/-- Every clock reading gives a later clock, whatever the readings are. -/
theorem Clock.ticks_before {clock : Clock} (hnonneg : 0 ≤ clock.lastMs) (readings : List Int) :
    (clock.ticks readings).Pairwise Clock.Before ∧
      ∀ c ∈ clock.ticks readings, clock.Before c ∧ 0 ≤ c.lastMs := by
  induction readings generalizing clock with
  | nil => exact ⟨.nil, nofun⟩
  | cons ms readings ih =>
      have hfirst := clock.before_tick ms
      have hfirst₀ := clock.tick_nonneg hnonneg ms
      obtain ⟨hpairwise, hafter⟩ := ih hfirst₀
      refine ⟨.cons (fun c hc => (hafter c hc).1) hpairwise, ?_⟩
      intro c hc
      rcases List.mem_cons.1 hc with rfl | hc
      · exact ⟨hfirst, hfirst₀⟩
      · exact ⟨hfirst.trans (hafter c hc).1, (hafter c hc).2⟩

theorem Clock.parse_id {clock : Clock} {mid : PyStr} (h : clock.id = some mid)
    (hnonneg : 0 ≤ clock.lastMs) : parseMsSeqId mid = some (clock.lastMs, (clock.seq : Int)) := by
  unfold Clock.id at h
  split at h
  next ms seq hms hseq =>
    obtain rfl := Option.some.inj h
    have hdash : dash ∉ ms := PyStr.not_mem_str hms (by decide)
    unfold parseMsSeqId
    rw [PyStr.splitOnce_append hdash]
    simp only [PyStr.int_str hms, PyStr.int_str hseq, Int.toNat_of_nonneg hnonneg]
  next => exact nomatch h

/-- An id of a later clock is greater. -/
theorem Clock.Before.gt {a b : Clock} (h : a.Before b) (ha₀ : 0 ≤ a.lastMs)
    (hb₀ : 0 ≤ b.lastMs) {left right : PyStr} (ha : a.id = some left) (hb : b.id = some right) :
    msSeqIdGt right left = true := by
  unfold msSeqIdGt
  rw [Clock.parse_id ha ha₀, Clock.parse_id hb hb₀]
  simp only [decide_eq_true_eq, Prod.Lex.toLex_lt_toLex]
  unfold Clock.Before at h
  omega

theorem generateMsSeqIds_increasing (readings : List Int) :
    (generateMsSeqIds readings).Pairwise fun left right => msSeqIdGt right left = true := by
  have hstart : 0 ≤ ({} : Clock).lastMs := le_rfl
  obtain ⟨hpairwise, hafter⟩ := Clock.ticks_before hstart readings
  unfold generateMsSeqIds
  rw [List.pairwise_filterMap]
  refine hpairwise.imp_of_mem ?_
  intro a b ha hb hbefore left hleft right hright
  exact hbefore.gt (hafter a ha).2 (hafter b hb).2 hleft hright

/-! ## The two orders -/

/-- The ids of a set are in one order. -/
structure OneOrder (ids : Set PyStr) : Prop where
  irrefl : ∀ a ∈ ids, msSeqIdGt a a = false
  trans : ∀ a ∈ ids, ∀ b ∈ ids, ∀ c ∈ ids,
    msSeqIdGt a b = true → msSeqIdGt b c = true → msSeqIdGt a c = true
  compare : ∀ a ∈ ids, ∀ b ∈ ids, parseMsSeqId a ≠ parseMsSeqId b →
    msSeqIdGt a b = true ∨ msSeqIdGt b a = true
  sorted : ∀ a ∈ ids, ∀ b ∈ ids,
    msSeqIdGt a b = true ↔ msSeqIdSortKey b < msSeqIdSortKey a

/-- An unparsed id stands, as a string, before the positive ids and after the others. -/
def Aligned (ids : Set PyStr) : Prop :=
  ∀ a ∈ ids, ∀ b ∈ ids, ∀ p, parseMsSeqId a = some p → parseMsSeqId b = none →
    if toLex (0, 0) < toLex p then b < a else a < b

section

variable {a b : PyStr} {p q : Int × Int}

theorem gt_of_parsed (ha : parseMsSeqId a = some p) (hb : parseMsSeqId b = some q) :
    msSeqIdGt a b = true ↔ toLex q < toLex p := by
  unfold msSeqIdGt
  rw [ha, hb]
  exact decide_eq_true_iff

theorem gt_of_unparsed (h : parseMsSeqId a = none ∨ parseMsSeqId b = none) :
    msSeqIdGt a b = true ↔ b < a := by
  unfold msSeqIdGt
  rcases h with h | h
  · rw [h]
    exact decide_eq_true_iff
  · rw [h]
    cases parseMsSeqId a <;> exact decide_eq_true_iff

theorem sortKey_of_parsed (ha : parseMsSeqId a = some p) :
    msSeqIdSortKey a = toLex (p.1, toLex (p.2, [])) := by
  unfold msSeqIdSortKey
  rw [ha]

theorem sortKey_of_unparsed (ha : parseMsSeqId a = none) :
    msSeqIdSortKey a = toLex (0, toLex (0, a)) := by
  unfold msSeqIdSortKey
  rw [ha]

theorem sortKey_lt_of_parsed (ha : parseMsSeqId a = some p) (hb : parseMsSeqId b = some q) :
    msSeqIdSortKey b < msSeqIdSortKey a ↔ toLex q < toLex p := by
  rw [sortKey_of_parsed ha, sortKey_of_parsed hb]
  simp only [Prod.Lex.toLex_lt_toLex, List.not_lt_nil, and_false, or_false]

theorem sortKey_lt_of_unparsed (ha : parseMsSeqId a = none) (hb : parseMsSeqId b = none) :
    msSeqIdSortKey b < msSeqIdSortKey a ↔ b < a := by
  rw [sortKey_of_unparsed ha, sortKey_of_unparsed hb]
  simp only [Prod.Lex.toLex_lt_toLex, lt_irrefl, false_or, true_and]

/-- Among the keys, unparsed ids come after `0-0` and before every greater id. -/
theorem sortKey_lt_of_mixed (ha : parseMsSeqId a = some p) (hb : parseMsSeqId b = none) :
    msSeqIdSortKey b < msSeqIdSortKey a ↔ toLex (0, 0) < toLex p := by
  rw [sortKey_of_parsed ha, sortKey_of_unparsed hb]
  simp only [Prod.Lex.toLex_lt_toLex, List.not_lt_nil, and_false, or_false]

end

/-- In an aligned set the two comparisons of an unparsed id with a parsed one agree. -/
theorem Aligned.sorted_mixed {ids : Set PyStr} (h : Aligned ids) {a b : PyStr} (ha : a ∈ ids)
    (hb : b ∈ ids) {p : Int × Int} (hp : parseMsSeqId a = some p) (hq : parseMsSeqId b = none) :
    (msSeqIdGt a b = true ↔ msSeqIdSortKey b < msSeqIdSortKey a) ∧
      (msSeqIdGt b a = true ↔ msSeqIdSortKey a < msSeqIdSortKey b) := by
  have haligned := h a ha b hb p hp hq
  have hab := gt_of_unparsed (a := a) (.inr hq)
  have hba := gt_of_unparsed (b := a) (.inl hq)
  have hkey := sortKey_lt_of_mixed hp hq
  split at haligned
  next hpos =>
    -- a positive id: after `b` in both orders
    have hlt := hkey.2 hpos
    exact ⟨iff_of_true (hab.2 haligned) hlt,
      iff_of_false (fun hgt => lt_asymm haligned (hba.1 hgt)) (lt_asymm hlt)⟩
  next hpos =>
    -- the keys differ, for only the empty string has the key of `0-0`
    have hne : msSeqIdSortKey a ≠ msSeqIdSortKey b := by
      rw [sortKey_of_parsed hp, sortKey_of_unparsed hq]
      intro heq
      have hnil : ([] : PyStr) = b := (Prod.mk.inj (Prod.mk.inj heq).2).2
      rw [← hnil] at haligned
      exact List.not_lt_nil a haligned
    have hlt := lt_of_le_of_ne (le_of_not_gt fun hlt => hpos (hkey.1 hlt)) hne
    exact ⟨iff_of_false (fun hgt => lt_asymm haligned (hab.1 hgt)) (lt_asymm hlt),
      iff_of_true (hba.2 haligned) hlt⟩

theorem Aligned.sorted {ids : Set PyStr} (h : Aligned ids) {a b : PyStr} (ha : a ∈ ids)
    (hb : b ∈ ids) : msSeqIdGt a b = true ↔ msSeqIdSortKey b < msSeqIdSortKey a := by
  cases hp : parseMsSeqId a with
  | none =>
      cases hq : parseMsSeqId b with
      | none => rw [gt_of_unparsed (.inl hp), sortKey_lt_of_unparsed hp hq]
      | some q => exact (h.sorted_mixed hb ha hq hp).2
  | some p =>
      cases hq : parseMsSeqId b with
      | none => exact (h.sorted_mixed ha hb hp hq).1
      | some q => rw [gt_of_parsed hp hq, sortKey_lt_of_parsed hp hq]

theorem gt_or_gt {a b : PyStr} (h : parseMsSeqId a ≠ parseMsSeqId b) :
    msSeqIdGt a b = true ∨ msSeqIdGt b a = true := by
  by_cases hparsed : parseMsSeqId a = none ∨ parseMsSeqId b = none
  · have hne : a ≠ b := fun heq => h (congrArg parseMsSeqId heq)
    rw [gt_of_unparsed hparsed, gt_of_unparsed hparsed.symm]
    exact (lt_or_gt_of_ne hne).symm
  · rw [not_or] at hparsed
    obtain ⟨p, hp⟩ := Option.ne_none_iff_exists'.1 hparsed.1
    obtain ⟨q, hq⟩ := Option.ne_none_iff_exists'.1 hparsed.2
    have hne : toLex p ≠ toLex q := fun heq => h (by rw [hp, hq, toLex_inj.1 heq])
    rw [gt_of_parsed hp hq, gt_of_parsed hq hp]
    exact (lt_or_gt_of_ne hne).symm

theorem Aligned.oneOrder {ids : Set PyStr} (h : Aligned ids) : OneOrder ids where
  irrefl a ha := by
    rw [← Bool.not_eq_true, h.sorted ha ha]
    exact lt_irrefl _
  trans a ha b hb c hc hab hbc := by
    rw [h.sorted ha hb] at hab
    rw [h.sorted hb hc] at hbc
    rw [h.sorted ha hc]
    exact hbc.trans hab
  compare a _ b _ hne := gt_or_gt hne
  sorted a ha b hb := h.sorted ha hb

theorem OneOrder.aligned {ids : Set PyStr} (h : OneOrder ids) : Aligned ids := by
  intro a ha b hb p hp hq
  have hsorted := h.sorted a ha b hb
  rw [gt_of_unparsed (.inr hq), sortKey_lt_of_mixed hp hq] at hsorted
  split
  next hpos => exact hsorted.2 hpos
  next hpos =>
    have hne : a ≠ b := by
      rintro rfl
      rw [hp] at hq
      exact nomatch hq
    exact lt_of_le_of_ne (le_of_not_gt fun hlt => hpos (hsorted.1 hlt)) hne

/-- The generated ids increase, and a set of ids has one order exactly when it is aligned. -/
theorem streamIds_ordered_iff (readings : List Int) (ids : Set PyStr) :
    ((generateMsSeqIds readings).Pairwise fun left right => msSeqIdGt right left = true) ∧
      (OneOrder ids ↔ Aligned ids) :=
  ⟨generateMsSeqIds_increasing readings, OneOrder.aligned, Aligned.oneOrder⟩

/-- A clock that goes backwards, and a cursor `5z` that stands between the first id of all and
the ids of the ninth millisecond. -/
theorem streamIds_ordered_iff_parsed :
    generateMsSeqIds [9, 7, 10] =
        [PyStr.ofString "9-0", PyStr.ofString "9-1", PyStr.ofString "10-0"] ∧
      OneOrder {mid | mid ∈ [PyStr.ofString "0-0", PyStr.ofString "5z", PyStr.ofString "9-0",
        PyStr.ofString "9-1"]} := by
  refine ⟨by decide +kernel, (streamIds_ordered_iff [9, 7, 10] _).2.2 ?_⟩
  have hzero : parseMsSeqId (PyStr.ofString "0-0") = some (0, 0) := by decide +kernel
  have hcursor : parseMsSeqId (PyStr.ofString "5z") = none := by decide +kernel
  have hnine : parseMsSeqId (PyStr.ofString "9-0") = some (9, 0) := by decide +kernel
  have hnext : parseMsSeqId (PyStr.ofString "9-1") = some (9, 1) := by decide +kernel
  intro a ha b hb p hp hq
  obtain rfl : b = PyStr.ofString "5z" := by
    simp only [Set.mem_ofPred_eq, List.mem_cons, List.not_mem_nil, or_false] at hb
    rcases hb with rfl | rfl | rfl | rfl
    · rw [hzero] at hq
      cases hq
    · rfl
    · rw [hnine] at hq
      cases hq
    · rw [hnext] at hq
      cases hq
  simp only [Set.mem_ofPred_eq, List.mem_cons, List.not_mem_nil, or_false] at ha
  rcases ha with rfl | rfl | rfl | rfl
  · obtain rfl := Option.some.inj (hzero.symm.trans hp)
    rw [if_neg (lt_irrefl _)]
    decide +kernel
  · rw [hcursor] at hp
    cases hp
  · obtain rfl := Option.some.inj (hnine.symm.trans hp)
    rw [if_pos (by decide)]
    decide +kernel
  · obtain rfl := Option.some.inj (hnext.symm.trans hp)
    rw [if_pos (by decide)]
    decide +kernel

/-- A cursor that is no id: `10-0` is after `9-0`, `9-0` after `5z`, but `10-0` is not after
`5z`, while sorting puts `5z` first. -/
theorem streamIds_two_orders :
    msSeqIdGt (PyStr.ofString "10-0") (PyStr.ofString "9-0") = true ∧
      msSeqIdGt (PyStr.ofString "9-0") (PyStr.ofString "5z") = true ∧
      msSeqIdGt (PyStr.ofString "10-0") (PyStr.ofString "5z") = false ∧
      msSeqIdSortKey (PyStr.ofString "5z") < msSeqIdSortKey (PyStr.ofString "10-0") ∧
      ¬ OneOrder Set.univ := by
  have hlast : msSeqIdGt (PyStr.ofString "10-0") (PyStr.ofString "5z") = false := by
    decide +kernel
  refine ⟨by decide +kernel, by decide +kernel, hlast, by decide +kernel, ?_⟩
  intro h
  have htrans := h.trans (PyStr.ofString "10-0") trivial (PyStr.ofString "9-0") trivial
    (PyStr.ofString "5z") trivial (by decide +kernel) (by decide +kernel)
  rw [hlast] at htrans
  exact Bool.false_ne_true htrans

end StreamId

end GraphHarbor
