import Mathlib.Data.List.Sort
import Mathlib.Data.Prod.Lex
import Mathlib.Order.MinMax
import Mathlib.Order.WithBot
import Mathlib.Tactic
import TrineKv.Lib.ByteOrder
import TrineKv.Lib.PartitionPoint

/-!
# User keys, key ranges and range tombstones

User keys are byte strings in lexicographic order. A key range has two bounds, each included,
excluded or absent, and may be inverted. A range tombstone deletes the keys of a range at a sequence
and batch index. The three structures for tombstones of the source have the same fields and
predicates and are one here.

## Main results

* `RangeTombstoneIndex.coveringKey_eq_filter`, `RangeTombstoneIndex.overlappingRange_eq_filter`,
  `RangeTombstoneIndex.lookup_exact_iff`.
-/

namespace TrineKv

open List PartitionPoint
open Bool (and_eq_true not_eq_true not_eq_true')

/-- User keys: byte strings in lexicographic order. -/
abbrev Key := List UInt8

/-- One end of a range. -/
inductive Bound (α : Type) where
  | included (key : α)
  | excluded (key : α)
  | unbounded
  deriving DecidableEq, Repr

structure KeyRange where
  start : Bound Key
  end_ : Bound Key
  deriving DecidableEq, Repr

namespace KeyRange

def all : KeyRange := ⟨.unbounded, .unbounded⟩

def halfOpen (start end_ : Key) : KeyRange := ⟨.included start, .excluded end_⟩

end KeyRange

def keyIsBeforeStart (key : Key) : Bound Key → Bool
  | .included start => decide (key < start)
  | .excluded start => decide (key ≤ start)
  | .unbounded => false

def keyIsAfterEnd (key : Key) : Bound Key → Bool
  | .included end_ => decide (end_ < key)
  | .excluded end_ => decide (end_ ≤ key)
  | .unbounded => false

def keyIsInRange (key : Key) (range : KeyRange) : Bool :=
  !keyIsBeforeStart key range.start && !keyIsAfterEnd key range.end_

def rangeEndsBeforeStart : Bound Key → Bound Key → Bool
  | .unbounded, _ => false
  | _, .unbounded => false
  | .excluded end_, .included start => decide (end_ ≤ start)
  | .excluded end_, .excluded start => decide (end_ ≤ start)
  | .included end_, .included start => decide (end_ < start)
  | .included end_, .excluded start => decide (end_ ≤ start)

def rangesOverlap (left right : KeyRange) : Bool :=
  !rangeEndsBeforeStart left.end_ right.start && !rangeEndsBeforeStart right.end_ left.start

def finiteBoundBytes : Bound Key → Option Key
  | .included bytes => some bytes
  | .excluded bytes => some bytes
  | .unbounded => none

/-! ## Bounds and the order of keys -/

lemma keyIsBeforeStart_of_le {j k : Key} {start : Bound Key} (hjk : j ≤ k)
    (h : keyIsBeforeStart k start = true) : keyIsBeforeStart j start = true := by
  cases start with
  | included s =>
    simp only [keyIsBeforeStart, decide_eq_true_eq] at h ⊢
    exact lt_of_le_of_lt hjk h
  | excluded s =>
    simp only [keyIsBeforeStart, decide_eq_true_eq] at h ⊢
    exact hjk.trans h
  | unbounded => simp [keyIsBeforeStart] at h

lemma keyIsAfterEnd_of_le {j k : Key} {end_ : Bound Key} (hjk : j ≤ k)
    (h : keyIsAfterEnd j end_ = true) : keyIsAfterEnd k end_ = true := by
  cases end_ with
  | included e =>
    simp only [keyIsAfterEnd, decide_eq_true_eq] at h ⊢
    exact lt_of_lt_of_le h hjk
  | excluded e =>
    simp only [keyIsAfterEnd, decide_eq_true_eq] at h ⊢
    exact h.trans hjk
  | unbounded => simp [keyIsAfterEnd] at h

lemma keyIsInRange_iff {key : Key} {range : KeyRange} :
    keyIsInRange key range = true ↔
      keyIsBeforeStart key range.start = false ∧ keyIsAfterEnd key range.end_ = false := by
  simp [keyIsInRange]

lemma keyIsInRange_of_between {i j k : Key} {range : KeyRange} (hij : i ≤ j) (hjk : j ≤ k)
    (hi : keyIsInRange i range = true) (hk : keyIsInRange k range = true) :
    keyIsInRange j range = true := by
  rw [keyIsInRange_iff] at hi hk ⊢
  refine ⟨?_, ?_⟩
  · by_contra h
    have h' := keyIsBeforeStart_of_le hij (by simpa using h)
    simp [hi.1] at h'
  · by_contra h
    have h' := keyIsAfterEnd_of_le hjk (by simpa using h)
    simp [hk.2] at h'

lemma not_inRange_of_endsBeforeStart {key : Key} {end_ start : Bound Key}
    (h : rangeEndsBeforeStart end_ start = true) (hkey : keyIsAfterEnd key end_ = false) :
    keyIsBeforeStart key start = true := by
  cases end_ <;> cases start <;>
    simp only [rangeEndsBeforeStart, keyIsAfterEnd, keyIsBeforeStart, decide_eq_true_eq,
      decide_eq_false_iff_not, not_lt, not_le, Bool.false_eq_true] at h hkey ⊢
  · exact lt_of_le_of_lt hkey h
  · exact hkey.trans h
  · exact lt_of_lt_of_le hkey h
  · exact (lt_of_lt_of_le hkey h).le

lemma rangesOverlap_of_common {key : Key} {left right : KeyRange}
    (hl : keyIsInRange key left = true) (hr : keyIsInRange key right = true) :
    rangesOverlap left right = true := by
  rw [keyIsInRange_iff] at hl hr
  simp only [rangesOverlap, and_eq_true, not_eq_true']
  refine ⟨?_, ?_⟩
  · by_contra h
    have h' := not_inRange_of_endsBeforeStart (by simpa using h) hl.2
    simp [hr.1] at h'
  · by_contra h
    have h' := not_inRange_of_endsBeforeStart (by simpa using h) hr.2
    simp [hl.1] at h'

/-! ## The order of bounds

Start bounds are compared by the first key they admit, end bounds by the last one. Both orders
are linear: they are the orders of `startRank` and `endRank`. -/

def compareKeys (left right : Key) : Ordering :=
  if left < right then .lt else if left = right then .eq else .gt

@[simp]
lemma compareKeys_eq_lt {left right : Key} : compareKeys left right = .lt ↔ left < right := by
  unfold compareKeys
  split_ifs <;> simp_all

@[simp]
lemma compareKeys_eq_eq {left right : Key} : compareKeys left right = .eq ↔ left = right := by
  unfold compareKeys
  split_ifs with h1 h2
  · simp [h1.ne]
  · simp [h2]
  · simp [h2]

@[simp]
lemma compareKeys_eq_gt {left right : Key} : compareKeys left right = .gt ↔ right < left := by
  unfold compareKeys
  split_ifs with h1 h2
  · simp [h1.not_gt]
  · simp [h2]
  · simpa using lt_of_le_of_ne (not_lt.mp h1) (Ne.symm h2)

def compareStartBounds : Bound Key → Bound Key → Ordering
  | .unbounded, .unbounded => .eq
  | .unbounded, _ => .lt
  | _, .unbounded => .gt
  | .included left, .included right => compareKeys left right
  | .excluded left, .excluded right => compareKeys left right
  | .included left, .excluded right => (compareKeys left right).then .lt
  | .excluded left, .included right => (compareKeys left right).then .gt

def compareEndBounds : Bound Key → Bound Key → Ordering
  | .unbounded, .unbounded => .eq
  | .unbounded, _ => .gt
  | _, .unbounded => .lt
  | .included left, .included right => compareKeys left right
  | .excluded left, .excluded right => compareKeys left right
  | .excluded left, .included right => (compareKeys left right).then .lt
  | .included left, .excluded right => (compareKeys left right).then .gt

def startRank : Bound Key → WithBot (Key ×ₗ Bool)
  | .unbounded => ⊥
  | .included key => (toLex (key, false) : Key ×ₗ Bool)
  | .excluded key => (toLex (key, true) : Key ×ₗ Bool)

def endRank : Bound Key → WithTop (Key ×ₗ Bool)
  | .unbounded => ⊤
  | .included key => (toLex (key, true) : Key ×ₗ Bool)
  | .excluded key => (toLex (key, false) : Key ×ₗ Bool)

lemma eq_cmp_of_iff {α : Type*} [LinearOrder α] {c : Ordering} {x y : α}
    (hlt : c = .lt ↔ x < y) (hgt : c = .gt ↔ y < x) : c = cmp x y := by
  rw [← cmp_eq_lt_iff] at hlt
  rw [← cmp_eq_gt_iff] at hgt
  generalize cmp x y = d at hlt hgt ⊢
  cases c <;> cases d <;> simp_all

lemma compareStartBounds_eq (left right : Bound Key) :
    compareStartBounds left right = cmp (startRank left) (startRank right) := by
  apply eq_cmp_of_iff
  · cases left <;> cases right <;>
      simp [compareStartBounds, startRank, Ordering.then_eq_lt, Prod.Lex.toLex_lt_toLex]
  · cases left <;> cases right <;>
      simp [compareStartBounds, startRank, Ordering.then_eq_gt, Prod.Lex.toLex_lt_toLex,
        @eq_comm Key]

lemma compareEndBounds_eq (left right : Bound Key) :
    compareEndBounds left right = cmp (endRank left) (endRank right) := by
  apply eq_cmp_of_iff
  · cases left <;> cases right <;>
      simp [compareEndBounds, endRank, Ordering.then_eq_lt, Prod.Lex.toLex_lt_toLex]
  · cases left <;> cases right <;>
      simp [compareEndBounds, endRank, Ordering.then_eq_gt, Prod.Lex.toLex_lt_toLex,
        @eq_comm Key]

/-! ## Range tombstones -/

structure RangeTombstone where
  range : KeyRange
  sequence : ℕ
  batchIndex : ℕ
  deriving DecidableEq, Repr

def compareTombstones (left right : RangeTombstone) : Ordering :=
  (compareStartBounds left.range.start right.range.start).then
    (compareEndBounds left.range.end_ right.range.end_)

/-- `left` does not come after `right` in a tombstone index. -/
def tombstoneLe (left right : RangeTombstone) : Prop :=
  compareTombstones left right ≠ .gt

instance : DecidableRel tombstoneLe :=
  fun left right => inferInstanceAs (Decidable (compareTombstones left right ≠ .gt))

lemma tombstoneLe_iff {left right : RangeTombstone} :
    tombstoneLe left right ↔
      toLex (startRank left.range.start, endRank left.range.end_) ≤
        toLex (startRank right.range.start, endRank right.range.end_) := by
  unfold tombstoneLe compareTombstones
  rw [compareStartBounds_eq, compareEndBounds_eq, Prod.Lex.toLex_le_toLex, ne_eq,
    Ordering.then_eq_gt, cmp_eq_gt_iff, cmp_eq_eq_iff, cmp_eq_gt_iff]
  push Not
  constructor
  · rintro ⟨h1, h2⟩
    rcases h1.lt_or_eq with h | h
    · exact .inl h
    · exact .inr ⟨h, h2 h⟩
  · rintro (h | ⟨h1, h2⟩)
    · exact ⟨h.le, fun heq => absurd heq h.ne⟩
    · exact ⟨h1.le, fun _ => h2⟩

instance : IsTrans RangeTombstone tombstoneLe where
  trans a b c hab hbc := by
    rw [tombstoneLe_iff] at hab hbc ⊢
    exact hab.trans hbc

instance : Std.Total tombstoneLe where
  total a b := by
    rw [tombstoneLe_iff, tombstoneLe_iff]
    exact le_total _ _

lemma startRank_le_of_tombstoneLe {left right : RangeTombstone} (h : tombstoneLe left right) :
    startRank left.range.start ≤ startRank right.range.start := by
  rw [tombstoneLe_iff, Prod.Lex.toLex_le_toLex] at h
  rcases h with h | ⟨h, -⟩
  · exact h.le
  · exact h.le

def startCanCoverKey (start : Bound Key) (key : Key) : Bool :=
  match start with
  | .unbounded => true
  | .included start => decide (start ≤ key)
  | .excluded start => decide (start < key)

def startCanOverlapRange (start : Bound Key) (range : KeyRange) : Bool :=
  match range.end_ with
  | .unbounded => true
  | .included end_ =>
    match start with
    | .unbounded => true
    | .included start => decide (start ≤ end_)
    | .excluded start => decide (start < end_)
  | .excluded end_ =>
    match start with
    | .unbounded => true
    | .included start => decide (start < end_)
    | .excluded start => decide (start < end_)

lemma startCanCoverKey_eq (start : Bound Key) (key : Key) :
    startCanCoverKey start key = !keyIsBeforeStart key start := by
  cases start <;> simp [startCanCoverKey, keyIsBeforeStart, ← decide_not]

lemma startCanOverlapRange_eq (start : Bound Key) (range : KeyRange) :
    startCanOverlapRange start range = !rangeEndsBeforeStart range.end_ start := by
  unfold startCanOverlapRange
  cases range.end_ <;> cases start <;> simp [rangeEndsBeforeStart, ← decide_not]

lemma keyIsBeforeStart_iff_rank {key : Key} {start : Bound Key} :
    keyIsBeforeStart key start = true ↔ startRank (.included key) < startRank start := by
  cases start <;> simp [keyIsBeforeStart, startRank, Prod.Lex.toLex_lt_toLex, le_iff_lt_or_eq]

lemma keyIsBeforeStart_of_startRank_le {left right : Bound Key} {key : Key}
    (h : startRank left ≤ startRank right) (hkey : keyIsBeforeStart key left = true) :
    keyIsBeforeStart key right = true := by
  rw [keyIsBeforeStart_iff_rank] at hkey ⊢
  exact lt_of_lt_of_le hkey h

lemma rangeEndsBeforeStart_of_startRank_le {left right end_ : Bound Key}
    (h : startRank left ≤ startRank right) (hend : rangeEndsBeforeStart end_ left = true) :
    rangeEndsBeforeStart end_ right = true := by
  cases end_ with
  | unbounded => simp [rangeEndsBeforeStart] at hend
  | included e =>
    have hiff : ∀ b, rangeEndsBeforeStart (.included e) b = true ↔
        startRank (.included e) < startRank b := by
      intro b
      cases b <;> simp [rangeEndsBeforeStart, startRank, Prod.Lex.toLex_lt_toLex,
        le_iff_lt_or_eq]
    rw [hiff] at hend ⊢
    exact lt_of_lt_of_le hend h
  | excluded e =>
    have hiff : ∀ b, rangeEndsBeforeStart (.excluded e) b = true ↔
        startRank (.included e) ≤ startRank b := by
      intro b
      cases b <;> simp [rangeEndsBeforeStart, startRank, Prod.Lex.toLex_le_toLex,
        le_iff_lt_or_eq (a := e)]
    rw [hiff] at hend ⊢
    exact hend.trans h

/-! ## Common keys

Two ranges can overlap without a common key: an inverted range overlaps the ranges around it, and
no key lies between a key and its extension by a zero byte. -/

section Common

variable {left right : KeyRange} {key : Key}

def maxStartBound (left right : Bound Key) : Bound Key :=
  match compareStartBounds left right with
  | .lt => right
  | _ => left

def minEndBound (left right : Bound Key) : Bound Key :=
  match compareEndBounds left right with
  | .gt => right
  | _ => left

def rangeIntersection (left right : KeyRange) : Option KeyRange :=
  if rangesOverlap left right then
    some ⟨maxStartBound left.start right.start, minEndBound left.end_ right.end_⟩
  else none

def rangeFromInclusiveSpan (smallest largest : Key) : KeyRange :=
  ⟨.included smallest, .included largest⟩

lemma keyIsAfterEnd_iff_rank {end_ : Bound Key} :
    keyIsAfterEnd key end_ = true ↔ endRank end_ < endRank (.included key) := by
  cases end_ <;> simp [keyIsAfterEnd, endRank, Prod.Lex.toLex_lt_toLex, le_iff_lt_or_eq]

lemma startRank_maxStartBound (left right : Bound Key) :
    startRank (maxStartBound left right) = max (startRank left) (startRank right) := by
  rw [maxStartBound, compareStartBounds_eq]
  rcases lt_trichotomy (startRank left) (startRank right) with h | h | h
  · rw [(cmp_eq_lt_iff _ _).mpr h, max_eq_right h.le]
  · rw [(cmp_eq_eq_iff _ _).mpr h, max_eq_left h.ge]
  · rw [(cmp_eq_gt_iff _ _).mpr h, max_eq_left h.le]

lemma endRank_minEndBound (left right : Bound Key) :
    endRank (minEndBound left right) = min (endRank left) (endRank right) := by
  rw [minEndBound, compareEndBounds_eq]
  rcases lt_trichotomy (endRank left) (endRank right) with h | h | h
  · rw [(cmp_eq_lt_iff _ _).mpr h, min_eq_left h.le]
  · rw [(cmp_eq_eq_iff _ _).mpr h, min_eq_left h.le]
  · rw [(cmp_eq_gt_iff _ _).mpr h, min_eq_right h.le]

lemma keyIsInRange_of_rangeIntersection {range : KeyRange}
    (h : rangeIntersection left right = some range) :
    keyIsInRange key range = true ↔
      keyIsInRange key left = true ∧ keyIsInRange key right = true := by
  unfold rangeIntersection at h
  split_ifs at h
  obtain rfl := Option.some.inj h
  have hstart : keyIsBeforeStart key (maxStartBound left.start right.start) = false ↔
      keyIsBeforeStart key left.start = false ∧ keyIsBeforeStart key right.start = false := by
    rw [← not_eq_true, ← not_eq_true, ← not_eq_true]
    simp only [keyIsBeforeStart_iff_rank, startRank_maxStartBound, not_lt, max_le_iff]
  have hend : keyIsAfterEnd key (minEndBound left.end_ right.end_) = false ↔
      keyIsAfterEnd key left.end_ = false ∧ keyIsAfterEnd key right.end_ = false := by
    rw [← not_eq_true, ← not_eq_true, ← not_eq_true]
    simp only [keyIsAfterEnd_iff_rank, endRank_minEndBound, not_lt, le_min_iff]
  simp only [keyIsInRange_iff, hstart, hend]
  tauto

lemma exists_rangeIntersection (hleft : keyIsInRange key left = true)
    (hright : keyIsInRange key right = true) :
    ∃ range, rangeIntersection left right = some range ∧ keyIsInRange key range = true := by
  have hsome : rangeIntersection left right =
      some ⟨maxStartBound left.start right.start, minEndBound left.end_ right.end_⟩ :=
    if_pos (rangesOverlap_of_common hleft hright)
  exact ⟨_, hsome, (keyIsInRange_of_rangeIntersection hsome).mpr ⟨hleft, hright⟩⟩

/-- No key lies after an excluded start and before an excluded end: the end is the next key. -/
def Adjacent (end_ start : Bound Key) : Prop :=
  ∃ key, start = .excluded key ∧ end_ = .excluded (key ++ [0])

lemma exists_between {end_ start : Bound Key} (h : rangeEndsBeforeStart end_ start = false)
    (hgap : ¬Adjacent end_ start) (hkey : keyIsAfterEnd key end_ = false) :
    ∃ common, keyIsBeforeStart common start = false ∧ keyIsAfterEnd common end_ = false := by
  cases start with
  | unbounded => exact ⟨key, rfl, hkey⟩
  | included s =>
    refine ⟨s, by simp [keyIsBeforeStart], ?_⟩
    cases end_ with
    | unbounded => rfl
    | included e => simpa [rangeEndsBeforeStart, keyIsAfterEnd] using h
    | excluded e => simpa [rangeEndsBeforeStart, keyIsAfterEnd] using h
  | excluded s =>
    have hnext : s < s ++ [0] := ByteOrder.append_zero_le_iff.mp le_rfl
    cases end_ with
    | unbounded => exact ⟨s ++ [0], by simpa [keyIsBeforeStart] using hnext, rfl⟩
    | included e =>
      exact ⟨e, by simpa [rangeEndsBeforeStart, keyIsBeforeStart] using h,
        by simp [keyIsAfterEnd]⟩
    | excluded e =>
      have hlt : s < e := by simpa [rangeEndsBeforeStart] using h
      have hne : s ++ [0] ≠ e := fun heq => hgap ⟨s, rfl, by rw [heq]⟩
      have hbelow : s ++ [0] < e :=
        lt_of_le_of_ne (ByteOrder.append_zero_le_iff.mpr hlt) hne
      exact ⟨s ++ [0], by simpa [keyIsBeforeStart] using hnext,
        by simpa [keyIsAfterEnd] using hbelow⟩

/-- Of two ranges with keys, neither of which ends before the other one starts, the one with the
later start has a key in the other one.

**Proof sketch.** If it also has the earlier end, it is the smaller range. Otherwise a key
between the two bounds in the middle lies in both ranges. -/
lemma exists_common_of_startRank_le (hstart : startRank left.start ≤ startRank right.start)
    (h : rangeEndsBeforeStart left.end_ right.start = false)
    (hgap : ¬Adjacent left.end_ right.start) (hleft : ∃ key, keyIsInRange key left = true)
    (hright : ∃ key, keyIsInRange key right = true) :
    ∃ key, keyIsInRange key left = true ∧ keyIsInRange key right = true := by
  have hbefore : ∀ key, keyIsBeforeStart key right.start = false →
      keyIsBeforeStart key left.start = false := fun key hkey => by
    rw [← not_eq_true] at hkey ⊢
    exact fun hlt => hkey (keyIsBeforeStart_of_startRank_le hstart hlt)
  have hafter : ∀ {low high : Bound Key} (key), endRank low ≤ endRank high →
      keyIsAfterEnd key low = false → keyIsAfterEnd key high = false :=
    fun key hle hkey => by
      rw [← not_eq_true, keyIsAfterEnd_iff_rank] at hkey ⊢
      exact fun hlt => hkey (hle.trans_lt hlt)
  simp only [keyIsInRange_iff] at hleft hright ⊢
  rcases le_total (endRank right.end_) (endRank left.end_) with hend | hend
  · obtain ⟨key, hkey⟩ := hright
    exact ⟨key, ⟨hbefore key hkey.1, hafter key hend hkey.2⟩, hkey⟩
  · obtain ⟨key, hkey⟩ := hleft
    obtain ⟨common, hfrom, hto⟩ := exists_between h hgap hkey.2
    exact ⟨common, ⟨hbefore common hfrom, hto⟩, hfrom, hafter common hend hto⟩

lemma rangesOverlap_iff_common (hleft : ∃ key, keyIsInRange key left = true)
    (hright : ∃ key, keyIsInRange key right = true)
    (hgap : ¬Adjacent left.end_ right.start ∧ ¬Adjacent right.end_ left.start) :
    rangesOverlap left right = true ↔
      ∃ key, keyIsInRange key left = true ∧ keyIsInRange key right = true := by
  refine ⟨fun h => ?_, fun ⟨key, hl, hr⟩ => rangesOverlap_of_common hl hr⟩
  simp only [rangesOverlap, and_eq_true, not_eq_true'] at h
  rcases le_total (startRank left.start) (startRank right.start) with hle | hle
  · exact exists_common_of_startRank_le hle h.1 hgap.1 hleft hright
  · obtain ⟨key, hr, hl⟩ := exists_common_of_startRank_le hle h.2 hgap.2 hright hleft
    exact ⟨key, hl, hr⟩

end Common

/-! ## The tombstone index -/

structure RangeTombstoneIndex where
  tombstones : List RangeTombstone
  sorted : tombstones.Pairwise tombstoneLe

namespace RangeTombstoneIndex

instance : DecidableEq RangeTombstoneIndex := fun a b =>
  decidable_of_iff (a.tombstones = b.tombstones) (by cases a; cases b; simp)

def new (tombstones : List RangeTombstone) : RangeTombstoneIndex :=
  ⟨tombstones.insertionSort tombstoneLe, pairwise_insertionSort tombstoneLe tombstones⟩

def all (index : RangeTombstoneIndex) : List RangeTombstone :=
  index.tombstones

def coveringKey (index : RangeTombstoneIndex) (key : Key) : List RangeTombstone :=
  let end_ := ofList index.tombstones
    fun tombstone => startCanCoverKey tombstone.range.start key
  (index.tombstones.take end_).filter fun tombstone => keyIsInRange key tombstone.range

def overlappingRange (index : RangeTombstoneIndex) (range : KeyRange) : List RangeTombstone :=
  let end_ := ofList index.tombstones
    fun tombstone => startCanOverlapRange tombstone.range.start range
  (index.tombstones.take end_).filter fun tombstone => rangesOverlap range tombstone.range

@[simp]
lemma mem_new {tombstones : List RangeTombstone} {t : RangeTombstone} :
    t ∈ (new tombstones).tombstones ↔ t ∈ tombstones :=
  mem_insertionSort tombstoneLe

lemma mem_all_new {tombstones : List RangeTombstone} {t : RangeTombstone} :
    t ∈ (new tombstones).all ↔ t ∈ tombstones := mem_new

private lemma filter_take_ofList (index : RangeTombstoneIndex) {p q : RangeTombstone → Bool}
    (hmono : ∀ a b, startRank a.range.start ≤ startRank b.range.start → p b = true → p a = true)
    (hqp : ∀ t, q t = true → p t = true) :
    (index.tombstones.take (ofList index.tombstones p)).filter q =
      index.tombstones.filter q := by
  have hpair : index.tombstones.Pairwise fun a b => p b = true → p a = true :=
    index.sorted.imp fun hab => hmono _ _ (startRank_le_of_tombstoneLe hab)
  rw [take_ofList hpair, filter_filter]
  apply filter_congr
  intro t _
  cases hq : q t with
  | false => simp
  | true => simp [hqp t hq]

theorem coveringKey_eq_filter (index : RangeTombstoneIndex) (key : Key) :
    index.coveringKey key = index.tombstones.filter fun t => keyIsInRange key t.range := by
  refine filter_take_ofList index (fun a b hle hb => ?_) fun t ht => ?_
  · rw [startCanCoverKey_eq, not_eq_true'] at hb ⊢
    by_contra ha
    have := keyIsBeforeStart_of_startRank_le hle (by simpa using ha)
    simp [hb] at this
  · rw [startCanCoverKey_eq, (keyIsInRange_iff.mp ht).1]
    rfl

theorem overlappingRange_eq_filter (index : RangeTombstoneIndex) (range : KeyRange) :
    index.overlappingRange range = index.tombstones.filter fun t => rangesOverlap range t.range := by
  refine filter_take_ofList index (fun a b hle hb => ?_) fun t ht => ?_
  · rw [startCanOverlapRange_eq, not_eq_true'] at hb ⊢
    by_contra ha
    have := rangeEndsBeforeStart_of_startRank_le hle (by simpa using ha)
    simp [hb] at this
  · simp only [rangesOverlap, and_eq_true] at ht
    rw [startCanOverlapRange_eq, ht.1]

/-- Two ranges that share no key and pass the test for overlap: one of them is without keys, or their
bounds are adjacent. -/
def FalselyOverlap (left right : KeyRange) : Prop :=
  rangesOverlap left right = true ∧
    ((∀ key, keyIsInRange key left = false) ∨ (∀ key, keyIsInRange key right = false) ∨
      (Adjacent left.end_ right.start ∨ Adjacent right.end_ left.start))

lemma not_adjacent_of_common {end_ start : Bound Key} {key : Key}
    (hstart : keyIsBeforeStart key start = false) (hend : keyIsAfterEnd key end_ = false) :
    ¬Adjacent end_ start := by
  rintro ⟨bound, rfl, rfl⟩
  simp only [keyIsBeforeStart, keyIsAfterEnd, decide_eq_false_iff_not, not_le] at hstart hend
  exact absurd (ByteOrder.append_zero_le_iff.mpr hstart) (not_le_of_gt hend)

/-- The test for overlap errs exactly on the ranges that overlap falsely.

**Proof sketch.** Ranges with keys and without adjacent bounds are `rangesOverlap_iff_common`; a
common key excludes the three exceptions. -/
lemma rangesOverlap_iff_common_iff {left right : KeyRange} :
    (rangesOverlap left right = true ↔
      ∃ key, keyIsInRange key left = true ∧ keyIsInRange key right = true) ↔
    ¬FalselyOverlap left right := by
  constructor
  · rintro h ⟨hoverlap, hfalse⟩
    obtain ⟨key, hleft, hright⟩ := h.mp hoverlap
    obtain ⟨hl, hl'⟩ := keyIsInRange_iff.mp hleft
    obtain ⟨hr, hr'⟩ := keyIsInRange_iff.mp hright
    rcases hfalse with hnone | hnone | hadjacent | hadjacent
    · simp [hnone key] at hleft
    · simp [hnone key] at hright
    · exact not_adjacent_of_common hr hl' hadjacent
    · exact not_adjacent_of_common hl hr' hadjacent
  · intro h
    refine ⟨fun hoverlap => ?_, fun ⟨key, hl, hr⟩ => rangesOverlap_of_common hl hr⟩
    simp only [FalselyOverlap, hoverlap, true_and, not_or, not_forall, Bool.not_eq_false] at h
    exact (rangesOverlap_iff_common h.1 h.2.1 h.2.2).mp hoverlap

open scoped Classical in
/-- The index finds exactly the tombstones that cover a key, and the common part of two ranges holds
their common keys. For a range the index finds exactly the tombstones with a key in it, if and only
if none of them overlaps it falsely. -/
theorem lookup_exact_iff (tombstones : List RangeTombstone) (range : KeyRange) :
    (∀ key, ((new tombstones).coveringKey key).Perm
      (tombstones.filter fun t => keyIsInRange key t.range)) ∧
    (((new tombstones).overlappingRange range).Perm (tombstones.filter fun t =>
      ∃ key, keyIsInRange key range = true ∧ keyIsInRange key t.range = true) ↔
        ∀ t ∈ tombstones, ¬FalselyOverlap range t.range) ∧
    ∀ left right key, (∃ common ∈ rangeIntersection left right, keyIsInRange key common = true) ↔
      keyIsInRange key left = true ∧ keyIsInRange key right = true := by
  have hsort : (new tombstones).tombstones.Perm tombstones :=
    perm_insertionSort tombstoneLe tombstones
  refine ⟨fun key => ?_, ⟨fun h t ht => ?_, fun h => ?_⟩, fun left right key => ⟨?_, fun h => ?_⟩⟩
  · rw [coveringKey_eq_filter]
    exact hsort.filter _
  · rw [← rangesOverlap_iff_common_iff]
    have hfound := h.mem_iff (a := t)
    rw [overlappingRange_eq_filter, mem_filter, mem_filter, mem_new,
      decide_eq_true_iff] at hfound
    exact ⟨fun hoverlap => (hfound.mp ⟨ht, hoverlap⟩).2, fun hcommon => (hfound.mpr ⟨ht, hcommon⟩).2⟩
  · have hfound : tombstones.filter (fun t => rangesOverlap range t.range) =
        tombstones.filter fun t =>
          ∃ key, keyIsInRange key range = true ∧ keyIsInRange key t.range = true := by
      refine filter_congr fun t ht => ?_
      rw [← Bool.coe_iff_coe, decide_eq_true_iff]
      exact rangesOverlap_iff_common_iff.mpr (h t ht)
    rw [overlappingRange_eq_filter, ← hfound]
    exact hsort.filter _
  · rintro ⟨common, hcommon, hkey⟩
    exact (keyIsInRange_of_rangeIntersection hcommon).mp hkey
  · exact exists_rangeIntersection h.1 h.2

/-- An inverted tombstone contains no key, but the index finds it for a range around its
bounds. -/
theorem overlappingRange_inverted :
    (new [⟨.halfOpen [3] [2], 1, 0⟩]).overlappingRange (.halfOpen [1] [4]) =
        [⟨.halfOpen [3] [2], 1, 0⟩] ∧
      ∀ key, keyIsInRange key (.halfOpen [3] [2]) = false := by
  refine ⟨by decide, fun key => ?_⟩
  by_contra h
  simp only [Bool.not_eq_false, keyIsInRange_iff, KeyRange.halfOpen, keyIsBeforeStart,
    keyIsAfterEnd, decide_eq_false_iff_not, not_lt, not_le] at h
  exact absurd (h.1.trans_lt h.2) (by decide)

end RangeTombstoneIndex

end TrineKv
