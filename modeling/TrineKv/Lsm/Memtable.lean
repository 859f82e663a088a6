import TrineKv.Lib.Best
import TrineKv.Keys.Record

/-!
# Memtables and in-memory deltas

A memtable is an ordered map from internal keys to values. The writers of an in-memory database
publish deltas: small memtables with the range deletions and the sequence of a commit, which are
merged from time to time.

Locks are left out: a reader sees a memtable as it is when it takes the lock.

## Main results

* `Memtable.mem_insertAll`: what a memtable holds.
-/

namespace TrineKv

open List
open PointRecord (internalKey isVisible)

/-! ## Memtables -/

def ValueRef.len : ValueRef → ℕ
  | .inline bytes => bytes.length
  | .blobIndex index => index.valueLen

/-- What a memtable entry adds to the estimate of the memtable's size. -/
def entryBytes (record : PointRecord) : ℕ :=
  record.userKey.length + (record.value.map ValueRef.len).getD 0 + 16

/-- An ordered map from internal keys to values. -/
structure Memtable where
  entries : List PointRecord
  sorted : StrictlySorted entries
  deriving DecidableEq

def insertEntry (record : PointRecord) : List PointRecord → List PointRecord
  | [] => [record]
  | entry :: entries =>
    if record.internalKey < entry.internalKey then record :: entry :: entries
    else if record.internalKey = entry.internalKey then record :: entries
    else entry :: insertEntry record entries

/-- What an insertion leaves in the list. -/
lemma mem_insertEntry {record other : PointRecord} {entries : List PointRecord}
    (hsorted : StrictlySorted entries) :
    other ∈ insertEntry record entries ↔
      other = record ∨ other ∈ entries ∧ other.internalKey ≠ record.internalKey := by
  induction entries with
  | nil => simp [insertEntry]
  | cons entry entries ih =>
    obtain ⟨hentry, hentries⟩ := pairwise_cons.mp hsorted
    rw [insertEntry]
    split_ifs with hlt heq
    · -- Everything in the list lies above the new record.
      have habove : ∀ x ∈ entry :: entries, x.internalKey ≠ record.internalKey := by
        intro x hx
        rcases mem_cons.mp hx with rfl | hx
        · exact hlt.ne'
        · exact (hlt.trans (hentry x hx)).ne'
      rw [mem_cons]
      exact or_congr_right ⟨fun h => ⟨h, habove other h⟩, fun h => h.1⟩
    · rw [mem_cons, mem_cons]
      refine or_congr_right ⟨fun h => ⟨Or.inr h, ?_⟩, ?_⟩
      · rw [heq]
        exact (hentry other h).ne'
      · rintro ⟨rfl | h, hne⟩
        · exact absurd heq.symm hne
        · exact h
    · rw [mem_cons, mem_cons, ih hentries]
      constructor
      · rintro (rfl | rfl | ⟨h, hne⟩)
        · exact .inr ⟨Or.inl rfl, fun h => heq h.symm⟩
        · exact .inl rfl
        · exact .inr ⟨Or.inr h, hne⟩
      · rintro (rfl | ⟨rfl | h, hne⟩)
        · exact .inr (Or.inl rfl)
        · exact .inl rfl
        · exact .inr (Or.inr ⟨h, hne⟩)

lemma strictlySorted_insertEntry (record : PointRecord) {entries : List PointRecord}
    (hsorted : StrictlySorted entries) : StrictlySorted (insertEntry record entries) := by
  induction entries with
  | nil => exact pairwise_singleton _ _
  | cons entry entries ih =>
    obtain ⟨hentry, hentries⟩ := pairwise_cons.mp hsorted
    rw [insertEntry]
    split_ifs with hlt heq
    · refine pairwise_cons.mpr ⟨fun x hx => ?_, hsorted⟩
      rcases mem_cons.mp hx with rfl | hx
      · exact hlt
      · exact hlt.trans (hentry x hx)
    · exact pairwise_cons.mpr ⟨fun x hx => heq ▸ hentry x hx, hentries⟩
    · refine pairwise_cons.mpr ⟨fun x hx => ?_, ih hentries⟩
      rcases (mem_insertEntry hentries).mp hx with rfl | ⟨hx, -⟩
      · exact lt_of_le_of_ne (not_lt.mp hlt) fun h => heq h.symm
      · exact hentry x hx

namespace Memtable

/-- A memtable without entries. -/
def empty : Memtable := ⟨[], List.Pairwise.nil⟩

/-- Insert a version; one with the same internal key is replaced. -/
def insert (memtable : Memtable) (record : PointRecord) : Memtable :=
  ⟨insertEntry record memtable.entries, strictlySorted_insertEntry record memtable.sorted⟩

def estimatedBytes (memtable : Memtable) : ℕ :=
  (memtable.entries.map entryBytes).sum

def range (memtable : Memtable) (first last : InternalKey) : List PointRecord :=
  memtable.entries.filter fun record =>
    decide (first ≤ record.internalKey) && decide (record.internalKey ≤ last)

def visible (memtable : Memtable) (key : Key) (readSequence : ℕ) : List PointRecord :=
  memtable.entries.filter fun record => record.isVisible key readSequence

lemma estimatedBytes_eq_zero {memtable : Memtable} :
    memtable.estimatedBytes = 0 ↔ memtable.entries = [] := by
  rw [estimatedBytes]
  cases memtable.entries with
  | nil => simp
  | cons entry entries =>
    simp only [map_cons, sum_cons, entryBytes, reduceCtorEq, iff_false]
    omega

lemma range_forUser (memtable : Memtable) (key : Key) :
    memtable.range (InternalKey.firstForUser key) (InternalKey.lastForUser key) =
      memtable.entries.filter fun record => record.userKey = key := by
  refine filter_congr fun record _ => ?_
  have hfirst : .firstForUser key ≤ record.internalKey ↔ key ≤ record.userKey :=
    InternalKey.firstForUser_le
  have hlast : record.internalKey ≤ .lastForUser key ↔ record.userKey ≤ key :=
    InternalKey.le_lastForUser
  rw [← Bool.coe_iff_coe, Bool.and_eq_true, decide_eq_true_eq, decide_eq_true_eq,
    decide_eq_true_eq, hfirst, hlast]
  exact ⟨fun h => le_antisymm h.2 h.1, fun h => ⟨h.ge, h.le⟩⟩

end Memtable

/-! ## Point reads -/

def keepNewerPointCandidate (candidate : Option PointRecord) (record : PointRecord) :
    Option PointRecord :=
  Best.keep internalKey candidate record

/-- Let the newest version of the key in the memtable that the reader sees compete with the
candidate. -/
def keepNewestVisibleMemtablePointCandidate (candidate : Option PointRecord)
    (memtable : Memtable) (key : Key) (readSequence : ℕ) : Option PointRecord :=
  if memtable.estimatedBytes = 0 then candidate
  else
    match memtable.entries.head?, memtable.entries.getLast? with
    | some smallest, some largest =>
      if key < smallest.userKey ∨ largest.userKey < key then candidate
      else
        match (memtable.range (.firstForUser key) (.lastForUser key)).find?
          fun record => record.sequence ≤ readSequence with
        | some record => keepNewerPointCandidate candidate record
        | none => candidate
    | _, _ => candidate

/-- The checks that leave a memtable out are only taken when it has no version of the key. -/
lemma keepNewestVisibleMemtablePointCandidate_eq (candidate : Option PointRecord)
    (memtable : Memtable) (key : Key) (readSequence : ℕ) :
    keepNewestVisibleMemtablePointCandidate candidate memtable key readSequence =
      match memtable.entries.find? fun record => record.isVisible key readSequence with
      | some record => keepNewerPointCandidate candidate record
      | none => candidate := by
  have hfind : (memtable.range (.firstForUser key) (.lastForUser key)).find?
      (fun record => record.sequence ≤ readSequence) =
      memtable.entries.find? fun record => record.isVisible key readSequence := by
    rw [memtable.range_forUser, List.find?_filter]
    congr 1
    funext record
    simp [isVisible]
  have hnone : (∀ record ∈ memtable.entries, record.userKey ≠ key) →
      memtable.entries.find? (fun record => record.isVisible key readSequence) = none := by
    intro h
    rw [List.find?_eq_none]
    intro record hrecord
    simp [isVisible, h record hrecord]
  unfold keepNewestVisibleMemtablePointCandidate
  split_ifs with hzero
  · rw [hnone]
    simp [Memtable.estimatedBytes_eq_zero.mp hzero]
  · split
    · next smallest largest hhead hlast =>
      split_ifs with hout
      · rw [hnone]
        rintro record hrecord rfl
        obtain ⟨hfirst, hend⟩ := memtable.sorted.keysAscend.between hhead hlast hrecord
        rcases hout with h | h
        · exact absurd h (not_lt_of_ge hfirst)
        · exact absurd h (not_lt_of_ge hend)
      · rw [hfind]
    · next hnot =>
      have hne : memtable.entries ≠ [] := fun h =>
        hzero (Memtable.estimatedBytes_eq_zero.mpr h)
      exact absurd (List.getLast?_eq_some_getLast hne)
        (hnot _ _ (List.head?_eq_some_head hne))

lemma isBest_keepNewestVisibleMemtablePointCandidate {candidate : Option PointRecord}
    {seen : List PointRecord} (h : Best.IsBest internalKey candidate seen)
    (memtable : Memtable) (key : Key) (readSequence : ℕ) :
    Best.IsBest internalKey
      (keepNewestVisibleMemtablePointCandidate candidate memtable key readSequence)
      (seen ++ memtable.visible key readSequence) := by
  have hbest := Best.isBest_find? (memtable.sorted.imp fun hab => hab.le)
    fun record => record.isVisible key readSequence
  rw [keepNewestVisibleMemtablePointCandidate_eq]
  cases hfind : memtable.entries.find? fun record => record.isVisible key readSequence with
  | none =>
    rw [hfind] at hbest
    have hnil : memtable.visible key readSequence = [] := hbest
    rw [hnil, append_nil]
    exact h
  | some record =>
    rw [hfind] at hbest
    exact h.keep hbest

/-! ## Deltas -/

/-- The point records and range deletions that a commit, or several merged ones, left in a
shard. The sequence is that of the last of the commits. -/
structure InMemoryDelta where
  memtable : Memtable
  rangeTombstones : List RangeTombstone
  sequence : ℕ
  sequence_le : ∀ record ∈ memtable.entries, record.sequence ≤ sequence

def Memtable.insertAll (memtable : Memtable) (records : List PointRecord) : Memtable :=
  records.foldl Memtable.insert memtable

/-- Insertions add the records and nothing else, up to replacement by a record with the same
internal key. -/
lemma Memtable.mem_insertAll {memtable : Memtable} {records : List PointRecord} :
    (∀ record ∈ (memtable.insertAll records).entries,
      record ∈ memtable.entries ∨ record ∈ records) ∧
    ∀ record, record ∈ memtable.entries ∨ record ∈ records →
      ∃ kept ∈ (memtable.insertAll records).entries, kept.internalKey = record.internalKey := by
  induction records generalizing memtable with
  | nil =>
    refine ⟨fun record h => Or.inl h, fun record h => ⟨record, ?_, rfl⟩⟩
    rcases h with h | h
    · exact h
    · simp at h
  | cons first records ih =>
    obtain ⟨honly, hall⟩ := @ih (memtable.insert first)
    have hmem : ∀ record, record ∈ (memtable.insert first).entries ↔ record = first ∨
        record ∈ memtable.entries ∧ record.internalKey ≠ first.internalKey :=
      fun record => mem_insertEntry memtable.sorted
    refine ⟨fun record h => ?_, fun record h => ?_⟩
    · rcases honly record h with h | h
      · rcases (hmem record).mp h with rfl | ⟨h, -⟩
        · exact .inr mem_cons_self
        · exact .inl h
      · exact .inr (mem_cons_of_mem _ h)
    · by_cases heq : record.internalKey = first.internalKey
      · obtain ⟨kept, hkept, hkey⟩ := hall first (Or.inl ((hmem first).mpr (Or.inl rfl)))
        exact ⟨kept, hkept, hkey.trans heq.symm⟩
      · refine hall record ?_
        rcases h with h | h
        · exact .inl ((hmem record).mpr (Or.inr ⟨h, heq⟩))
        · rcases mem_cons.mp h with rfl | h
          · exact absurd rfl heq
          · exact .inr h

def internalKeys (records : List PointRecord) : List InternalKey :=
  records.map internalKey

@[simp]
lemma internalKeys_append (left right : List PointRecord) :
    internalKeys (left ++ right) = internalKeys left ++ internalKeys right :=
  map_append

lemma Memtable.mem_internalKeys_insertAll {memtable : Memtable} {records : List PointRecord}
    {internalKey : InternalKey} :
    internalKey ∈ internalKeys (memtable.insertAll records).entries ↔
      internalKey ∈ internalKeys memtable.entries ∨ internalKey ∈ internalKeys records := by
  obtain ⟨honly, hall⟩ := @mem_insertAll memtable records
  simp only [internalKeys, mem_map]
  constructor
  · rintro ⟨record, hrecord, rfl⟩
    exact (honly record hrecord).imp (fun h => ⟨record, h, rfl⟩) fun h => ⟨record, h, rfl⟩
  · rintro (⟨record, hrecord, rfl⟩ | ⟨record, hrecord, rfl⟩)
    · exact hall record (Or.inl hrecord)
    · exact hall record (Or.inr hrecord)

lemma Memtable.mem_internalKeys_insert {memtable : Memtable} {record : PointRecord}
    {internalKey : InternalKey} :
    internalKey ∈ internalKeys (memtable.insert record).entries ↔
      internalKey ∈ internalKeys memtable.entries ∨ internalKey = record.internalKey := by
  have h := @mem_internalKeys_insertAll memtable [record] internalKey
  rwa [show internalKeys [record] = [record.internalKey] from rfl, mem_singleton] at h

def maxDeltaSequence (deltas : List InMemoryDelta) : ℕ :=
  (deltas.map InMemoryDelta.sequence).foldl max 0

lemma le_maxDeltaSequence {deltas : List InMemoryDelta} {delta : InMemoryDelta}
    (h : delta ∈ deltas) : delta.sequence ≤ maxDeltaSequence deltas := by
  have hfold : ∀ (l : List ℕ) (start : ℕ), start ≤ l.foldl max start ∧
      ∀ n ∈ l, n ≤ l.foldl max start := by
    intro l
    induction l with
    | nil => simp
    | cons m l ih =>
      intro start
      obtain ⟨hstart, hl⟩ := ih (max start m)
      refine ⟨(le_max_left _ _).trans hstart, fun n hn => ?_⟩
      rcases mem_cons.mp hn with rfl | hn
      · exact (le_max_right _ _).trans hstart
      · exact hl n hn
  exact (hfold _ 0).2 _ (mem_map_of_mem h)

def mergeDeltas (deltas : List InMemoryDelta) : InMemoryDelta where
  memtable := Memtable.empty.insertAll (deltas.flatMap fun delta => delta.memtable.entries)
  rangeTombstones :=
    (deltas.flatMap InMemoryDelta.rangeTombstones).insertionSort tombstoneLe
  sequence := maxDeltaSequence deltas
  sequence_le := by
    intro record hrecord
    rcases Memtable.mem_insertAll.1 record hrecord with h | h
    · simp [Memtable.empty] at h
    · obtain ⟨delta, hdelta, hin⟩ := mem_flatMap.mp h
      exact (delta.sequence_le record hin).trans (le_maxDeltaSequence hdelta)

end TrineKv
