import TrineKv.Lsm.Scan
import TrineKv.Lsm.Write
import TrineKv.Table.Collect

/-!
# Conflict checks

A transaction may commit only if no newer version or range deletion of what it has read is found in
the deltas, memtables and tables. The parts of the tree that a check takes are those of a point
read. Errors of the storage are left out.

## Main results

* `TreeState.Shows.pointKeyModifiedAfter`, `TreeState.Shows.keyRangeModifiedAfter`.
-/

namespace TrineKv

open List

variable {range : KeyRange} {record : PointRecord} {tombstone : RangeTombstone}

def LsmVersion.pointLookupTables (version : LsmVersion) (key : Key) : List Table :=
  version.levels.flatMap fun state =>
    if state.level = 0 then
      state.tables.filter fun table => table.keyBoundsMayContainKey key && table.mayContainKey key
    else (state.tableForKey key).toList.filter fun table => table.mayContainKey key

/-! ## The checks -/

def collectMemtablePointRecords (memtable : Memtable) (key : Key) : List PointRecord :=
  memtable.range (.firstForUser key) (.lastForUser key)

def collectMemtableRangeRecords (memtable : Memtable) (range : KeyRange) : List PointRecord :=
  memtable.entries.filter fun record => keyIsInRange record.userKey range

namespace LsmPointReadSnapshot

variable (snapshot : LsmPointReadSnapshot) (policy : IndexSearchPolicy)

def memtables : List Memtable :=
  snapshot.activeMemtable ::
    (snapshot.deltas.map InMemoryDelta.memtable ++
      snapshot.immutableMemtables.map ImmutableMemtable.memtable)

def collectPointKeyRecords (key : Key) : Except Error (List PointRecord) := do
  let tableRecords ← (snapshot.version.pointLookupTables key).mapM fun table =>
    table.pointRecordsForKey key policy
  return ((snapshot.memtables.flatMap fun memtable => collectMemtablePointRecords memtable key) ++
    tableRecords.flatten).insertionSort internalKeyLe

def collectRangePointRecords (range : KeyRange) : Except Error (List PointRecord) := do
  let tableRecords ← snapshot.version.tables.mapM fun table =>
    table.pointRecordsInRange range policy
  return ((snapshot.memtables.flatMap fun memtable =>
    collectMemtableRangeRecords memtable range) ++
      tableRecords.flatten).insertionSort internalKeyLe

def rangeTombstoneModifiedAfterKey (key : Key) (readSequence : ℕ) : Bool :=
  ((snapshot.memtableRangeTombstones.coveringKey key).any fun tombstone =>
      readSequence < tombstone.sequence) ||
    snapshot.version.tables.any fun table =>
      (table.rangeTombstones.coveringKey key).any fun tombstone =>
        readSequence < tombstone.sequence

def rangeTombstoneModifiedAfterRange (range : KeyRange) (readSequence : ℕ) : Bool :=
  ((snapshot.memtableRangeTombstones.overlappingRange range).any fun tombstone =>
      readSequence < tombstone.sequence) ||
    snapshot.version.tables.any fun table =>
      (table.rangeTombstonesOverlappingRange range).any fun tombstone =>
        readSequence < tombstone.sequence

def pointKeyModifiedAfter (key : Key) (readSequence : ℕ) : Except Error Bool := do
  let records ← snapshot.collectPointKeyRecords policy key
  if records.any fun record => readSequence < record.sequence then return true
  else return snapshot.rangeTombstoneModifiedAfterKey key readSequence

def keyRangeModifiedAfter (range : KeyRange) (readSequence : ℕ) : Except Error Bool := do
  let records ← snapshot.collectRangePointRecords policy range
  if records.any fun record => readSequence < record.sequence then return true
  else return snapshot.rangeTombstoneModifiedAfterRange range readSequence

end LsmPointReadSnapshot

namespace TreeState

variable (tree : TreeState)

def pointKeyModifiedAfter (key : Key) (readSequence : ℕ) : Except Error Bool :=
  (tree.pointReadSnapshotForKey key readSequence).pointKeyModifiedAfter tree.indexSearchPolicy key
    readSequence

def keyRangeModifiedAfter (range : KeyRange) (readSequence : ℕ) : Except Error Bool :=
  (tree.pointReadSnapshot readSequence).keyRangeModifiedAfter tree.indexSearchPolicy range
    readSequence

end TreeState

/-! ## Changes that the checks find -/

namespace BatchOperation

def touchesKey (key : Key) : BatchOperation → Bool
  | .put _ written _ => decide (written = key)
  | .delete _ written => decide (written = key)
  | .deleteRange _ deleted => keyIsInRange key deleted

/-- The operation changes keys of the range. Range deletions are compared by their bounds. -/
def touchesRange (range : KeyRange) : BatchOperation → Bool
  | .put _ written _ => keyIsInRange written range
  | .delete _ written => keyIsInRange written range
  | .deleteRange _ deleted => rangesOverlap range deleted

lemma exists_of_touchesKey {operation : BatchOperation} {key : Key}
    (h : operation.touchesKey key = true) (sequence : UInt64) (batchIndex : UInt32) :
    (∃ record ∈ operation.toRecord sequence batchIndex, record.userKey = key) ∨
      ∃ tombstone ∈ operation.toTombstone sequence batchIndex,
        keyIsInRange key tombstone.range = true := by
  cases operation with
  | put bucket written value => exact .inl ⟨_, rfl, of_decide_eq_true h⟩
  | delete bucket written => exact .inl ⟨_, rfl, of_decide_eq_true h⟩
  | deleteRange bucket deleted => exact .inr ⟨_, rfl, h⟩

lemma exists_of_touchesRange {operation : BatchOperation}
    (h : operation.touchesRange range = true) (sequence : UInt64) (batchIndex : UInt32) :
    (∃ record ∈ operation.toRecord sequence batchIndex,
        keyIsInRange record.userKey range = true) ∨
      ∃ tombstone ∈ operation.toTombstone sequence batchIndex,
        rangesOverlap range tombstone.range = true := by
  cases operation with
  | put bucket written value => exact .inl ⟨_, rfl, h⟩
  | delete bucket written => exact .inl ⟨_, rfl, h⟩
  | deleteRange bucket deleted => exact .inr ⟨_, rfl, h⟩

end BatchOperation

namespace LsmPointReadSnapshot

variable {snapshot : LsmPointReadSnapshot} {policy : IndexSearchPolicy} {readSequence : ℕ}

lemma any_newer_of_collected {memtables : List Memtable} (collect : Memtable → List PointRecord)
    {memtable : Memtable} (hmemtable : memtable ∈ memtables)
    (hmem : record ∈ collect memtable) (hnewer : readSequence < record.sequence)
    (others : List PointRecord) :
    ((memtables.flatMap collect ++ others).insertionSort internalKeyLe).any
      (fun record => readSequence < record.sequence) = true :=
  any_eq_true.mpr ⟨record, (mem_insertionSort _).mpr
    (mem_append_left _ (mem_flatMap.mpr ⟨memtable, hmemtable, hmem⟩)),
    decide_eq_true hnewer⟩

lemma pointKeyModifiedAfter_of_record {memtable : Memtable} {record : PointRecord}
    (hmemtable : memtable ∈ snapshot.memtables) (hrecord : record ∈ memtable.entries)
    (hnewer : readSequence < record.sequence) :
    snapshot.pointKeyModifiedAfter policy record.userKey readSequence ≠ .ok false := by
  rw [pointKeyModifiedAfter, collectPointKeyRecords]
  cases (snapshot.version.pointLookupTables record.userKey).mapM
    fun table => table.pointRecordsForKey record.userKey policy with
  | error error => simp [bind, Except.bind]
  | ok tableRecords =>
    have hmem : record ∈ collectMemtablePointRecords memtable record.userKey := by
      rw [collectMemtablePointRecords, Memtable.range_forUser]
      exact mem_filter.mpr ⟨hrecord, decide_eq_true rfl⟩
    have hany := any_newer_of_collected (collectMemtablePointRecords · record.userKey) hmemtable
      hmem hnewer tableRecords.flatten
    simp [bind, Except.bind, pure, Except.pure, hany]

lemma pointKeyModifiedAfter_of_tombstone {key : Key}
    (htombstone : tombstone ∈ snapshot.memtableTombstones)
    (hcovers : keyIsInRange key tombstone.range = true)
    (hnewer : readSequence < tombstone.sequence) :
    snapshot.pointKeyModifiedAfter policy key readSequence ≠ .ok false := by
  have hmodified : snapshot.rangeTombstoneModifiedAfterKey key readSequence = true := by
    rw [rangeTombstoneModifiedAfterKey, RangeTombstoneIndex.coveringKey_eq_filter,
      Bool.or_eq_true, any_eq_true]
    exact .inl ⟨tombstone, mem_filter.mpr
      ⟨RangeTombstoneIndex.mem_new.mpr htombstone, hcovers⟩, decide_eq_true hnewer⟩
  rw [pointKeyModifiedAfter]
  cases snapshot.collectPointKeyRecords policy key with
  | error error => simp [bind, Except.bind]
  | ok records => simp [bind, Except.bind, pure, Except.pure, hmodified]

lemma keyRangeModifiedAfter_of_record {memtable : Memtable}
    (hmemtable : memtable ∈ snapshot.memtables)
    (hrecord : record ∈ memtable.entries) (hin : keyIsInRange record.userKey range = true)
    (hnewer : readSequence < record.sequence) :
    snapshot.keyRangeModifiedAfter policy range readSequence ≠ .ok false := by
  rw [keyRangeModifiedAfter, collectRangePointRecords]
  cases snapshot.version.tables.mapM fun table => table.pointRecordsInRange range policy with
  | error error => simp [bind, Except.bind]
  | ok tableRecords =>
    have hmem : record ∈ collectMemtableRangeRecords memtable range :=
      mem_filter.mpr ⟨hrecord, hin⟩
    have hany := any_newer_of_collected (collectMemtableRangeRecords · range) hmemtable hmem hnewer
      tableRecords.flatten
    simp [bind, Except.bind, pure, Except.pure, hany]

lemma keyRangeModifiedAfter_of_tombstone
    (htombstone : tombstone ∈ snapshot.memtableTombstones)
    (hoverlap : rangesOverlap range tombstone.range = true)
    (hnewer : readSequence < tombstone.sequence) :
    snapshot.keyRangeModifiedAfter policy range readSequence ≠ .ok false := by
  have hmodified : snapshot.rangeTombstoneModifiedAfterRange range readSequence = true := by
    rw [rangeTombstoneModifiedAfterRange, RangeTombstoneIndex.overlappingRange_eq_filter,
      Bool.or_eq_true, any_eq_true]
    exact .inl ⟨tombstone, mem_filter.mpr
      ⟨RangeTombstoneIndex.mem_new.mpr htombstone, hoverlap⟩, decide_eq_true hnewer⟩
  rw [keyRangeModifiedAfter]
  cases snapshot.collectRangePointRecords policy range with
  | error error => simp [bind, Except.bind]
  | ok records => simp [bind, Except.bind, pure, Except.pure, hmodified]

end LsmPointReadSnapshot

namespace TreeState

variable {mode : StorageMode} {tree : TreeState} {readSequence : ℕ}

lemma deltas_pointReadSnapshotWithDeltas (hmirror : tree.deltaMirrorSequence = 0)
    (deltas : List InMemoryDelta) :
    (tree.pointReadSnapshotWithDeltas readSequence deltas).deltas = deltas := by
  simp [pointReadSnapshotWithDeltas, deltaMirrorCovers, hmirror]

lemma exists_memtable_of_unflushed (h : record ∈ tree.unflushedRecords)
    (deltas : List InMemoryDelta) :
    ∃ memtable ∈ (tree.pointReadSnapshotWithDeltas readSequence deltas).memtables,
      record ∈ memtable.entries := by
  rw [unflushedRecords, mem_append, mem_flatMap] at h
  rcases h with h | ⟨immutable, himmutable, h⟩
  · exact ⟨tree.activeMemtable, mem_cons_self, h⟩
  · exact ⟨immutable.memtable, mem_cons_of_mem _
      (mem_append_right _ (mem_map_of_mem himmutable)), h⟩

lemma mem_memtableTombstones_of_unflushed
    (h : tombstone ∈ tree.unflushedTombstones) (deltas : List InMemoryDelta) :
    tombstone ∈ (tree.pointReadSnapshotWithDeltas readSequence deltas).memtableTombstones := by
  rw [unflushedTombstones, mem_append] at h
  rw [LsmPointReadSnapshot.memtableTombstones, mem_append, mem_append]
  rcases h with h | h
  · exact .inl (Or.inr h)
  · exact .inr h

lemma exists_memtable_of_delta {deltas : List InMemoryDelta}
    (hmirror : tree.deltaMirrorSequence = 0) (h : record ∈ DeltaShard.versions deltas) :
    ∃ memtable ∈ (tree.pointReadSnapshotWithDeltas readSequence deltas).memtables,
      record ∈ memtable.entries := by
  obtain ⟨delta, hdelta, h⟩ := mem_flatMap.mp h
  refine ⟨delta.memtable, mem_cons_of_mem _ (mem_append_left _ ?_), h⟩
  rw [deltas_pointReadSnapshotWithDeltas hmirror]
  exact mem_map_of_mem hdelta

lemma mem_memtableTombstones_of_delta {deltas : List InMemoryDelta}
    (hmirror : tree.deltaMirrorSequence = 0) (h : tombstone ∈ DeltaShard.tombstones deltas) :
    tombstone ∈ (tree.pointReadSnapshotWithDeltas readSequence deltas).memtableTombstones := by
  rw [LsmPointReadSnapshot.memtableTombstones, deltas_pointReadSnapshotWithDeltas hmirror,
    mem_append, mem_append]
  exact .inl (Or.inl h)

section Shows

variable {sequence : UInt64} {operation : BatchOperation × UInt32}

lemma exists_memtable_of_publishedKeys (hmirror : mode = .inMemory → tree.deltaMirrorSequence = 0)
    {internalKey : InternalKey} (h : internalKey ∈ tree.publishedKeys mode) :
    (∃ memtable ∈ (tree.pointReadSnapshotForKey internalKey.userKey readSequence).memtables,
      ∃ record ∈ memtable.entries, record.internalKey = internalKey) ∧
    ∃ memtable ∈ (tree.pointReadSnapshot readSequence).memtables,
      ∃ record ∈ memtable.entries, record.internalKey = internalKey := by
  cases mode with
  | inMemory =>
    obtain ⟨record, hrecord, rfl⟩ := mem_map.mp h
    have hkey := tree.deltaShards.mem_snapshotForKey.mpr hrecord
    obtain ⟨left, hleft, h1⟩ := exists_memtable_of_delta (hmirror rfl) hkey
    obtain ⟨right, hright, h2⟩ := exists_memtable_of_delta (hmirror rfl) hrecord
    exact ⟨⟨left, hleft, record, h1, rfl⟩, right, hright, record, h2, rfl⟩
  | persistent =>
    obtain ⟨record, hrecord, rfl⟩ := mem_map.mp h
    obtain ⟨left, hleft, h1⟩ := exists_memtable_of_unflushed hrecord _
    obtain ⟨right, hright, h2⟩ := exists_memtable_of_unflushed hrecord _
    exact ⟨⟨left, hleft, record, h1, rfl⟩, right, hright, record, h2, rfl⟩

lemma mem_memtableTombstones_of_published
    (hmirror : mode = .inMemory → tree.deltaMirrorSequence = 0)
    (h : tombstone ∈ tree.publishedTombstones mode) (key : Key) :
    tombstone ∈ (tree.pointReadSnapshotForKey key readSequence).memtableTombstones ∧
      tombstone ∈ (tree.pointReadSnapshot readSequence).memtableTombstones := by
  cases mode with
  | inMemory =>
    exact ⟨mem_memtableTombstones_of_delta (hmirror rfl)
      ((tree.deltaShards.tombstone_mem_snapshotForKey key).mpr h),
      mem_memtableTombstones_of_delta (hmirror rfl) h⟩
  | persistent =>
    exact ⟨mem_memtableTombstones_of_unflushed h _, mem_memtableTombstones_of_unflushed h _⟩

/-- The check of a key finds every published change of the key that is newer than the read. -/
theorem Shows.pointKeyModifiedAfter (h : tree.Shows mode sequence operation)
    (hmirror : mode = .inMemory → tree.deltaMirrorSequence = 0) {key : Key}
    (htouch : operation.1.touchesKey key = true) (hnewer : readSequence < sequence.toNat) :
    tree.pointKeyModifiedAfter key readSequence ≠ .ok false := by
  rcases BatchOperation.exists_of_touchesKey htouch sequence operation.2 with
    ⟨record, hrecord, rfl⟩ | ⟨tombstone, htombstone, hcovers⟩
  · have hseq := (BatchOperation.sequence_of_mem_toRecord hrecord).1
    obtain ⟨memtable, hmemtable, kept, hkept, hkey⟩ :=
      (exists_memtable_of_publishedKeys hmirror (h.record record hrecord).mem_publishedKeys).1
    have huser : kept.userKey = record.userKey := congrArg InternalKey.userKey hkey
    have hsequence : kept.sequence = record.sequence := congrArg InternalKey.sequence hkey
    have hfound := @LsmPointReadSnapshot.pointKeyModifiedAfter_of_record _ tree.indexSearchPolicy
      readSequence memtable kept hmemtable hkept (by rw [hsequence, hseq]; exact hnewer)
    rwa [huser] at hfound
  · refine LsmPointReadSnapshot.pointKeyModifiedAfter_of_tombstone
      (mem_memtableTombstones_of_published hmirror (h.tombstone tombstone htombstone) key).1
      hcovers ?_
    rw [BatchOperation.sequence_of_mem_toTombstone htombstone]
    exact hnewer

/-- The check of a range finds every published change of the range that is newer than the
read. -/
theorem Shows.keyRangeModifiedAfter (h : tree.Shows mode sequence operation)
    (hmirror : mode = .inMemory → tree.deltaMirrorSequence = 0)
    (htouch : operation.1.touchesRange range = true) (hnewer : readSequence < sequence.toNat) :
    tree.keyRangeModifiedAfter range readSequence ≠ .ok false := by
  rcases BatchOperation.exists_of_touchesRange htouch sequence operation.2 with
    ⟨record, hrecord, hin⟩ | ⟨tombstone, htombstone, hoverlap⟩
  · have hseq := (BatchOperation.sequence_of_mem_toRecord hrecord).1
    obtain ⟨memtable, hmemtable, kept, hkept, hkey⟩ :=
      (exists_memtable_of_publishedKeys hmirror (h.record record hrecord).mem_publishedKeys).2
    have huser : kept.userKey = record.userKey := congrArg InternalKey.userKey hkey
    have hsequence : kept.sequence = record.sequence := congrArg InternalKey.sequence hkey
    exact LsmPointReadSnapshot.keyRangeModifiedAfter_of_record hmemtable hkept
      (by rw [huser]; exact hin) (by rw [hsequence, hseq]; exact hnewer)
  · refine LsmPointReadSnapshot.keyRangeModifiedAfter_of_tombstone
      (mem_memtableTombstones_of_published hmirror (h.tombstone tombstone htombstone) []).2
      hoverlap ?_
    rw [BatchOperation.sequence_of_mem_toTombstone htombstone]
    exact hnewer

end Shows

end TreeState

end TrineKv
