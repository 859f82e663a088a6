import TrineKv.Compaction.Planner
import TrineKv.Lib.GroupMerge
import TrineKv.Lsm.Scan

/-!
# Rewriting the inputs of a compaction

Of the versions of a key that are not newer than the oldest active snapshot only the newest is kept,
and none that a range deletion hides from all readers. A compaction of all tables also drops
deletions under which nothing is left. The kept records are cut into output tables unless there are
range deletions, which a partial compaction copies into the output that they overlap and a full one
clips to its span; those that overlap none get a table of their own.

A source of the merge is the list of groups that its cursor returns.
-/

namespace TrineKv

/-! ## Inputs and outputs -/

structure CompactionInput where
  tableLevel : ℕ
  tableOptions : TableWriteOptions
  inputTableIds : List ℕ
  compactionRange : KeyRange
  trigger : CompactionTrigger
  trivialMove : Bool
  fullBucketCompaction : Bool
  inputTables : List Table

/-- What an output table is written from. -/
structure CompactionTablePayload where
  pointRecords : List PointRecord
  rangeTombstones : List RangeTombstone
  deriving DecidableEq, Repr

/-- Records of an output table that is being filled. -/
structure CompactionChunk where
  pointRecords : List PointRecord
  estimatedBytes : ℕ

/-- The greatest 64-bit number. -/
def maxUInt64 : ℕ := 2 ^ 64 - 1

/-- Addition of 64-bit numbers that stops at the greatest one. -/
def saturatingAdd (left right : ℕ) : ℕ := min (left + right) maxUInt64

def compactionRecordBytes (record : PointRecord) : ℕ :=
  saturatingAdd (saturatingAdd record.userKey.length (record.value.elim 0 ValueRef.len)) 32

/-- The bytes that a range deletion counts for: its bounds, its sequence and its batch index. -/
def compactionTombstoneBytes (tombstone : RangeTombstone) : ℕ :=
  saturatingAdd (saturatingAdd
    (saturatingAdd (boundBytes tombstone.range.start) (boundBytes tombstone.range.end_)) 8) 4

section Rewrite

variable (oldestActiveSnapshot : ℕ)

/-! ## Versions of a key -/

/-- The flag says that a version of the current key up to the snapshot has been kept. -/
def compactSortedRecords : Option Key → Bool → List PointRecord → List PointRecord
  | _, _, [] => []
  | currentUserKey, keptFloorVersion, record :: records =>
    let kept := keptFloorVersion && decide (currentUserKey = some record.userKey)
    if oldestActiveSnapshot < record.sequence then
      record :: compactSortedRecords (some record.userKey) kept records
    else if !kept then record :: compactSortedRecords (some record.userKey) true records
    else compactSortedRecords (some record.userKey) kept records

/-- Keep all versions newer than the snapshot, and the newest other version of each key. -/
def compactPointRecords (records : List PointRecord) : List PointRecord :=
  compactSortedRecords oldestActiveSnapshot none false (records.insertionSort internalKeyLe)

def cleanupPointTombstones : List PointRecord → List PointRecord
  | [] => []
  | record :: records =>
    if record.kind = .pointDelete ∧
        ¬(records.takeWhile fun other => decide (other.userKey = record.userKey)).any
          fun other => decide (other.sequence ≤ record.sequence) then
      cleanupPointTombstones records
    else record :: cleanupPointTombstones records

/-- The versions of a key that are kept. -/
def compactPointRecordGroup (fullBucketCompaction : Bool) (records : List PointRecord) :
    List PointRecord :=
  let compacted := compactPointRecords oldestActiveSnapshot records
  if fullBucketCompaction then cleanupPointTombstones compacted else compacted

def RangeTombstone.hidesForAll (tombstone : RangeTombstone) (record : PointRecord) : Bool :=
  decide (tombstone.sequence ≤ oldestActiveSnapshot) &&
    decide (record.sequence < tombstone.sequence) && keyIsInRange record.userKey tombstone.range

def dropRecordsCoveredByDroppableTombstone (tombstones : List RangeTombstone)
    (records : List PointRecord) : List PointRecord :=
  records.filter fun record =>
    !tombstones.any fun tombstone => tombstone.hidesForAll oldestActiveSnapshot record

/-- A range deletion hides all of a table from all active readers, by its recorded span. -/
def tableFullyCoveredByDroppableTombstone (table : Table) (tombstones : List RangeTombstone) : Bool :=
  if table.smallestUserKey.isEmpty && table.largestUserKey.isEmpty then false
  else tombstones.any fun tombstone =>
    decide (tombstone.sequence ≤ oldestActiveSnapshot) &&
      decide (table.largestSequence < tombstone.sequence) &&
      keyIsInRange table.smallestUserKey tombstone.range &&
      keyIsInRange table.largestUserKey tombstone.range

/-! ## Range deletions -/

def RangeTombstone.coversPut (tombstone : RangeTombstone) (record : PointRecord) : Bool :=
  decide (record.kind = .put) && decide (record.sequence ≤ tombstone.sequence) &&
    keyIsInRange record.userKey tombstone.range

def collectCompactionRangeTombstones (input : CompactionInput) (range : KeyRange) :
    List RangeTombstone :=
  (input.inputTables.flatMap fun table =>
    table.rangeTombstonesOverlappingRange range).insertionSort tombstoneLe

def cleanupRangeTombstonesByCoverage (tombstones : List RangeTombstone) (kept : List PointRecord)
    (fullBucketCompaction : Bool) : List RangeTombstone :=
  if !fullBucketCompaction then tombstones
  else tombstones.filter fun tombstone => kept.any tombstone.coversPut

/-! ## Output tables -/

def pushCompactionRecordsToChunks (targetTableBytes : ℕ)
    (state : List CompactionChunk × CompactionChunk) (records : List PointRecord) :
    List CompactionChunk × CompactionChunk :=
  let recordBytes := (records.map compactionRecordBytes).sum
  let split := !state.2.pointRecords.isEmpty &&
    decide (targetTableBytes < saturatingAdd state.2.estimatedBytes recordBytes)
  let chunks := if split then state.1 ++ [state.2] else state.1
  let current := if split then ⟨[], 0⟩ else state.2
  (chunks, ⟨current.pointRecords ++ records, saturatingAdd current.estimatedBytes recordBytes⟩)

def chunksOf (targetTableBytes : ℕ) (groups : List (List PointRecord)) : List CompactionChunk :=
  let state := groups.foldl (pushCompactionRecordsToChunks targetTableBytes) ([], ⟨[], 0⟩)
  if state.2.pointRecords.isEmpty then state.1 else state.1 ++ [state.2]

def chunkRange (records : List PointRecord) : Option KeyRange :=
  match records.head?, records.getLast? with
  | some first, some last => some (rangeFromInclusiveSpan first.userKey last.userKey)
  | _, _ => none

def tombstoneForOutputSpan (fullBucketCompaction : Bool) (span : KeyRange)
    (tombstone : RangeTombstone) : Option RangeTombstone :=
  if fullBucketCompaction then
    (rangeIntersection tombstone.range span).map fun range => { tombstone with range }
  else if rangesOverlap tombstone.range span then some tombstone
  else none

def payloadOfChunk (fullBucketCompaction : Bool) (tombstones : List RangeTombstone)
    (chunk : CompactionChunk) : Option CompactionTablePayload :=
  (chunkRange chunk.pointRecords).map fun span =>
    ⟨chunk.pointRecords, tombstones.filterMap (tombstoneForOutputSpan fullBucketCompaction span)⟩

def isAssigned (fullBucketCompaction : Bool) (chunks : List CompactionChunk)
    (tombstone : RangeTombstone) : Bool :=
  chunks.any fun chunk => (chunkRange chunk.pointRecords).any fun span =>
    (tombstoneForOutputSpan fullBucketCompaction span tombstone).isSome

def tombstoneOnlyPayloads (targetTableBytes : ℕ) :
    List RangeTombstone → ℕ → List RangeTombstone → List CompactionTablePayload
  | current, _, [] => if current.isEmpty then [] else [⟨[], current⟩]
  | current, bytes, tombstone :: tombstones =>
    let tombstoneBytes := compactionTombstoneBytes tombstone
    if !current.isEmpty && decide (targetTableBytes < saturatingAdd bytes tombstoneBytes) then
      ⟨[], current⟩ :: tombstoneOnlyPayloads targetTableBytes [tombstone]
        (saturatingAdd 0 tombstoneBytes) tombstones
    else
      tombstoneOnlyPayloads targetTableBytes (current ++ [tombstone])
        (saturatingAdd bytes tombstoneBytes) tombstones

def compactionPayloadsFromChunks (chunks : List CompactionChunk) (tombstones : List RangeTombstone)
    (fullBucketCompaction : Bool) (targetTableBytes : ℕ) : List CompactionTablePayload :=
  chunks.filterMap (payloadOfChunk fullBucketCompaction tombstones) ++
    tombstoneOnlyPayloads targetTableBytes [] 0
      (tombstones.filter fun tombstone => !isAssigned fullBucketCompaction chunks tombstone)

/-! ## The rewrite -/

def CompactionInput.source (policy : IndexSearchPolicy) (input : CompactionInput)
    (range : KeyRange) (table : Table) : Except Error (List RecordGroup) :=
  (TablePointCursor.new table (.range range) input.tableOptions.prefixExtractor .forward
    policy).drain

def CompactionInput.readTables (input : CompactionInput) (tombstones : List RangeTombstone) :
    List Table :=
  input.inputTables.filter fun table =>
    !tableFullyCoveredByDroppableTombstone oldestActiveSnapshot table tombstones

def mergedRecords (sources : List (List RecordGroup)) : List (List PointRecord) :=
  (GroupMerge.merge RecordGroup.userKey (GroupMerge.size sources + 1) sources).map fun group =>
    group.2.flatMap RecordGroup.records

def keptGroups (input : CompactionInput) (tombstones : List RangeTombstone)
    (groups : List (List PointRecord)) : List (List PointRecord) :=
  (groups.map fun records => dropRecordsCoveredByDroppableTombstone oldestActiveSnapshot tombstones
    (compactPointRecordGroup oldestActiveSnapshot input.fullBucketCompaction records)).filter
    fun records => !records.isEmpty

def buildCompactionTablePayloads (policy : IndexSearchPolicy) (input : CompactionInput)
    (range : KeyRange) (targetTableBytes : ℕ) : Except Error (List CompactionTablePayload) := do
  let tombstones := collectCompactionRangeTombstones input range
  let sources ← (input.readTables oldestActiveSnapshot tombstones).mapM (input.source policy range)
  let kept := keptGroups oldestActiveSnapshot input tombstones (mergedRecords sources)
  let target := if tombstones.isEmpty then max targetTableBytes 1 else maxUInt64
  return compactionPayloadsFromChunks (chunksOf target kept)
    (cleanupRangeTombstonesByCoverage tombstones kept.flatten input.fullBucketCompaction)
    input.fullBucketCompaction target

end Rewrite

end TrineKv
