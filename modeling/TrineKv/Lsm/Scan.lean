import TrineKv.Lib.KWayMerge
import TrineKv.Lsm.MemtableCursor
import TrineKv.Lsm.Tree

/-!
# Scans

A scan merges cursors over deltas, memtables and tables, and returns a row if the newest visible
version of a key is a put that no range deletion covers. Tables are left out when their recorded
span misses the selection, their prefix filter refuses the prefix, or one newer range deletion
covers their recorded span. Statistics and errors of the storage are left out.
-/

namespace TrineKv

/-! ## Sources -/

/-- A cursor over one of the sources. -/
inductive RecordCursor where
  | memtable (cursor : MemtableCursor)
  | table (cursor : TablePointCursor)

namespace RecordCursor

def nextGroup : RecordCursor → Except ScanFault (Option RecordGroup × RecordCursor)
  | .memtable cursor =>
    match cursor.nextGroup with
    | .ok (group, cursor) => .ok (group, .memtable cursor)
    | .error fault => .error fault
  | .table cursor =>
    match cursor.nextGroup with
    | .ok (group, cursor) => .ok (group, .table cursor)
    | .error error => .error (.error error)

def records : RecordCursor → List PointRecord
  | .memtable cursor => cursor.memtable.entries
  | .table cursor => cursor.table.pointRecords

end RecordCursor

def Table.rangeTombstonesOverlappingRange (table : Table) (range : KeyRange) :
    List RangeTombstone :=
  if !table.mayHaveRangeTombstones then [] else table.rangeTombstones.overlappingRange range

/-- For a reader at the sequence, the range deletion covers the recorded span of the table and is
newer than everything in it. -/
def RangeTombstone.fullyHidesTable (tombstone : RangeTombstone) (table : Table)
    (readSequence : ℕ) : Bool :=
  decide (tombstone.sequence ≤ readSequence) &&
    decide (table.largestSequence < tombstone.sequence) &&
    keyIsInRange table.smallestUserKey tombstone.range &&
    keyIsInRange table.largestUserKey tombstone.range

/-- The prefix filter of the table does not refuse the selection. -/
def Table.mayContainSelected (table : Table) (selector : ScanSelector)
    (extractor : PrefixExtractor) : Bool :=
  match selector with
  | .range _ => true
  | .withPrefix pref => table.mayContainPrefix pref extractor

namespace LsmTree

variable (tree : LsmTree) (selector : ScanSelector) (direction : Direction) (readSequence : ℕ)

def scanRangeTombstones : RangeTombstoneIndex :=
  RangeTombstoneIndex.new
    ((tree.pointReadSnapshot readSequence).memtableRangeTombstones.overlappingRange
        selector.queryRange ++
      (tree.version.rangeScanTables selector.queryRange).flatMap fun table =>
        table.rangeTombstonesOverlappingRange selector.queryRange)

def scanMemtables : List Memtable :=
  (((tree.pointReadSnapshot readSequence).deltas.filter fun delta =>
      !(delta.estimatedBytes == 0 || delta.memtable.estimatedBytes == 0)).map
    InMemoryDelta.memtable) ++
    [tree.activeMemtable] ++ tree.immutableMemtables.map ImmutableMemtable.memtable

def scanTables : List Table :=
  (tree.version.rangeScanTables selector.queryRange).filter fun table =>
    table.mayContainSelected selector tree.prefixExtractor &&
      !(tree.scanRangeTombstones selector readSequence).all.any fun tombstone =>
        tombstone.fullyHidesTable table readSequence

def scanSources : List RecordCursor :=
  ((tree.scanMemtables readSequence).map fun memtable =>
      .memtable (.new memtable selector direction)) ++
    (tree.scanTables selector readSequence).map fun table =>
      .table (.new table selector tree.prefixExtractor direction tree.indexSearchPolicy)

end LsmTree

/-! ## Rows -/

abbrev ScanRow := Key × Except Error (List UInt8)

def visibleLazyItemFromSortedRecords (blobs : Option BlobReader) (tombstones : RangeTombstoneIndex)
    (readSequence : ℕ) : List PointRecord → Option ScanRow
  | [] => none
  | record :: records =>
    if readSequence < record.sequence then
      visibleLazyItemFromSortedRecords blobs tombstones readSequence records
    else
      match record.kind with
      | .put =>
        if rangeTombstonesCover tombstones record.userKey record.sequence record.batchIndex
            readSequence then none
        else some (record.userKey, pointValue blobs record)
      | .pointDelete => none
      | .rangeDelete => visibleLazyItemFromSortedRecords blobs tombstones readSequence records

def visibleLazyItemFromGroups (blobs : Option BlobReader) (tombstones : RangeTombstoneIndex)
    (readSequence : ℕ) (item : Key × List RecordGroup) : Option ScanRow :=
  visibleLazyItemFromSortedRecords blobs tombstones readSequence
    ((item.2.flatMap RecordGroup.records).insertionSort internalKeyLe)

/-- A bound on the number of keys in the sources. -/
def scanFuel (sources : List RecordCursor) : ℕ :=
  (sources.flatMap RecordCursor.records).length + 1

def LsmTree.scan (tree : LsmTree) (selector : ScanSelector) (direction : Direction)
    (readSequence : ℕ) : Except ScanFault (List ScanRow) := do
  let sources := tree.scanSources selector direction readSequence
  let merge ← KWayMerge.start direction.precedes RecordCursor.nextGroup RecordGroup.userKey
    (sources.map fun cursor => ⟨cursor, none⟩)
  Stream.drain
    (Stream.nextKept
      (KWayMerge.nextKey direction.precedes RecordCursor.nextGroup RecordGroup.userKey)
      (visibleLazyItemFromGroups tree.blobs (tree.scanRangeTombstones selector readSequence)
        readSequence)
      (scanFuel sources))
    (scanFuel sources) merge

end TrineKv
