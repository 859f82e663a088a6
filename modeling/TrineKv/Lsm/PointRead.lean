import TrineKv.Lsm.Memtable
import TrineKv.Lsm.Version

/-!
# Point reads

A point read looks for the newest visible version of a key in memtables, deltas and tables, leaving
out sources that cannot hold a newer one, and asks whether a range deletion covers it. Block caches
and statistics are left out, and values in blob files are read by a function that is a parameter.
-/

namespace TrineKv

/-! ## Values -/

/-- How values in blob files are read. -/
abbrev BlobReader := BlobIndex → InternalKey → Except Error (List UInt8)

def intoPointValue (blobs : Option BlobReader) (internalKey : InternalKey) :
    ValueRef → Except Error (List UInt8)
  | .inline bytes => .ok bytes
  | .blobIndex index =>
    match blobs with
    | none => .error (.corruption "in-memory database cannot read blob value references")
    | some readValue => readValue index internalKey

def pointValue (blobs : Option BlobReader) (record : PointRecord) : Except Error (List UInt8) :=
  match record.value with
  | none => .error (.corruption "put record is missing value bytes")
  | some value => intoPointValue blobs record.internalKey value

/-! ## Snapshots -/

/-- A memtable that is waiting to be flushed. The address tells memtables with the same content
apart. -/
structure ImmutableMemtable where
  memtable : Memtable
  rangeTombstones : List RangeTombstone
  freezeSequence : ℕ
  address : ℕ
  deriving DecidableEq

structure LsmPointReadSnapshot where
  version : LsmVersion
  deltas : List InMemoryDelta
  activeMemtable : Memtable
  activeRangeTombstones : List RangeTombstone
  immutableMemtables : List ImmutableMemtable

namespace LsmPointReadSnapshot

/-- The range deletions that have not been flushed. -/
def memtableTombstones (snapshot : LsmPointReadSnapshot) : List RangeTombstone :=
  snapshot.deltas.flatMap InMemoryDelta.rangeTombstones ++ snapshot.activeRangeTombstones ++
    snapshot.immutableMemtables.flatMap ImmutableMemtable.rangeTombstones

/-- The index of the range deletions that have not been flushed. -/
def memtableRangeTombstones (snapshot : LsmPointReadSnapshot) : RangeTombstoneIndex :=
  RangeTombstoneIndex.new snapshot.memtableTombstones

/-- A step of the read over a delta, which is left out if its last commit is not newer than the
candidate. -/
def keepNewestVisibleDeltaPointCandidate (key : Key) (readSequence : ℕ)
    (candidate : Option PointRecord) (delta : InMemoryDelta) : Option PointRecord :=
  if candidate.any fun current => delta.sequence ≤ current.sequence then candidate
  else keepNewestVisibleMemtablePointCandidate candidate delta.memtable key readSequence

def newestVisibleMemtablePointCandidate (snapshot : LsmPointReadSnapshot) (key : Key)
    (readSequence : ℕ) : Option PointRecord :=
  let active :=
    keepNewestVisibleMemtablePointCandidate none snapshot.activeMemtable key readSequence
  let immutable := snapshot.immutableMemtables.foldl (fun candidate immutable =>
    keepNewestVisibleMemtablePointCandidate candidate immutable.memtable key readSequence) active
  snapshot.deltas.foldl (keepNewestVisibleDeltaPointCandidate key readSequence) immutable

end LsmPointReadSnapshot

/-! ## The read -/

def tableMayHaveNewerPointRecord (candidate : Option PointRecord) (table : Table) : Bool :=
  candidate.all fun current => current.sequence ≤ table.largestSequence

/-- Let the newest version of the key in the table that the reader sees compete with the
candidate. -/
def visitPointLookupTable (key : Key) (readSequence : ℕ) (policy : IndexSearchPolicy)
    (candidate : Option PointRecord) (table : Table) : Except Error (Option PointRecord) := do
  match ← table.newestVisiblePointValueRecordForKey key readSequence policy with
  | some record => return keepNewerPointCandidate candidate record
  | none => return candidate

/-- A range deletion among the given ones deletes the version for the reader. -/
def rangeTombstonesCover (tombstones : RangeTombstoneIndex) (key : Key)
    (pointSequence pointBatchIndex readSequence : ℕ) : Bool :=
  (tombstones.coveringKey key).any fun tombstone =>
    tombstone.coversVisiblePoint key pointSequence pointBatchIndex readSequence

/-- A range deletion of the table deletes the version for the reader. -/
def Table.rangeTombstoneCoversVisiblePoint (table : Table) (key : Key)
    (pointSequence pointBatchIndex readSequence : ℕ) : Bool :=
  if !table.mayHaveRangeTombstones then false
  else
    (table.rangeTombstones.coveringKey key).any fun tombstone =>
      decide (tombstone.sequence ≤ readSequence) &&
        (decide (pointSequence < tombstone.sequence) ||
          (tombstone.sequence == pointSequence && decide (pointBatchIndex < tombstone.batchIndex)))

/-- A range deletion deletes the version for the reader. Tables are asked only when no memtable
has such a deletion. -/
def LsmPointReadSnapshot.coversVisiblePoint (snapshot : LsmPointReadSnapshot) (key : Key)
    (pointSequence pointBatchIndex readSequence : ℕ) : Bool :=
  let coveredByMemtableTombstone := rangeTombstonesCover snapshot.memtableRangeTombstones key
    pointSequence pointBatchIndex readSequence
  let coveredByTableTombstone := !coveredByMemtableTombstone &&
    (snapshot.version.rangeTombstoneTablesForKey key).any fun table =>
      table.rangeTombstoneCoversVisiblePoint key pointSequence pointBatchIndex readSequence
  coveredByMemtableTombstone || coveredByTableTombstone

def readVisiblePointValueInSnapshot (blobs : Option BlobReader) (policy : IndexSearchPolicy)
    (snapshot : LsmPointReadSnapshot) (key : Key) (readSequence : ℕ) :
    Except Error (Option (List UInt8)) := do
  let candidate ← snapshot.version.forEachPointLookupTable key tableMayHaveNewerPointRecord
    (visitPointLookupTable key readSequence policy)
    (snapshot.newestVisibleMemtablePointCandidate key readSequence)
  match candidate with
  | none => return none
  | some record =>
    match record.kind with
    | .put =>
      if snapshot.coversVisiblePoint key record.sequence record.batchIndex readSequence then
        return none
      else
        let value ← pointValue blobs record
        return some value
    | .pointDelete => return none
    | .rangeDelete => return none

end TrineKv
