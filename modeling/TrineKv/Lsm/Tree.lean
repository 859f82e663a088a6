import TrineKv.Lsm.Delta
import TrineKv.Lsm.PointRead

/-!
# Trees

A bucket is stored in a tree: deltas, an active memtable, memtables that wait to be flushed, and
tables. A reader takes the parts it needs at one moment and works on this snapshot. A reader of
one key takes the deltas of the key's shard only, and no deltas at all when everything that it
sees in them has also been written to the memtables.
-/

namespace TrineKv

structure TreeState where
  indexSearchPolicy : IndexSearchPolicy
  deltaShards : DeltaShardSet
  deltaMirrorSequence : ℕ
  activeMemtable : Memtable
  activeAddress : ℕ
  rangeTombstones : List RangeTombstone
  immutableMemtables : List ImmutableMemtable
  version : LsmVersion

namespace TreeState

variable (tree : TreeState)

/-- The memtables hold everything that a reader at the sequence sees in the deltas. -/
def deltaMirrorCovers (readSequence : ℕ) : Bool :=
  decide (tree.deltaMirrorSequence ≠ 0) && decide (readSequence ≤ tree.deltaMirrorSequence)

/-- What a reader at the sequence sees, given the deltas it looks at. -/
def pointReadSnapshotWithDeltas (readSequence : ℕ) (deltas : List InMemoryDelta) :
    LsmPointReadSnapshot where
  version := tree.version
  deltas := if tree.deltaMirrorCovers readSequence then [] else deltas
  activeMemtable := tree.activeMemtable
  activeRangeTombstones := tree.rangeTombstones
  immutableMemtables := tree.immutableMemtables

/-- What a scan at the sequence sees. -/
def pointReadSnapshot (readSequence : ℕ) : LsmPointReadSnapshot :=
  tree.pointReadSnapshotWithDeltas readSequence tree.deltaShards.snapshotAll

def pointReadSnapshotForKey (key : Key) (readSequence : ℕ) : LsmPointReadSnapshot :=
  tree.pointReadSnapshotWithDeltas readSequence (tree.deltaShards.snapshotForKey key)

def versions : List PointRecord :=
  tree.activeMemtable.entries ++
    tree.immutableMemtables.flatMap (fun immutable => immutable.memtable.entries) ++
    tree.deltaShards.snapshotAll.flatMap (fun delta => delta.memtable.entries) ++
    tree.version.tables.flatMap Table.pointRecords

end TreeState

/-- A version can be held in several places at once; the copies have the same value, even when one
of them has been moved to a blob file. -/
structure LsmTree extends TreeState where
  prefixExtractor : PrefixExtractor
  blobs : Option BlobReader
  copies_agree :
    ∀ left ∈ toTreeState.versions, ∀ right ∈ toTreeState.versions,
      left.internalKey = right.internalKey → pointValue blobs left = pointValue blobs right

def LsmTree.readVisiblePointValue (tree : LsmTree) (key : Key) (readSequence : ℕ) :
    Except Error (Option (List UInt8)) :=
  readVisiblePointValueInSnapshot tree.blobs tree.indexSearchPolicy
    (tree.pointReadSnapshotForKey key readSequence) key readSequence

end TrineKv
