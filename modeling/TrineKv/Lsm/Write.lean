import TrineKv.Lsm.Tree

/-!
# Writing to a tree

In a database with storage the operations of a commit go to the active memtable, which is frozen and
queued for a flush when it has grown large; without storage they are published as deltas. Range
deletions are kept sorted; among equal ones the new one comes first here, which the source leaves
open.

## Main results

* `TreeState.mem_unflushedRecords_publishCommit`, `TreeState.toRecord_mem_publishCommit`,
  `TreeState.shows_publishCommit`, `TreeState.Shows.publishCommit`.
-/

namespace TrineKv

open List
open BatchOperation (sequence_of_mem_toRecord toRecord toTombstone)

/-- Where the database keeps its data. -/
inductive StorageMode where
  | inMemory
  | persistent
  deriving DecidableEq, Repr

namespace TreeState

/-! ## Memtables -/

def activeTombstoneBytes (range : KeyRange) : ℕ :=
  boundBytes range.start + boundBytes range.end_ + 12

def activeMemtableBytes (tree : TreeState) : ℕ :=
  tree.activeMemtable.estimatedBytes +
    (tree.rangeTombstones.map fun tombstone => activeTombstoneBytes tombstone.range).sum

def applyOperation (sequence : UInt64) (tree : TreeState)
    (operation : BatchOperation × UInt32) : TreeState :=
  let written :=
    match operation.1 with
    | .put _ key value =>
      { tree with
        activeMemtable := tree.activeMemtable.insert (.ofPut key value sequence operation.2) }
    | .delete _ key =>
      { tree with activeMemtable := tree.activeMemtable.insert (.ofDelete key sequence operation.2) }
    | .deleteRange _ range =>
      { tree with
        rangeTombstones := tree.rangeTombstones.orderedInsert tombstoneLe
          ⟨range, sequence.toNat, operation.2.toNat⟩ }
  { written with deltaMirrorSequence := max tree.deltaMirrorSequence sequence.toNat }

/-- Write operations to the active memtable. -/
def applyOperations (sequence : UInt64) (operations : List (BatchOperation × UInt32))
    (tree : TreeState) : TreeState :=
  operations.foldl (applyOperation sequence) tree

def freezeActiveMemtable (freezeSequence : ℕ) (tree : TreeState) : TreeState :=
  if tree.activeMemtable.entries.isEmpty && tree.rangeTombstones.isEmpty then tree
  else
    { tree with
      immutableMemtables := tree.immutableMemtables ++
        [{ memtable := tree.activeMemtable
           rangeTombstones := tree.rangeTombstones
           freezeSequence := freezeSequence
           address := tree.activeAddress }]
      activeMemtable := .empty
      activeAddress := tree.activeAddress + 1
      rangeTombstones := [] }

def freezeLargeActiveMemtable (writeBufferBytes sequence : ℕ) (tree : TreeState) : TreeState :=
  if writeBufferBytes ≤ tree.activeMemtableBytes then tree.freezeActiveMemtable sequence else tree

def publishCommit (mode : StorageMode) (writeBufferBytes : ℕ) (sequence : UInt64)
    (operations : List (BatchOperation × UInt32)) (tree : TreeState) : TreeState :=
  match mode with
  | .inMemory =>
    freezeLargeActiveMemtable writeBufferBytes sequence.toNat
      { tree with
        deltaShards := tree.deltaShards.publishOperationsWithBudget operations sequence
          writeBufferBytes }
  | .persistent =>
    freezeLargeActiveMemtable writeBufferBytes sequence.toNat
      (tree.applyOperations sequence operations)

def unflushedRecords (tree : TreeState) : List PointRecord :=
  tree.activeMemtable.entries ++
    tree.immutableMemtables.flatMap fun immutable => immutable.memtable.entries

def unflushedTombstones (tree : TreeState) : List RangeTombstone :=
  tree.rangeTombstones ++ tree.immutableMemtables.flatMap ImmutableMemtable.rangeTombstones

/-! ## What an operation changes -/

section ApplyOperation

variable {sequence : UInt64} {tree : TreeState} {operation : BatchOperation × UInt32}
  {operations : List (BatchOperation × UInt32)} {record : PointRecord}

lemma mem_entries_applyOperation :
    record ∈ (tree.applyOperation sequence operation).activeMemtable.entries ↔
      record ∈ operation.1.toRecord sequence operation.2 ∨
        record ∈ tree.activeMemtable.entries ∧
          ∀ written ∈ operation.1.toRecord sequence operation.2,
            record.internalKey ≠ written.internalKey := by
  obtain ⟨operation, index⟩ := operation
  cases operation with
  | put bucket key value =>
    simp only [applyOperation, Memtable.insert, mem_insertEntry tree.activeMemtable.sorted,
      toRecord, Option.mem_some_iff, eq_comm, forall_eq]
  | delete bucket key =>
    simp only [applyOperation, Memtable.insert, mem_insertEntry tree.activeMemtable.sorted,
      toRecord, Option.mem_some_iff, eq_comm, forall_eq]
  | deleteRange bucket range => simp [applyOperation, toRecord]

lemma mem_rangeTombstones_applyOperation {tombstone : RangeTombstone} :
    tombstone ∈ (tree.applyOperation sequence operation).rangeTombstones ↔
      tombstone ∈ tree.rangeTombstones ∨
        tombstone ∈ operation.1.toTombstone sequence operation.2 := by
  obtain ⟨operation, index⟩ := operation
  cases operation with
  | put bucket key value => simp [applyOperation, toTombstone]
  | delete bucket key => simp [applyOperation, toTombstone]
  | deleteRange bucket range =>
    simp [applyOperation, toTombstone, mem_orderedInsert, or_comm, eq_comm]

@[simp]
lemma immutableMemtables_applyOperation :
    (tree.applyOperation sequence operation).immutableMemtables = tree.immutableMemtables := by
  obtain ⟨operation, index⟩ := operation
  cases operation <;> rfl

lemma applyOperations_cons :
    tree.applyOperations sequence (operation :: operations) =
      (tree.applyOperation sequence operation).applyOperations sequence operations := rfl

@[simp]
lemma immutableMemtables_applyOperations :
    (tree.applyOperations sequence operations).immutableMemtables = tree.immutableMemtables := by
  induction operations generalizing tree with
  | nil => rfl
  | cons operation operations ih => rw [applyOperations_cons, ih, immutableMemtables_applyOperation]

lemma mem_entries_applyOperations_of_ne
    (hne : record.sequence ≠ sequence.toNat) :
    record ∈ (tree.applyOperations sequence operations).activeMemtable.entries ↔
      record ∈ tree.activeMemtable.entries := by
  induction operations generalizing tree with
  | nil => rfl
  | cons operation operations ih =>
    have hother : ∀ written ∈ operation.1.toRecord sequence operation.2,
        record.internalKey ≠ written.internalKey := by
      intro written hwritten heq
      refine hne ?_
      rw [← (sequence_of_mem_toRecord hwritten).1]
      exact congrArg InternalKey.sequence heq
    rw [applyOperations_cons, ih, mem_entries_applyOperation]
    constructor
    · rintro (h | ⟨h, -⟩)
      · exact absurd rfl (hother record h)
      · exact h
    · exact fun h => Or.inr ⟨h, hother⟩

lemma mem_entries_applyOperations_of_index
    (h : record ∈ tree.activeMemtable.entries)
    (hindex : ∀ operation ∈ operations, record.batchIndex ≠ operation.2.toNat) :
    record ∈ (tree.applyOperations sequence operations).activeMemtable.entries := by
  induction operations generalizing tree with
  | nil => exact h
  | cons operation operations ih =>
    obtain ⟨hhead, htail⟩ := forall_mem_cons.mp hindex
    rw [applyOperations_cons]
    refine ih (mem_entries_applyOperation.mpr (Or.inr ⟨h, fun written hwritten heq => hhead ?_⟩))
      htail
    rw [← (sequence_of_mem_toRecord hwritten).2]
    exact congrArg InternalKey.batchIndex heq

lemma toRecord_mem_applyOperations (hnodup : (operations.map Prod.snd).Nodup)
    (hop : operation ∈ operations)
    (hrecord : record ∈ operation.1.toRecord sequence operation.2) :
    record ∈ (tree.applyOperations sequence operations).activeMemtable.entries := by
  induction operations generalizing tree with
  | nil => simp at hop
  | cons first operations ih =>
    obtain ⟨hfirst, hrest⟩ := nodup_cons.mp hnodup
    rw [applyOperations_cons]
    rcases mem_cons.mp hop with rfl | hop
    · refine mem_entries_applyOperations_of_index
        (mem_entries_applyOperation.mpr (Or.inl hrecord)) fun other hother heq => hfirst ?_
      rw [(sequence_of_mem_toRecord hrecord).2] at heq
      exact mem_map.mpr ⟨other, hother, (UInt32.toNat_inj.mp heq).symm⟩
    · exact ih hrest hop

lemma mem_rangeTombstones_applyOperations {tombstone : RangeTombstone} :
    tombstone ∈ (tree.applyOperations sequence operations).rangeTombstones ↔
      tombstone ∈ tree.rangeTombstones ∨
        ∃ operation ∈ operations, tombstone ∈ operation.1.toTombstone sequence operation.2 := by
  induction operations generalizing tree with
  | nil => simp [applyOperations]
  | cons operation operations ih =>
    rw [applyOperations_cons, ih, mem_rangeTombstones_applyOperation, exists_mem_cons_iff,
      or_assoc]

end ApplyOperation

/-! ## Publication -/

section PublishCommit

variable {mode : StorageMode} {writeBufferBytes : ℕ} {sequence : UInt64} {tree : TreeState}
  {operation : BatchOperation × UInt32} {operations : List (BatchOperation × UInt32)}
  {freezeSequence : ℕ} {record : PointRecord} {tombstone : RangeTombstone}

@[simp]
lemma mem_unflushedRecords_freezeActiveMemtable :
    record ∈ (tree.freezeActiveMemtable freezeSequence).unflushedRecords ↔
      record ∈ tree.unflushedRecords := by
  unfold freezeActiveMemtable
  split_ifs
  · rfl
  · simp [unflushedRecords, Memtable.empty, or_comm]

@[simp]
lemma mem_unflushedTombstones_freezeActiveMemtable :
    tombstone ∈ (tree.freezeActiveMemtable freezeSequence).unflushedTombstones ↔
      tombstone ∈ tree.unflushedTombstones := by
  unfold freezeActiveMemtable
  split_ifs
  · rfl
  · simp [unflushedTombstones, or_comm]

@[simp]
lemma deltaShards_freezeLargeActiveMemtable :
    (tree.freezeLargeActiveMemtable writeBufferBytes freezeSequence).deltaShards =
      tree.deltaShards := by
  unfold freezeLargeActiveMemtable freezeActiveMemtable
  split_ifs <;> rfl

@[simp]
lemma deltaMirrorSequence_freezeLargeActiveMemtable :
    (tree.freezeLargeActiveMemtable writeBufferBytes freezeSequence).deltaMirrorSequence =
      tree.deltaMirrorSequence := by
  unfold freezeLargeActiveMemtable freezeActiveMemtable
  split_ifs <;> rfl

@[simp]
lemma mem_unflushedRecords_freezeLargeActiveMemtable :
    record ∈ (tree.freezeLargeActiveMemtable writeBufferBytes freezeSequence).unflushedRecords ↔
      record ∈ tree.unflushedRecords := by
  unfold freezeLargeActiveMemtable
  split_ifs
  · rw [mem_unflushedRecords_freezeActiveMemtable]
  · rfl

@[simp]
lemma mem_unflushedTombstones_freezeLargeActiveMemtable :
    tombstone ∈
        (tree.freezeLargeActiveMemtable writeBufferBytes freezeSequence).unflushedTombstones ↔
      tombstone ∈ tree.unflushedTombstones := by
  unfold freezeLargeActiveMemtable
  split_ifs
  · rw [mem_unflushedTombstones_freezeActiveMemtable]
  · rfl

theorem mem_unflushedRecords_publishCommit
    (hne : record.sequence ≠ sequence.toNat) :
    record ∈ (tree.publishCommit .persistent writeBufferBytes sequence operations).unflushedRecords ↔
      record ∈ tree.unflushedRecords := by
  simp only [publishCommit, mem_unflushedRecords_freezeLargeActiveMemtable]
  rw [unflushedRecords, mem_append, mem_entries_applyOperations_of_ne hne,
    immutableMemtables_applyOperations, ← mem_append, unflushedRecords]

theorem toRecord_mem_publishCommit (hnodup : (operations.map Prod.snd).Nodup)
    (hop : operation ∈ operations)
    (hrecord : record ∈ operation.1.toRecord sequence operation.2) :
    record ∈
      (tree.publishCommit .persistent writeBufferBytes sequence operations).unflushedRecords := by
  simp only [publishCommit, mem_unflushedRecords_freezeLargeActiveMemtable]
  exact mem_append_left _ (toRecord_mem_applyOperations hnodup hop hrecord)

theorem mem_unflushedTombstones_publishCommit :
    tombstone ∈
        (tree.publishCommit .persistent writeBufferBytes sequence operations).unflushedTombstones ↔
      tombstone ∈ tree.unflushedTombstones ∨
        ∃ operation ∈ operations, tombstone ∈ operation.1.toTombstone sequence operation.2 := by
  simp only [publishCommit, mem_unflushedTombstones_freezeLargeActiveMemtable]
  rw [unflushedTombstones, mem_append, mem_rangeTombstones_applyOperations,
    immutableMemtables_applyOperations, unflushedTombstones, mem_append, or_right_comm]

/-! ## Where a change is found -/

def publishedKeys (mode : StorageMode) (tree : TreeState) : List InternalKey :=
  match mode with
  | .inMemory => internalKeys (DeltaShard.versions tree.deltaShards.snapshotAll)
  | .persistent => internalKeys tree.unflushedRecords

def publishedTombstones (mode : StorageMode) (tree : TreeState) : List RangeTombstone :=
  match mode with
  | .inMemory => DeltaShard.tombstones tree.deltaShards.snapshotAll
  | .persistent => tree.unflushedTombstones

/-- The version is found in the tree: the whole record with its value in a database with storage, and
a record with its internal key in memory. -/
def HasVersion (mode : StorageMode) (tree : TreeState) (record : PointRecord) : Prop :=
  match mode with
  | .inMemory => record.internalKey ∈ tree.publishedKeys .inMemory
  | .persistent => record ∈ tree.unflushedRecords

lemma HasVersion.mem_publishedKeys (h : tree.HasVersion mode record) :
    record.internalKey ∈ tree.publishedKeys mode := by
  cases mode with
  | inMemory => exact h
  | persistent => exact mem_map_of_mem h

/-- Publishing a commit neither adds nor removes a version of another sequence. -/
lemma hasVersion_publishCommit (hne : record.sequence ≠ sequence.toNat) :
    (tree.publishCommit mode writeBufferBytes sequence operations).HasVersion mode record ↔
      tree.HasVersion mode record := by
  cases mode with
  | inMemory =>
    simp only [HasVersion, publishedKeys, publishCommit, deltaShards_freezeLargeActiveMemtable,
      DeltaShardSet.mem_internalKeys_publishOperationsWithBudget]
    refine or_iff_left ?_
    rintro ⟨operation, -, written, hwritten, heq⟩
    refine hne ((congrArg InternalKey.sequence heq).trans ?_)
    exact (sequence_of_mem_toRecord hwritten).1
  | persistent => exact mem_unflushedRecords_publishCommit hne

/-- Publishing a commit adds its range deletions and removes none. -/
lemma mem_publishedTombstones_publishCommit :
    tombstone ∈
        (tree.publishCommit mode writeBufferBytes sequence operations).publishedTombstones mode ↔
      tombstone ∈ tree.publishedTombstones mode ∨
        ∃ operation ∈ operations, tombstone ∈ operation.1.toTombstone sequence operation.2 := by
  cases mode with
  | inMemory =>
    simp only [publishedTombstones, publishCommit, deltaShards_freezeLargeActiveMemtable,
      DeltaShardSet.mem_tombstones_publishOperationsWithBudget]
  | persistent => exact mem_unflushedTombstones_publishCommit

/-- The change that the operation makes in a commit is found in the tree. -/
structure Shows (mode : StorageMode) (tree : TreeState) (sequence : UInt64)
    (operation : BatchOperation × UInt32) : Prop where
  record : ∀ record ∈ operation.1.toRecord sequence operation.2, tree.HasVersion mode record
  tombstone : ∀ tombstone ∈ operation.1.toTombstone sequence operation.2,
    tombstone ∈ tree.publishedTombstones mode

theorem shows_publishCommit (hnodup : (operations.map Prod.snd).Nodup)
    (hop : operation ∈ operations) :
    (tree.publishCommit mode writeBufferBytes sequence operations).Shows mode sequence
      operation := by
  refine ⟨fun record hrecord => ?_, fun tombstone htombstone =>
    mem_publishedTombstones_publishCommit.mpr (Or.inr ⟨operation, hop, htombstone⟩)⟩
  cases mode with
  | inMemory =>
    simp only [HasVersion, publishedKeys, publishCommit, deltaShards_freezeLargeActiveMemtable]
    exact DeltaShardSet.mem_internalKeys_publishOperationsWithBudget.mpr
      (Or.inr ⟨operation, hop, record, hrecord, rfl⟩)
  | persistent => exact toRecord_mem_publishCommit hnodup hop hrecord

theorem Shows.publishCommit {other : UInt64} (h : tree.Shows mode other operation)
    (hne : other ≠ sequence) :
    (tree.publishCommit mode writeBufferBytes sequence operations).Shows mode other operation := by
  refine ⟨fun record hrecord => ?_, fun tombstone htombstone =>
    mem_publishedTombstones_publishCommit.mpr (Or.inl (h.tombstone tombstone htombstone))⟩
  refine (hasVersion_publishCommit ?_).mpr (h.record record hrecord)
  rw [(sequence_of_mem_toRecord hrecord).1]
  exact fun heq => hne (UInt64.toNat_inj.mp heq)

end PublishCommit

end TreeState

end TrineKv
