import Mathlib.Data.List.MinMax
import TrineKv.Lsm.Changes
import TrineKv.Lsm.Write

/-!
# Unflushed changes

A flush writes frozen memtables to tables. What it leaves in the memtables has to be replayed from
the write-ahead log after a crash, so the oldest sequence among these changes bounds the part of
the log that can be given up.

## Main results

* `TreeState.mem_unflushedChanges_publishCommit`, `TreeState.toChange_mem_publishCommit`,
  `TreeState.mem_unflushedExcluding_publishCommit`.
-/

namespace TrineKv

def Change.sequence : Change → ℕ
  | .version record => record.sequence
  | .deletion tombstone => tombstone.sequence

def BatchOperation.toChange (sequence : UInt64) (batchIndex : UInt32) : BatchOperation → Change
  | .put _ key value => .version (.ofPut key value sequence batchIndex)
  | .delete _ key => .version (.ofDelete key sequence batchIndex)
  | .deleteRange _ range => .deletion ⟨range, sequence.toNat, batchIndex.toNat⟩

@[simp]
lemma BatchOperation.sequence_toChange {operation : BatchOperation} {sequence : UInt64}
    {batchIndex : UInt32} : (operation.toChange sequence batchIndex).sequence = sequence.toNat := by
  cases operation <;> rfl

def ImmutableMemtable.changes (immutable : ImmutableMemtable) : List Change :=
  changesOf immutable.memtable.entries immutable.rangeTombstones

namespace TreeState

def activeChanges (tree : TreeState) : List Change :=
  changesOf tree.activeMemtable.entries tree.rangeTombstones

def unflushedChanges (tree : TreeState) : List Change :=
  tree.activeChanges ++ tree.immutableMemtables.flatMap ImmutableMemtable.changes

def unflushedExcluding (tree : TreeState) (flushed : List ImmutableMemtable) : List Change :=
  tree.activeChanges ++
    (tree.immutableMemtables.filter fun immutable => immutable ∉ flushed).flatMap
      ImmutableMemtable.changes

def oldestUnflushedSequenceExcluding (tree : TreeState) (flushed : List ImmutableMemtable) :
    Option ℕ :=
  ((tree.unflushedExcluding flushed).map Change.sequence).min?

variable {tree : TreeState} {change : Change} {flushed : List ImmutableMemtable}

lemma mem_unflushedChanges :
    change ∈ tree.unflushedChanges ↔ change ∈ tree.activeChanges ∨
      ∃ immutable ∈ tree.immutableMemtables, change ∈ immutable.changes := by
  simp [unflushedChanges]

lemma mem_unflushedExcluding :
    change ∈ tree.unflushedExcluding flushed ↔ change ∈ tree.activeChanges ∨
      ∃ immutable ∈ tree.immutableMemtables, immutable ∉ flushed ∧ change ∈ immutable.changes := by
  simp [unflushedExcluding, and_assoc]

lemma mem_unflushedChanges_iff_excluding :
    change ∈ tree.unflushedChanges ↔ change ∈ tree.unflushedExcluding flushed ∨
      ∃ immutable ∈ tree.immutableMemtables, immutable ∈ flushed ∧ change ∈ immutable.changes := by
  rw [mem_unflushedChanges, mem_unflushedExcluding]
  constructor
  · rintro (h | ⟨immutable, himmutable, h⟩)
    · exact .inl (Or.inl h)
    · by_cases hflushed : immutable ∈ flushed
      · exact .inr ⟨immutable, himmutable, hflushed, h⟩
      · exact .inl (Or.inr ⟨immutable, himmutable, hflushed, h⟩)
  · rintro ((h | ⟨immutable, himmutable, -, h⟩) | ⟨immutable, himmutable, -, h⟩)
    · exact .inl h
    · exact .inr ⟨immutable, himmutable, h⟩
    · exact .inr ⟨immutable, himmutable, h⟩

lemma mem_unflushedChanges_iff_changesOf :
    change ∈ tree.unflushedChanges ↔
      change ∈ changesOf tree.unflushedRecords tree.unflushedTombstones := by
  rw [mem_unflushedChanges]
  cases change with
  | version record =>
    simp [activeChanges, ImmutableMemtable.changes, unflushedRecords]
  | deletion tombstone =>
    simp [activeChanges, ImmutableMemtable.changes, unflushedTombstones]

/-! ## Publication and freezing -/

section Publish

variable {writeBufferBytes freezeSequence : ℕ} {sequence : UInt64}
  {operation : BatchOperation × UInt32} {operations : List (BatchOperation × UInt32)}

lemma mem_unflushedChanges_freezeActiveMemtable :
    change ∈ (tree.freezeActiveMemtable freezeSequence).unflushedChanges ↔
      change ∈ tree.unflushedChanges := by
  rw [mem_unflushedChanges_iff_changesOf, mem_unflushedChanges_iff_changesOf]
  cases change with
  | version record => simp
  | deletion tombstone => simp

lemma mem_unflushedExcluding_freezeActiveMemtable
    (h : change ∈ (tree.freezeActiveMemtable freezeSequence).unflushedExcluding flushed) :
    change ∈ tree.unflushedExcluding flushed := by
  unfold freezeActiveMemtable at h
  split_ifs at h
  · exact h
  · rw [mem_unflushedExcluding] at h ⊢
    rcases h with h | ⟨immutable, himmutable, hout, h⟩
    · cases change <;> simp [activeChanges, Memtable.empty] at h
    · rcases List.mem_append.mp himmutable with himmutable | himmutable
      · exact .inr ⟨immutable, himmutable, hout, h⟩
      · rw [List.mem_singleton.mp himmutable] at h
        exact .inl h

lemma mem_activeChanges_applyOperations
    (h : change ∈ (tree.applyOperations sequence operations).activeChanges) :
    change.sequence = sequence.toNat ∨ change ∈ tree.activeChanges := by
  by_cases hseq : change.sequence = sequence.toNat
  · exact .inl hseq
  · right
    cases change with
    | version record =>
      rw [activeChanges, version_mem_changesOf] at h ⊢
      exact (mem_entries_applyOperations_of_ne hseq).mp h
    | deletion tombstone =>
      rw [activeChanges, deletion_mem_changesOf] at h ⊢
      rcases mem_rangeTombstones_applyOperations.mp h with h | ⟨operation, -, h⟩
      · exact h
      · exact absurd (BatchOperation.sequence_of_mem_toTombstone h) hseq

theorem mem_unflushedChanges_publishCommit (hne : change.sequence ≠ sequence.toNat) :
    change ∈ (tree.publishCommit .persistent writeBufferBytes sequence operations).unflushedChanges ↔
      change ∈ tree.unflushedChanges := by
  rw [mem_unflushedChanges_iff_changesOf, mem_unflushedChanges_iff_changesOf]
  cases change with
  | version record =>
    simp only [version_mem_changesOf]
    exact mem_unflushedRecords_publishCommit hne
  | deletion tombstone =>
    simp only [deletion_mem_changesOf]
    rw [mem_unflushedTombstones_publishCommit, or_iff_left]
    rintro ⟨operation, -, h⟩
    exact hne (BatchOperation.sequence_of_mem_toTombstone h)

theorem toChange_mem_publishCommit (hnodup : (operations.map Prod.snd).Nodup)
    (hop : operation ∈ operations) :
    operation.1.toChange sequence operation.2 ∈
      (tree.publishCommit .persistent writeBufferBytes sequence operations).unflushedChanges := by
  rw [mem_unflushedChanges_iff_changesOf]
  obtain ⟨kind, index⟩ := operation
  cases kind with
  | put bucket key value =>
    rw [BatchOperation.toChange, version_mem_changesOf]
    exact toRecord_mem_publishCommit hnodup hop rfl
  | delete bucket key =>
    rw [BatchOperation.toChange, version_mem_changesOf]
    exact toRecord_mem_publishCommit hnodup hop rfl
  | deleteRange bucket range =>
    rw [BatchOperation.toChange, deletion_mem_changesOf]
    exact mem_unflushedTombstones_publishCommit.mpr (Or.inr ⟨_, hop, rfl⟩)

/-- A commit adds changes of its own sequence only, wherever they are looked for. -/
theorem mem_unflushedExcluding_publishCommit
    (h : change ∈
      (tree.publishCommit .persistent writeBufferBytes sequence operations).unflushedExcluding
        flushed) :
    change.sequence = sequence.toNat ∨ change ∈ tree.unflushedExcluding flushed := by
  have happly : change ∈ (tree.applyOperations sequence operations).unflushedExcluding flushed := by
    simp only [publishCommit, freezeLargeActiveMemtable] at h
    split_ifs at h
    · exact mem_unflushedExcluding_freezeActiveMemtable h
    · exact h
  rw [mem_unflushedExcluding, immutableMemtables_applyOperations] at happly
  rw [mem_unflushedExcluding]
  rcases happly with h | h
  · exact (mem_activeChanges_applyOperations h).imp_right Or.inl
  · exact .inr (Or.inr h)

end Publish

/-! ## The oldest sequence -/

lemma oldestUnflushedSequenceExcluding_eq_none :
    tree.oldestUnflushedSequenceExcluding flushed = none ↔
      tree.unflushedExcluding flushed = [] := by
  rw [oldestUnflushedSequenceExcluding, List.min?_eq_none_iff, List.map_eq_nil_iff]

lemma oldestUnflushedSequenceExcluding_eq_some {oldest : ℕ}
    (h : tree.oldestUnflushedSequenceExcluding flushed = some oldest) :
    (∃ change ∈ tree.unflushedExcluding flushed, change.sequence = oldest) ∧
      ∀ change ∈ tree.unflushedExcluding flushed, oldest ≤ change.sequence := by
  rw [oldestUnflushedSequenceExcluding, List.min?_eq_some_iff] at h
  exact ⟨List.mem_map.mp h.1, fun change hchange => h.2 _ (List.mem_map_of_mem hchange)⟩

end TreeState

end TrineKv
