import Mathlib.Algebra.Order.BigOperators.Group.List
import Mathlib.Algebra.Order.Group.Nat
import TrineKv.Lsm.Memtable

/-!
# Delta shards

The operations of a commit can be published as deltas: a version goes to the shard of its key, a
range deletion to all shards, and a shard with many deltas merges them. A reader looks at the shard
of its key only; `DeltaShardSet` carries where the versions and the range deletions are.

## Main results

* `DeltaShardSet.mem_snapshotForKey`, `DeltaShardSet.tombstone_mem_snapshotForKey`.
-/

namespace TrineKv

open List

variable {tombstone : RangeTombstone} {internalKey : InternalKey}

def deltaShardCount : ℕ := 16

/-- A shard merges its deltas when it has as many of them. -/
def deltaEpochMaxDeltas : ℕ := 8

def stableKeyHash (key : Key) : UInt64 :=
  key.foldl (fun hash byte => (hash ^^^ byte.toUInt64) * 0x100000001b3) 0xcbf29ce484222325

def shardIndexForKey (key : Key) : ℕ := (stableKeyHash key).toNat % deltaShardCount

lemma shardIndexForKey_lt (key : Key) : shardIndexForKey key < deltaShardCount :=
  Nat.mod_lt _ (by decide)

/-! ## Building the deltas of a commit -/

def boundBytes : Bound Key → ℕ
  | .included key => key.length
  | .excluded key => key.length
  | .unbounded => 0

def rangeTombstoneBytes (range : KeyRange) : ℕ :=
  boundBytes range.start + boundBytes range.end_ + 32

def InMemoryDelta.estimatedBytes (delta : InMemoryDelta) : ℕ :=
  delta.memtable.estimatedBytes +
    (delta.rangeTombstones.map fun tombstone => rangeTombstoneBytes tombstone.range).sum

/-- The operations of a commit that a shard gets, while they are collected. -/
structure DeltaBuilder where
  memtable : Memtable
  rangeTombstones : List RangeTombstone

namespace DeltaBuilder

variable {shard : ℕ} {sequence : UInt64} {builder : DeltaBuilder}

/-- A builder without operations. -/
def new : DeltaBuilder := ⟨Memtable.empty, []⟩

/-- A range deletion is added to the builders of all shards. -/
def apply (shard : ℕ) (sequence : UInt64) (builder : DeltaBuilder)
    (operation : BatchOperation × UInt32) : DeltaBuilder :=
  match operation.1 with
  | .put _ key value =>
    if shardIndexForKey key = shard then
      { builder with
        memtable := builder.memtable.insert (.ofPut key value sequence operation.2) }
    else builder
  | .delete _ key =>
    if shardIndexForKey key = shard then
      { builder with memtable := builder.memtable.insert (.ofDelete key sequence operation.2) }
    else builder
  | .deleteRange _ range =>
    { builder with
      rangeTombstones := builder.rangeTombstones.orderedInsert tombstoneLe
        ⟨range, sequence.toNat, operation.2.toNat⟩ }

structure Placed (shard : ℕ) (sequence : UInt64) (builder : DeltaBuilder) : Prop where
  shard_eq : ∀ record ∈ builder.memtable.entries, shardIndexForKey record.userKey = shard
  sequence_le : ∀ record ∈ builder.memtable.entries, record.sequence ≤ sequence.toNat

lemma Placed.insert
    (h : builder.Placed shard sequence) {record : PointRecord}
    (hshard : shardIndexForKey record.userKey = shard)
    (hseq : record.sequence ≤ sequence.toNat) :
    Placed shard sequence { builder with memtable := builder.memtable.insert record } := by
  have hmem : ∀ other ∈ (builder.memtable.insert record).entries,
      other = record ∨ other ∈ builder.memtable.entries := by
    intro other hother
    rcases (mem_insertEntry builder.memtable.sorted).mp hother with h | ⟨h, -⟩
    · exact .inl h
    · exact .inr h
  constructor
  · intro other hother
    rcases hmem other hother with rfl | hother
    · exact hshard
    · exact h.shard_eq other hother
  · intro other hother
    rcases hmem other hother with rfl | hother
    · exact hseq
    · exact h.sequence_le other hother

lemma Placed.apply
    (h : builder.Placed shard sequence) (operation : BatchOperation × UInt32) :
    (builder.apply shard sequence operation).Placed shard sequence := by
  obtain ⟨operation, index⟩ := operation
  cases operation with
  | put bucket key value =>
    simp only [DeltaBuilder.apply]
    split_ifs with hshard
    · exact h.insert hshard le_rfl
    · exact h
  | delete bucket key =>
    simp only [DeltaBuilder.apply]
    split_ifs with hshard
    · exact h.insert hshard le_rfl
    · exact h
  | deleteRange bucket range => exact ⟨h.shard_eq, h.sequence_le⟩

lemma mem_apply_rangeTombstones
    {operation : BatchOperation × UInt32} :
    tombstone ∈ (builder.apply shard sequence operation).rangeTombstones ↔
      tombstone ∈ builder.rangeTombstones ∨ ∃ bucket range, operation.1 = .deleteRange bucket range ∧
        tombstone = ⟨range, sequence.toNat, operation.2.toNat⟩ := by
  obtain ⟨operation, index⟩ := operation
  cases operation with
  | put bucket key value =>
    simp only [DeltaBuilder.apply]
    split_ifs <;> simp
  | delete bucket key =>
    simp only [DeltaBuilder.apply]
    split_ifs <;> simp
  | deleteRange bucket range =>
    simp [DeltaBuilder.apply, mem_orderedInsert, or_comm]

def ofOperations (shard : ℕ) (sequence : UInt64)
    (operations : List (BatchOperation × UInt32)) : DeltaBuilder :=
  operations.foldl (DeltaBuilder.apply shard sequence) new

lemma placed_ofOperations (shard : ℕ) (sequence : UInt64)
    (operations : List (BatchOperation × UInt32)) :
    (ofOperations shard sequence operations).Placed shard sequence := by
  have hfold : ∀ (operations : List (BatchOperation × UInt32)) (builder : DeltaBuilder),
      builder.Placed shard sequence →
      (operations.foldl (DeltaBuilder.apply shard sequence) builder).Placed shard sequence := by
    intro operations
    induction operations with
    | nil => exact fun builder h => h
    | cons operation operations ih => exact fun builder h => ih _ (h.apply operation)
  exact hfold operations new ⟨by simp [new, Memtable.empty], by simp [new, Memtable.empty]⟩

lemma mem_internalKeys_apply
    {operation : BatchOperation × UInt32} :
    internalKey ∈ internalKeys (builder.apply shard sequence operation).memtable.entries ↔
      internalKey ∈ internalKeys builder.memtable.entries ∨
        ∃ record ∈ operation.1.toRecord sequence operation.2,
          shardIndexForKey record.userKey = shard ∧ internalKey = record.internalKey := by
  obtain ⟨operation, index⟩ := operation
  cases operation with
  | put bucket key value =>
    simp only [DeltaBuilder.apply, BatchOperation.toRecord, Option.mem_some_iff, exists_eq_left']
    split_ifs with hshard
    · rw [Memtable.mem_internalKeys_insert]
      exact or_congr_right (iff_and_self.mpr fun _ => hshard)
    · exact (or_iff_left fun h => hshard h.1).symm
  | delete bucket key =>
    simp only [DeltaBuilder.apply, BatchOperation.toRecord, Option.mem_some_iff, exists_eq_left']
    split_ifs with hshard
    · rw [Memtable.mem_internalKeys_insert]
      exact or_congr_right (iff_and_self.mpr fun _ => hshard)
    · exact (or_iff_left fun h => hshard h.1).symm
  | deleteRange bucket range => simp [DeltaBuilder.apply, BatchOperation.toRecord]

lemma mem_internalKeys_ofOperations
    {operations : List (BatchOperation × UInt32)} :
    internalKey ∈ internalKeys (ofOperations shard sequence operations).memtable.entries ↔
      ∃ operation ∈ operations, ∃ record ∈ operation.1.toRecord sequence operation.2,
        shardIndexForKey record.userKey = shard ∧ internalKey = record.internalKey := by
  have hfold : ∀ (operations : List (BatchOperation × UInt32)) (builder : DeltaBuilder),
      internalKey ∈ internalKeys
        (operations.foldl (DeltaBuilder.apply shard sequence) builder).memtable.entries ↔
      internalKey ∈ internalKeys builder.memtable.entries ∨
        ∃ operation ∈ operations, ∃ record ∈ operation.1.toRecord sequence operation.2,
          shardIndexForKey record.userKey = shard ∧ internalKey = record.internalKey := by
    intro operations
    induction operations with
    | nil => simp
    | cons operation operations ih =>
      intro builder
      rw [foldl_cons, ih, mem_internalKeys_apply, exists_mem_cons_iff, or_assoc]
  rw [ofOperations, hfold, or_iff_right]
  simp [new, Memtable.empty, internalKeys]

lemma mem_rangeTombstones_ofOperations_iff
    {operations : List (BatchOperation × UInt32)} :
    tombstone ∈ (ofOperations shard sequence operations).rangeTombstones ↔
      ∃ operation ∈ operations, tombstone ∈ operation.1.toTombstone sequence operation.2 := by
  have hone : ∀ (operation : BatchOperation × UInt32),
      (∃ bucket range, operation.1 = .deleteRange bucket range ∧
        tombstone = ⟨range, sequence.toNat, operation.2.toNat⟩) ↔
      tombstone ∈ operation.1.toTombstone sequence operation.2 := by
    rintro ⟨operation, index⟩
    cases operation <;> simp [BatchOperation.toTombstone, eq_comm]
  have hfold : ∀ (operations : List (BatchOperation × UInt32)) (builder : DeltaBuilder),
      tombstone ∈ (operations.foldl (DeltaBuilder.apply shard sequence) builder).rangeTombstones ↔
      tombstone ∈ builder.rangeTombstones ∨
        ∃ operation ∈ operations, tombstone ∈ operation.1.toTombstone sequence operation.2 := by
    intro operations
    induction operations with
    | nil => simp
    | cons operation operations ih =>
      intro builder
      rw [foldl_cons, ih, mem_apply_rangeTombstones, hone, exists_mem_cons_iff, or_assoc]
  rw [ofOperations, hfold, or_iff_right]
  simp [new]

lemma mem_rangeTombstones_ofOperations (shard other : ℕ) (sequence : UInt64)
    (operations : List (BatchOperation × UInt32)) (tombstone : RangeTombstone) :
    tombstone ∈ (ofOperations shard sequence operations).rangeTombstones ↔
      tombstone ∈ (ofOperations other sequence operations).rangeTombstones := by
  rw [mem_rangeTombstones_ofOperations_iff, mem_rangeTombstones_ofOperations_iff]

def finish (shard : ℕ) (sequence : UInt64) (operations : List (BatchOperation × UInt32)) :
    Option InMemoryDelta :=
  let delta : InMemoryDelta :=
    { memtable := (ofOperations shard sequence operations).memtable
      rangeTombstones := (ofOperations shard sequence operations).rangeTombstones
      sequence := sequence.toNat
      sequence_le := (placed_ofOperations shard sequence operations).sequence_le }
  if delta.estimatedBytes = 0 then none else some delta

end DeltaBuilder

/-! ## Shards -/

abbrev DeltaShard := List InMemoryDelta

namespace DeltaShard

def versions (shard : DeltaShard) : List PointRecord :=
  shard.flatMap fun delta => delta.memtable.entries

def tombstones (shard : DeltaShard) : List RangeTombstone :=
  shard.flatMap InMemoryDelta.rangeTombstones

def openEpochExceedsBudget (shard : DeltaShard) (maxEpochBytes : ℕ) : Bool :=
  decide (deltaEpochMaxDeltas ≤ shard.length) ||
    decide (maxEpochBytes ≤ (shard.map InMemoryDelta.estimatedBytes).sum)

def sealAndMergeOpenEpoch (shard : DeltaShard) : DeltaShard :=
  if shard.length ≤ 1 then shard else [mergeDeltas shard]

def publish (shard : DeltaShard) (delta : InMemoryDelta) (maxEpochBytes : ℕ) : DeltaShard :=
  if openEpochExceedsBudget (shard ++ [delta]) maxEpochBytes then
    sealAndMergeOpenEpoch (shard ++ [delta])
  else shard ++ [delta]

lemma sealAndMergeOpenEpoch_spec (shard : DeltaShard) :
    (sealAndMergeOpenEpoch shard).versions ⊆ shard.versions ∧
      ∀ tombstone, tombstone ∈ (sealAndMergeOpenEpoch shard).tombstones ↔
        tombstone ∈ shard.tombstones := by
  rw [sealAndMergeOpenEpoch]
  split_ifs
  · exact ⟨List.Subset.refl _, fun _ => Iff.rfl⟩
  · refine ⟨fun record h => ?_, fun tombstone => ?_⟩
    · simp only [versions, flatMap_cons, flatMap_nil, append_nil, mergeDeltas] at h
      rcases Memtable.mem_insertAll.1 record h with h | h
      · simp [Memtable.empty] at h
      · exact h
    · simp [tombstones, mergeDeltas]

/-- What a shard holds after a delta has been added. -/
lemma publish_spec (shard : DeltaShard) (delta : InMemoryDelta) (maxEpochBytes : ℕ) :
    (∀ record ∈ (publish shard delta maxEpochBytes).versions,
      record ∈ shard.versions ∨ record ∈ delta.memtable.entries) ∧
    ∀ tombstone, tombstone ∈ (publish shard delta maxEpochBytes).tombstones ↔
      tombstone ∈ shard.tombstones ∨ tombstone ∈ delta.rangeTombstones := by
  have hversions : (versions (shard ++ [delta])) = versions shard ++ delta.memtable.entries := by
    simp [versions]
  have htombstones : (tombstones (shard ++ [delta])) = tombstones shard ++ delta.rangeTombstones := by
    simp [tombstones]
  obtain ⟨hsub, hiff⟩ := sealAndMergeOpenEpoch_spec (shard ++ [delta])
  rw [publish]
  split_ifs
  · refine ⟨fun record h => ?_, fun tombstone => ?_⟩
    · rw [← mem_append, ← hversions]
      exact hsub h
    · rw [hiff, htombstones, mem_append]
  · refine ⟨fun record h => ?_, fun tombstone => ?_⟩
    · rwa [hversions, mem_append] at h
    · rw [htombstones, mem_append]

lemma mem_internalKeys_sealAndMergeOpenEpoch {shard : DeltaShard} :
    internalKey ∈ internalKeys (sealAndMergeOpenEpoch shard).versions ↔
      internalKey ∈ internalKeys shard.versions := by
  rw [sealAndMergeOpenEpoch]
  split_ifs
  · rfl
  · simp only [versions, flatMap_cons, flatMap_nil, append_nil, mergeDeltas]
    rw [Memtable.mem_internalKeys_insertAll, or_iff_right]
    simp [Memtable.empty, internalKeys]

lemma mem_internalKeys_publish {shard : DeltaShard} {delta : InMemoryDelta} {maxEpochBytes : ℕ}
    :
    internalKey ∈ internalKeys (publish shard delta maxEpochBytes).versions ↔
      internalKey ∈ internalKeys shard.versions ∨
        internalKey ∈ internalKeys delta.memtable.entries := by
  have hversions : versions (shard ++ [delta]) = versions shard ++ delta.memtable.entries := by
    simp [versions]
  rw [publish]
  split_ifs
  · rw [mem_internalKeys_sealAndMergeOpenEpoch, hversions, internalKeys_append, mem_append]
  · rw [hversions, internalKeys_append, mem_append]

end DeltaShard

/-- Versions are in the shard of their key, and every shard has all range deletions. -/
structure DeltaShardSet where
  shards : List DeltaShard
  length_eq : shards.length = deltaShardCount
  shard_eq : ∀ i shard, shards[i]? = some shard →
    ∀ record ∈ DeltaShard.versions shard, shardIndexForKey record.userKey = i
  tombstones_eq : ∀ shard ∈ shards, ∀ other ∈ shards, ∀ tombstone,
    tombstone ∈ DeltaShard.tombstones shard → tombstone ∈ DeltaShard.tombstones other

namespace DeltaShardSet

variable {sequence : UInt64} {operations : List (BatchOperation × UInt32)} {maxEpochBytes : ℕ}

def new : DeltaShardSet where
  shards := List.replicate deltaShardCount []
  length_eq := length_replicate
  shard_eq i shard h record hrecord := by
    have hnil : shard = [] := eq_of_mem_replicate (mem_of_getElem? h)
    simp [hnil, DeltaShard.versions] at hrecord
  tombstones_eq shard hshard other hother tombstone h := by
    have hnil : shard = [] := eq_of_mem_replicate hshard
    simp [hnil, DeltaShard.tombstones] at h

def publishTo (sequence : UInt64) (operations : List (BatchOperation × UInt32))
    (maxEpochBytes : ℕ) (i : ℕ) (shard : DeltaShard) : DeltaShard :=
  match DeltaBuilder.finish i sequence operations with
  | none => shard
  | some delta => DeltaShard.publish shard delta maxEpochBytes

/-- What a shard holds after a commit has been published. -/
lemma publishTo_spec (sequence : UInt64) (operations : List (BatchOperation × UInt32))
    (maxEpochBytes i : ℕ) (shard : DeltaShard) :
    (∀ record ∈ (publishTo sequence operations maxEpochBytes i shard).versions,
      record ∈ shard.versions ∨ shardIndexForKey record.userKey = i) ∧
    ∀ tombstone, tombstone ∈ (publishTo sequence operations maxEpochBytes i shard).tombstones ↔
      tombstone ∈ shard.tombstones ∨
        tombstone ∈ (DeltaBuilder.ofOperations 0 sequence operations).rangeTombstones := by
  have hplaced := DeltaBuilder.placed_ofOperations i sequence operations
  have hsame := DeltaBuilder.mem_rangeTombstones_ofOperations 0 i sequence operations
  simp only [publishTo, DeltaBuilder.finish]
  split
  · next h =>
    refine ⟨fun record hrecord => Or.inl hrecord, fun tombstone => ?_⟩
    rw [hsame]
    -- A shard that gets nothing gets no range deletion.
    rw [or_iff_left]
    intro hmem
    have h0 := not_imp_comm.mp (ite_eq_left_iff.mp h) (Option.some_ne_none _)
    rw [InMemoryDelta.estimatedBytes, Nat.add_eq_zero_iff] at h0
    have hle := single_le_sum (fun x _ => Nat.zero_le x) _ (mem_map_of_mem
      (f := fun tombstone : RangeTombstone => rangeTombstoneBytes tombstone.range) hmem)
    rw [h0.2, rangeTombstoneBytes] at hle
    omega
  · next delta h =>
    have hdelta := (Option.ite_none_left_eq_some.mp h).2
    obtain ⟨hversions, htombstones⟩ := shard.publish_spec delta maxEpochBytes
    refine ⟨fun record hrecord => ?_, fun tombstone => ?_⟩
    · rcases hversions record hrecord with h | h
      · exact .inl h
      · rw [← Option.some.inj hdelta] at h
        exact .inr (hplaced.shard_eq record h)
    · rw [htombstones, hsame, ← Option.some.inj hdelta]

lemma mem_internalKeys_publishTo
    {i : ℕ} {shard : DeltaShard} :
    internalKey ∈ internalKeys (publishTo sequence operations maxEpochBytes i shard).versions ↔
      internalKey ∈ internalKeys shard.versions ∨
        ∃ operation ∈ operations, ∃ record ∈ operation.1.toRecord sequence operation.2,
          shardIndexForKey record.userKey = i ∧ internalKey = record.internalKey := by
  rw [← DeltaBuilder.mem_internalKeys_ofOperations]
  simp only [publishTo, DeltaBuilder.finish]
  split
  · next h =>
    -- A shard that gets nothing gets no version.
    have h0 := not_imp_comm.mp (ite_eq_left_iff.mp h) (Option.some_ne_none _)
    rw [InMemoryDelta.estimatedBytes, Nat.add_eq_zero_iff, Memtable.estimatedBytes_eq_zero] at h0
    have hnil : (DeltaBuilder.ofOperations i sequence operations).memtable.entries = [] := h0.1
    rw [hnil, or_iff_left]
    exact not_mem_nil
  · next delta h =>
    have hdelta := (Option.ite_none_left_eq_some.mp h).2
    rw [DeltaShard.mem_internalKeys_publish, ← Option.some.inj hdelta]

def publishOperationsWithBudget (set : DeltaShardSet)
    (operations : List (BatchOperation × UInt32)) (sequence : UInt64) (maxEpochBytes : ℕ) :
    DeltaShardSet where
  shards := set.shards.mapIdx (publishTo sequence operations maxEpochBytes)
  length_eq := by rw [length_mapIdx, set.length_eq]
  shard_eq i shard h record hrecord := by
    rw [List.getElem?_mapIdx, Option.map_eq_some_iff] at h
    obtain ⟨before, hbefore, rfl⟩ := h
    rcases (publishTo_spec sequence operations maxEpochBytes i before).1 record hrecord with h | h
    · exact set.shard_eq i before hbefore record h
    · exact h
  tombstones_eq shard hshard other hother tombstone h := by
    obtain ⟨i, hi, rfl⟩ := mem_mapIdx.mp hshard
    obtain ⟨j, hj, rfl⟩ := mem_mapIdx.mp hother
    rw [(publishTo_spec _ _ _ _ _).2] at h ⊢
    exact h.imp_left fun h =>
      set.tombstones_eq _ (getElem_mem hi) _ (getElem_mem hj) tombstone h

def snapshotAll (set : DeltaShardSet) : List InMemoryDelta := set.shards.flatten

def snapshotForKey (set : DeltaShardSet) (key : Key) : List InMemoryDelta :=
  set.shards.getD (shardIndexForKey key) []

lemma getElem?_shardIndexForKey (set : DeltaShardSet) (key : Key) :
    set.shards[shardIndexForKey key]? = some (set.snapshotForKey key) := by
  have hlt : shardIndexForKey key < set.shards.length := by
    rw [set.length_eq]
    exact shardIndexForKey_lt key
  rw [snapshotForKey, getD_eq_getElem?_getD, List.getElem?_eq_getElem hlt]
  rfl

theorem mem_snapshotForKey (set : DeltaShardSet) {record : PointRecord} :
    record ∈ DeltaShard.versions (set.snapshotForKey record.userKey) ↔
      record ∈ DeltaShard.versions set.snapshotAll := by
  have hget := set.getElem?_shardIndexForKey record.userKey
  simp only [DeltaShard.versions, mem_flatMap, snapshotAll, mem_flatten]
  constructor
  · rintro ⟨delta, hdelta, hrecord⟩
    exact ⟨delta, ⟨_, mem_of_getElem? hget, hdelta⟩, hrecord⟩
  · rintro ⟨delta, ⟨shard, hshard, hdelta⟩, hrecord⟩
    obtain ⟨i, hi⟩ := mem_iff_getElem?.mp hshard
    have hindex := set.shard_eq i shard hi record (mem_flatMap.mpr ⟨delta, hdelta, hrecord⟩)
    rw [hindex, hi] at hget
    exact ⟨delta, Option.some.inj hget ▸ hdelta, hrecord⟩

theorem tombstone_mem_snapshotForKey (set : DeltaShardSet) (key : Key)
    {tombstone : RangeTombstone} :
    tombstone ∈ DeltaShard.tombstones (set.snapshotForKey key) ↔
      tombstone ∈ DeltaShard.tombstones set.snapshotAll := by
  have hkey := mem_of_getElem? (set.getElem?_shardIndexForKey key)
  constructor
  · intro h
    obtain ⟨delta, hdelta, hmem⟩ := mem_flatMap.mp h
    exact mem_flatMap.mpr ⟨delta, mem_flatten.mpr ⟨_, hkey, hdelta⟩, hmem⟩
  · intro h
    obtain ⟨delta, hdelta, hmem⟩ := mem_flatMap.mp h
    obtain ⟨shard, hshard, hdelta⟩ := mem_flatten.mp hdelta
    exact set.tombstones_eq shard hshard _ hkey tombstone
      (mem_flatMap.mpr ⟨delta, hdelta, hmem⟩)

theorem mem_internalKeys_publishOperationsWithBudget {set : DeltaShardSet}
    :
    internalKey ∈ internalKeys (DeltaShard.versions
        (set.publishOperationsWithBudget operations sequence maxEpochBytes).snapshotAll) ↔
      internalKey ∈ internalKeys (DeltaShard.versions set.snapshotAll) ∨
        ∃ operation ∈ operations, ∃ record ∈ operation.1.toRecord sequence operation.2,
          internalKey = record.internalKey := by
  have hall : ∀ (set : DeltaShardSet), internalKey ∈ internalKeys
      (DeltaShard.versions set.snapshotAll) ↔
      ∃ (i : ℕ) (shard : DeltaShard), set.shards[i]? = some shard ∧
        internalKey ∈ internalKeys (DeltaShard.versions shard) := by
    intro set
    simp only [internalKeys, DeltaShard.versions, snapshotAll, mem_map, mem_flatMap,
      mem_flatten]
    constructor
    · rintro ⟨record, ⟨delta, ⟨shard, hshard, hdelta⟩, hrecord⟩, rfl⟩
      obtain ⟨i, hi⟩ := mem_iff_getElem?.mp hshard
      exact ⟨i, shard, hi, record, ⟨delta, hdelta, hrecord⟩, rfl⟩
    · rintro ⟨i, shard, hi, record, ⟨delta, hdelta, hrecord⟩, rfl⟩
      exact ⟨record, ⟨delta, ⟨shard, mem_of_getElem? hi, hdelta⟩, hrecord⟩, rfl⟩
  have hget : ∀ i, (set.publishOperationsWithBudget operations sequence maxEpochBytes).shards[i]? =
      set.shards[i]?.map (publishTo sequence operations maxEpochBytes i) :=
    fun i => List.getElem?_mapIdx
  rw [hall, hall]
  constructor
  · rintro ⟨i, shard, hi, h⟩
    rw [hget, Option.map_eq_some_iff] at hi
    obtain ⟨before, hbefore, rfl⟩ := hi
    rcases mem_internalKeys_publishTo.mp h with h | ⟨operation, hop, record, hrecord, -, rfl⟩
    · exact .inl ⟨i, before, hbefore, h⟩
    · exact .inr ⟨operation, hop, record, hrecord, rfl⟩
  · rintro (⟨i, before, hbefore, h⟩ | ⟨operation, hop, record, hrecord, rfl⟩)
    · refine ⟨i, publishTo sequence operations maxEpochBytes i before, ?_,
        mem_internalKeys_publishTo.mpr (Or.inl h)⟩
      rw [hget, hbefore, Option.map_some]
    · -- The version goes to the shard of its key.
      refine ⟨shardIndexForKey record.userKey,
        publishTo sequence operations maxEpochBytes (shardIndexForKey record.userKey)
          (set.snapshotForKey record.userKey), ?_, mem_internalKeys_publishTo.mpr
            (Or.inr ⟨operation, hop, record, hrecord, rfl, rfl⟩)⟩
      rw [hget, set.getElem?_shardIndexForKey, Option.map_some]

theorem mem_tombstones_publishOperationsWithBudget {set : DeltaShardSet}
    :
    tombstone ∈ DeltaShard.tombstones
        (set.publishOperationsWithBudget operations sequence maxEpochBytes).snapshotAll ↔
      tombstone ∈ DeltaShard.tombstones set.snapshotAll ∨
        ∃ operation ∈ operations, tombstone ∈ operation.1.toTombstone sequence operation.2 := by
  -- All shards have the same range deletions, so it is enough to look at one of them.
  have hkey : (set.publishOperationsWithBudget operations sequence maxEpochBytes).snapshotForKey [] =
      publishTo sequence operations maxEpochBytes (shardIndexForKey []) (set.snapshotForKey []) := by
    have hget : (set.shards.mapIdx (publishTo sequence operations maxEpochBytes))[
        shardIndexForKey []]? = _ := List.getElem?_mapIdx
    rw [snapshotForKey, getD_eq_getElem?_getD, publishOperationsWithBudget, hget,
      set.getElem?_shardIndexForKey]
    rfl
  rw [← tombstone_mem_snapshotForKey _ [], ← tombstone_mem_snapshotForKey set [], hkey,
    (publishTo_spec _ _ _ _ _).2, DeltaBuilder.mem_rangeTombstones_ofOperations_iff]

end DeltaShardSet

end TrineKv
