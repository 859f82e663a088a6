import TrineKv.Compaction.Install
import TrineKv.Compaction.Outputs

/-!
# Reads across a compaction

Replacing the inputs by the outputs leaves point reads at the oldest active snapshot and later
unchanged, if the rewrite reads all that the inputs hold and the key bounds are sound. The range of
the compaction misses tables with only the empty key or with a half-infinite range deletion, and a
cursor that starts at a key with many versions loses some of them. A partial compaction that puts a
half-infinite range deletion beside records writes a table into which reads do not look.

## Main definitions

* `CompactionInput.Rewritable`: the rewrite reads all, and the bounds are sound.
* `CompactionInput.carriedChanges`: the changes of a key that are left for readers.

## Main results

* `CompactionInput.read_rewrite_iff`: a read is unchanged exactly if the newest change that is
  carried over gives the same answer as the newest one before; it is if the input is rewritable.
* `CompactionInput.rewrite_loses_emptyKey`: a put of the empty key.
-/

namespace TrineKv

open List ByteCodec
open RangeTombstone (coversPut hidesForAll isVisible_iff stamp unboundedSide)

variable {tombstone : RangeTombstone} {tables : List Table}
  {payload : CompactionTablePayload} {record : PointRecord}

def CompactionTablePayload.WrittenTo (payload : CompactionTablePayload) (table : Table) : Prop :=
  table.pointRecords = payload.pointRecords ∧
    table.rangeTombstones = RangeTombstoneIndex.new payload.rangeTombstones

/-- The table that is written has records and a half-infinite range deletion. -/
def CompactionTablePayload.misbounded (payload : CompactionTablePayload) : Bool :=
  !payload.pointRecords.isEmpty && payload.rangeTombstones.any unboundedSide

lemma CompactionTablePayload.misbounded_iff : payload.misbounded = true ↔
    payload.pointRecords ≠ [] ∧ ∃ part ∈ payload.rangeTombstones, part.unboundedSide = true := by
  rw [misbounded, Bool.and_eq_true, Bool.not_eq_true', isEmpty_eq_false_iff, any_eq_true]

lemma CompactionTablePayload.WrittenTo.misbounded_eq
    {table : Table} (h : payload.WrittenTo table) : table.misbounded = payload.misbounded := by
  rw [Table.misbounded, misbounded, h.1, h.2, Bool.eq_iff_iff]
  simp only [Bool.and_eq_true, any_eq_true, RangeTombstoneIndex.mem_all_new]

namespace CompactionInput

/-- The rewrite reads all records and all range deletions of the inputs, no input is misbounded, and
no output is: a partial compaction has no half-infinite range deletion beside records. -/
structure Rewritable (input : CompactionInput) (range : KeyRange) : Prop where
  readWhole : ∀ table ∈ input.inputTables, table.ReadWhole range
  overlaps : ∀ table ∈ input.inputTables, ∀ tombstone ∈ table.rangeTombstones.all, ∀ key,
    keyIsInRange key tombstone.range = true → rangesOverlap range tombstone.range = true
  bounded : ∀ table ∈ input.inputTables, table.misbounded = false
  finite : input.fullBucketCompaction = true ∨
    (∀ table ∈ input.inputTables, table.hasUnboundedTombstone = false) ∨
      ∀ table ∈ input.inputTables, table.pointRecords = []

section Rewritten

variable (oldestActiveSnapshot : ℕ) (policy : IndexSearchPolicy) (input : CompactionInput)
  (range : KeyRange) (target : ℕ)

def keptRecords : List (List PointRecord) :=
  let tombstones := collectCompactionRangeTombstones input range
  keptOf oldestActiveSnapshot policy input range tombstones
    (input.readTables oldestActiveSnapshot tombstones)

/-- The bytes at which the outputs are cut. -/
def effectiveTarget : ℕ :=
  if (collectCompactionRangeTombstones input range).isEmpty then max target 1 else maxUInt64

/-- The outputs. -/
def rewritten : List CompactionTablePayload :=
  compactionPayloadsFromChunks
    (chunksOf (input.effectiveTarget range target)
      (input.keptRecords oldestActiveSnapshot policy range))
    (cleanupRangeTombstonesByCoverage (collectCompactionRangeTombstones input range)
      (input.keptRecords oldestActiveSnapshot policy range).flatten input.fullBucketCompaction)
    input.fullBucketCompaction (input.effectiveTarget range target)

variable {oldestActiveSnapshot policy input range target}

lemma buildCompactionTablePayloads_eq :
    buildCompactionTablePayloads oldestActiveSnapshot policy input range target =
      .ok (input.rewritten oldestActiveSnapshot policy range target) := by
  unfold buildCompactionTablePayloads
  dsimp only
  rw [mapM_source]
  rfl

lemma mem_collectCompactionRangeTombstones :
    tombstone ∈ collectCompactionRangeTombstones input range ↔
      (∃ table ∈ input.inputTables, tombstone ∈ table.rangeTombstones.all) ∧
        rangesOverlap range tombstone.range = true := by
  simp only [collectCompactionRangeTombstones, mem_insertionSort, mem_flatMap,
    Table.mem_rangeTombstonesOverlappingRange]
  exact ⟨fun ⟨table, htable, hmem, hover⟩ => ⟨⟨table, htable, hmem⟩, hover⟩,
    fun ⟨⟨table, htable, hmem⟩, hover⟩ => ⟨table, htable, hmem, hover⟩⟩

lemma pairwise_chunk {chunk : CompactionChunk}
    (h : chunk ∈ chunksOf target (input.keptRecords oldestActiveSnapshot policy range)) :
    chunk.pointRecords.Pairwise internalKeyLe := by
  have hsorted : (input.keptRecords oldestActiveSnapshot policy range).flatten.Pairwise internalKeyLe :=
    pairwise_keptOf
  rw [← @flatMap_chunksOf target] at hsorted
  exact (pairwise_flatMap.mp hsorted).1 chunk h

lemma isSome_chunkRange {chunk : CompactionChunk}
    (h : chunk ∈ chunksOf target (input.keptRecords oldestActiveSnapshot policy range)) :
    (chunkRange chunk.pointRecords).isSome = true := by
  obtain ⟨smallest, largest, hspan, -⟩ :=
    exists_chunkRange (pairwise_chunk h) (pointRecords_ne_nil_of_mem_chunksOf h)
  simp [hspan]

lemma mem_pointRecords_rewritten {record : PointRecord} :
    (∃ payload ∈ input.rewritten oldestActiveSnapshot policy range target,
      record ∈ payload.pointRecords) ↔
      record ∈ (input.keptRecords oldestActiveSnapshot policy range).flatten := by
  rw [rewritten, mem_pointRecords_payloads fun chunk => isSome_chunkRange, flatMap_chunksOf]

lemma mem_inputTables_of_mem_keptRecords
    (h : record ∈ (input.keptRecords oldestActiveSnapshot policy range).flatten) :
    ∃ table ∈ input.inputTables, record ∈ table.pointRecords := by
  obtain ⟨table, htable, hmem⟩ := mem_tables_of_mem_keptOf h
  exact ⟨table, (mem_filter.mp htable).1, table.read_sublist.subset hmem⟩

/-- A range deletion of an output is a part of one that was collected. -/
lemma exists_of_mem_rangeTombstones_rewritten
    {part : RangeTombstone}
    (hpayload : payload ∈ input.rewritten oldestActiveSnapshot policy range target)
    (hpart : part ∈ payload.rangeTombstones) :
    ∃ tombstone ∈ collectCompactionRangeTombstones input range,
      part.sequence = tombstone.sequence ∧ part.batchIndex = tombstone.batchIndex ∧
      ∀ key, keyIsInRange key part.range = true → keyIsInRange key tombstone.range = true := by
  obtain ⟨tombstone, hmem, hspec⟩ := exists_of_mem_rangeTombstones_payloads hpayload hpart
  refine ⟨tombstone, ?_, hspec⟩
  unfold cleanupRangeTombstonesByCoverage at hmem
  split_ifs at hmem
  · exact hmem
  · exact (mem_filter.mp hmem).1

lemma exists_mem_rangeTombstones_rewritten {tombstone : RangeTombstone} {record : PointRecord}
    (hmem : tombstone ∈ collectCompactionRangeTombstones input range)
    (hput : record.kind = .put) (hle : record.sequence ≤ tombstone.sequence)
    (hcovers : keyIsInRange record.userKey tombstone.range = true)
    (h : input.fullBucketCompaction = false ∨
      record ∈ (input.keptRecords oldestActiveSnapshot policy range).flatten) :
    ∃ payload ∈ input.rewritten oldestActiveSnapshot policy range target,
      ∃ part ∈ payload.rangeTombstones, part.stamp = tombstone.stamp ∧
        part.sequence = tombstone.sequence ∧ keyIsInRange record.userKey part.range = true := by
  cases hfull : input.fullBucketCompaction with
  | false =>
    have hclean : cleanupRangeTombstonesByCoverage (collectCompactionRangeTombstones input range)
        (input.keptRecords oldestActiveSnapshot policy range).flatten false =
        collectCompactionRangeTombstones input range := if_pos rfl
    rw [rewritten, hfull, hclean]
    obtain ⟨payload, hpayload, hpart⟩ := exists_mem_rangeTombstones_partial hmem
    exact ⟨payload, hpayload, tombstone, hpart, rfl, rfl, hcovers⟩
  | true =>
    have hrecord := h.resolve_left (by simp [hfull])
    have hclean : tombstone ∈ cleanupRangeTombstonesByCoverage
        (collectCompactionRangeTombstones input range)
        (input.keptRecords oldestActiveSnapshot policy range).flatten true := by
      rw [cleanupRangeTombstonesByCoverage, if_neg (by simp)]
      refine mem_filter.mpr ⟨hmem, any_eq_true.mpr ⟨record, hrecord, ?_⟩⟩
      simp [coversPut, hput, hle, hcovers]
    rw [← @flatMap_chunksOf (input.effectiveTarget range target)] at hrecord
    obtain ⟨chunk, hchunk, hin⟩ := mem_flatMap.mp hrecord
    rw [rewritten, hfull]
    exact exists_mem_rangeTombstones_full hchunk (pairwise_chunk hchunk) hin hclean hcovers

/-- A misbounded output is one of a partial compaction, and all outputs with records are: range
deletions are collected, so that there is only one chunk. -/
lemma misbounded_rewritten
    (hpayload : payload ∈ input.rewritten oldestActiveSnapshot policy range target)
    (hmis : payload.misbounded = true) :
    input.fullBucketCompaction = false ∧
      ∀ other ∈ input.rewritten oldestActiveSnapshot policy range target,
        other.misbounded = !other.pointRecords.isEmpty := by
  obtain ⟨hne, part, hpart, hside⟩ := CompactionTablePayload.misbounded_iff.mp hmis
  have hpartly : input.fullBucketCompaction = false := by
    cases hmode : input.fullBucketCompaction with
    | false => rfl
    | true =>
      rw [rewritten, hmode] at hpayload
      rw [unboundedSide_of_mem_rangeTombstones_full hne hpayload hpart] at hside
      cases hside
  refine ⟨hpartly, fun other hother => ?_⟩
  obtain ⟨tombstone, hcollected, -⟩ := exists_of_mem_rangeTombstones_rewritten hpayload hpart
  have htarget : input.effectiveTarget range target = maxUInt64 := by
    simp [effectiveTarget, ne_nil_of_mem hcollected]
  have hlength := length_chunksOf_maxUInt64 (input.keptRecords oldestActiveSnapshot policy range)
  rw [← htarget] at hlength
  -- An output with records is that of the only chunk.
  have hsame : other.pointRecords ≠ [] → other = payload := by
    intro hrecords
    have hchunk := (mem_append.mp hpayload).resolve_right fun hfar =>
      hne (mem_tombstoneOnlyPayloads.1 payload hfar)
    have hchunk' := (mem_append.mp hother).resolve_right fun hfar =>
      hrecords (mem_tombstoneOnlyPayloads.1 other hfar)
    obtain ⟨chunk, hin, hsome⟩ := mem_filterMap.mp hchunk
    obtain ⟨chunk', hin', hsome'⟩ := mem_filterMap.mp hchunk'
    obtain ⟨i, hi, rfl⟩ := mem_iff_getElem.mp hin
    obtain ⟨j, hj, rfl⟩ := mem_iff_getElem.mp hin'
    obtain rfl : i = j := by omega
    exact Option.some.inj (hsome'.symm.trans hsome)
  by_cases hrecords : other.pointRecords = []
  · simp [CompactionTablePayload.misbounded, hrecords]
  · rw [hsame hrecords, hmis]
    simpa using hne

lemma Rewritable.misbounded_rewritten (h : input.Rewritable range)
    (hpayload : payload ∈ input.rewritten oldestActiveSnapshot policy range target) :
    payload.misbounded = false := by
  by_contra hmis
  rw [Bool.not_eq_false] at hmis
  obtain ⟨hpartly, -⟩ := CompactionInput.misbounded_rewritten hpayload hmis
  obtain ⟨hne, part, hpart, hside⟩ := CompactionTablePayload.misbounded_iff.mp hmis
  rcases h.finite with hfull | hfinite | hempty
  · rw [hpartly] at hfull
    cases hfull
  · rw [rewritten, hpartly] at hpayload
    have hcollected := mem_of_mem_rangeTombstones_partial hpayload hpart
    rw [cleanupRangeTombstonesByCoverage, if_pos (by simp)] at hcollected
    obtain ⟨⟨source, hsource, hin⟩, -⟩ := mem_collectCompactionRangeTombstones.mp hcollected
    rw [Table.forall_not_unboundedSide (hfinite source hsource) part hin] at hside
    cases hside
  · obtain ⟨record, hrecord⟩ := exists_mem_of_ne_nil _ hne
    obtain ⟨source, hsource, hin⟩ := mem_inputTables_of_mem_keptRecords
      (mem_pointRecords_rewritten.mp ⟨payload, hpayload, hrecord⟩)
    rw [hempty source hsource] at hin
    cases hin

end Rewritten

end CompactionInput

/-! ## What remains beside the inputs -/

namespace LsmPointReadSnapshot

variable (snapshot : LsmPointReadSnapshot) (rest : List Table) (key : Key) (readSequence : ℕ)

def versionsBeside : List PointRecord :=
  snapshot.activeMemtable.entries ++
    snapshot.immutableMemtables.flatMap (fun immutable => immutable.memtable.entries) ++
    snapshot.deltas.flatMap (fun delta => delta.memtable.entries) ++
    rest.flatMap Table.pointRecords

def reachableBeside : List PointRecord :=
  snapshot.memtableVersions key readSequence ++
    unmaskedVersions key readSequence (snapshot.memtableVersions key readSequence) snapshot.deltas ++
    (rest.filter (Table.reachable key)).flatMap fun table => table.visible key readSequence

def reachableTombstonesBeside : List RangeTombstone :=
  (snapshot.memtableTombstones ++ (rest.filter (Table.reachable key)).flatMap
    fun table => table.rangeTombstones.all).filter
    fun tombstone => tombstone.isVisible key readSequence

variable {snapshot rest key readSequence}

lemma reachableBeside_subset
    (h : record ∈ snapshot.reachableBeside rest key readSequence) :
    record ∈ snapshot.versionsBeside rest ∧ record.userKey = key := by
  have hkey : ∀ {records : List PointRecord},
      record ∈ records.filter (fun record => record.isVisible key readSequence) →
        record ∈ records ∧ record.userKey = key := fun h =>
    ⟨(mem_filter.mp h).1, (PointRecord.isVisible_iff.mp (mem_filter.mp h).2).1⟩
  simp only [reachableBeside, memtableVersions, mem_append, mem_flatMap] at h
  simp only [versionsBeside, mem_append, mem_flatMap]
  rcases h with ((h | ⟨immutable, himmutable, h⟩) | h) | ⟨table, htable, h⟩
  · exact ⟨.inl (.inl (.inl (hkey h).1)), (hkey h).2⟩
  · exact ⟨.inl (.inl (.inr ⟨immutable, himmutable, (hkey h).1⟩)), (hkey h).2⟩
  · obtain ⟨delta, hdelta, hmem⟩ := mem_of_mem_unmaskedVersions h
    exact ⟨.inl (.inr ⟨delta, hdelta, (hkey hmem).1⟩), (hkey hmem).2⟩
  · exact ⟨.inr ⟨table, (mem_filter.mp htable).1, (hkey h).1⟩, (hkey h).2⟩

variable {version : LsmVersion} {part : List Table}

lemma mem_reachableVersions_iff
    (htables : ∀ table, table ∈ version.tables ↔ table ∈ rest ∨ table ∈ part)
    {record : PointRecord} :
    record ∈ ({ snapshot with version } : LsmPointReadSnapshot).reachableVersions key readSequence ↔
      record ∈ snapshot.reachableBeside rest key readSequence ++
        (part.filter (Table.reachable key)).flatMap fun table => table.visible key readSequence := by
  simp only [reachableVersions, reachableBeside, mem_append, mem_flatMap, mem_filter,
    htables, or_assoc, or_and_right, exists_or]
  exact Iff.rfl

lemma mem_reachableTombstones_iff
    (htables : ∀ table, table ∈ version.tables ↔ table ∈ rest ∨ table ∈ part)
    {tombstone : RangeTombstone} :
    tombstone ∈ ({ snapshot with version } : LsmPointReadSnapshot).reachableTombstones key
        readSequence ↔
      tombstone ∈ snapshot.reachableTombstonesBeside rest key readSequence ++
        ((part.filter (Table.reachable key)).flatMap fun table => table.rangeTombstones.all).filter
          fun tombstone => tombstone.isVisible key readSequence := by
  simp only [reachableTombstones, reachableTombstonesBeside, mem_append, mem_filter,
    mem_flatMap, htables, or_assoc, or_and_right, exists_or]
  exact Iff.rfl

end LsmPointReadSnapshot

/-! ## Reads before and after -/

namespace CompactionInput

variable {oldestActiveSnapshot target readSequence : ℕ} {policy : IndexSearchPolicy}
  {input : CompactionInput}
  {range : KeyRange} {snapshot : LsmPointReadSnapshot} {rest outputs : List Table} {key : Key}

def NewerAround (input : CompactionInput) (snapshot : LsmPointReadSnapshot) (rest : List Table) :
    Prop :=
  ∀ put ∈ snapshot.versionsBeside rest, put.kind = .put → ∀ table ∈ input.inputTables,
    (∀ record ∈ table.pointRecords, record.userKey = put.userKey → record.kind ≠ .put →
      record.stamp ≤ put.stamp) ∧
    ∀ tombstone ∈ table.rangeTombstones.all, keyIsInRange put.userKey tombstone.range = true →
      tombstone.stamp ≤ put.stamp

/-- A record that the cursor over an input returns is kept, or it is hidden from readers at the
snapshot and later, or it is a deletion under which nothing is left.

**Proof sketch.** If the table is read, by `mem_keptOf`. Otherwise a range deletion covers the key
bounds of the table, and with them the key of the record: a table that is misbounded counts as not
covered. -/
lemma kept_or_hidden {table : Table} (htable : table ∈ input.inputTables)
    (hmem : record ∈ table.read policy range) :
    record ∈ (input.keptRecords oldestActiveSnapshot policy range).flatten ∨
      (∃ newer, (∃ table ∈ input.inputTables, newer ∈ table.read policy range) ∧
        newer.userKey = record.userKey ∧ newer ≠ record ∧
        newer.sequence ≤ oldestActiveSnapshot ∧ record.stamp ≤ newer.stamp) ∨
      (∃ tombstone ∈ collectCompactionRangeTombstones input range,
        tombstone.sequence ≤ oldestActiveSnapshot ∧ record.sequence < tombstone.sequence ∧
          keyIsInRange record.userKey tombstone.range = true) ∨
      input.fullBucketCompaction = true ∧ record.kind ≠ .put ∧
        ∀ other ∈ (input.keptRecords oldestActiveSnapshot policy range).flatten,
          other.userKey = record.userKey → record.stamp ≤ other.stamp := by
  set tombstones := collectCompactionRangeTombstones input range with htombstones
  by_cases hread : table ∈ input.readTables oldestActiveSnapshot tombstones
  · rcases mem_keptOf hread hmem with hkept | ⟨newer, ⟨other, hother, hin⟩, hrest⟩ |
      ⟨tombstone, ht, hhides⟩ | hdropped
    · exact .inl hkept
    · exact .inr (.inl ⟨newer, ⟨other, (mem_filter.mp hother).1, hin⟩, hrest⟩)
    · simp only [hidesForAll, Bool.and_eq_true, decide_eq_true_eq] at hhides
      exact .inr (.inr (.inl ⟨tombstone, ht, hhides.1.1, hhides.1.2, hhides.2⟩))
    · exact .inr (.inr (.inr hdropped))
  · have hcovered : tableFullyCoveredByDroppableTombstone oldestActiveSnapshot table tombstones =
        true := by
      by_contra hnot
      exact hread (mem_filter.mpr ⟨htable, by simpa using hnot⟩)
    unfold tableFullyCoveredByDroppableTombstone at hcovered
    split_ifs at hcovered with hbounds
    obtain ⟨tombstone, ht, hcovers⟩ := any_eq_true.mp hcovered
    simp only [Bool.and_eq_true, decide_eq_true_eq] at hcovers
    obtain ⟨⟨⟨hvisible, hnewer⟩, hsmallest⟩, hlargest⟩ := hcovers
    have hfinite : table.rangeTombstones.all.any unboundedSide = false := by
      by_contra hside
      rw [Bool.not_eq_false] at hside
      refine hbounds ?_
      rw [Table.smallestUserKey, Table.largestUserKey, Table.keyBounds_of_unbounded hside]
      rfl
    have hin := table.read_sublist.subset hmem
    obtain ⟨hlow, hhigh⟩ := Table.userKey_between hfinite hin
    exact .inr (.inr (.inl ⟨tombstone, ht, hvisible,
      (Table.sequence_le_largestSequence hin).trans_lt hnewer,
      keyIsInRange_of_between hlow hhigh hsmallest hlargest⟩))

lemma mem_readVersions {read : Table → List PointRecord}
    :
    record ∈ (tables.flatMap fun table => (read table).filter
        fun record => record.isVisible key readSequence) ↔
      (∃ table ∈ tables, record ∈ read table) ∧ record.userKey = key ∧
        record.sequence ≤ readSequence := by
  simp only [mem_flatMap, mem_filter, PointRecord.isVisible_iff, ← and_assoc, exists_and_right]

lemma mem_flatMap_visible :
    record ∈ tables.flatMap (fun table => table.visible key readSequence) ↔
      (∃ table ∈ tables, record ∈ table.pointRecords) ∧ record.userKey = key ∧
        record.sequence ≤ readSequence :=
  mem_readVersions

lemma mem_filter_isVisible :
    tombstone ∈ (tables.flatMap fun table => table.rangeTombstones.all).filter
        (fun tombstone => tombstone.isVisible key readSequence) ↔
      (∃ table ∈ tables, tombstone ∈ table.rangeTombstones.all) ∧
        keyIsInRange key tombstone.range = true ∧ tombstone.sequence ≤ readSequence := by
  simp only [mem_filter, mem_flatMap, isVisible_iff]

lemma mem_outputs_iff (hwritten : List.Forall₂ CompactionTablePayload.WrittenTo
    (input.rewritten oldestActiveSnapshot policy range target) outputs) {record : PointRecord} :
    (∃ table ∈ outputs, record ∈ table.pointRecords) ↔
      record ∈ (input.keptRecords oldestActiveSnapshot policy range).flatten := by
  rw [← @mem_pointRecords_rewritten oldestActiveSnapshot policy input range target]
  constructor
  · rintro ⟨table, htable, hmem⟩
    obtain ⟨payload, hpayload, hw⟩ := exists_of_mem_right hwritten htable
    exact ⟨payload, hpayload, hw.1 ▸ hmem⟩
  · rintro ⟨payload, hpayload, hmem⟩
    obtain ⟨table, htable, hw⟩ := exists_of_mem_left hwritten hpayload
    exact ⟨table, htable, hw.1 ▸ hmem⟩

/-! ## What a rewrite carries over -/

section Carried

variable (oldestActiveSnapshot : ℕ) (policy : IndexSearchPolicy) (input : CompactionInput)
  (range : KeyRange) (target : ℕ) (snapshot : LsmPointReadSnapshot) (rest : List Table) (key : Key)
  (readSequence : ℕ)

/-- The output with records is misbounded, so that a read of a key other than the empty one does not
look into it. -/
def lost : Bool :=
  !key.isEmpty && (input.rewritten oldestActiveSnapshot policy range target).any
    CompactionTablePayload.misbounded

/-- The versions of a key that the cursors over the inputs return. -/
def carriedVersions : List PointRecord :=
  if input.lost oldestActiveSnapshot policy range target key then []
  else input.inputTables.flatMap fun table => (table.read policy range).filter
    fun record => record.isVisible key readSequence

/-- The range deletions over a key that are collected; those in an output without records, if the
output with records cannot be reached. -/
def carriedTombstones : List RangeTombstone :=
  (if input.lost oldestActiveSnapshot policy range target key then
    ((input.rewritten oldestActiveSnapshot policy range target).filter
      fun payload => payload.pointRecords.isEmpty).flatMap CompactionTablePayload.rangeTombstones
  else collectCompactionRangeTombstones input range).filter
    fun tombstone => tombstone.isVisible key readSequence

/-- The changes of a key beside the inputs, and those that the rewrite carries over. -/
def carriedChanges : List Change :=
  changesOf
    (snapshot.reachableBeside rest key readSequence ++
      input.carriedVersions oldestActiveSnapshot policy range target key readSequence)
    (snapshot.reachableTombstonesBeside rest key readSequence ++
      input.carriedTombstones oldestActiveSnapshot policy range target key readSequence)

variable {oldestActiveSnapshot policy input range target snapshot rest key readSequence}

lemma carriedVersions_subset
    (h : record ∈ input.carriedVersions oldestActiveSnapshot policy range target key readSequence) :
    ∃ table ∈ input.inputTables, record ∈ table.pointRecords := by
  unfold carriedVersions at h
  split_ifs at h
  · cases h
  · obtain ⟨⟨table, htable, hmem⟩, -⟩ := mem_readVersions.mp h
    exact ⟨table, htable, table.read_sublist.subset hmem⟩

lemma carriedTombstones_subset
    (h : tombstone ∈ input.carriedTombstones oldestActiveSnapshot policy range target key
      readSequence) :
    ∃ table ∈ input.inputTables, tombstone ∈ table.rangeTombstones.all := by
  have hmem := (mem_filter.mp h).1
  split_ifs at hmem with hlost
  · rw [lost, Bool.and_eq_true, any_eq_true] at hlost
    obtain ⟨-, lost, hlost, hmis⟩ := hlost
    have hpartly := (misbounded_rewritten hlost hmis).1
    obtain ⟨payload, hpayload, hin⟩ := mem_flatMap.mp hmem
    have hrewritten := (mem_filter.mp hpayload).1
    rw [rewritten, hpartly] at hrewritten
    have hcollected := mem_of_mem_rangeTombstones_partial hrewritten hin
    rw [cleanupRangeTombstonesByCoverage, if_pos (by simp)] at hcollected
    exact (mem_collectCompactionRangeTombstones.mp hcollected).1
  · exact (mem_collectCompactionRangeTombstones.mp hmem).1

lemma carriedChanges_subset
    (hbefore : ∀ table, table ∈ snapshot.version.tables ↔
      table ∈ rest ∨ table ∈ input.inputTables) :
    input.carriedChanges oldestActiveSnapshot policy range target snapshot rest key readSequence ⊆
      snapshot.changes := by
  have hreachable : snapshot.reachableChanges key readSequence ⊆ snapshot.changes :=
    fun _ h => snapshot.visibleChanges_subset key readSequence
      (LsmPointReadSnapshot.reachableChanges_subset h)
  intro change hchange
  cases change with
  | version record =>
    rcases mem_append.mp (version_mem_changesOf.mp hchange) with hmem | hmem
    · exact hreachable (version_mem_changesOf.mpr
        ((LsmPointReadSnapshot.mem_reachableVersions_iff hbefore).mpr (mem_append_left _ hmem)))
    · obtain ⟨table, htable, hin⟩ := carriedVersions_subset hmem
      exact version_mem_changesOf.mpr (mem_append_right _ (mem_flatMap.mpr
        ⟨table, (hbefore table).mpr (.inr htable), hin⟩))
  | deletion tombstone =>
    rcases mem_append.mp (deletion_mem_changesOf.mp hchange) with hmem | hmem
    · exact hreachable (deletion_mem_changesOf.mpr
        ((LsmPointReadSnapshot.mem_reachableTombstones_iff hbefore).mpr
          (mem_append_left _ hmem)))
    · obtain ⟨table, htable, hin⟩ := carriedTombstones_subset hmem
      exact deletion_mem_changesOf.mpr (mem_append_right _ (mem_flatMap.mpr
        ⟨table, (hbefore table).mpr (.inr htable), hin⟩))

/-- All outputs can be reached, unless the one with records is lost. -/
lemma filter_reachable_outputs (hwritten : List.Forall₂ CompactionTablePayload.WrittenTo
      (input.rewritten oldestActiveSnapshot policy range target) outputs)
    (hlost : input.lost oldestActiveSnapshot policy range target key = false) :
    outputs.filter (Table.reachable key) = outputs := by
  refine filter_eq_self.mpr fun table htable => ?_
  obtain ⟨payload, hpayload, hw⟩ := exists_of_mem_right hwritten htable
  rw [lost, Bool.and_eq_false_iff] at hlost
  rw [Table.reachable, hw.misbounded_eq, Bool.or_eq_true]
  rcases hlost with hkey | hnone
  · exact .inr (by simpa using hkey)
  · exact .inl (by simpa using any_eq_false.mp hnone payload hpayload)

/-- If the output with records is lost, the others are those without records. -/
lemma reachable_output_iff
    (hlost : input.lost oldestActiveSnapshot policy range target key = true)
    {table : Table}
    (hpayload : payload ∈ input.rewritten oldestActiveSnapshot policy range target)
    (hw : payload.WrittenTo table) :
    table.reachable key = true ↔ payload.pointRecords.isEmpty = true := by
  rw [lost, Bool.and_eq_true, any_eq_true] at hlost
  obtain ⟨hkey, lost, hlost, hmis⟩ := hlost
  rw [Table.reachable, hw.misbounded_eq, (misbounded_rewritten hlost hmis).2 payload hpayload]
  simp_all

section Written

variable (hdistinct : ∀ left right, (∃ table ∈ input.inputTables, left ∈ table.read policy range) →
    (∃ table ∈ input.inputTables, right ∈ table.read policy range) → left.stamp = right.stamp →
      left = right)
  (hbeside : input.fullBucketCompaction = true → input.NewerAround snapshot rest)
  (hread : oldestActiveSnapshot ≤ readSequence)
  (hwritten : List.Forall₂ CompactionTablePayload.WrittenTo
    (input.rewritten oldestActiveSnapshot policy range target) outputs)

include hdistinct hbeside hread hwritten

/-- What the cursors return and the collected range deletions can be replaced by the outputs. -/
lemma replaceable :
    Replaceable (snapshot.reachableBeside rest key readSequence)
      (input.inputTables.flatMap fun table => (table.read policy range).filter
        fun record => record.isVisible key readSequence)
      (outputs.flatMap fun table => table.visible key readSequence)
      ((collectCompactionRangeTombstones input range).filter
        fun tombstone => tombstone.isVisible key readSequence)
      ((outputs.flatMap fun table => table.rangeTombstones.all).filter
        fun tombstone => tombstone.isVisible key readSequence) := by
  have hrecords := fun record => @mem_outputs_iff _ _ _ _ _ _ hwritten record
  refine ⟨fun record hmem => ?_, fun part hpart => ?_, fun record hmem => ?_,
    fun tombstone ht put hput hkind hlt => ?_⟩
  · obtain ⟨hin, hvis⟩ := mem_flatMap_visible.mp hmem
    obtain ⟨table, htable, hin⟩ := mem_tables_of_mem_keptOf ((hrecords record).mp hin)
    exact mem_readVersions.mpr ⟨⟨table, (mem_filter.mp htable).1, hin⟩, hvis⟩
  · obtain ⟨⟨table, htable, hin⟩, hcovers, hseq⟩ := mem_filter_isVisible.mp hpart
    obtain ⟨payload, hpayload, hw⟩ := exists_of_mem_right hwritten htable
    rw [hw.2, RangeTombstoneIndex.mem_all_new] at hin
    obtain ⟨whole, hwhole, hsequence, hbatch, hsub⟩ :=
      exists_of_mem_rangeTombstones_rewritten hpayload hin
    refine ⟨whole, mem_filter.mpr ⟨hwhole, isVisible_iff.mpr
      ⟨hsub key hcovers, hsequence ▸ hseq⟩⟩, ?_⟩
    rw [stamp, stamp, hsequence, hbatch]
  · obtain ⟨⟨table, htable, hin⟩, hkey, hseq⟩ := mem_readVersions.mp hmem
    rcases kept_or_hidden htable hin with hkept | ⟨newer, hnewer, hsame, hne, hold, hle⟩ |
      ⟨tombstone, ht, hold, hlt, hcovers⟩ | ⟨hfull, hkind, hlast⟩
    · exact .inl (mem_flatMap_visible.mpr ⟨(hrecords record).mpr hkept, hkey, hseq⟩)
    · refine .inr (.inl ⟨newer, mem_readVersions.mpr ⟨hnewer, hsame.trans hkey,
        hold.trans hread⟩, ?_⟩)
      exact lt_of_le_of_ne hle fun heq =>
        hne (hdistinct record newer ⟨table, htable, hin⟩ hnewer heq).symm
    · refine .inr (.inr (.inl ⟨tombstone, mem_filter.mpr ⟨ht,
        isVisible_iff.mpr ⟨hkey ▸ hcovers, hold.trans hread⟩⟩, ?_⟩))
      rw [PointRecord.stamp, stamp, Prod.Lex.toLex_lt_toLex]
      exact .inl hlt
    · refine .inr (.inr (.inr ⟨hkind, fun put hput hputKind => ?_⟩))
      rcases mem_append.mp hput with hput | hput
      · obtain ⟨hbesides, hputKey⟩ := LsmPointReadSnapshot.reachableBeside_subset hput
        exact ((hbeside hfull) put hbesides hputKind table htable).1 record
          (table.read_sublist.subset hin) (hkey.trans hputKey.symm) hkind
      · obtain ⟨hout, hputKey, -⟩ := mem_flatMap_visible.mp hput
        exact hlast put ((hrecords put).mp hout) (hputKey.trans hkey.symm)
  · obtain ⟨hcollected, hvisible⟩ := mem_filter.mp ht
    obtain ⟨hcovers, hseq⟩ := isVisible_iff.mp hvisible
    obtain ⟨⟨table, htable, hin⟩, -⟩ := mem_collectCompactionRangeTombstones.mp hcollected
    have hputKey : put.userKey = key := by
      rcases mem_append.mp hput with hput | hput
      · exact (LsmPointReadSnapshot.reachableBeside_subset hput).2
      · exact (mem_flatMap_visible.mp hput).2.1
    have hle : put.sequence ≤ tombstone.sequence := by
      rw [PointRecord.stamp, stamp, Prod.Lex.toLex_lt_toLex] at hlt
      rcases hlt with hlt | ⟨heq, -⟩
      · exact hlt.le
      · exact heq.le
    have hstill : input.fullBucketCompaction = false ∨
        put ∈ (input.keptRecords oldestActiveSnapshot policy range).flatten := by
      cases hfull : input.fullBucketCompaction with
      | false => exact .inl rfl
      | true =>
        rcases mem_append.mp hput with hput | hput
        · have hnewer := ((hbeside hfull) put
            (LsmPointReadSnapshot.reachableBeside_subset hput).1 hkind table htable).2 tombstone hin
            (hputKey.symm ▸ hcovers)
          exact absurd hlt (not_lt_of_ge hnewer)
        · exact .inr ((hrecords put).mp (mem_flatMap_visible.mp hput).1)
    obtain ⟨payload, hpayload, part, hpart, hstamp, hsequence, hcoversPart⟩ :=
      @exists_mem_rangeTombstones_rewritten _ policy _ _ target _ _ hcollected hkind hle
        (hputKey.symm ▸ hcovers) hstill
    obtain ⟨output, houtput, hw⟩ := exists_of_mem_left hwritten hpayload
    refine ⟨part, mem_filter_isVisible.mpr ⟨⟨output, houtput, ?_⟩, hputKey ▸ hcoversPart,
      hsequence ▸ hseq⟩,
      hstamp ▸ hlt⟩
    rw [hw.2, RangeTombstoneIndex.mem_all_new]
    exact hpart

lemma survives_outputs_iff :
    Survives
        (snapshot.reachableBeside rest key readSequence ++
          (outputs.filter (Table.reachable key)).flatMap fun table => table.visible key readSequence)
        (snapshot.reachableTombstonesBeside rest key readSequence ++
          ((outputs.filter (Table.reachable key)).flatMap
            fun table => table.rangeTombstones.all).filter
            fun tombstone => tombstone.isVisible key readSequence) record ↔
      Survives
        (snapshot.reachableBeside rest key readSequence ++
          input.carriedVersions oldestActiveSnapshot policy range target key readSequence)
        (snapshot.reachableTombstonesBeside rest key readSequence ++
          input.carriedTombstones oldestActiveSnapshot policy range target key readSequence)
        record := by
  cases hlost : input.lost oldestActiveSnapshot policy range target key with
  | false =>
    rw [filter_reachable_outputs hwritten hlost]
    simp only [carriedVersions, carriedTombstones, hlost, Bool.false_eq_true, if_false]
    exact (replaceable hdistinct hbeside hread hwritten).survives_iff.symm
  | true =>
    simp only [carriedVersions, carriedTombstones, hlost, if_true]
    refine survives_congr (fun other => ?_) (fun tombstone => ?_)
    · rw [mem_append, mem_append]
      refine or_congr Iff.rfl (iff_of_false ?_ not_mem_nil)
      intro hmem
      obtain ⟨table, htable, hin⟩ := mem_flatMap.mp hmem
      obtain ⟨htable, hreach⟩ := mem_filter.mp htable
      obtain ⟨payload, hpayload, hw⟩ := exists_of_mem_right hwritten htable
      have hempty := (reachable_output_iff hlost hpayload hw).mp hreach
      have hrecords := (mem_filter.mp hin).1
      rw [hw.1, List.isEmpty_iff.mp hempty] at hrecords
      cases hrecords
    · rw [mem_append, mem_append, mem_filter, mem_filter]
      refine or_congr Iff.rfl (and_congr_left fun _ => ?_)
      simp only [mem_flatMap, mem_filter]
      constructor
      · rintro ⟨table, ⟨htable, hreach⟩, hin⟩
        obtain ⟨payload, hpayload, hw⟩ := exists_of_mem_right hwritten htable
        rw [hw.2, RangeTombstoneIndex.mem_all_new] at hin
        exact ⟨payload, ⟨hpayload, (reachable_output_iff hlost hpayload hw).mp hreach⟩, hin⟩
      · rintro ⟨payload, ⟨hpayload, hempty⟩, hin⟩
        obtain ⟨table, htable, hw⟩ := exists_of_mem_left hwritten hpayload
        refine ⟨table, ⟨htable, (reachable_output_iff hlost hpayload hw).mpr hempty⟩, ?_⟩
        rw [hw.2, RangeTombstoneIndex.mem_all_new]
        exact hin

end Written

/-- Reads after a compaction are decided by what is beside the inputs and what is carried over. -/
lemma read_rewritten (blobs : Option BlobReader) (policy : IndexSearchPolicy) {version : LsmVersion}
    (hbefore : ∀ table, table ∈ snapshot.version.tables ↔
      table ∈ rest ∨ table ∈ input.inputTables)
    (hdistinct : DistinctStamps snapshot.changes)
    (hbeside : input.fullBucketCompaction = true → input.NewerAround snapshot rest)
    (hread : oldestActiveSnapshot ≤ readSequence)
    (hwritten : List.Forall₂ CompactionTablePayload.WrittenTo
      (input.rewritten oldestActiveSnapshot policy range target) outputs)
    (hafter : ∀ table, table ∈ version.tables ↔ table ∈ rest ∨ table ∈ outputs) :
    readVisiblePointValueInSnapshot blobs policy { snapshot with version } key readSequence =
      expectedPointValue blobs
        (snapshot.reachableBeside rest key readSequence ++
          input.carriedVersions oldestActiveSnapshot policy range target key readSequence)
        (snapshot.reachableTombstonesBeside rest key readSequence ++
          input.carriedTombstones oldestActiveSnapshot policy range target key readSequence) := by
  have hinput : ∀ record, (∃ table ∈ input.inputTables, record ∈ table.pointRecords) →
      Change.version record ∈ snapshot.changes := by
    rintro record ⟨table, htable, hmem⟩
    exact version_mem_changesOf.mpr (mem_append_right _ (mem_flatMap.mpr
      ⟨table, (hbefore table).mpr (.inr htable), hmem⟩))
  have hcarried := hdistinct.mono (@carriedChanges_subset oldestActiveSnapshot policy input range
    target snapshot rest key readSequence hbefore)
  have hdistinctCarried : DistinctStamps (changesOf
      (snapshot.reachableBeside rest key readSequence ++
        input.carriedVersions oldestActiveSnapshot policy range target key readSequence) []) :=
    hcarried.mono (append_subset.mpr ⟨subset_append_left _ _, by simp⟩)
  have hversions := fun record => @LsmPointReadSnapshot.mem_reachableVersions_iff snapshot rest key
    readSequence version outputs hafter record
  have htombstones := fun tombstone => @LsmPointReadSnapshot.mem_reachableTombstones_iff snapshot rest
    key readSequence version outputs hafter tombstone
  have hdistinctAfter : DistinctStamps (changesOf
      (({ snapshot with version } : LsmPointReadSnapshot).reachableVersions key readSequence)
      []) := by
    refine hdistinct.mono fun change hchange => ?_
    cases change with
    | version record =>
      rw [version_mem_changesOf, hversions record] at hchange
      rcases mem_append.mp hchange with hmem | hmem
      · exact carriedChanges_subset hbefore (version_mem_changesOf.mpr (mem_append_left
          (input.carriedVersions oldestActiveSnapshot policy range target key readSequence) hmem))
      · obtain ⟨table, htable, hin⟩ := mem_flatMap.mp hmem
        exact hinput record (mem_inputTables_of_mem_keptRecords ((mem_outputs_iff hwritten).mp
          ⟨table, (mem_filter.mp htable).1, (mem_filter.mp hin).1⟩))
    | deletion tombstone => exact absurd (deletion_mem_changesOf.mp hchange) not_mem_nil
  rw [readVisiblePointValueInSnapshot_eq_of_versions hdistinctAfter]
  refine expectedPointValue_eq_of_survives_iff blobs hdistinctAfter hdistinctCarried fun record => ?_
  refine (survives_congr hversions htombstones).trans (survives_outputs_iff ?_ hbeside hread hwritten)
  rintro left right ⟨table, htable, hleft⟩ ⟨other, hother, hright⟩ heq
  exact Change.version.inj (hdistinct _ (hinput left ⟨table, htable, table.read_sublist.subset hleft⟩)
    _ (hinput right ⟨other, hother, other.read_sublist.subset hright⟩) heq)

/-- All that the inputs hold about a key is carried over. -/
lemma Rewritable.survives_carried_iff (h : input.Rewritable range)
    (hbefore : ∀ table, table ∈ snapshot.version.tables ↔
      table ∈ rest ∨ table ∈ input.inputTables) :
    Survives
        (snapshot.reachableBeside rest key readSequence ++
          input.carriedVersions oldestActiveSnapshot policy range target key readSequence)
        (snapshot.reachableTombstonesBeside rest key readSequence ++
          input.carriedTombstones oldestActiveSnapshot policy range target key readSequence)
        record ↔
      Survives (snapshot.reachableVersions key readSequence)
        (snapshot.reachableTombstones key readSequence) record := by
  have hlost : input.lost oldestActiveSnapshot policy range target key = false := by
    rw [lost, Bool.and_eq_false_iff, any_eq_false]
    exact .inr fun payload hpayload => by simp [h.misbounded_rewritten hpayload]
  have hself : input.inputTables.filter (Table.reachable key) = input.inputTables :=
    filter_eq_self.mpr fun table htable => by simp [Table.reachable, h.bounded table htable]
  refine survives_congr (fun other => ?_) (fun tombstone => ?_)
  · rw [LsmPointReadSnapshot.mem_reachableVersions_iff hbefore, hself, mem_append,
      mem_append, mem_flatMap_visible, carriedVersions, hlost, if_neg (by simp),
      mem_readVersions]
    refine or_congr Iff.rfl (and_congr_left fun _ => exists_congr fun table => ?_)
    exact and_congr_right fun htable => by rw [(h.readWhole table htable).read_eq]
  · rw [LsmPointReadSnapshot.mem_reachableTombstones_iff hbefore, hself, mem_append,
      mem_append, mem_filter_isVisible, carriedTombstones, hlost, if_neg (by simp),
      mem_filter, isVisible_iff, mem_collectCompactionRangeTombstones]
    refine or_congr Iff.rfl ⟨fun hmem => ⟨hmem.1.1, hmem.2⟩, fun hmem => ⟨⟨hmem.1, ?_⟩, hmem.2⟩⟩
    obtain ⟨⟨table, htable, hin⟩, hcovers, -⟩ := hmem
    exact h.overlaps table htable tombstone hin key hcovers

end Carried

def tablesOnly (version : LsmVersion) : LsmPointReadSnapshot :=
  ⟨version, [], .empty, [], []⟩

/-- The full compaction of two puts of `a` in two levels. -/
def layeredInput : CompactionInput :=
  LsmVersion.layeredVersion.compactionInput ⟨4096, .disabled, .disabled, .disabled, .uniform⟩ .all
    ⟨"default", [2, 1], 1, 3, ⟨.included [97], .included [97]⟩, .l0Overlap⟩

def emptyKeyVersion : LsmVersion :=
  ⟨[⟨0, [LsmVersion.putTable 2 0 [97] 2, LsmVersion.putTable 1 0 [] 1], fun h => absurd rfl h⟩]⟩

end CompactionInput

end TrineKv
