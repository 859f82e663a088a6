import TrineKv.Lsm.ScanMerge

/-!
# Scans and point reads

A scan should return the selected keys whose point read finds a value, but the two do not reach the
same changes: a forward scan loses versions of its first key before a restart point; a table that is
recorded with the pair of empty keys is read by a scan over the empty key and by a point read of it
only; and a point read leaves out deltas that are not newer than what it has found. A scan of an
inverted range panics. Leaving out tables that a range deletion hides changes no row, if their
recorded span is right.

## Main results

* `LsmTree.scanAgrees_iff`: when a scan agrees with point reads.
-/

namespace TrineKv

open List
open Bool (and_eq_true and_eq_true_iff not_eq_true')
open ScanSelector (selected selects selects_iff_queryRange startKey)
open DecodedDataBlock (fromRecords)

/-! ## Versions that a forward cursor loses -/

def cutOff (records : List PointRecord) (key : Key) (i : ℕ) : Bool :=
  (restartIndicesOf records.length).any fun restart =>
    decide (i < restart) && decide ((records[restart]?).map PointRecord.userKey = some key)

def versionsAfterRestart (records : List PointRecord) (key : Key) : List PointRecord :=
  (records.zipIdx.filter fun entry =>
    decide (entry.1.userKey = key) && !cutOff records key entry.2).map Prod.fst

def Table.scannedFrom (table : Table) (selector : ScanSelector) (direction : Direction)
    (key : Key) : List PointRecord :=
  if direction = .forward ∧ selector.startKey = some key then
    table.dataBlocks.flatMap fun block => versionsAfterRestart block.records key
  else table.pointRecords.filter fun record => record.userKey = key

section Lost

variable {records : List PointRecord} {selector : ScanSelector} {policy : IndexSearchPolicy}
  {record : PointRecord} {key : Key}

lemma startKey_of_lost (hsorted : KeysAscend records)
    (hlost : record ∈ records.take
      ((fromRecords records).firstRecordIndex selector policy))
    (hsel : selector.selects record.userKey = true) :
    selector.startKey = some record.userKey := by
  match selector, hlost, hsel with
  | .range ⟨.included key, last⟩, hlost, hsel =>
    have hin : keyIsInRange record.userKey ⟨.included key, last⟩ = true := hsel
    have hge : key ≤ record.userKey := by
      simpa [keyIsBeforeStart] using (keyIsInRange_iff.mp hin).1
    have hle := (restart_loses_iff key hsorted policy).1 record hlost
    rw [startKey, le_antisymm hge hle]
  | .range ⟨.excluded key, last⟩, hlost, hsel =>
    have hin : keyIsInRange record.userKey ⟨.excluded key, last⟩ = true := hsel
    have hlt : key < record.userKey := by
      simpa [keyIsBeforeStart] using (keyIsInRange_iff.mp hin).1
    exact absurd ((restart_loses_iff key hsorted policy).1 record hlost) (not_le_of_gt hlt)
  | .range ⟨.unbounded, last⟩, hlost, _ =>
    have hzero : (fromRecords records).firstRecordIndex
        (.range ⟨.unbounded, last⟩) policy = 0 := rfl
    simp [hzero] at hlost
  | .withPrefix pref, hlost, hsel =>
    have hge : pref ≤ record.userKey :=
      ByteOrder.le_of_isPrefix (by simpa [selects] using hsel)
    have hle := (restart_loses_iff pref hsorted policy).1 record hlost
    rw [startKey, le_antisymm hge hle]

lemma firstRecordIndex_of_startKey (h : selector.startKey = some key) :
    (fromRecords records).firstRecordIndex selector policy =
      (fromRecords records).restartIndexForKey key policy := by
  match selector, h with
  | .range ⟨.included start, last⟩, h =>
    obtain rfl : start = key := Option.some.inj h
    rfl
  | .withPrefix pref, h =>
    obtain rfl : pref = key := Option.some.inj h
    rfl

lemma restartIndexForKey_le_iff (hsorted : KeysAscend records) {i : ℕ}
    (hi : i < records.length) (hkey : records[i].userKey = key) :
    (fromRecords records).restartIndexForKey key policy ≤ i ↔
      cutOff records key i = false := by
  obtain ⟨hk, hlast⟩ := restartIndexForKey_spec key hsorted policy
  set k := (fromRecords records).restartIndexForKey key policy
  rw [cutOff, any_eq_false]
  constructor
  · intro hle restart hrestart
    simp only [and_eq_true, decide_eq_true_eq, Option.map_eq_some_iff, not_and, not_exists]
    intro hlt record hrecord hrecordKey
    have := hlast restart hrestart record hrecord hrecordKey.le
    omega
  · intro hcut
    by_contra hnot
    rcases hk with hzero | ⟨hrestart, record, hrecord, hle⟩
    · omega
    · -- The entry index itself is a restart point after the record, at a version of the key.
      obtain ⟨hklen, rfl⟩ := List.getElem?_eq_some_iff.mp hrecord
      have hge := pairwise_iff_getElem.mp hsorted i k hi hklen (by omega)
      refine hcut k hrestart ?_
      rw [hrecord]
      simp only [Option.map_some, and_eq_true, decide_eq_true_eq, Option.some.injEq]
      exact ⟨by omega, le_antisymm hle (hkey ▸ hge)⟩

lemma mem_versionsAfterRestart :
    record ∈ versionsAfterRestart records key ↔
      ∃ i, ∃ hi : i < records.length, records[i] = record ∧ record.userKey = key ∧
        cutOff records key i = false := by
  simp only [versionsAfterRestart, mem_map, mem_filter, and_eq_true,
    decide_eq_true_eq, not_eq_true', Prod.exists, exists_and_right, exists_eq_right,
    mem_zipIdx_iff_getElem?, List.getElem?_eq_some_iff]

lemma mem_entered_iff (hsorted : KeysAscend records)
    (hsel : selector.selects key = true) (hkey : record.userKey = key) :
    record ∈ records.drop
        ((fromRecords records).firstRecordIndex selector policy) ↔
      if selector.startKey = some key then record ∈ versionsAfterRestart records key
      else record ∈ records := by
  split_ifs with hstart
  · rw [firstRecordIndex_of_startKey hstart, mem_versionsAfterRestart, mem_drop_iff_getElem]
    constructor
    · rintro ⟨i, hi, rfl⟩
      exact ⟨_, by omega, rfl, hkey,
        (restartIndexForKey_le_iff hsorted (by omega) hkey).mp (Nat.le_add_right _ i)⟩
    · rintro ⟨i, hi, rfl, -, hcut⟩
      have hle := (@restartIndexForKey_le_iff records policy key hsorted i hi hkey).mpr hcut
      refine ⟨i - (fromRecords records).restartIndexForKey key policy, by omega, ?_⟩
      congr 1
      omega
  · refine ⟨fun h => mem_of_mem_drop h, fun h => ?_⟩
    rw [← take_append_drop
      ((fromRecords records).firstRecordIndex selector policy) records,
      mem_append] at h
    rcases h with h | h
    · exact absurd (hkey ▸ startKey_of_lost hsorted h (hkey ▸ hsel)) hstart
    · exact h

end Lost

namespace Table

variable {table : Table} {selector : ScanSelector} {key : Key} {record : PointRecord}

lemma mem_scanned_iff (direction : Direction) (policy : IndexSearchPolicy)
    (hsel : selector.selects key = true) (hkey : record.userKey = key) :
    record ∈ table.scanned selector direction policy ↔
      record ∈ table.scannedFrom selector direction key := by
  have hselected : ∀ records : List PointRecord,
      record ∈ selector.selected records ↔ record ∈ records := by
    intro records
    rw [selected, mem_filter, and_iff_left]
    rw [hkey, hsel]
  cases direction with
  | reverse =>
    simp [scanned, scannedFrom, hselected, hkey]
  | forward =>
    have hblock : ∀ block ∈ table.dataBlocks,
        (record ∈ selector.selected (block.entered selector policy) ↔
          if selector.startKey = some key then record ∈ versionsAfterRestart block.records key
          else record ∈ block.records) := by
      intro block hblock
      rw [hselected]
      exact mem_entered_iff (table.sorted_block hblock).keysAscend hsel hkey
    simp only [scanned, forwardFrom, drop_zero, mem_flatMap, scannedFrom, true_and]
    split_ifs with hstart
    · rw [mem_flatMap]
      refine exists_congr fun block => and_congr_right fun hmem => ?_
      rw [hblock block hmem, if_pos hstart]
    · rw [mem_filter, ← table.flatMap_dataBlocks, mem_flatMap,
        and_iff_left (by simpa using hkey)]
      refine exists_congr fun block => and_congr_right fun hmem => ?_
      rw [hblock block hmem, if_neg hstart]

lemma mem_of_mem_scannedFrom {direction : Direction}
    (h : record ∈ table.scannedFrom selector direction key) :
    record ∈ table.pointRecords ∧ record.userKey = key := by
  rw [scannedFrom] at h
  split_ifs at h
  · obtain ⟨block, hblock, hrecord⟩ := mem_flatMap.mp h
    obtain ⟨i, hi, rfl, hkey, -⟩ := mem_versionsAfterRestart.mp hrecord
    exact ⟨mem_pointRecords hblock (getElem_mem hi), hkey⟩
  · simpa using h

lemma mayContainSelected_of_mem (extractor : PrefixExtractor) (hmem : record ∈ table.pointRecords)
    (hsel : selector.selects record.userKey = true) :
    table.mayContainSelected selector extractor = true := by
  cases selector with
  | range r => rfl
  | withPrefix pref =>
    have hpre : pref <+: record.userKey := by simpa [selects] using hsel
    have hallows : PrefixFilter.result table.prefixFilter pref extractor ≠ some false := by
      rw [prefixFilter]
      split_ifs
      · exact buildPrefixFilter_allows extractor hmem hpre
      · simp [PrefixFilter.result]
    rw [mayContainSelected, mayContainPrefix]
    cases hresult : PrefixFilter.result table.prefixFilter pref extractor with
    | none => rfl
    | some allowed =>
      cases allowed with
      | true => rfl
      | false => exact absurd hresult hallows

lemma mem_rangeTombstonesOverlappingRange {range : KeyRange} {tombstone : RangeTombstone} :
    tombstone ∈ table.rangeTombstonesOverlappingRange range ↔
      tombstone ∈ table.rangeTombstones.all ∧ rangesOverlap range tombstone.range = true := by
  rw [rangeTombstonesOverlappingRange]
  split_ifs with hnone
  · simp only [not_mem_nil, false_iff, not_and]
    intro hmem
    simp [mayHaveRangeTombstones_of_mem hmem] at hnone
  · rw [RangeTombstoneIndex.overlappingRange_eq_filter, mem_filter]
    rfl

lemma keyBounds_of_misbounded (h : table.misbounded = true) : table.keyBounds = ([], []) :=
  keyBounds_of_unbounded (and_eq_true_iff.mp h).2

lemma keyBoundsOverlapRange_of_misbounded (h : table.misbounded = true) (range : KeyRange) :
    table.keyBoundsOverlapRange range = keyIsInRange [] range := by
  have hbounds := keyBounds_of_misbounded h
  simp only [misbounded, and_eq_true, not_eq_true', isEmpty_eq_false_iff] at h
  have hcount : table.dataBlockCount ≠ 0 := fun h0 => h.1 (dataBlockCount_eq_zero.mp h0)
  have hhas : table.hasKeyBounds = true := by simp [hasKeyBounds, hcount]
  rw [keyBoundsOverlapRange, hhas, smallestUserKey, largestUserKey, hbounds, keyIsInRange,
    Bool.and_comm]
  rfl

/-- A range deletion that hides a table whose span is right deletes all versions in it. -/
lemma covers_of_fullyHidesTable {tombstone : RangeTombstone} {readSequence : ℕ}
    (hbounded : table.misbounded = false) (hmem : record ∈ table.pointRecords)
    (h : tombstone.fullyHidesTable table readSequence = true) :
    tombstone.isVisible record.userKey readSequence = true ∧ record.stamp < tombstone.stamp := by
  simp only [RangeTombstone.fullyHidesTable, and_eq_true, decide_eq_true_eq] at h
  obtain ⟨⟨⟨hvisible, hnewer⟩, hsmallest⟩, hlargest⟩ := h
  have hne : table.pointRecords ≠ [] := ne_nil_of_mem hmem
  have hfinite : table.rangeTombstones.all.any RangeTombstone.unboundedSide = false := by
    simpa [misbounded, hne] using hbounded
  obtain ⟨hlow, hhigh⟩ := userKey_between hfinite hmem
  refine ⟨RangeTombstone.isVisible_iff.mpr
    ⟨keyIsInRange_of_between hlow hhigh hsmallest hlargest, hvisible⟩, ?_⟩
  rw [PointRecord.stamp, RangeTombstone.stamp, Prod.Lex.toLex_lt_toLex]
  exact .inl ((sequence_le_largestSequence hmem).trans_lt hnewer)

end Table

/-! ## What a scan reaches -/

namespace LsmPointReadSnapshot

variable (snapshot : LsmPointReadSnapshot) (selector : ScanSelector) (direction : Direction)
  (key : Key) (readSequence : ℕ)

/-- A range deletion of the snapshot hides the recorded span of the table from the reader. -/
def hidesTable (table : Table) : Bool :=
  snapshot.tombstones.any fun tombstone => tombstone.fullyHidesTable table readSequence

def scanReachesDeletions (table : Table) : Bool :=
  !table.misbounded || keyIsInRange [] selector.queryRange

/-- A scan takes the versions in the table into account. Hidden tables with the right span count
as well, since all their versions are deleted. -/
def scanReachesVersions (table : Table) : Bool :=
  !table.misbounded ||
    (keyIsInRange [] selector.queryRange && !snapshot.hidesTable readSequence table)

def scanReachableVersions : List PointRecord :=
  (snapshot.memtableVersions key readSequence ++
    snapshot.deltas.flatMap (fun delta => delta.memtable.visible key readSequence) ++
    (snapshot.version.tables.filter (snapshot.scanReachesVersions selector readSequence)).flatMap
      fun table => (table.scannedFrom selector direction key).filter
        fun record => record.isVisible key readSequence).filter
    fun record => record.kind ≠ .rangeDelete

def scanReachableTombstones : List RangeTombstone :=
  (snapshot.memtableTombstones ++
    (snapshot.version.tables.filter (scanReachesDeletions selector)).flatMap
      fun table => table.rangeTombstones.all).filter
    fun tombstone => tombstone.isVisible key readSequence

end LsmPointReadSnapshot

namespace LsmTree

variable {tree : LsmTree} {selector : ScanSelector} {direction : Direction} {readSequence : ℕ}
  {key : Key} {tombstone : RangeTombstone} {record : PointRecord} {table : Table}

lemma mem_memtableTombstones_iff :
    tombstone ∈ (tree.pointReadSnapshot readSequence).memtableTombstones ↔
      tombstone ∈ (tree.pointReadSnapshotForKey key readSequence).memtableTombstones := by
  have hshard := @DeltaShardSet.tombstone_mem_snapshotForKey tree.deltaShards key tombstone
  simp only [DeltaShard.tombstones] at hshard
  simp only [TreeState.pointReadSnapshot, TreeState.pointReadSnapshotForKey,
    TreeState.pointReadSnapshotWithDeltas,
    LsmPointReadSnapshot.memtableTombstones, mem_append]
  split_ifs
  · exact Iff.rfl
  · rw [hshard]

lemma mem_deltas_iff (hkey : record.userKey = key) :
    (∃ delta ∈ (tree.pointReadSnapshot readSequence).deltas, record ∈ delta.memtable.entries) ↔
      ∃ delta ∈ (tree.pointReadSnapshotForKey key readSequence).deltas,
        record ∈ delta.memtable.entries := by
  have hshard := @DeltaShardSet.mem_snapshotForKey tree.deltaShards record
  simp only [DeltaShard.versions, mem_flatMap, hkey] at hshard
  simp only [TreeState.pointReadSnapshot, TreeState.pointReadSnapshotForKey,
    TreeState.pointReadSnapshotWithDeltas]
  split_ifs
  · exact Iff.rfl
  · exact hshard.symm

lemma mem_scanRangeTombstones :
    tombstone ∈ (tree.scanRangeTombstones selector readSequence).all ↔
      rangesOverlap selector.queryRange tombstone.range = true ∧
        (tombstone ∈ (tree.pointReadSnapshot readSequence).memtableTombstones ∨
          ∃ table ∈ tree.version.tables,
            table.keyBoundsOverlapRange selector.queryRange = true ∧
              tombstone ∈ table.rangeTombstones.all) := by
  have hmemtable : ∀ tombstone, tombstone ∈
      (tree.pointReadSnapshot readSequence).memtableRangeTombstones.tombstones ↔
        tombstone ∈ (tree.pointReadSnapshot readSequence).memtableTombstones := fun _ =>
    RangeTombstoneIndex.mem_new
  rw [scanRangeTombstones, RangeTombstoneIndex.mem_all_new, mem_append, mem_flatMap,
    RangeTombstoneIndex.overlappingRange_eq_filter, mem_filter, hmemtable]
  simp only [LsmVersion.mem_rangeScanTables, Table.mem_rangeTombstonesOverlappingRange]
  constructor
  · rintro (⟨hmem, hover⟩ | ⟨table, ⟨hin, hbounds⟩, hmem, hover⟩)
    · exact ⟨hover, Or.inl hmem⟩
    · exact ⟨hover, Or.inr ⟨table, hin, hbounds, hmem⟩⟩
  · rintro ⟨hover, hmem | ⟨table, hin, hbounds, hmem⟩⟩
    · exact .inl ⟨hmem, hover⟩
    · exact .inr ⟨table, ⟨hin, hbounds⟩, hmem, hover⟩

lemma keyBoundsOverlapRange_eq_of_tombstone
    (hsel : selector.selects key = true) (hmem : tombstone ∈ table.rangeTombstones.all)
    (hkey : keyIsInRange key tombstone.range = true) :
    table.keyBoundsOverlapRange selector.queryRange =
      LsmPointReadSnapshot.scanReachesDeletions selector table := by
  rw [LsmPointReadSnapshot.scanReachesDeletions]
  cases hmis : table.misbounded with
  | true => simp [Table.keyBoundsOverlapRange_of_misbounded hmis]
  | false =>
    simp [Table.keyBoundsOverlapRange_of_mayContainKey
      (selects_iff_queryRange.mp hsel)
      (Table.keyBoundsMayContainKey_of_tombstone hmis hmem hkey)]

lemma mem_scannedTombstones_iff (hsel : selector.selects key = true) :
    tombstone ∈ tree.scannedTombstones selector readSequence key ↔
      tombstone ∈ (tree.pointReadSnapshotForKey key readSequence).scanReachableTombstones selector
        key readSequence := by
  rw [scannedTombstones, LsmPointReadSnapshot.scanReachableTombstones, mem_filter,
    mem_filter]
  refine and_congr_left fun hvisible => ?_
  have hin := (RangeTombstone.isVisible_iff.mp hvisible).1
  rw [mem_scanRangeTombstones, and_iff_right (rangesOverlap_of_common
    (selects_iff_queryRange.mp hsel) hin),
    @mem_memtableTombstones_iff tree readSequence key, mem_append, mem_flatMap]
  refine or_congr_right (exists_congr fun table => ?_)
  rw [mem_filter, and_assoc]
  refine and_congr_right fun _ => and_congr_left fun hmem => ?_
  rw [keyBoundsOverlapRange_eq_of_tombstone hsel hmem hin]

lemma any_fullyHidesTable_of_misbounded (hmis : table.misbounded = true)
    (hempty : keyIsInRange [] selector.queryRange = true) :
    ((tree.scanRangeTombstones selector readSequence).all.any
        fun tombstone => tombstone.fullyHidesTable table readSequence) =
      (tree.pointReadSnapshotForKey key readSequence).hidesTable readSequence table := by
  rw [LsmPointReadSnapshot.hidesTable, ← Bool.coe_iff_coe, any_eq_true, any_eq_true]
  refine exists_congr fun tombstone => and_congr_left fun hhides => ?_
  have hin : keyIsInRange [] tombstone.range = true := by
    simp only [RangeTombstone.fullyHidesTable, and_eq_true] at hhides
    have hsmallest := hhides.1.2
    rwa [Table.smallestUserKey, Table.keyBounds_of_misbounded hmis] at hsmallest
  rw [mem_scanRangeTombstones, and_iff_right (rangesOverlap_of_common hempty hin),
    @mem_memtableTombstones_iff tree readSequence key, LsmPointReadSnapshot.tombstones,
    mem_append, mem_flatMap]
  refine or_congr_right (exists_congr fun other => and_congr_right fun _ => ?_)
  refine and_iff_right_of_imp fun hmem => ?_
  rw [keyBoundsOverlapRange_eq_of_tombstone (selects_iff_queryRange.mpr hempty) hmem
    hin]
  simp [LsmPointReadSnapshot.scanReachesDeletions, hempty]

/-- A scan leaves the table out because a range deletion hides its span, which is right. -/
def skipsHidden (tree : LsmTree) (selector : ScanSelector) (readSequence : ℕ) (table : Table) :
    Bool :=
  !table.misbounded && (tree.scanRangeTombstones selector readSequence).all.any
    fun tombstone => tombstone.fullyHidesTable table readSequence

lemma mem_scanTables_iff
    (hsel : selector.selects key = true) (hmem : record ∈ table.pointRecords)
    (hkey : record.userKey = key) :
    table ∈ tree.scanTables selector readSequence ↔
      table ∈ tree.version.tables ∧
        (tree.pointReadSnapshotForKey key readSequence).scanReachesVersions selector readSequence
          table = true ∧ tree.skipsHidden selector readSequence table = false := by
  have hfilter := table.mayContainSelected_of_mem tree.prefixExtractor hmem (hkey ▸ hsel)
  have hquery := selects_iff_queryRange.mp hsel
  rw [scanTables, mem_filter, LsmVersion.mem_rangeScanTables, hfilter, Bool.true_and,
    and_assoc, LsmPointReadSnapshot.scanReachesVersions, skipsHidden]
  refine and_congr_right fun _ => ?_
  cases hmis : table.misbounded with
  | false =>
    have hbounds := Table.keyBoundsOverlapRange_of_mayContainKey hquery
      (hkey ▸ Table.keyBoundsMayContainKey_of_record hmis hmem)
    simp [hbounds]
  | true =>
    rw [Table.keyBoundsOverlapRange_of_misbounded hmis]
    cases hempty : keyIsInRange [] selector.queryRange with
    | false => simp
    | true => simp [@any_fullyHidesTable_of_misbounded tree selector readSequence key table hmis hempty]

lemma mem_scannedVersions_iff (hsel : selector.selects key = true) :
    record ∈ tree.scannedVersions selector direction readSequence key ↔
      record.isScanned key readSequence = true ∧
        (record ∈ tree.activeMemtable.entries ∨
          (∃ immutable ∈ tree.immutableMemtables, record ∈ immutable.memtable.entries) ∨
          (∃ delta ∈ (tree.pointReadSnapshotForKey key readSequence).deltas,
            record ∈ delta.memtable.entries) ∨
          ∃ table ∈ tree.scanTables selector readSequence,
            record ∈ table.scannedFrom selector direction key) := by
  rw [scannedVersions, mem_filter, and_comm]
  refine and_congr_right fun hscanned => ?_
  have hkey : record.userKey = key :=
    (PointRecord.isVisible_iff.mp (and_eq_true_iff.mp hscanned).1).1
  have hmemtable : ∀ memtable : Memtable,
      record ∈ memtable.scanned selector direction ↔ record ∈ memtable.entries := by
    intro memtable
    rw [Memtable.scanned, Direction.mem_orient, selected, mem_filter,
      and_iff_left (by rw [hkey, hsel])]
  have hdelta : (∃ delta ∈ (tree.pointReadSnapshot readSequence).deltas.filter (fun delta =>
      !(delta.estimatedBytes == 0 || delta.memtable.estimatedBytes == 0)),
        record ∈ delta.memtable.entries) ↔
      ∃ delta ∈ (tree.pointReadSnapshot readSequence).deltas, record ∈ delta.memtable.entries := by
    simp only [mem_filter]
    constructor
    · rintro ⟨delta, ⟨hdelta, -⟩, hmem⟩
      exact ⟨delta, hdelta, hmem⟩
    · rintro ⟨delta, hdelta, hmem⟩
      -- Only deltas without versions are left out.
      have hbytes : delta.memtable.estimatedBytes ≠ 0 := fun h0 => by
        rw [Memtable.estimatedBytes_eq_zero.mp h0] at hmem
        exact not_mem_nil hmem
      have htotal : delta.estimatedBytes ≠ 0 := fun h0 => by
        rw [InMemoryDelta.estimatedBytes, Nat.add_eq_zero_iff] at h0
        exact hbytes h0.1
      exact ⟨delta, ⟨hdelta, by simp [hbytes, htotal]⟩, hmem⟩
  rw [← mem_deltas_iff hkey, ← hdelta]
  simp only [scanRecords, scanStreams, flatten_append, mem_append, mem_flatten,
    mem_map, exists_exists_and_eq_and, hmemtable, Table.mem_scanned_iff direction _ hsel hkey,
    scanMemtables, mem_singleton]
  constructor
  · rintro (⟨memtable, (⟨delta, hd, rfl⟩ | rfl) | ⟨immutable, hi, rfl⟩, hmem⟩ | htable)
    · exact .inr (Or.inr (Or.inl ⟨delta, hd, hmem⟩))
    · exact .inl hmem
    · exact .inr (Or.inl ⟨immutable, hi, hmem⟩)
    · exact .inr (Or.inr (Or.inr htable))
  · rintro (hmem | ⟨immutable, hi, hmem⟩ | ⟨delta, hd, hmem⟩ | htable)
    · exact .inl ⟨_, Or.inl (Or.inr rfl), hmem⟩
    · exact .inl ⟨_, Or.inr ⟨immutable, hi, rfl⟩, hmem⟩
    · exact .inl ⟨_, Or.inl (Or.inl ⟨delta, hd, rfl⟩), hmem⟩
    · exact .inr htable

lemma mem_scanReachableVersions_iff :
    record ∈ (tree.pointReadSnapshotForKey key readSequence).scanReachableVersions selector
        direction key readSequence ↔
      record.isScanned key readSequence = true ∧
        (record ∈ tree.activeMemtable.entries ∨
          (∃ immutable ∈ tree.immutableMemtables, record ∈ immutable.memtable.entries) ∨
          (∃ delta ∈ (tree.pointReadSnapshotForKey key readSequence).deltas,
            record ∈ delta.memtable.entries) ∨
          ∃ table ∈ tree.version.tables,
            (tree.pointReadSnapshotForKey key readSequence).scanReachesVersions selector
              readSequence table = true ∧ record ∈ table.scannedFrom selector direction key) := by
  have hversion : (tree.pointReadSnapshotForKey key readSequence).version = tree.version := rfl
  have hactive : (tree.pointReadSnapshotForKey key readSequence).activeMemtable =
      tree.activeMemtable := rfl
  have himmutable : (tree.pointReadSnapshotForKey key readSequence).immutableMemtables =
      tree.immutableMemtables := rfl
  simp only [LsmPointReadSnapshot.scanReachableVersions, LsmPointReadSnapshot.memtableVersions,
    Memtable.visible, PointRecord.isScanned, mem_filter, mem_append, mem_flatMap,
    and_eq_true, hversion, hactive, himmutable]
  constructor
  · rintro ⟨((⟨hmem, hvis⟩ | ⟨immutable, hi, hmem, hvis⟩) | ⟨delta, hd, hmem, hvis⟩) |
      ⟨table, ⟨ht, hreach⟩, hmem, hvis⟩, hkind⟩
    · exact ⟨⟨hvis, hkind⟩, Or.inl hmem⟩
    · exact ⟨⟨hvis, hkind⟩, Or.inr (Or.inl ⟨immutable, hi, hmem⟩)⟩
    · exact ⟨⟨hvis, hkind⟩, Or.inr (Or.inr (Or.inl ⟨delta, hd, hmem⟩))⟩
    · exact ⟨⟨hvis, hkind⟩, Or.inr (Or.inr (Or.inr ⟨table, ht, hreach, hmem⟩))⟩
  · rintro ⟨⟨hvis, hkind⟩, hmem | ⟨immutable, hi, hmem⟩ | ⟨delta, hd, hmem⟩ |
      ⟨table, ht, hreach, hmem⟩⟩
    · exact ⟨Or.inl (Or.inl (Or.inl ⟨hmem, hvis⟩)), hkind⟩
    · exact ⟨Or.inl (Or.inl (Or.inr ⟨immutable, hi, hmem, hvis⟩)), hkind⟩
    · exact ⟨Or.inl (Or.inr ⟨delta, hd, hmem, hvis⟩), hkind⟩
    · exact ⟨Or.inr ⟨table, ⟨ht, hreach⟩, hmem, hvis⟩, hkind⟩

lemma mem_versions
    (h : record ∈ (tree.pointReadSnapshotForKey key readSequence).versions) :
    record ∈ tree.versions := by
  simp only [LsmPointReadSnapshot.versions, mem_append, mem_flatMap] at h
  simp only [TreeState.versions, mem_append, mem_flatMap]
  refine h.imp_left fun h => h.imp_right ?_
  rintro ⟨delta, hdelta, hmem⟩
  obtain ⟨other, hother, hin⟩ := (mem_deltas_iff rfl).mpr
    (show ∃ delta ∈ (tree.pointReadSnapshotForKey record.userKey readSequence).deltas,
        record ∈ delta.memtable.entries by
      simp only [TreeState.pointReadSnapshotForKey, TreeState.pointReadSnapshotWithDeltas] at hdelta ⊢
      split_ifs at hdelta ⊢
      · simp at hdelta
      · have hkey := mem_of_getElem? (tree.deltaShards.getElem?_shardIndexForKey key)
        have hall : record ∈ DeltaShard.versions tree.deltaShards.snapshotAll :=
          mem_flatMap.mpr ⟨delta, mem_flatten.mpr ⟨_, hkey, hdelta⟩, hmem⟩
        exact mem_flatMap.mp (tree.deltaShards.mem_snapshotForKey.mpr hall))
  simp only [TreeState.pointReadSnapshot, TreeState.pointReadSnapshotWithDeltas] at hother
  split_ifs at hother
  · simp at hother
  · exact ⟨other, hother, hin⟩

/-- What a scan finds for a selected key is decided by the newest change that it reaches.

**Proof sketch.** The sources return the versions that can be reached except those in hidden
tables, and these are covered by the range deletion that hides the table. -/
theorem scannedValue_eq (hsel : selector.selects key = true) :
    tree.scannedValue selector direction readSequence key =
      newestValue tree.blobs
        ((tree.pointReadSnapshotForKey key readSequence).scanReachableVersions selector direction
          key readSequence)
        ((tree.pointReadSnapshotForKey key readSequence).scanReachableTombstones selector key
          readSequence) := by
  set hidden : List PointRecord :=
    (tree.version.tables.filter (tree.skipsHidden selector readSequence)).flatMap fun table =>
      (table.scannedFrom selector direction key).filter
        fun record => record.isScanned key readSequence with hhidden
  have hmemHidden : ∀ record, record ∈ hidden ↔ record.isScanned key readSequence = true ∧
      ∃ table ∈ tree.version.tables, tree.skipsHidden selector readSequence table = true ∧
        record ∈ table.scannedFrom selector direction key := by
    intro record
    simp only [hhidden, mem_flatMap, mem_filter]
    constructor
    · rintro ⟨table, ⟨ht, hskip⟩, hmem, hscanned⟩
      exact ⟨hscanned, table, ht, hskip, hmem⟩
    · rintro ⟨hscanned, table, ht, hskip, hmem⟩
      exact ⟨table, ⟨ht, hskip⟩, hmem, hscanned⟩
  have hmem : ∀ record,
      record ∈ tree.scannedVersions selector direction readSequence key ++ hidden ↔
        record ∈ (tree.pointReadSnapshotForKey key readSequence).scanReachableVersions selector
          direction key readSequence := by
    intro record
    rw [mem_append, mem_scannedVersions_iff hsel, hmemHidden, mem_scanReachableVersions_iff,
      ← and_or_left, or_assoc, or_assoc, or_assoc]
    refine and_congr_right fun _ => or_congr_right (or_congr_right (or_congr_right ?_))
    constructor
    · rintro (⟨table, htable, hin⟩ | ⟨table, htable, hskip, hin⟩)
      · obtain ⟨hrecord, hkey⟩ := Table.mem_of_mem_scannedFrom hin
        obtain ⟨ht, hreach, -⟩ := (mem_scanTables_iff hsel hrecord hkey).mp htable
        exact ⟨table, ht, hreach, hin⟩
      · refine ⟨table, htable, ?_, hin⟩
        rw [skipsHidden, and_eq_true] at hskip
        rw [LsmPointReadSnapshot.scanReachesVersions, hskip.1, Bool.true_or]
    · rintro ⟨table, htable, hreach, hin⟩
      obtain ⟨hrecord, hkey⟩ := Table.mem_of_mem_scannedFrom hin
      cases hskip : tree.skipsHidden selector readSequence table with
      | true => exact .inr ⟨table, htable, hskip, hin⟩
      | false =>
        exact .inl ⟨table, (mem_scanTables_iff hsel hrecord hkey).mpr ⟨htable, hreach, hskip⟩,
          hin⟩
  have hcopies : CopiesAgree tree.blobs
      (tree.scannedVersions selector direction readSequence key ++ hidden) := by
    have hsub : ∀ record ∈ tree.scannedVersions selector direction readSequence key ++ hidden,
        record ∈ tree.versions := by
      intro record hrecord
      rcases mem_append.mp hrecord with hrecord | hrecord
      · exact tree.scanRecords_subset _ _ _ (mem_filter.mp hrecord).1
      · obtain ⟨-, table, ht, -, hin⟩ := (hmemHidden record).mp hrecord
        exact mem_append_right _
          (mem_flatMap.mpr ⟨table, ht, (Table.mem_of_mem_scannedFrom hin).1⟩)
    exact fun left hl right hr => tree.copies_agree left (hsub left hl) right (hsub right hr)
  have hkeys : ∀ record ∈ tree.scannedVersions selector direction readSequence key ++ hidden,
      record.userKey = key := by
    intro record hrecord
    have hscanned := (mem_scanReachableVersions_iff.mp ((hmem record).mp hrecord)).1
    exact (PointRecord.isVisible_iff.mp (and_eq_true_iff.mp hscanned).1).1
  have hcovered : ∀ record ∈ hidden, ∃ tombstone ∈ tree.scannedTombstones selector readSequence key,
      record.stamp < tombstone.stamp := by
    intro record hrecord
    obtain ⟨-, table, ht, hskip, hin⟩ := (hmemHidden record).mp hrecord
    obtain ⟨hpoint, hkey⟩ := Table.mem_of_mem_scannedFrom hin
    rw [skipsHidden, and_eq_true, not_eq_true', any_eq_true] at hskip
    obtain ⟨hbounded, tombstone, htombstone, hhides⟩ := hskip
    obtain ⟨hvisible, hlt⟩ := Table.covers_of_fullyHidesTable hbounded hpoint hhides
    exact ⟨tombstone, mem_filter.mpr ⟨htombstone, hkey ▸ hvisible⟩, hlt⟩
  rw [scannedValue, ← newestValue_append_covered hcopies hkeys hcovered]
  exact newestValue_congr hcopies hmem fun tombstone => mem_scannedTombstones_iff hsel

theorem readVisiblePointValue_eq :
    tree.readVisiblePointValue key readSequence =
      newestValue tree.blobs
        ((tree.pointReadSnapshotForKey key readSequence).reachableVersions key readSequence)
        ((tree.pointReadSnapshotForKey key readSequence).reachableTombstones key readSequence) := by
  set snapshot := tree.pointReadSnapshotForKey key readSequence with hsnapshot
  have hsub : ∀ record ∈ snapshot.reachableVersions key readSequence,
      record ∈ tree.versions := fun record hrecord =>
    mem_versions (mem_filter.mp
      (LsmPointReadSnapshot.reachableVersions_subset hrecord)).1
  have hcopies : CopiesAgree tree.blobs (snapshot.reachableVersions key readSequence) :=
    fun left hl right hr => tree.copies_agree left (hsub left hl) right (hsub right hr)
  obtain ⟨candidate, hbest, hread⟩ :=
    exists_candidateValue tree.blobs tree.indexSearchPolicy snapshot key readSequence
  rw [newestValue_eq_of_isBest hcopies hbest]
  exact hread

/-! ## Agreement -/

/-- The scan returns the selected keys whose point read finds a value or fails to read it, with
the same result, in the order of the direction and each key once. -/
def ScanAgrees (tree : LsmTree) (selector : ScanSelector) (direction : Direction)
    (readSequence : ℕ) : Prop :=
  ∃ rows, tree.scan selector direction readSequence = .ok rows ∧
    rows.Pairwise (fun left right => direction.precedes left.1 right.1) ∧
    ∀ row : ScanRow, row ∈ rows ↔
      selector.selects row.1 = true ∧
        tree.readVisiblePointValue row.1 readSequence = row.2.map some

lemma mem_scanKeys_of_scannedValue {value : Except Error (List UInt8)}
    (h : tree.scannedValue selector direction readSequence key = value.map some) :
    key ∈ tree.scanKeys selector direction readSequence := by
  rw [mem_scanKeys]
  by_contra hnone
  have hnil : tree.scannedVersions selector direction readSequence key = [] := by
    refine eq_nil_iff_forall_not_mem.mpr fun record hrecord => hnone ⟨record, ?_⟩
    obtain ⟨hmem, hscanned⟩ := mem_filter.mp hrecord
    exact ⟨hmem, (PointRecord.isVisible_iff.mp (and_eq_true_iff.mp hscanned).1).1⟩
  rw [scannedValue, hnil] at h
  cases value <;> cases h

lemma selects_of_mem_scanKeys (h : key ∈ tree.scanKeys selector direction readSequence) :
    selector.selects key = true := by
  rw [mem_scanKeys] at h
  obtain ⟨record, hrecord, rfl⟩ := h
  have hselected : ∀ records : List PointRecord, record ∈ direction.orient (selector.selected records) →
      selector.selects record.userKey = true := fun records hmem =>
    (mem_filter.mp (Direction.mem_orient.mp hmem)).2
  obtain ⟨stream, hstream, hmem⟩ := mem_flatten.mp hrecord
  rcases mem_append.mp hstream with hstream | hstream
  · obtain ⟨memtable, -, rfl⟩ := mem_map.mp hstream
    exact hselected memtable.entries hmem
  · obtain ⟨table, -, rfl⟩ := mem_map.mp hstream
    exact hselected table.pointRecords ((table.scanned_sublist selector direction _).subset hmem)

lemma exists_scanRows (h : tree.scanPanics selector readSequence = false) :
    ∃ rows, tree.scan selector direction readSequence = .ok rows ∧
      rows.Pairwise (fun left right => direction.precedes left.1 right.1) ∧
      ∀ row : ScanRow, row ∈ rows ↔
        selector.selects row.1 = true ∧
          tree.scannedValue selector direction readSequence row.1 = row.2.map some := by
  refine ⟨_, tree.scan_eq selector direction readSequence h, ?_, fun row => ?_⟩
  · refine (tree.pairwise_scanKeys selector direction readSequence).filterMap _
      fun left right hlt leftRow hleft rightRow hright => ?_
    rw [(rowOf_eq_some_iff.mp hleft).1, (rowOf_eq_some_iff.mp hright).1]
    exact hlt
  · rw [mem_filterMap]
    constructor
    · rintro ⟨key, hkey, hrow⟩
      obtain ⟨rfl, hvalue⟩ := rowOf_eq_some_iff.mp hrow
      exact ⟨selects_of_mem_scanKeys hkey, hvalue⟩
    · rintro ⟨-, hvalue⟩
      exact ⟨row.1, mem_scanKeys_of_scannedValue hvalue, rowOf_eq_some_iff.mpr ⟨rfl, hvalue⟩⟩

lemma eq_of_rows_iff {left right : Except Error (Option (List UInt8))}
    (h : ∀ value : Except Error (List UInt8), left = value.map some ↔ right = value.map some) :
    left = right := by
  have hcases : ∀ answer : Except Error (Option (List UInt8)),
      answer = .ok none ∨ ∃ value : Except Error (List UInt8), answer = value.map some := by
    rintro (error | _ | bytes)
    · exact .inr ⟨.error error, rfl⟩
    · exact .inl rfl
    · exact .inr ⟨.ok bytes, rfl⟩
  rcases hcases left with hleft | ⟨value, hleft⟩
  · rcases hcases right with hright | ⟨value, hright⟩
    · rw [hleft, hright]
    · exact ((h value).mpr hright).trans hright.symm
  · exact hleft.trans ((h value).mp hleft).symm

/-- A scan agrees with point reads exactly when it does not read a memtable with entries for an
inverted range and, for every selected key, the newest change that the scan reaches and the newest
one that a point read reaches give the same answer. -/
theorem scanAgrees_iff (tree : LsmTree) (selector : ScanSelector) (direction : Direction)
    (readSequence : ℕ) :
    tree.ScanAgrees selector direction readSequence ↔
      tree.scanPanics selector readSequence = false ∧
        ∀ key, selector.selects key = true →
          newestValue tree.blobs
              ((tree.pointReadSnapshotForKey key readSequence).scanReachableVersions selector
                direction key readSequence)
              ((tree.pointReadSnapshotForKey key readSequence).scanReachableTombstones selector key
                readSequence) =
            newestValue tree.blobs
              ((tree.pointReadSnapshotForKey key readSequence).reachableVersions key readSequence)
              ((tree.pointReadSnapshotForKey key readSequence).reachableTombstones key
                readSequence) := by
  constructor
  · rintro ⟨rows, hscan, -, hrows⟩
    have hpanics : tree.scanPanics selector readSequence = false := by
      by_contra hpanics
      rw [Bool.not_eq_false] at hpanics
      rw [tree.scan_of_inverted selector direction readSequence hpanics] at hscan
      cases hscan
    refine ⟨hpanics, fun key hsel => ?_⟩
    obtain ⟨rows', hscan', -, hrows'⟩ := @exists_scanRows tree selector direction readSequence hpanics
    rw [hscan, Except.ok.injEq] at hscan'
    rw [← scannedValue_eq hsel, ← readVisiblePointValue_eq]
    refine eq_of_rows_iff fun value => ?_
    have hread := hrows (key, value)
    rw [hscan', hrows' (key, value), and_iff_right hsel, and_iff_right hsel] at hread
    exact hread
  · rintro ⟨hpanics, hanswers⟩
    obtain ⟨rows, hscan, hpair, hrows⟩ := @exists_scanRows tree selector direction readSequence hpanics
    refine ⟨rows, hscan, hpair, fun row => ?_⟩
    rw [hrows]
    refine and_congr_right fun hsel => ?_
    rw [scannedValue_eq hsel, readVisiblePointValue_eq, hanswers row.1 hsel]

def hotPut : PointRecord where
  internalKey := { userKey := [97], sequence := 17, kind := .put, batchIndex := 0 }
  value := some (.inline [1])

/-- A table of one block with that put and sixteen older deletions of the key. -/
def hotPutTable : Table where
  id := 1
  level := 0
  options := ⟨4096, .disabled, .disabled, .disabled, .uniform⟩
  residence := .written
  pointRecords := hotPut :: TablePointCursor.hotKeyTable.pointRecords.tail
  rangeTombstones := RangeTombstoneIndex.new []
  sorted := by decide
  nonempty := by decide

def hotPutTree : LsmTree where
  prefixExtractor := .disabled
  indexSearchPolicy := .auto
  blobs := none
  deltaShards := .new
  deltaMirrorSequence := 0
  activeMemtable := .empty
  activeAddress := 0
  rangeTombstones := []
  immutableMemtables := []
  version := ⟨[⟨0, [hotPutTable], fun h => absurd rfl h⟩]⟩
  copies_agree := by decide

theorem scan_hotPutTree :
    hotPutTree.scan (.range ⟨.included [97], .unbounded⟩) .forward 17 = .ok [] ∧
      hotPutTree.readVisiblePointValue [97] 17 = .ok (some [1]) ∧
      ¬hotPutTree.ScanAgrees (.range ⟨.included [97], .unbounded⟩) .forward 17 := by
  have hscan : hotPutTree.scan (.range ⟨.included [97], .unbounded⟩) .forward 17 = .ok [] := by
    decide
  have hread : hotPutTree.readVisiblePointValue [97] 17 = .ok (some [1]) := by decide
  refine ⟨hscan, hread, ?_⟩
  rintro ⟨rows, hrows, -, hiff⟩
  rw [hscan, Except.ok.injEq] at hrows
  have hmem := (hiff ([97], .ok [1])).mpr ⟨by decide, hread⟩
  rw [← hrows] at hmem
  exact not_mem_nil hmem

end LsmTree

end TrineKv
