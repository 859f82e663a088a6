import TrineKv.Lsm.Conflict
import TrineKv.Lsm.ScanSpec
import TrineKv.Table.KeyBounds

/-!
# What the conflict checks find

A key was changed after a sequence when some part of the tree holds a newer version of it or a newer
range deletion over it. The checks pass over versions in a table whose recorded span is wrong,
versions of the first key of a range before a restart point, and deltas that count as mirrored; the
check of a range also finds range deletions that only overlap it by their bounds.

## Main results

* `TreeState.modifiedAfter_iff`: the checks answer for what they find.
* `TreeState.checks_not_exact`: this is not what has changed.
-/

namespace TrineKv

open List

variable {record : PointRecord}

/-! ## Changes in a tree -/

/-- The check ends without an error, and its answer says whether the statement holds. -/
def Answers (result : Except Error Bool) (statement : Prop) : Prop :=
  ∃ answer, result = .ok answer ∧ (answer = true ↔ statement)

lemma Answers.iff {result : Except Error Bool} {statement other : Prop}
    (h : Answers result statement) : Answers result other ↔ (other ↔ statement) := by
  obtain ⟨answer, hresult, hanswer⟩ := h
  constructor
  · rintro ⟨answer', hresult', hanswer'⟩
    rw [hresult] at hresult'
    obtain rfl := Except.ok.inj hresult'
    exact hanswer'.symm.trans hanswer
  · exact fun hother => ⟨answer, hresult, hanswer.trans hother.symm⟩

namespace TreeState

variable (tree : TreeState) (deltas : List InMemoryDelta) (kept : Table → PointRecord → Prop)
  (version : PointRecord → Prop) (deletion : RangeTombstone → Prop)

/-- Of the versions in tables only those that are kept count. -/
def HasChange : Prop :=
  (∃ record, version record ∧ (record ∈ tree.unflushedRecords ∨ record ∈ DeltaShard.versions deltas ∨
    ∃ table ∈ tree.version.tables, record ∈ table.pointRecords ∧ kept table record)) ∨
  ∃ tombstone, deletion tombstone ∧ (tombstone ∈ tree.unflushedTombstones ∨
    tombstone ∈ DeltaShard.tombstones deltas ∨
      ∃ table ∈ tree.version.tables, tombstone ∈ table.rangeTombstones.all)

variable (key : Key) (range : KeyRange) (readSequence : ℕ)

def NewerVersionOfKey (record : PointRecord) : Prop :=
  record.userKey = key ∧ readSequence < record.sequence

def NewerVersionInRange (record : PointRecord) : Prop :=
  keyIsInRange record.userKey range = true ∧ readSequence < record.sequence

def KeyChangedAfter : Prop :=
  tree.HasChange tree.deltaShards.snapshotAll (fun _ _ => True) (NewerVersionOfKey key readSequence)
    fun tombstone => keyIsInRange key tombstone.range = true ∧ readSequence < tombstone.sequence

def RangeChangedAfter : Prop :=
  tree.HasChange tree.deltaShards.snapshotAll (fun _ _ => True)
    (NewerVersionInRange range readSequence) fun tombstone =>
      (∃ key, keyIsInRange key range = true ∧ keyIsInRange key tombstone.range = true) ∧
        readSequence < tombstone.sequence

def checkedDeltas : List InMemoryDelta :=
  if tree.deltaMirrorCovers readSequence then [] else tree.deltaShards.snapshotAll

/-- Among the changes of the key after the sequence is one that is not in a delta that counts as
mirrored and not a version in a misbounded table, unless the key is empty. -/
def FindsKeyChange : Prop :=
  tree.HasChange (tree.checkedDeltas readSequence)
    (fun table _ => table.misbounded = false ∨ key = []) (NewerVersionOfKey key readSequence)
    fun tombstone => keyIsInRange key tombstone.range = true ∧ readSequence < tombstone.sequence

/-- A later change of a key in the range, not in a delta that counts as mirrored nor a version of
the first key before a restart point, or a range deletion that overlaps the range by its bounds. -/
def FindsRangeChange : Prop :=
  tree.HasChange (tree.checkedDeltas readSequence)
    (fun table record => record ∈ table.scannedFrom (.range range) .forward record.userKey)
    (NewerVersionInRange range readSequence) fun tombstone =>
      rangesOverlap range tombstone.range = true ∧ readSequence < tombstone.sequence

variable {tree deltas kept version deletion}

lemma HasChange.mono {more : List InMemoryDelta} {keptMore : Table → PointRecord → Prop}
    (hdeltas : deltas ⊆ more) (hkept : ∀ table record, kept table record → keptMore table record)
    (h : tree.HasChange deltas kept version deletion) :
    tree.HasChange more keptMore version deletion := by
  have hflat : ∀ {β : Type} (f : InMemoryDelta → List β) {b : β}, b ∈ deltas.flatMap f →
      b ∈ more.flatMap f := by
    intro β f b hmem
    obtain ⟨delta, hdelta, hb⟩ := mem_flatMap.mp hmem
    exact mem_flatMap.mpr ⟨delta, hdeltas hdelta, hb⟩
  rcases h with ⟨record, hversion, hplace⟩ | ⟨tombstone, hdeletion, hplace⟩
  · refine .inl ⟨record, hversion, hplace.imp_right (Or.imp (hflat _) ?_)⟩
    exact fun ⟨table, htable, hmem, hkeep⟩ => ⟨table, htable, hmem, hkept table record hkeep⟩
  · exact .inr ⟨tombstone, hdeletion, hplace.imp_right (Or.imp_left (hflat _))⟩

lemma checkedDeltas_subset : tree.checkedDeltas readSequence ⊆ tree.deltaShards.snapshotAll := by
  rw [checkedDeltas]
  split_ifs
  · exact nil_subset _
  · exact List.Subset.refl _

lemma FindsKeyChange.keyChangedAfter (h : tree.FindsKeyChange key readSequence) :
    tree.KeyChangedAfter key readSequence :=
  h.mono (checkedDeltas_subset readSequence) fun _ _ _ => trivial

end TreeState

/-! ## What the checks collect -/

lemma LsmVersion.pointLookupTables_eq (version : LsmVersion) (key : Key) :
    version.pointLookupTables key = version.tables.filter fun table =>
      table.keyBoundsMayContainKey key && table.mayContainKey key := by
  rw [pointLookupTables, tables, filter_flatMap]
  congr 1
  funext state
  split_ifs with hlevel
  · rfl
  · rw [state.toList_tableForKey hlevel, filter_filter]
    congr 1
    funext table
    exact Bool.and_comm _ _

lemma LsmVersion.mem_pointLookupTables {version : LsmVersion} {table : Table}
    (hrecord : record ∈ table.pointRecords) :
    table ∈ version.pointLookupTables record.userKey ↔
      table ∈ version.tables ∧ (table.misbounded = false ∨ record.userKey = []) := by
  rw [pointLookupTables_eq, mem_filter, Bool.and_eq_true]
  refine and_congr_right fun _ => ?_
  have hvisible : record.isVisible record.userKey record.sequence = true := by
    simp [PointRecord.isVisible]
  rw [and_iff_left_of_imp fun hbounds =>
    Table.mayContainKey_of_visible (mem_filter.mpr ⟨hrecord, hvisible⟩) hbounds]
  cases hmis : table.misbounded with
  | false => simp [Table.keyBoundsMayContainKey_of_record hmis hrecord]
  | true => simp [Table.keyBoundsMayContainKey_of_misbounded hmis]

lemma answers_of_collect {collect : Except Error (List PointRecord)} {records : List PointRecord}
    {newer : PointRecord → Bool} {deleted : Bool} {left right : Prop}
    (hcollect : collect = .ok records) (hleft : (∃ record ∈ records, newer record = true) ↔ left)
    (hright : deleted = true ↔ right) :
    Answers (do
      let records ← collect
      if records.any newer then return true else return deleted) (left ∨ right) := by
  rw [hcollect]
  refine ⟨records.any newer || deleted, ?_, ?_⟩
  · simp only [bind, Except.bind]
    cases records.any newer <;> rfl
  · rw [Bool.or_eq_true, any_eq_true, hleft, hright]

namespace TreeState

variable {tree : TreeState} {readSequence : ℕ}

lemma mem_memtables_iff {deltas : List InMemoryDelta} :
    record ∈ (tree.pointReadSnapshotWithDeltas readSequence deltas).memtables.flatMap
        Memtable.entries ↔
      record ∈ tree.unflushedRecords ∨ record ∈ DeltaShard.versions
        (if tree.deltaMirrorCovers readSequence then [] else deltas) := by
  simp only [LsmPointReadSnapshot.memtables, pointReadSnapshotWithDeltas, flatMap_cons,
    flatMap_append, flatMap_map, mem_append, unflushedRecords, DeltaShard.versions]
  tauto

lemma mem_memtableTombstones_iff {deltas : List InMemoryDelta} {tombstone : RangeTombstone} :
    tombstone ∈ (tree.pointReadSnapshotWithDeltas readSequence deltas).memtableTombstones ↔
      tombstone ∈ tree.unflushedTombstones ∨ tombstone ∈ DeltaShard.tombstones
        (if tree.deltaMirrorCovers readSequence then [] else deltas) := by
  simp only [LsmPointReadSnapshot.memtableTombstones, pointReadSnapshotWithDeltas, mem_append,
    unflushedTombstones, DeltaShard.tombstones]
  tauto

lemma mem_checkedDeltas :
    record ∈ DeltaShard.versions (if tree.deltaMirrorCovers readSequence then [] else
        tree.deltaShards.snapshotForKey record.userKey) ↔
      record ∈ DeltaShard.versions (tree.checkedDeltas readSequence) := by
  rw [checkedDeltas]
  split_ifs
  · rfl
  · exact tree.deltaShards.mem_snapshotForKey

lemma tombstone_mem_checkedDeltas {key : Key} {tombstone : RangeTombstone} :
    tombstone ∈ DeltaShard.tombstones (if tree.deltaMirrorCovers readSequence then [] else
        tree.deltaShards.snapshotForKey key) ↔
      tombstone ∈ DeltaShard.tombstones (tree.checkedDeltas readSequence) := by
  rw [checkedDeltas]
  split_ifs
  · rfl
  · exact tree.deltaShards.tombstone_mem_snapshotForKey key

end TreeState

lemma mapM_tables (collected : Table → List PointRecord) (tables : List Table) :
    tables.mapM (fun table => (.ok (collected table) : Except Error (List PointRecord))) =
      .ok (tables.map collected) := mapM_pure

namespace LsmPointReadSnapshot

variable (snapshot : LsmPointReadSnapshot) (policy : IndexSearchPolicy)

lemma collectPointKeyRecords_spec (key : Key) :
    ∃ records, snapshot.collectPointKeyRecords policy key = .ok records ∧
      ∀ record, record ∈ records ↔ record.userKey = key ∧
        (record ∈ snapshot.memtables.flatMap Memtable.entries ∨
          ∃ table ∈ snapshot.version.tables, record ∈ table.pointRecords ∧
            (table.misbounded = false ∨ key = [])) := by
  rw [collectPointKeyRecords]
  simp only [Table.pointRecordsForKey_eq, mapM_tables, bind, Except.bind, pure, Except.pure]
  refine ⟨_, rfl, fun record => ?_⟩
  simp only [mem_insertionSort, mem_append, mem_flatMap, mem_flatten,
    mem_map, collectMemtablePointRecords, Memtable.range_forUser]
  constructor
  · rintro (⟨memtable, hmemtable, hmem⟩ | ⟨_, ⟨table, htable, rfl⟩, hmem⟩)
    · obtain ⟨hmem, hkey⟩ := mem_filter.mp hmem
      exact ⟨of_decide_eq_true hkey, .inl ⟨memtable, hmemtable, hmem⟩⟩
    · obtain ⟨hrecord, hkey⟩ := mem_filter.mp hmem
      obtain rfl := of_decide_eq_true hkey
      obtain ⟨htable, hbounded⟩ := (LsmVersion.mem_pointLookupTables hrecord).mp htable
      exact ⟨rfl, .inr ⟨table, htable, hrecord, hbounded⟩⟩
  · rintro ⟨rfl, ⟨memtable, hmemtable, hmem⟩ | ⟨table, htable, hmem, hbounded⟩⟩
    · exact .inl ⟨memtable, hmemtable, mem_filter.mpr ⟨hmem, decide_eq_true rfl⟩⟩
    · exact .inr ⟨_, ⟨table, (LsmVersion.mem_pointLookupTables hmem).mpr ⟨htable, hbounded⟩, rfl⟩,
        mem_filter.mpr ⟨hmem, decide_eq_true rfl⟩⟩

lemma collectRangePointRecords_spec (range : KeyRange) :
    ∃ records, snapshot.collectRangePointRecords policy range = .ok records ∧
      ∀ record, record ∈ records ↔ keyIsInRange record.userKey range = true ∧
        (record ∈ snapshot.memtables.flatMap Memtable.entries ∨
          ∃ table ∈ snapshot.version.tables, record ∈ table.pointRecords ∧
            record ∈ table.scannedFrom (.range range) .forward record.userKey) := by
  rw [collectRangePointRecords]
  simp only [Table.pointRecordsInRange_eq, mapM_tables, bind, Except.bind, pure, Except.pure]
  refine ⟨_, rfl, fun record => ?_⟩
  simp only [mem_insertionSort, mem_append, mem_flatMap, mem_flatten,
    mem_map, collectMemtableRangeRecords]
  have hsel : keyIsInRange record.userKey range = true →
      (ScanSelector.range range).selects record.userKey = true := id
  constructor
  · rintro (⟨memtable, hmemtable, hmem⟩ | ⟨_, ⟨table, htable, rfl⟩, hmem⟩)
    · obtain ⟨hmem, hin⟩ := mem_filter.mp hmem
      exact ⟨hin, .inl ⟨memtable, hmemtable, hmem⟩⟩
    · have hselected := (table.scanned_sublist (.range range) .forward policy).subset hmem
      obtain ⟨hrecord, hin⟩ := mem_filter.mp hselected
      exact ⟨hin, .inr ⟨table, htable, hrecord,
        (Table.mem_scanned_iff .forward policy (hsel hin) rfl).mp hmem⟩⟩
  · rintro ⟨hin, ⟨memtable, hmemtable, hmem⟩ | ⟨table, htable, -, hmem⟩⟩
    · exact .inl ⟨memtable, hmemtable, mem_filter.mpr ⟨hmem, hin⟩⟩
    · exact .inr ⟨_, ⟨table, htable, rfl⟩,
        (Table.mem_scanned_iff .forward policy (hsel hin) rfl).mpr hmem⟩

end LsmPointReadSnapshot

namespace TreeState

variable {tree : TreeState} {readSequence : ℕ}

lemma exists_deletion_iff {deltas : List InMemoryDelta} {deletion : RangeTombstone → Prop} :
    ((∃ tombstone ∈ (tree.pointReadSnapshotWithDeltas readSequence deltas).memtableTombstones,
        deletion tombstone) ∨
      ∃ table ∈ tree.version.tables, ∃ tombstone ∈ table.rangeTombstones.all,
        deletion tombstone) ↔
      ∃ tombstone, deletion tombstone ∧ (tombstone ∈ tree.unflushedTombstones ∨
        tombstone ∈ DeltaShard.tombstones
          (if tree.deltaMirrorCovers readSequence then [] else deltas) ∨
        ∃ table ∈ tree.version.tables, tombstone ∈ table.rangeTombstones.all) := by
  simp only [mem_memtableTombstones_iff]
  constructor
  · rintro (⟨tombstone, hmem, hdeletion⟩ | ⟨table, htable, tombstone, hmem, hdeletion⟩)
    · exact ⟨tombstone, hdeletion, hmem.imp_right Or.inl⟩
    · exact ⟨tombstone, hdeletion, .inr (.inr ⟨table, htable, hmem⟩)⟩
  · rintro ⟨tombstone, hdeletion, hmem | hmem | ⟨table, htable, hmem⟩⟩
    · exact .inl ⟨tombstone, .inl hmem, hdeletion⟩
    · exact .inl ⟨tombstone, .inr hmem, hdeletion⟩
    · exact .inr ⟨table, htable, tombstone, hmem, hdeletion⟩

lemma answers_pointKeyModifiedAfter (tree : TreeState) (key : Key) (readSequence : ℕ) :
    Answers (tree.pointKeyModifiedAfter key readSequence) (tree.FindsKeyChange key readSequence) := by
  obtain ⟨records, hcollect, hmem⟩ := (tree.pointReadSnapshotForKey key readSequence)
    |>.collectPointKeyRecords_spec tree.indexSearchPolicy key
  refine answers_of_collect hcollect ?_ ?_
  · refine exists_congr fun record => ?_
    rw [hmem, pointReadSnapshotForKey, mem_memtables_iff, decide_eq_true_eq, and_right_comm,
      NewerVersionOfKey]
    refine and_congr_right fun hnewer => ?_
    rw [← hnewer.1, mem_checkedDeltas, or_assoc]
    rfl
  · simp only [← @tombstone_mem_checkedDeltas tree readSequence key, ← exists_deletion_iff]
    rw [LsmPointReadSnapshot.rangeTombstoneModifiedAfterKey, Bool.or_eq_true, any_eq_true,
      any_eq_true]
    simp only [LsmPointReadSnapshot.memtableRangeTombstones,
      RangeTombstoneIndex.coveringKey_eq_filter, mem_filter, RangeTombstoneIndex.mem_new,
      any_eq_true, decide_eq_true_eq, and_assoc]
    rfl

lemma answers_keyRangeModifiedAfter (tree : TreeState) (range : KeyRange) (readSequence : ℕ) :
    Answers (tree.keyRangeModifiedAfter range readSequence)
      (tree.FindsRangeChange range readSequence) := by
  obtain ⟨records, hcollect, hmem⟩ := (tree.pointReadSnapshot readSequence)
    |>.collectRangePointRecords_spec tree.indexSearchPolicy range
  refine answers_of_collect hcollect ?_ ?_
  · refine exists_congr fun record => ?_
    rw [hmem, pointReadSnapshot, mem_memtables_iff, decide_eq_true_eq, and_right_comm,
      NewerVersionInRange, or_assoc]
    rfl
  · rw [checkedDeltas, ← exists_deletion_iff, LsmPointReadSnapshot.rangeTombstoneModifiedAfterRange,
      Bool.or_eq_true, any_eq_true, any_eq_true]
    simp only [LsmPointReadSnapshot.memtableRangeTombstones,
      RangeTombstoneIndex.overlappingRange_eq_filter, mem_filter, RangeTombstoneIndex.mem_new,
      Table.mem_rangeTombstonesOverlappingRange, any_eq_true, decide_eq_true_eq, and_assoc]
    rfl

/-! ## When the checks are right -/

/-- For every tree, that is for every distribution of versions and range deletions over deltas,
memtables and tables, every key, every range and every sequence: the check of the key is right
exactly when among the changes, if there are any, is one that it does not pass over; and the check of
the range is right exactly when the range was changed as the check sees it. -/
theorem modifiedAfter_iff (tree : TreeState) (key : Key) (range : KeyRange) (readSequence : ℕ) :
    (Answers (tree.pointKeyModifiedAfter key readSequence) (tree.KeyChangedAfter key readSequence) ↔
      (tree.KeyChangedAfter key readSequence → tree.FindsKeyChange key readSequence)) ∧
    (Answers (tree.keyRangeModifiedAfter range readSequence)
        (tree.RangeChangedAfter range readSequence) ↔
      (tree.RangeChangedAfter range readSequence ↔ tree.FindsRangeChange range readSequence)) := by
  constructor
  · rw [(tree.answers_pointKeyModifiedAfter key readSequence).iff]
    exact ⟨Iff.mp, fun h => ⟨h, FindsKeyChange.keyChangedAfter key readSequence⟩⟩
  · exact (tree.answers_keyRangeModifiedAfter range readSequence).iff

def ofTable (table : Table) : TreeState where
  indexSearchPolicy := .auto
  deltaShards := .new
  deltaMirrorSequence := 0
  activeMemtable := .empty
  activeAddress := 0
  rangeTombstones := []
  immutableMemtables := []
  version := ⟨[⟨0, [table], fun h => absurd rfl h⟩]⟩

def rangeDeletionTable : Table where
  id := 1
  level := 0
  options := ⟨4096, .disabled, .disabled, .disabled, .uniform⟩
  residence := .written
  pointRecords := []
  rangeTombstones := RangeTombstoneIndex.new [⟨.halfOpen [97] [122], 2, 0⟩]
  sorted := by decide
  nonempty := by decide

lemma lt_of_inRange_halfOpen {start end_ key : Key}
    (h : keyIsInRange key (.halfOpen start end_) = true) : start < end_ := by
  obtain ⟨hstart, hend⟩ := keyIsInRange_iff.mp h
  simp only [KeyRange.halfOpen, keyIsBeforeStart, keyIsAfterEnd, decide_eq_false_iff_not, not_lt,
    not_le] at hstart hend
  exact lt_of_le_of_lt hstart hend

/-- A range check passes over sixteen versions of the key `a`, of which the newest has the sequence
17; a key check passes over the only change of `a`; and a range check finds a change of a range
without keys. -/
theorem checks_not_exact :
    ((ofTable TablePointCursor.hotKeyTable).keyRangeModifiedAfter ⟨.included [97], .unbounded⟩ 1 =
          .ok false ∧
        (ofTable TablePointCursor.hotKeyTable).RangeChangedAfter ⟨.included [97], .unbounded⟩ 1) ∧
      ((ofTable Table.mixedTable).pointKeyModifiedAfter [97] 0 = .ok false ∧
        (ofTable Table.mixedTable).KeyChangedAfter [97] 0) ∧
      (ofTable rangeDeletionTable).keyRangeModifiedAfter (.halfOpen [109] [99]) 0 = .ok true ∧
        ¬(ofTable rangeDeletionTable).RangeChangedAfter (.halfOpen [109] [99]) 0 := by
  have hempty : ∀ key, ¬keyIsInRange key (.halfOpen [109] [99]) = true := fun key h =>
    absurd (lt_of_inRange_halfOpen h) (by decide)
  refine ⟨⟨by decide +kernel, .inl ⟨TablePointCursor.hotVersion 17, ⟨by decide, by decide⟩, ?_⟩⟩,
    ⟨by decide +kernel, .inl ⟨Table.mixedTable.pointRecords.head (by decide),
      ⟨by decide, by decide⟩, ?_⟩⟩, by decide +kernel, ?_⟩
  · exact .inr (.inr ⟨TablePointCursor.hotKeyTable, mem_cons_self, by decide +kernel,
      trivial⟩)
  · exact .inr (.inr ⟨Table.mixedTable, mem_cons_self, by decide +kernel, trivial⟩)
  · rintro (⟨record, ⟨hin, -⟩, -⟩ | ⟨tombstone, ⟨⟨key, hin, -⟩, -⟩, -⟩)
    · exact hempty _ hin
    · exact hempty _ hin

end TreeState

end TrineKv
