import TrineKv.Lsm.Scan
import TrineKv.Lsm.PointReadSpec

/-!
# The rows of a scan

Each source of a scan returns groups of versions; together they form streams of records that are
sorted by key. The merge brings the records of one key together, and the row of the key follows
from the newest of them that the reader sees. A scan of an inverted range panics as soon as it
reads a memtable with entries.

## Main results

* `LsmTree.scan_eq`: what a scan yields.
-/

namespace TrineKv

open List
open PointRecord (batchIndex internalKey isVisible isVisible_iff stamp userKey)

/-! ## The newest version -/

def newestValue (blobs : Option BlobReader) (versions : List PointRecord)
    (tombstones : List RangeTombstone) : Except Error (Option (List UInt8)) :=
  (versions.argmin internalKey).elim (.ok none) (candidateValue blobs tombstones)

def CopiesAgree (blobs : Option BlobReader) (versions : List PointRecord) : Prop :=
  ∀ left ∈ versions, ∀ right ∈ versions,
    left.internalKey = right.internalKey → pointValue blobs left = pointValue blobs right

section Newest

variable {blobs : Option BlobReader} {versions : List PointRecord}
  {tombstones : List RangeTombstone}

lemma candidateValue_congr {left right : PointRecord}
    (hkey : left.internalKey = right.internalKey)
    (hvalue : pointValue blobs left = pointValue blobs right) :
    candidateValue blobs tombstones left = candidateValue blobs tombstones right := by
  have hkind : left.kind = right.kind := congrArg InternalKey.kind hkey
  have hstamp : left.stamp = right.stamp := by
    rw [stamp, stamp, PointRecord.sequence, batchIndex, hkey]
    rfl
  rw [candidateValue, candidateValue, hkind, hstamp, hvalue]

lemma newestValue_eq_of_isBest (hcopies : CopiesAgree blobs versions)
    {candidate : Option PointRecord}
    (h : Best.IsBest internalKey candidate versions) :
    newestValue blobs versions tombstones =
      candidate.elim (.ok none) (candidateValue blobs tombstones) := by
  rw [newestValue]
  cases candidate with
  | none =>
    have hnil : versions = [] := h
    rw [hnil]
    rfl
  | some newest =>
    cases hmin : versions.argmin internalKey with
    | none =>
      rw [argmin_eq_none.mp hmin] at h
      exact absurd h.1 not_mem_nil
    | some other =>
      have hmem := argmin_mem hmin
      have hkey : other.internalKey = newest.internalKey :=
        le_antisymm (le_of_mem_argmin h.1 hmin) (h.2 other hmem)
      exact candidateValue_congr hkey (hcopies other hmem newest h.1 hkey)

lemma isBest_argmin (versions : List PointRecord) :
    Best.IsBest internalKey (versions.argmin internalKey) versions := by
  cases hmin : versions.argmin internalKey with
  | none => exact argmin_eq_none.mp hmin
  | some newest => exact ⟨argmin_mem hmin, fun b hb => le_of_mem_argmin hb hmin⟩

lemma newestValue_congr {others : List PointRecord} {deletions : List RangeTombstone}
    (hcopies : CopiesAgree blobs versions) (hversions : ∀ record, record ∈ versions ↔ record ∈ others)
    (htombstones : ∀ tombstone, tombstone ∈ tombstones ↔ tombstone ∈ deletions) :
    newestValue blobs versions tombstones = newestValue blobs others deletions := by
  have hcandidate : candidateValue blobs tombstones = candidateValue blobs deletions := by
    funext record
    rw [candidateValue, candidateValue]
    simp only [htombstones]
  rw [newestValue_eq_of_isBest hcopies ((isBest_argmin others).congr fun r => (hversions r).symm),
    newestValue, hcandidate]

lemma newestValue_append_covered {key : Key} {covered : List PointRecord}
    (hcopies : CopiesAgree blobs (versions ++ covered))
    (hkey : ∀ record ∈ versions ++ covered, record.userKey = key)
    (hcovered : ∀ record ∈ covered, ∃ tombstone ∈ tombstones, record.stamp < tombstone.stamp) :
    newestValue blobs (versions ++ covered) tombstones = newestValue blobs versions tombstones := by
  have hsub : CopiesAgree blobs versions := fun left hl right hr =>
    hcopies left (mem_append_left _ hl) right (mem_append_left _ hr)
  cases hmin : (versions ++ covered).argmin internalKey with
  | none =>
    have hnil := argmin_eq_none.mp hmin
    rw [hnil, (append_eq_nil_iff.mp hnil).1]
  | some newest =>
    have hbest := isBest_argmin (versions ++ covered)
    rw [hmin] at hbest
    rw [newestValue, hmin]
    rcases mem_append.mp hbest.1 with hmem | hmem
    · have hfirst : Best.IsBest internalKey (some newest) versions :=
        ⟨hmem, fun b hb => hbest.2 b (mem_append_left _ hb)⟩
      exact (newestValue_eq_of_isBest hsub hfirst).symm
    · -- The newest version is covered, and so are the older ones.
      obtain ⟨tombstone, htombstone, hlt⟩ := hcovered newest hmem
      have hnone : ∀ record ∈ versions ++ covered,
          candidateValue blobs tombstones record = .ok none := by
        intro record hrecord
        have hle := stamp_le_of_internalKey_le
          ((hkey newest hbest.1).trans (hkey record hrecord).symm) (hbest.2 record hrecord)
        exact if_neg fun h => h.2 tombstone htombstone (hle.trans_lt hlt)
      rw [newestValue]
      cases hfirst : versions.argmin internalKey with
      | none => exact hnone newest hbest.1
      | some record =>
        show candidateValue blobs tombstones newest = candidateValue blobs tombstones record
        rw [hnone newest hbest.1,
          hnone record (mem_append_left _ (argmin_mem hfirst))]

end Newest

/-! ## Streams -/

def Oriented (direction : Direction) (records : List PointRecord) : Prop :=
  records.Pairwise fun left right => ¬direction.precedes right.userKey left.userKey

lemma oriented_orient {records : List PointRecord} (h : KeysAscend records)
    (direction : Direction) : Oriented direction (direction.orient records) := by
  cases direction with
  | forward => exact h.imp fun h => not_lt.mpr h
  | reverse => exact pairwise_reverse.mpr (h.imp fun h => not_lt.mpr h)

def groupsOf (records : List PointRecord) : List RecordGroup :=
  (Grouping.runs userKey records).map groupOfRun

section Groups

variable {direction : Direction} {records : List PointRecord}

lemma Oriented.groupsOf_eq (h : Oriented direction records) :
    groupsOf records = ((records.map userKey).dedup).map fun key =>
      groupOfRun (key, records.filter fun record => record.userKey = key) := by
  rw [groupsOf, Grouping.runs_eq_of_sorted
    (r := fun left right => ¬direction.precedes right left) h, map_map]
  rfl

lemma Oriented.pairwise_groupsOf (h : Oriented direction records) :
    (groupsOf records).Pairwise fun left right =>
      direction.precedes left.userKey right.userKey := by
  rw [h.groupsOf_eq, pairwise_map]
  have hkeys : (records.map userKey).Pairwise
      fun left right => ¬direction.precedes right left := pairwise_map.mpr h
  refine ((hkeys.sublist (dedup_sublist _)).and (nodup_dedup _)).imp ?_
  intro left right hboth
  rcases trichotomous_of direction.precedes left right with hlt | heq | hgt
  · exact hlt
  · exact absurd heq hboth.2
  · exact absurd hgt hboth.1

lemma Oriented.exists_group_iff (h : Oriented direction records) {key : Key} :
    (∃ group ∈ groupsOf records, group.userKey = key) ↔
      ∃ record ∈ records, record.userKey = key := by
  rw [h.groupsOf_eq]
  simp [groupOfRun]

lemma Oriented.mem_find?_groupsOf (h : Oriented direction records) {key : Key}
    {record : PointRecord} :
    (∃ group, (groupsOf records).find? (fun group => group.userKey = key) = some group ∧
      record ∈ group.records) ↔ record ∈ records ∧ record.userKey = key := by
  have hfind : (groupsOf records).find? (fun group => group.userKey = key) =
      if key ∈ records.map userKey then
        some (groupOfRun (key, records.filter fun record => record.userKey = key)) else none := by
    rw [h.groupsOf_eq, List.find?_map]
    have hpred : ((fun group : RecordGroup => decide (group.userKey = key)) ∘ fun key =>
        groupOfRun (key, records.filter fun record => record.userKey = key)) =
          fun k => decide (k = key) := rfl
    rw [hpred]
    split_ifs with hmem
    · rw [List.find?_eq_some_iff_append.mpr]
      · rfl
      · refine ⟨by simp, ?_⟩
        obtain ⟨front, back, hsplit⟩ := append_of_mem (mem_dedup.mpr hmem)
        refine ⟨front, back, hsplit, fun k hk => ?_⟩
        have hnodup := nodup_dedup (records.map userKey)
        rw [hsplit] at hnodup
        have hne : k ≠ key := fun heq =>
          (nodup_append.mp hnodup).2.2 k hk key mem_cons_self heq
        simpa using hne
    · rw [List.find?_eq_none.mpr]
      · rfl
      · intro k hk
        simp only [decide_eq_true_eq]
        rintro rfl
        exact hmem (mem_dedup.mp hk)
  rw [hfind]
  split_ifs with hmem
  · simp [groupOfRun]
  · simp only [false_and, exists_false, false_iff, not_and]
    intro hrecord hkey
    exact hmem (mem_map.mpr ⟨record, hrecord, hkey⟩)

end Groups

/-! ## What the sources return -/

/-- The entries of a memtable that a cursor returns, in its order. -/
def Memtable.scanned (memtable : Memtable) (selector : ScanSelector) (direction : Direction) :
    List PointRecord :=
  direction.orient (selector.selected memtable.entries)

lemma RecordCursor.yields_memtable {cursor : MemtableCursor} {groups : List RecordGroup}
    (h : Stream.Yields MemtableCursor.nextGroup cursor groups) :
    Stream.Yields RecordCursor.nextGroup (.memtable cursor) groups := by
  induction h with
  | done h => exact .done (by rw [RecordCursor.nextGroup, h])
  | step h _ ih => exact .step (by rw [RecordCursor.nextGroup, h]) ih

lemma RecordCursor.yields_table {cursor : TablePointCursor} {groups : List RecordGroup}
    (h : Stream.Yields TablePointCursor.nextGroup cursor groups) :
    Stream.Yields RecordCursor.nextGroup (.table cursor) groups := by
  induction h with
  | done h => exact .done (by rw [RecordCursor.nextGroup, h])
  | step h _ ih => exact .step (by rw [RecordCursor.nextGroup, h]) ih

namespace LsmTree

variable (tree : LsmTree) (selector : ScanSelector) (direction : Direction) (readSequence : ℕ)

def scanPanics : Bool :=
  rangeInverted selector.queryRange &&
    (tree.scanMemtables readSequence).any fun memtable => !memtable.entries.isEmpty

def scanStreams : List (List PointRecord) :=
  ((tree.scanMemtables readSequence).map fun memtable => memtable.scanned selector direction) ++
    (tree.scanTables selector readSequence).map fun table =>
      table.scanned selector direction tree.indexSearchPolicy

lemma forall₂_scanSources (h : tree.scanPanics selector readSequence = false) :
    List.Forall₂ (fun cursor stream =>
        Stream.Yields RecordCursor.nextGroup cursor (groupsOf stream) ∧
          Oriented direction stream ∧ stream.length ≤ cursor.records.length)
      (tree.scanSources selector direction readSequence)
      (tree.scanStreams selector direction readSequence) := by
  refine rel_append ?_ ?_
  · rw [List.forall₂_map_left_iff, List.forall₂_map_right_iff, List.forall₂_same]
    intro memtable hmem
    have hok : rangeInverted selector.queryRange = false ∨ memtable.entries = [] := by
      rw [scanPanics, Bool.and_eq_false_iff, any_eq_false] at h
      exact h.imp_right fun h => by simpa using h memtable hmem
    refine ⟨RecordCursor.yields_memtable (MemtableCursor.yields_new memtable selector direction hok),
      oriented_orient (memtable.sorted.keysAscend.sublist filter_sublist) direction, ?_⟩
    rw [Memtable.scanned, Direction.length_orient]
    exact length_filter_le _ _
  · rw [List.forall₂_map_left_iff, List.forall₂_map_right_iff, List.forall₂_same]
    intro table _
    refine ⟨RecordCursor.yields_table (TablePointCursor.yields_new table selector _ _ direction),
      (oriented_orient (table.sorted.keysAscend.sublist filter_sublist) direction).sublist
        (table.scanned_sublist selector direction _), ?_⟩
    exact table.length_scanned_le selector direction _

def scanRecords : List PointRecord := (tree.scanStreams selector direction readSequence).flatten

lemma length_scanRecords_lt (h : tree.scanPanics selector readSequence = false) :
    (tree.scanRecords selector direction readSequence).length <
      scanFuel (tree.scanSources selector direction readSequence) := by
  have hall := tree.forall₂_scanSources selector direction readSequence h
  rw [scanRecords, scanFuel, Nat.lt_succ_iff]
  generalize tree.scanSources selector direction readSequence = sources at hall ⊢
  generalize tree.scanStreams selector direction readSequence = streams at hall ⊢
  induction hall with
  | nil => exact Nat.le_refl 0
  | cons hhead _ ih =>
    rw [flatten_cons, flatMap_cons, length_append, length_append]
    exact Nat.add_le_add hhead.2.2 ih

def scanKeys : List Key :=
  ((tree.scanRecords selector direction readSequence).map userKey).dedup.insertionSort
    fun left right => ¬direction.precedes right left

lemma pairwise_scanKeys :
    (tree.scanKeys selector direction readSequence).Pairwise direction.precedes := by
  have hnodup : (tree.scanKeys selector direction readSequence).Nodup :=
    (perm_insertionSort _ _).nodup_iff.mpr (nodup_dedup _)
  have hsorted := pairwise_insertionSort
    (fun left right => ¬direction.precedes right left)
    ((tree.scanRecords selector direction readSequence).map userKey).dedup
  refine (hsorted.and hnodup).imp fun {left right} hboth => ?_
  rcases trichotomous_of direction.precedes left right with hlt | heq | hgt
  · exact hlt
  · exact absurd heq hboth.2
  · exact absurd hgt hboth.1

lemma mem_scanKeys {key : Key} :
    key ∈ tree.scanKeys selector direction readSequence ↔
      ∃ record ∈ tree.scanRecords selector direction readSequence, record.userKey = key := by
  rw [scanKeys, mem_insertionSort, mem_dedup, mem_map]

lemma length_scanKeys_le :
    (tree.scanKeys selector direction readSequence).length ≤
      (tree.scanRecords selector direction readSequence).length := by
  rw [scanKeys, length_insertionSort]
  exact (dedup_sublist _).length_le.trans (by rw [length_map])

lemma exists_merge (h : tree.scanPanics selector readSequence = false) :
    ∃ merge, ∃ groups : Key → List RecordGroup,
      KWayMerge.start direction.precedes RecordCursor.nextGroup RecordGroup.userKey
        ((tree.scanSources selector direction readSequence).map fun cursor => ⟨cursor, none⟩) =
          .ok merge ∧
      Stream.Yields
        (KWayMerge.nextKey direction.precedes RecordCursor.nextGroup RecordGroup.userKey) merge
        ((tree.scanKeys selector direction readSequence).map fun key => (key, groups key)) ∧
      ∀ key record, record ∈ (groups key).flatMap RecordGroup.records ↔
        record ∈ tree.scanRecords selector direction readSequence ∧ record.userKey = key := by
  have hall := tree.forall₂_scanSources selector direction readSequence h
  set sources := tree.scanSources selector direction readSequence
  set streams := tree.scanStreams selector direction readSequence with hstreams
  obtain ⟨hlen, hget⟩ := List.forall₂_iff_get.mp hall
  have hsource : ∀ i (hi : i < streams.length), ∃ cursor, sources[i]? = some cursor ∧
      Stream.Yields RecordCursor.nextGroup cursor (groupsOf streams[i]) ∧
        Oriented direction streams[i] := by
    intro i hi
    have := hget i (hlen ▸ hi) hi
    exact ⟨sources[i], List.getElem?_eq_getElem _, this.1, this.2.1⟩
  set held : ℕ → List RecordGroup := fun i => groupsOf (streams.getD i []) with hheld
  have hgetD : ∀ i (hi : i < streams.length), streams.getD i [] = streams[i] := by
    intro i hi
    rw [getD_eq_getElem?_getD, List.getElem?_eq_getElem hi]
    rfl
  have horiented : ∀ i, Oriented direction (streams.getD i []) := by
    intro i
    by_cases hi : i < streams.length
    · rw [hgetD i hi]
      exact (hsource i hi).choose_spec.2.2
    · have hnil : streams.getD i [] = [] := by
        rw [getD_eq_getElem?_getD, List.getElem?_eq_none (by omega)]
        rfl
      rw [hnil]
      exact List.Pairwise.nil
  obtain ⟨merge, hmerge, hcount, hholds⟩ := @KWayMerge.start_spec _ _ _ _ _ direction.precedes _
    RecordCursor.nextGroup RecordGroup.userKey _ held sources (fun i cursor hcursor => by
      have hi : i < streams.length := hlen ▸ (List.getElem?_eq_some_iff.mp hcursor).1
      obtain ⟨c, hc, hyields, -⟩ := hsource i hi
      rw [hcursor] at hc
      rw [Option.some.inj hc, hheld]
      simp only [hgetD i hi]
      exact hyields)
  have hmem : ∀ (p : PointRecord → Prop), (∃ i < streams.length, ∃ record ∈ streams.getD i [],
      p record) ↔ ∃ record ∈ streams.flatten, p record := by
    intro p
    constructor
    · rintro ⟨i, hi, record, hrecord, hp⟩
      rw [hgetD i hi] at hrecord
      exact ⟨record, mem_flatten.mpr ⟨_, getElem_mem hi, hrecord⟩, hp⟩
    · rintro ⟨record, hrecord, hp⟩
      obtain ⟨stream, hstream, hrecord⟩ := mem_flatten.mp hrecord
      obtain ⟨i, hi, rfl⟩ := mem_iff_getElem.mp hstream
      exact ⟨i, hi, record, by rwa [hgetD i hi], hp⟩
  refine ⟨merge, _, hmerge, KWayMerge.yields_nextKey (tree.pairwise_scanKeys selector direction
    readSequence) hholds (fun i => (horiented i).pairwise_groupsOf) (fun key => ?_),
    fun key record => ?_⟩
  · rw [mem_scanKeys, scanRecords, ← hstreams, ← hmem, hcount, hlen]
    exact exists_congr fun i => and_congr_right fun _ => (horiented i).exists_group_iff.symm
  · simp only [mem_flatMap, KWayMerge.groupsWith, mem_filterMap, mem_range, hcount,
      hlen]
    rw [scanRecords, ← hstreams]
    constructor
    · rintro ⟨group, ⟨i, hi, hfind⟩, hrecord⟩
      obtain ⟨hin, hkey⟩ := (horiented i).mem_find?_groupsOf.mp ⟨group, hfind, hrecord⟩
      obtain ⟨r, hr, rfl⟩ := (hmem (· = record)).mp ⟨i, hi, record, hin, rfl⟩
      exact ⟨hr, hkey⟩
    · rintro ⟨hin, hkey⟩
      obtain ⟨i, hi, r, hr, rfl⟩ := (hmem (· = record)).mpr ⟨record, hin, rfl⟩
      obtain ⟨group, hfind, hgroup⟩ := (horiented i).mem_find?_groupsOf.mpr ⟨hr, hkey⟩
      exact ⟨group, ⟨i, hi, hfind⟩, hgroup⟩

end LsmTree

/-! ## Rows -/

def rowOf (key : Key) : Except Error (Option (List UInt8)) → Option ScanRow
  | .ok none => none
  | .ok (some bytes) => some (key, .ok bytes)
  | .error error => some (key, .error error)

lemma rowOf_eq_some_iff {key : Key} {answer : Except Error (Option (List UInt8))} {row : ScanRow} :
    rowOf key answer = some row ↔ row.1 = key ∧ answer = row.2.map some := by
  obtain ⟨rowKey, value⟩ := row
  rcases answer with error | _ | bytes <;> cases value <;>
    simp [rowOf, Except.map, eq_comm]

/-- A scan looks at the version. -/
def PointRecord.isScanned (key : Key) (readSequence : ℕ) (record : PointRecord) : Bool :=
  record.isVisible key readSequence && decide (record.kind ≠ .rangeDelete)

section Row

variable {blobs : Option BlobReader} {key : Key} {readSequence : ℕ}

/-- The row of a key, given its versions from the newest one on, follows from the first one that
the scan looks at. -/
lemma visibleLazyItemFromSortedRecords_eq (tombstones : RangeTombstoneIndex)
    {records : List PointRecord} (hkey : ∀ record ∈ records, record.userKey = key) :
    visibleLazyItemFromSortedRecords blobs tombstones readSequence records =
      rowOf key ((records.find? fun record => record.isScanned key readSequence).elim (.ok none)
        (candidateValue blobs
          (tombstones.all.filter fun tombstone => tombstone.isVisible key readSequence))) := by
  induction records with
  | nil => rfl
  | cons record records ih =>
    have hrecord := hkey record mem_cons_self
    have htail := ih fun r hr => hkey r (mem_cons_of_mem _ hr)
    rw [visibleLazyItemFromSortedRecords]
    by_cases hlate : readSequence < record.sequence
    · have hnot : record.isScanned key readSequence = false := by
        simp [PointRecord.isScanned, isVisible, hlate]
      rw [if_pos hlate, List.find?_cons_of_neg (by simp [hnot]), htail]
    · have hvisible : record.isVisible key readSequence = true :=
        isVisible_iff.mpr ⟨hrecord, not_lt.mp hlate⟩
      rw [if_neg hlate]
      cases hkind : record.kind with
      | put =>
        rw [List.find?_cons_of_pos (by simp [PointRecord.isScanned, hvisible, hkind])]
        simp only [Option.elim_some, candidateValue, hkind, true_and, hrecord]
        have hcover := @rangeTombstonesCover_iff key readSequence record tombstones
        by_cases hcovered : rangeTombstonesCover tombstones key record.sequence
            record.batchIndex readSequence = true
        · obtain ⟨t, ht, hvis, hlt⟩ := hcover.mp hcovered
          rw [if_pos hcovered, if_neg]
          · rfl
          · exact fun h => h t (mem_filter.mpr ⟨ht, hvis⟩) hlt
        · rw [if_neg hcovered, if_pos]
          · cases pointValue blobs record <;> rfl
          · intro t ht hlt
            obtain ⟨ht, hvis⟩ := mem_filter.mp ht
            exact hcovered (hcover.mpr ⟨t, ht, hvis, hlt⟩)
      | pointDelete =>
        rw [List.find?_cons_of_pos (by simp [PointRecord.isScanned, hvisible, hkind])]
        simp [candidateValue, hkind, rowOf]
      | rangeDelete =>
        rw [List.find?_cons_of_neg (by simp [PointRecord.isScanned, hkind])]
        exact htail

end Row

namespace LsmTree

variable (tree : LsmTree) (selector : ScanSelector) (direction : Direction) (readSequence : ℕ)

def scannedVersions (key : Key) : List PointRecord :=
  (tree.scanRecords selector direction readSequence).filter
    fun record => record.isScanned key readSequence

def scannedTombstones (key : Key) : List RangeTombstone :=
  (tree.scanRangeTombstones selector readSequence).all.filter
    fun tombstone => tombstone.isVisible key readSequence

def scannedValue (key : Key) : Except Error (Option (List UInt8)) :=
  newestValue tree.blobs (tree.scannedVersions selector direction readSequence key)
    (tree.scannedTombstones selector readSequence key)

lemma scanRecords_subset :
    tree.scanRecords selector direction readSequence ⊆
      tree.versions := by
  intro record h
  obtain ⟨stream, hstream, hrecord⟩ := mem_flatten.mp h
  simp only [TreeState.versions, mem_append, mem_flatMap]
  rcases mem_append.mp hstream with hstream | hstream
  · obtain ⟨memtable, hmemtable, rfl⟩ := mem_map.mp hstream
    have hentry : record ∈ memtable.entries :=
      (mem_filter.mp (Direction.mem_orient.mp hrecord)).1
    simp only [scanMemtables, mem_append, mem_map, mem_filter,
      mem_singleton] at hmemtable
    rcases hmemtable with (⟨delta, ⟨hdelta, -⟩, rfl⟩ | rfl) | ⟨immutable, himmutable, rfl⟩
    · refine .inl (Or.inr ⟨delta, ?_, hentry⟩)
      simp only [TreeState.pointReadSnapshot, TreeState.pointReadSnapshotWithDeltas] at hdelta
      split_ifs at hdelta
      · simp at hdelta
      · exact hdelta
    · exact .inl (Or.inl (Or.inl hentry))
    · exact .inl (Or.inl (Or.inr ⟨immutable, himmutable, hentry⟩))
  · obtain ⟨table, htable, rfl⟩ := mem_map.mp hstream
    have hscan := (mem_filter.mp htable).1
    refine .inr ⟨table, (LsmVersion.mem_rangeScanTables.mp hscan).1, ?_⟩
    have := (table.scanned_sublist selector direction _).subset hrecord
    exact (mem_filter.mp (Direction.mem_orient.mp this)).1

/-- The rows of a scan: one for each key of the sources whose newest version is a put that is not
deleted, in the order of the direction.

**Proof sketch.** The merge returns for each key the groups of all sources; sorted by internal
key, the first version that the scan looks at is the newest one. -/
theorem scan_eq (h : tree.scanPanics selector readSequence = false) :
    tree.scan selector direction readSequence =
      .ok ((tree.scanKeys selector direction readSequence).filterMap fun key =>
        rowOf key (tree.scannedValue selector direction readSequence key)) := by
  obtain ⟨merge, groups, hmerge, hyields, hgroups⟩ :=
    tree.exists_merge selector direction readSequence h
  have hfuel := tree.length_scanRecords_lt selector direction readSequence h
  have hkeys := tree.length_scanKeys_le selector direction readSequence
  rw [scan, hmerge]
  have hkept := hyields.nextKept (visibleLazyItemFromGroups tree.blobs
    (tree.scanRangeTombstones selector readSequence) readSequence)
    (show _ < scanFuel (tree.scanSources selector direction readSequence) by
      rw [length_map]
      omega)
  have hrows : (((tree.scanKeys selector direction readSequence).map
      fun key => (key, groups key)).filterMap (visibleLazyItemFromGroups tree.blobs
        (tree.scanRangeTombstones selector readSequence) readSequence)) =
      (tree.scanKeys selector direction readSequence).filterMap fun key =>
        rowOf key (tree.scannedValue selector direction readSequence key) := by
    rw [filterMap_map]
    refine filterMap_congr fun key _ => ?_
    set sorted := ((groups key).flatMap RecordGroup.records).insertionSort internalKeyLe with hsort
    have hmem : ∀ record, record ∈ sorted ↔
        record ∈ tree.scanRecords selector direction readSequence ∧ record.userKey = key := by
      intro record
      rw [hsort, mem_insertionSort, hgroups]
    have hbest : Best.IsBest internalKey
        (sorted.find? fun record => record.isScanned key readSequence)
        (sorted.filter fun record => record.isScanned key readSequence) :=
      Best.isBest_find? (pairwise_insertionSort internalKeyLe _) _
    have hversions : ∀ record, record ∈ sorted.filter (fun record =>
        record.isScanned key readSequence) ↔
          record ∈ tree.scannedVersions selector direction readSequence key := by
      intro record
      rw [scannedVersions, mem_filter, mem_filter, hmem]
      refine ⟨fun hr => ⟨hr.1.1, hr.2⟩, fun hr => ⟨⟨hr.1, ?_⟩, hr.2⟩⟩
      exact (isVisible_iff.mp (Bool.and_eq_true_iff.mp hr.2).1).1
    have hcopies : CopiesAgree tree.blobs
        (tree.scannedVersions selector direction readSequence key) := fun left hl right hr =>
      tree.copies_agree left (tree.scanRecords_subset _ _ _ (mem_filter.mp hl).1)
        right (tree.scanRecords_subset _ _ _ (mem_filter.mp hr).1)
    rw [Function.comp_apply, visibleLazyItemFromGroups, scannedValue,
      newestValue_eq_of_isBest hcopies (hbest.congr hversions)]
    exact visibleLazyItemFromSortedRecords_eq _ fun record hrecord => ((hmem record).mp hrecord).2
  rw [hrows] at hkept
  refine hkept.drain_eq _ (lt_of_le_of_lt (length_filterMap_le _ _) ?_)
  omega

theorem scan_of_inverted (h : tree.scanPanics selector readSequence = true) :
    tree.scan selector direction readSequence = .error .rangePanic := by
  rw [scanPanics, Bool.and_eq_true, any_eq_true] at h
  obtain ⟨hinverted, memtable, hmem, hne⟩ := h
  set memtables := tree.scanMemtables readSequence with hmemtables
  have hexists : ∃ i : ℕ, ∃ m : Memtable, memtables[i]? = some m ∧ m.entries ≠ [] := by
    obtain ⟨i, hi⟩ := mem_iff_getElem?.mp hmem
    exact ⟨i, memtable, hi, by simpa using hne⟩
  classical
  -- The first memtable with entries.
  obtain ⟨first, hfirst, hentries⟩ := Nat.find_spec hexists
  have hbefore : ∀ j < Nat.find hexists, ∀ m, memtables[j]? = some m → m.entries = [] := by
    intro j hj m hm
    by_contra hnonempty
    exact Nat.find_min hexists hj ⟨m, hm, hnonempty⟩
  have hsource : ∀ (j : ℕ) (m : Memtable), memtables[j]? = some m →
      (tree.scanSources selector direction readSequence)[j]? =
        some (RecordCursor.memtable (.new m selector direction)) := by
    intro j m hm
    have hlt : j < (memtables.map fun memtable =>
        RecordCursor.memtable (.new memtable selector direction)).length := by
      rw [length_map]
      exact (List.getElem?_eq_some_iff.mp hm).1
    rw [scanSources, ← hmemtables, List.getElem?_append_left hlt, List.getElem?_map, hm]
    rfl
  have herror := @KWayMerge.start_error _ _ _ _ _ direction.precedes _ RecordCursor.nextGroup
    RecordGroup.userKey _ _ _ _ (hsource _ first hfirst)
    (show RecordCursor.nextGroup (.memtable (.new first selector direction)) =
        .error .rangePanic by
      rw [RecordCursor.nextGroup,
        MemtableCursor.nextGroup_new_of_inverted direction hinverted hentries])
    (fun j hj c hc => by
      have hlt : Nat.find hexists < memtables.length := (List.getElem?_eq_some_iff.mp hfirst).1
      have hm := List.getElem?_eq_getElem (show j < memtables.length by omega)
      rw [hsource j _ hm] at hc
      rw [← Option.some.inj hc]
      exact (RecordCursor.yields_memtable (MemtableCursor.yields_new memtables[j] selector
        direction (Or.inr (hbefore j hj _ hm)))).exists_ok)
  rw [scan, herror]
  rfl

end LsmTree

end TrineKv
