import Mathlib.Data.List.MinMax
import TrineKv.Keys.Selector
import TrineKv.Lib.Chunks
import TrineKv.Table.Filter

/-!
# Tables as the table writer lays them out

The writer cuts the sorted records into data blocks of about `blockBytes` bytes, gives every block
its filters, groups the block index into partitions of 128 blocks, and records the span of keys and
the largest sequence. A table is what it holds and its options; blocks, index, filters and
properties are functions of these. Encoding, checksums, compression and blob extraction are left
out.

## Main results

* `Table.flatMap_dataBlocks`, `Table.userKey_between`, `Table.tombstone_between`,
  `Table.keyBounds_of_unbounded`.
-/

namespace TrineKv

open List
open PointRecord (userKey)

variable {tombstones : List RangeTombstone} {record : PointRecord} {tombstone : RangeTombstone}

/-! ## Write options -/

inductive FilterPolicy where
  | disabled
  | bloom (bitsPerKey : ℕ)
  deriving DecidableEq, Repr

inductive PrefixFilterPolicy where
  | disabled
  | bloom (bitsPerPrefix : ℕ)
  deriving DecidableEq, Repr

/-- How the filter budget changes with the level. -/
inductive FilterDepthCurve where
  | auto
  | uniform
  | custom (step floor : ℕ)
  | costWeighted (step ceil : ℕ)
  deriving DecidableEq, Repr

structure TableWriteOptions where
  blockBytes : ℕ
  filterPolicy : FilterPolicy
  prefixExtractor : PrefixExtractor
  prefixFilterPolicy : PrefixFilterPolicy
  filterDepthCurve : FilterDepthCurve
  deriving DecidableEq, Repr

def dataBlockRestartInterval : ℕ := 16

def indexPartitionTargetEntries : ℕ := 128

def pinnedReadMetadataMaxLevel : ℕ := 1

/-- Tables of the shallow levels keep whole-table filters in memory. -/
def shouldPinReadMetadata (level : ℕ) : Bool :=
  decide (level ≤ pinnedReadMetadataMaxLevel)

/-- Bits per filter element at a level, in 8-bit saturating arithmetic. -/
def levelAdjustedFilterBits (curve : FilterDepthCurve) (base level : ℕ) : ℕ :=
  let depth := min (level - pinnedReadMetadataMaxLevel) 255
  match curve with
  | .uniform => base
  | .auto => max (base - min (2 * depth) 255) (min 4 base)
  | .custom step floor => max (base - min (step * depth) 255) (min floor base)
  | .costWeighted step ceil => min (min (base + min (step * depth) 255) 255) (max ceil base)

def buildPointKeyFilter (options : TableWriteOptions) (records : List PointRecord)
    (level : ℕ) : Option PointKeyFilter :=
  match options.filterPolicy with
  | .disabled => none
  | .bloom bitsPerKey =>
    some (PointKeyFilter.fromKeys (records.map userKey)
      (levelAdjustedFilterBits options.filterDepthCurve bitsPerKey level))

def buildPrefixFilter (options : TableWriteOptions) (records : List PointRecord)
    (level : ℕ) : Option PrefixFilter :=
  match options.prefixFilterPolicy with
  | .disabled => none
  | .bloom bitsPerPrefix =>
    PrefixFilter.fromKeys options.prefixExtractor (records.map userKey)
      (levelAdjustedFilterBits options.filterDepthCurve bitsPerPrefix level)

lemma buildPointKeyFilter_allows {options : TableWriteOptions} {records : List PointRecord}
    {level : ℕ} (hmem : record ∈ records) (filter : PointKeyFilter)
    (h : buildPointKeyFilter options records level = some filter) :
    filter.mayContainKey record.userKey = true := by
  unfold buildPointKeyFilter at h
  cases hp : options.filterPolicy with
  | disabled => simp [hp] at h
  | bloom bits =>
    simp only [hp, Option.some.injEq] at h
    rw [← h]
    exact PointKeyFilter.mayContainKey_fromKeys _ (mem_map_of_mem hmem)

lemma buildPrefixFilter_allows {options : TableWriteOptions} {records : List PointRecord}
    {level : ℕ} {record : PointRecord} {queryPrefix : Key} (extractor : PrefixExtractor)
    (hmem : record ∈ records) (hpre : queryPrefix <+: record.userKey) :
    PrefixFilter.result (buildPrefixFilter options records level) queryPrefix extractor ≠
      some false := by
  unfold buildPrefixFilter
  cases options.prefixFilterPolicy with
  | disabled => simp [PrefixFilter.result]
  | bloom bits => exact PrefixFilter.result_fromKeys_ne_false _ (mem_map_of_mem hmem) hpre

/-! ## Data blocks -/

def internalKeyEncodedLen (key : InternalKey) : ℕ :=
  4 + key.userKey.length + 8 + 1 + 4

def valueRefEncodedLen : Option ValueRef → ℕ
  | none => 1
  | some (.inline bytes) => 1 + 4 + bytes.length
  | some (.blobIndex _) => 1 + 8 + 8 + 8 + 8 + 4 + 4 + 1

def pointRecordEncodedLen (record : PointRecord) : ℕ :=
  internalKeyEncodedLen record.internalKey + valueRefEncodedLen record.value

structure TableDataBlock where
  first : PointRecord
  rest : List PointRecord
  pointKeyFilter : Option PointKeyFilter
  prefixFilter : Option PrefixFilter
  deriving DecidableEq, Repr

namespace TableDataBlock

def records (block : TableDataBlock) : List PointRecord :=
  block.first :: block.rest

def last (block : TableDataBlock) : PointRecord :=
  block.rest.getLastD block.first

def smallestInternalKey (block : TableDataBlock) : InternalKey :=
  block.first.internalKey

def largestInternalKey (block : TableDataBlock) : InternalKey :=
  block.last.internalKey

def smallestUserKey (block : TableDataBlock) : Key :=
  block.smallestInternalKey.userKey

def largestUserKey (block : TableDataBlock) : Key :=
  block.largestInternalKey.userKey

def overlapsRange (block : TableDataBlock) (range : KeyRange) : Bool :=
  !keyIsAfterEnd block.smallestUserKey range.end_ &&
    !keyIsBeforeStart block.largestUserKey range.start

def keyBoundsMayContain (block : TableDataBlock) (key : Key) : Bool :=
  decide (block.smallestUserKey ≤ key) && decide (key ≤ block.largestUserKey)

def pointFilterResult (block : TableDataBlock) (key : Key) : Option Bool :=
  block.pointKeyFilter.map fun filter => filter.mayContainKey key

def prefixFilterResult (block : TableDataBlock) (pref : Key) (extractor : PrefixExtractor) :
    Option Bool :=
  PrefixFilter.result block.prefixFilter pref extractor

def prefixBoundsMayOverlap (block : TableDataBlock) (pref : Key) : Bool :=
  decide (pref ≤ block.largestUserKey) &&
    (pref.isPrefixOf block.smallestUserKey || decide (block.smallestUserKey ≤ pref))

lemma first_mem (block : TableDataBlock) : block.first ∈ block.records :=
  mem_cons_self

lemma last_mem (block : TableDataBlock) : block.last ∈ block.records :=
  getLastD_mem_cons

end TableDataBlock

def buildDataBlock (options : TableWriteOptions) (level : ℕ) (first : PointRecord)
    (rest : List PointRecord) : TableDataBlock :=
  { first, rest
    pointKeyFilter := buildPointKeyFilter options (first :: rest) level
    prefixFilter := buildPrefixFilter options (first :: rest) level }

/-- `first :: rest` is the open block. A record that would overflow it starts the next one. -/
def buildDataBlocksLoop (options : TableWriteOptions) (level : ℕ) :
    PointRecord → List PointRecord → ℕ → List PointRecord → List TableDataBlock
  | first, rest, _, [] => [buildDataBlock options level first rest]
  | first, rest, estimatedLen, next :: records =>
    if options.blockBytes < estimatedLen + pointRecordEncodedLen next then
      buildDataBlock options level first rest ::
        buildDataBlocksLoop options level next [] (pointRecordEncodedLen next) records
    else
      buildDataBlocksLoop options level first (rest ++ [next])
        (estimatedLen + pointRecordEncodedLen next) records

def buildDataBlocks (options : TableWriteOptions) (level : ℕ) :
    List PointRecord → List TableDataBlock
  | [] => []
  | record :: records =>
    buildDataBlocksLoop options level record [] (pointRecordEncodedLen record) records

lemma flatMap_buildDataBlocksLoop (options : TableWriteOptions) (level : ℕ)
    (records : List PointRecord) :
    ∀ first rest estimatedLen,
      (buildDataBlocksLoop options level first rest estimatedLen records).flatMap
        TableDataBlock.records = first :: rest ++ records := by
  induction records with
  | nil =>
    intro first rest estimatedLen
    simp [buildDataBlocksLoop, buildDataBlock, TableDataBlock.records]
  | cons next records ih =>
    intro first rest estimatedLen
    rw [buildDataBlocksLoop]
    split_ifs with h
    · rw [flatMap_cons, ih]
      simp [buildDataBlock, TableDataBlock.records]
    · rw [ih]
      simp

lemma flatMap_buildDataBlocks (options : TableWriteOptions) (level : ℕ)
    (records : List PointRecord) :
    (buildDataBlocks options level records).flatMap TableDataBlock.records = records := by
  cases records with
  | nil => rfl
  | cons record records => exact flatMap_buildDataBlocksLoop options level records record [] _

lemma mem_buildDataBlocksLoop (options : TableWriteOptions) (level : ℕ)
    (records : List PointRecord) :
    ∀ first rest estimatedLen block,
      block ∈ buildDataBlocksLoop options level first rest estimatedLen records →
        block = buildDataBlock options level block.first block.rest := by
  induction records with
  | nil =>
    intro first rest estimatedLen block hmem
    obtain rfl : block = buildDataBlock options level first rest := by
      simpa [buildDataBlocksLoop] using hmem
    rfl
  | cons next records ih =>
    intro first rest estimatedLen block hmem
    rw [buildDataBlocksLoop] at hmem
    split_ifs at hmem with h
    · rcases mem_cons.mp hmem with rfl | hmem
      · rfl
      · exact ih _ _ _ _ hmem
    · exact ih _ _ _ _ hmem

lemma mem_buildDataBlocks {options : TableWriteOptions} {level : ℕ} {records : List PointRecord}
    {block : TableDataBlock} (hmem : block ∈ buildDataBlocks options level records) :
    block = buildDataBlock options level block.first block.rest := by
  cases records with
  | nil => simp [buildDataBlocks] at hmem
  | cons record records => exact mem_buildDataBlocksLoop options level records _ _ _ _ hmem

/-! ## The span of user keys -/

def updateSmallest (current : Option Key) (candidate : Key) : Option Key :=
  match current with
  | none => some candidate
  | some key => if candidate < key then some candidate else some key

def updateLargest (current : Option Key) (candidate : Key) : Option Key :=
  match current with
  | none => some candidate
  | some key => if key < candidate then some candidate else some key

def extendKeyBounds : Option Key → Option Key → List RangeTombstone →
    Option (Option Key × Option Key)
  | smallest, largest, [] => some (smallest, largest)
  | smallest, largest, tombstone :: tombstones =>
    match finiteBoundBytes tombstone.range.start, finiteBoundBytes tombstone.range.end_ with
    | some start, some end_ =>
      extendKeyBounds (updateSmallest smallest start) (updateLargest largest end_) tombstones
    | _, _ => none

/-- A table with a half-infinite tombstone records the pair of empty keys, as an empty one does. -/
def tableKeyBounds (records : List PointRecord) (tombstones : List RangeTombstone) : Key × Key :=
  match extendKeyBounds (records.head?.map userKey)
      (records.getLast?.map userKey) tombstones with
  | some (some smallest, some largest) => (smallest, largest)
  | _ => ([], [])

def RangeTombstone.unboundedSide (tombstone : RangeTombstone) : Bool :=
  tombstone.range.start = .unbounded || tombstone.range.end_ = .unbounded

lemma updateSmallest_spec (current : Option Key) (candidate : Key) :
    ∃ key, updateSmallest current candidate = some key ∧ key ≤ candidate ∧
      ∀ old, current = some old → key ≤ old := by
  cases current with
  | none => exact ⟨candidate, rfl, le_rfl, by simp⟩
  | some old =>
    simp only [updateSmallest]
    split_ifs with h
    · exact ⟨candidate, rfl, le_rfl, by simpa using h.le⟩
    · exact ⟨old, rfl, not_lt.mp h, by simp⟩

lemma updateLargest_spec (current : Option Key) (candidate : Key) :
    ∃ key, updateLargest current candidate = some key ∧ candidate ≤ key ∧
      ∀ old, current = some old → old ≤ key := by
  cases current with
  | none => exact ⟨candidate, rfl, le_rfl, by simp⟩
  | some old =>
    simp only [updateLargest]
    split_ifs with h
    · exact ⟨candidate, rfl, le_rfl, by simpa using h.le⟩
    · exact ⟨old, rfl, not_lt.mp h, by simp⟩

lemma RangeTombstone.finite_of_not_unboundedSide
    (h : tombstone.unboundedSide = false) :
    ∃ start end_, finiteBoundBytes tombstone.range.start = some start ∧
      finiteBoundBytes tombstone.range.end_ = some end_ := by
  simp only [unboundedSide, Bool.or_eq_false_iff, decide_eq_false_iff_not] at h
  obtain ⟨hstart, hend⟩ := h
  cases hs : tombstone.range.start <;> cases he : tombstone.range.end_ <;>
    simp_all [finiteBoundBytes]

lemma extendKeyBounds_eq_none
    (h : ∃ t ∈ tombstones, t.unboundedSide = true) (smallest largest : Option Key) :
    extendKeyBounds smallest largest tombstones = none := by
  induction tombstones generalizing smallest largest with
  | nil => simp at h
  | cons tombstone tombstones ih =>
    rw [extendKeyBounds]
    cases hb : tombstone.unboundedSide with
    | true =>
      simp only [RangeTombstone.unboundedSide, Bool.or_eq_true, decide_eq_true_eq] at hb
      rcases hb with hb | hb
      · simp [hb, finiteBoundBytes]
      · cases tombstone.range.start <;> simp [hb, finiteBoundBytes]
    | false =>
      obtain ⟨start, end_, hs, he⟩ := RangeTombstone.finite_of_not_unboundedSide hb
      obtain ⟨t, ht, htb⟩ := h
      rcases mem_cons.mp ht with rfl | ht
      · simp [hb] at htb
      · simp only [hs, he]
        exact ih ⟨t, ht, htb⟩ _ _

/-- Without unbounded tombstones the extended span contains the span it started from and every
tombstone.

**Proof sketch.** Induction on the tombstones: each step widens the span to the tombstone's
ends, and later steps never narrow it. -/
lemma extendKeyBounds_spec
    (h : ∀ t ∈ tombstones, t.unboundedSide = false) (smallest largest : Option Key) :
    ∃ s l, extendKeyBounds smallest largest tombstones = some (s, l) ∧
      (∀ key, smallest = some key → ∃ low, s = some low ∧ low ≤ key) ∧
      (∀ key, largest = some key → ∃ high, l = some high ∧ key ≤ high) ∧
      ∀ t ∈ tombstones, ∃ start end_ low high,
        finiteBoundBytes t.range.start = some start ∧ finiteBoundBytes t.range.end_ = some end_ ∧
          s = some low ∧ l = some high ∧ low ≤ start ∧ end_ ≤ high := by
  induction tombstones generalizing smallest largest with
  | nil => exact ⟨smallest, largest, rfl, fun key h => ⟨key, h, le_rfl⟩,
      fun key h => ⟨key, h, le_rfl⟩, by simp⟩
  | cons tombstone tombstones ih =>
    obtain ⟨start, end_, hs, he⟩ :=
      RangeTombstone.finite_of_not_unboundedSide (h tombstone mem_cons_self)
    obtain ⟨low, hlow, hlowStart, hlowOld⟩ := updateSmallest_spec smallest start
    obtain ⟨high, hhigh, hhighEnd, hhighOld⟩ := updateLargest_spec largest end_
    obtain ⟨s, l, heq, hsmall, hlarge, hall⟩ :=
      ih (fun t ht => h t (mem_cons_of_mem _ ht)) (some low) (some high)
    obtain ⟨low', rfl, hlow'⟩ := hsmall low rfl
    obtain ⟨high', rfl, hhigh'⟩ := hlarge high rfl
    refine ⟨some low', some high', ?_, fun key hkey => ?_, fun key hkey => ?_, fun t ht => ?_⟩
    · rw [extendKeyBounds, hs, he]
      simp only [hlow, hhigh, heq]
    · exact ⟨low', rfl, hlow'.trans (hlowOld key hkey)⟩
    · exact ⟨high', rfl, (hhighOld key hkey).trans hhigh'⟩
    · rcases mem_cons.mp ht with rfl | ht
      · exact ⟨start, end_, low', high', hs, he, rfl, rfl, hlow'.trans hlowStart,
          hhighEnd.trans hhigh'⟩
      · exact hall t ht

/-! ## Tables -/

/-- Held in memory, written by this process with index partitions on disk, or reopened from a
manifest with its tombstones not read yet. -/
inductive Residence where
  | loaded
  | written
  | reopened
  deriving DecidableEq, Repr

/-- The writer sorts the records and refuses to write nothing. -/
structure Table where
  id : ℕ
  level : ℕ
  options : TableWriteOptions
  residence : Residence
  pointRecords : List PointRecord
  rangeTombstones : RangeTombstoneIndex
  sorted : StrictlySorted pointRecords
  nonempty : pointRecords ≠ [] ∨ rangeTombstones.tombstones ≠ []

namespace Table

def dataBlocks (table : Table) : List TableDataBlock :=
  buildDataBlocks table.options table.level table.pointRecords

def dataBlockCount (table : Table) : ℕ := table.dataBlocks.length

def keyBounds (table : Table) : Key × Key :=
  tableKeyBounds table.pointRecords table.rangeTombstones.all

def smallestUserKey (table : Table) : Key := table.keyBounds.1

def largestUserKey (table : Table) : Key := table.keyBounds.2

def largestSequence (table : Table) : ℕ :=
  ((table.pointRecords.map PointRecord.sequence ++
    table.rangeTombstones.all.map RangeTombstone.sequence).max?).getD 0

/-- Whether readers must look at the tombstones. A reopened table is assumed to have some. -/
def mayHaveRangeTombstones (table : Table) : Bool :=
  match table.residence with
  | .reopened => true
  | .loaded => !table.rangeTombstones.all.isEmpty
  | .written => !table.rangeTombstones.all.isEmpty

/-- The recorded span is used for pruning: not for a table without data blocks whose span is the
pair of empty keys. -/
def hasKeyBounds (table : Table) : Bool :=
  !(table.dataBlockCount == 0 && table.smallestUserKey.isEmpty && table.largestUserKey.isEmpty)

/-- The span says that the table may hold something about the key. -/
def keyBoundsMayContainKey (table : Table) (key : Key) : Bool :=
  if !table.hasKeyBounds then table.mayHaveRangeTombstones
  else decide (table.smallestUserKey ≤ key) && decide (key ≤ table.largestUserKey)

/-- The span says that the table may hold something about the range. -/
def keyBoundsOverlapRange (table : Table) (range : KeyRange) : Bool :=
  if !table.hasKeyBounds then table.mayHaveRangeTombstones
  else !keyIsAfterEnd table.smallestUserKey range.end_ &&
    !keyIsBeforeStart table.largestUserKey range.start

def pointKeyFilter (table : Table) : Option PointKeyFilter :=
  if shouldPinReadMetadata table.level then
    buildPointKeyFilter table.options table.pointRecords table.level
  else none

def prefixFilter (table : Table) : Option PrefixFilter :=
  if shouldPinReadMetadata table.level then
    buildPrefixFilter table.options table.pointRecords table.level
  else none

def mayContainKey (table : Table) (key : Key) : Bool :=
  if !table.keyBoundsMayContainKey key then false
  else
    match table.pointKeyFilter with
    | none => true
    | some filter => filter.mayContainKey key

def mayContainPrefix (table : Table) (pref : Key) (extractor : PrefixExtractor) : Bool :=
  match PrefixFilter.result table.prefixFilter pref extractor with
  | none => true
  | some allowed => allowed

lemma flatMap_dataBlocks (table : Table) :
    table.dataBlocks.flatMap TableDataBlock.records = table.pointRecords :=
  flatMap_buildDataBlocks table.options table.level table.pointRecords

lemma mem_pointRecords {table : Table} {block : TableDataBlock}
    (hblock : block ∈ table.dataBlocks) (hmem : record ∈ block.records) :
    record ∈ table.pointRecords := by
  rw [← table.flatMap_dataBlocks, mem_flatMap]
  exact ⟨block, hblock, hmem⟩

lemma sorted_block {table : Table} {block : TableDataBlock} (hblock : block ∈ table.dataBlocks) :
    StrictlySorted block.records := by
  have h := table.sorted
  rw [StrictlySorted, ← table.flatMap_dataBlocks, pairwise_flatMap] at h
  exact h.1 block hblock

lemma pairwise_dataBlocks (table : Table) :
    table.dataBlocks.Pairwise fun a b =>
      ∀ x ∈ a.records, ∀ y ∈ b.records, x.internalKey < y.internalKey := by
  have h := table.sorted
  rw [StrictlySorted, ← table.flatMap_dataBlocks, pairwise_flatMap] at h
  exact h.2

lemma smallestUserKey_le {table : Table} {block : TableDataBlock}
    (hblock : block ∈ table.dataBlocks) (hmem : record ∈ block.records) :
    block.smallestUserKey ≤ record.userKey := by
  apply InternalKey.userKey_le_of_le
  rcases mem_cons.mp hmem with rfl | hmem
  · exact le_rfl
  · exact (rel_of_pairwise_cons (sorted_block hblock) hmem).le

lemma le_largestUserKey {table : Table} {block : TableDataBlock}
    (hblock : block ∈ table.dataBlocks) (hmem : record ∈ block.records) :
    record.userKey ≤ block.largestUserKey := by
  apply InternalKey.userKey_le_of_le
  have hsorted := sorted_block hblock
  have hsplit : block.records = block.records.dropLast ++ [block.last] := by
    have hne : block.records ≠ [] := cons_ne_nil _ _
    have hlast : block.records.getLast hne = block.last := by
      simp [TableDataBlock.records, TableDataBlock.last, getLast_eq_getLastD]
    rw [← hlast, dropLast_append_getLast hne]
  rw [hsplit] at hmem hsorted
  rcases mem_append.mp hmem with hmem | hmem
  · exact ((pairwise_append.mp hsorted).2.2 record hmem block.last (by simp)).le
  · obtain rfl : record = block.last := by simpa using hmem
    exact le_rfl

lemma pointFilterResult_ne_false {table : Table} {block : TableDataBlock}
    (hblock : block ∈ table.dataBlocks) (hmem : record ∈ block.records) :
    block.pointFilterResult record.userKey ≠ some false := by
  have hbuild := mem_buildDataBlocks hblock
  unfold TableDataBlock.pointFilterResult
  cases hf : block.pointKeyFilter with
  | none => simp
  | some filter =>
    rw [hbuild] at hf
    have := buildPointKeyFilter_allows (show record ∈ block.first :: block.rest from hmem) filter hf
    simp [this]

lemma prefixFilterResult_ne_false {table : Table} {block : TableDataBlock}
    {pref : Key} (extractor : PrefixExtractor) (hblock : block ∈ table.dataBlocks)
    (hmem : record ∈ block.records) (hpre : pref <+: record.userKey) :
    block.prefixFilterResult pref extractor ≠ some false := by
  have hbuild := mem_buildDataBlocks hblock
  rw [TableDataBlock.prefixFilterResult, hbuild]
  exact buildPrefixFilter_allows extractor (show record ∈ block.first :: block.rest from hmem) hpre

/-! ### What the recorded span admits -/

/-- The table has records, but its span is the pair of empty keys because one of its tombstones
has no finite span. -/
def misbounded (table : Table) : Bool :=
  !table.pointRecords.isEmpty && table.rangeTombstones.all.any RangeTombstone.unboundedSide

lemma dataBlockCount_eq_zero {table : Table} :
    table.dataBlockCount = 0 ↔ table.pointRecords = [] := by
  unfold dataBlockCount
  rw [length_eq_zero_iff]
  constructor
  · intro h
    rw [← table.flatMap_dataBlocks, h]
    rfl
  · intro h
    rw [dataBlocks, h]
    rfl

lemma keyBounds_of_unbounded {table : Table}
    (h : table.rangeTombstones.all.any RangeTombstone.unboundedSide = true) :
    table.keyBounds = ([], []) := by
  rw [any_eq_true] at h
  rw [keyBounds, tableKeyBounds, extendKeyBounds_eq_none h]

lemma userKey_between {table : Table}
    (h : table.rangeTombstones.all.any RangeTombstone.unboundedSide = false)
    (hmem : record ∈ table.pointRecords) :
    table.smallestUserKey ≤ record.userKey ∧ record.userKey ≤ table.largestUserKey := by
  have hfinite : ∀ t ∈ table.rangeTombstones.all, t.unboundedSide = false := by
    simpa [any_eq_false] using h
  obtain ⟨s, l, heq, hsmall, hlarge, -⟩ := extendKeyBounds_spec hfinite
    (table.pointRecords.head?.map userKey)
    (table.pointRecords.getLast?.map userKey)
  have hne : table.pointRecords ≠ [] := ne_nil_of_mem hmem
  obtain ⟨low, rfl, hlow⟩ := hsmall _ (by rw [List.head?_eq_some_head hne]; rfl)
  obtain ⟨high, rfl, hhigh⟩ := hlarge _ (by rw [List.getLast?_eq_some_getLast hne]; rfl)
  have hbounds : table.keyBounds = (low, high) := by rw [keyBounds, tableKeyBounds, heq]
  rw [smallestUserKey, largestUserKey, hbounds]
  -- The span starts from the first and the last record, between which all records lie.
  obtain ⟨hfirst, hlast⟩ := table.sorted.keysAscend.between (List.head?_eq_some_head hne)
    (List.getLast?_eq_some_getLast hne) hmem
  exact ⟨hlow.trans hfirst, hlast.trans hhigh⟩

lemma tombstone_ends_between {table : Table}
    (hfinite : ∀ t ∈ table.rangeTombstones.all, t.unboundedSide = false)
    (hmem : tombstone ∈ table.rangeTombstones.all) :
    ∃ start end_, finiteBoundBytes tombstone.range.start = some start ∧
      finiteBoundBytes tombstone.range.end_ = some end_ ∧ table.smallestUserKey ≤ start ∧
        end_ ≤ table.largestUserKey := by
  obtain ⟨s, l, heq, -, -, hall⟩ := extendKeyBounds_spec hfinite
    (table.pointRecords.head?.map userKey)
    (table.pointRecords.getLast?.map userKey)
  obtain ⟨start, end_, low, high, hs, he, rfl, rfl, hlow, hhigh⟩ := hall tombstone hmem
  have hbounds : table.keyBounds = (low, high) := by rw [keyBounds, tableKeyBounds, heq]
  rw [smallestUserKey, largestUserKey, hbounds]
  exact ⟨start, end_, hs, he, hlow, hhigh⟩

/-- Without half-infinite tombstones the span contains every key that a tombstone covers. -/
lemma tombstone_between {table : Table} {key : Key}
    (h : table.rangeTombstones.all.any RangeTombstone.unboundedSide = false)
    (hmem : tombstone ∈ table.rangeTombstones.all)
    (hkey : keyIsInRange key tombstone.range = true) :
    table.smallestUserKey ≤ key ∧ key ≤ table.largestUserKey := by
  obtain ⟨start, end_, hs, he, hlow, hhigh⟩ :=
    tombstone_ends_between (by simpa [any_eq_false] using h) hmem
  obtain ⟨hbefore, hafter⟩ := keyIsInRange_iff.mp hkey
  constructor
  · refine hlow.trans ?_
    cases hb : tombstone.range.start <;> simp_all [finiteBoundBytes, keyIsBeforeStart]
    exact hbefore.le
  · refine le_trans ?_ hhigh
    cases hb : tombstone.range.end_ <;> simp_all [finiteBoundBytes, keyIsAfterEnd]
    exact hafter.le

lemma keyBoundsMayContainKey_of_misbounded {table : Table} (h : table.misbounded = true)
    (key : Key) : table.keyBoundsMayContainKey key = decide (key = []) := by
  simp only [misbounded, Bool.and_eq_true, Bool.not_eq_true', isEmpty_eq_false_iff] at h
  have hcount : table.dataBlockCount ≠ 0 := fun h0 => h.1 (dataBlockCount_eq_zero.mp h0)
  have hbounds := keyBounds_of_unbounded h.2
  have hhas : table.hasKeyBounds = true := by simp [hasKeyBounds, hcount]
  simp only [keyBoundsMayContainKey, hhas, smallestUserKey, largestUserKey, hbounds,
    Bool.not_true, Bool.false_eq_true, if_false, ByteOrder.nil_le, decide_true, Bool.true_and]
  cases key with
  | nil => simp
  | cons byte key => simp [ByteOrder.not_cons_le_nil]

lemma keyBoundsMayContainKey_of_record {table : Table}
    (h : table.misbounded = false) (hmem : record ∈ table.pointRecords) :
    table.keyBoundsMayContainKey record.userKey = true := by
  have hne : table.pointRecords ≠ [] := ne_nil_of_mem hmem
  have hcount : table.dataBlockCount ≠ 0 := fun h0 => hne (dataBlockCount_eq_zero.mp h0)
  have hhas : table.hasKeyBounds = true := by simp [hasKeyBounds, hcount]
  have hfinite : table.rangeTombstones.all.any RangeTombstone.unboundedSide = false := by
    simpa [misbounded, hne] using h
  have hbetween := userKey_between hfinite hmem
  simp [keyBoundsMayContainKey, hhas, hbetween]

lemma mayHaveRangeTombstones_of_mem {table : Table}
    (h : tombstone ∈ table.rangeTombstones.all) : table.mayHaveRangeTombstones = true := by
  have hne : table.rangeTombstones.all ≠ [] := ne_nil_of_mem h
  unfold mayHaveRangeTombstones
  cases table.residence <;> simp [hne]

lemma keyBoundsMayContainKey_of_tombstone {table : Table}
    {key : Key} (h : table.misbounded = false) (hmem : tombstone ∈ table.rangeTombstones.all)
    (hkey : keyIsInRange key tombstone.range = true) :
    table.keyBoundsMayContainKey key = true := by
  unfold keyBoundsMayContainKey
  split_ifs with hhas
  · exact mayHaveRangeTombstones_of_mem hmem
  · by_cases hunb : table.rangeTombstones.all.any RangeTombstone.unboundedSide = true
    · -- A half-infinite tombstone without records leaves no span at all.
      have hrec : table.pointRecords = [] := by simpa [misbounded, hunb] using h
      have hbounds := keyBounds_of_unbounded hunb
      simp [hasKeyBounds, dataBlockCount_eq_zero.mpr hrec, smallestUserKey, largestUserKey,
        hbounds] at hhas
    · have hbetween := tombstone_between (by simpa using hunb) hmem hkey
      simp [hbetween]

lemma keyBoundsOverlapRange_of_mayContainKey {table : Table} {key : Key} {range : KeyRange}
    (hkey : keyIsInRange key range = true) (h : table.keyBoundsMayContainKey key = true) :
    table.keyBoundsOverlapRange range = true := by
  unfold keyBoundsMayContainKey at h
  unfold keyBoundsOverlapRange
  obtain ⟨hbefore, hafter⟩ := keyIsInRange_iff.mp hkey
  split_ifs at h ⊢ with hhas
  · exact h
  · simp only [Bool.and_eq_true, decide_eq_true_eq] at h
    simp only [Bool.and_eq_true, Bool.not_eq_true']
    constructor
    · by_contra hne
      have := keyIsAfterEnd_of_le h.1 (by simpa using hne)
      simp [hafter] at this
    · by_contra hne
      have := keyIsBeforeStart_of_le h.2 (by simpa using hne)
      simp [hbefore] at this

end Table

end TrineKv
