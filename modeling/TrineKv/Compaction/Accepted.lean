import TrineKv.Compaction.LevelLayout
import TrineKv.Compaction.RewriteReads

/-!
# The outputs of a compaction fit into their level

If the outputs of a compaction do not fit into their level, it is given up without an error, again
and again. Outputs of records alone ascend. A full compaction cuts range deletions to the span of
the records; a partial one puts those that overlap no kept record into a table of their own, which
can overlap the first one.

## Main definitions

* `LsmVersion.Accepts`: the outputs are apart from each other and from the tables that remain in the
  output level, and can be installed.
* `LsmVersion.Fits`: what outputs with range deletions have to meet for this.

## Main results

* `LsmVersion.accepted_iff_of_plan`: when moved tables and outputs are accepted.
* `LsmVersion.splitVersion_refused`: range deletions on both sides of a put.
-/

namespace TrineKv

open List ByteCodec
open CompactionTable (fromPropertiesWithBytes hasKeyBounds overlapsKeySpan)

variable {payload : CompactionTablePayload}

/-! ## Key bounds -/

section Bounds

/-- The extended bounds stay between keys between which everything lies. -/
lemma extendKeyBounds_within {low high : Key} {tombstones : List RangeTombstone}
    {smallest largest s l : Option Key} (hsmallest : ∀ key ∈ smallest, low ≤ key)
    (hlargest : ∀ key ∈ largest, key ≤ high)
    (hstart : ∀ t ∈ tombstones, ∀ key ∈ finiteBoundBytes t.range.start, low ≤ key)
    (hend : ∀ t ∈ tombstones, ∀ key ∈ finiteBoundBytes t.range.end_, key ≤ high)
    (h : extendKeyBounds smallest largest tombstones = some (s, l)) :
    (∀ key ∈ s, low ≤ key) ∧ ∀ key ∈ l, key ≤ high := by
  induction tombstones generalizing smallest largest with
  | nil =>
    obtain ⟨rfl, rfl⟩ := Prod.mk.inj (Option.some.inj h)
    exact ⟨hsmallest, hlargest⟩
  | cons tombstone tombstones ih =>
    rw [extendKeyBounds] at h
    split at h
    · next start end_ hs he =>
      have hlow : low ≤ start := hstart tombstone mem_cons_self start hs
      have hhigh : end_ ≤ high := hend tombstone mem_cons_self end_ he
      refine ih ?_ ?_ (fun t ht => hstart t (mem_cons_of_mem _ ht))
        (fun t ht => hend t (mem_cons_of_mem _ ht)) h
      · cases smallest with
        | none =>
          rintro key ⟨⟩
          exact hlow
        | some current =>
          intro key hkey
          simp only [updateSmallest] at hkey
          split_ifs at hkey
          · exact Option.some.inj hkey ▸ hlow
          · exact Option.some.inj hkey ▸ hsmallest current rfl
      · cases largest with
        | none =>
          rintro key ⟨⟩
          exact hhigh
        | some current =>
          intro key hkey
          simp only [updateLargest] at hkey
          split_ifs at hkey
          · exact Option.some.inj hkey ▸ hhigh
          · exact Option.some.inj hkey ▸ hlargest current rfl
    · cases h

namespace Table

variable {table : Table}

lemma exists_keyBounds (hfinite : ∀ t ∈ table.rangeTombstones.all, t.unboundedSide = false) :
    extendKeyBounds (table.pointRecords.head?.map PointRecord.userKey)
      (table.pointRecords.getLast?.map PointRecord.userKey) table.rangeTombstones.all =
        some (some table.smallestUserKey, some table.largestUserKey) := by
  obtain ⟨s, l, heq, hsmall, hlarge, hall⟩ := extendKeyBounds_spec hfinite
    (table.pointRecords.head?.map PointRecord.userKey)
    (table.pointRecords.getLast?.map PointRecord.userKey)
  obtain ⟨low, high, rfl, rfl⟩ : ∃ low high, s = some low ∧ l = some high := by
    rcases table.nonempty with hrecords | htombstones
    · obtain ⟨low, hlow, -⟩ := hsmall (table.pointRecords.head hrecords).userKey
        (by rw [List.head?_eq_some_head hrecords]; rfl)
      obtain ⟨high, hhigh, -⟩ := hlarge (table.pointRecords.getLast hrecords).userKey
        (by rw [List.getLast?_eq_some_getLast hrecords]; rfl)
      exact ⟨low, high, hlow, hhigh⟩
    · obtain ⟨t, ht⟩ := exists_mem_of_ne_nil _ htombstones
      obtain ⟨-, -, low, high, -, -, hlow, hhigh, -⟩ := hall t ht
      exact ⟨low, high, hlow, hhigh⟩
  rw [heq]
  simp only [smallestUserKey, largestUserKey, keyBounds, tableKeyBounds, heq]

/-- The bounds lie between keys between which all that the table holds lies. -/
lemma keyBounds_within {low high : Key}
    (hfinite : ∀ t ∈ table.rangeTombstones.all, t.unboundedSide = false)
    (hrecords : ∀ record ∈ table.pointRecords, low ≤ record.userKey ∧ record.userKey ≤ high)
    (hstart : ∀ t ∈ table.rangeTombstones.all, ∀ key ∈ finiteBoundBytes t.range.start, low ≤ key)
    (hend : ∀ t ∈ table.rangeTombstones.all, ∀ key ∈ finiteBoundBytes t.range.end_, key ≤ high) :
    low ≤ table.smallestUserKey ∧ table.largestUserKey ≤ high := by
  have hwithin := extendKeyBounds_within (fun key hkey => ?_) (fun key hkey => ?_) hstart hend
    (exists_keyBounds hfinite)
  · exact ⟨hwithin.1 _ rfl, hwithin.2 _ rfl⟩
  · obtain ⟨record, hrecord, rfl⟩ := Option.map_eq_some_iff.mp hkey
    exact (hrecords record (mem_of_mem_head? hrecord)).1
  · obtain ⟨record, hrecord, rfl⟩ := Option.map_eq_some_iff.mp hkey
    exact (hrecords record (mem_of_mem_getLast? hrecord)).2

end Table

end Bounds

/-! ## Outputs of records -/

/-- The output has records, and its range deletions lie between them. -/
def CompactionTablePayload.AroundRecords (payload : CompactionTablePayload) : Prop :=
  ∃ low ∈ payload.pointRecords, ∃ high ∈ payload.pointRecords,
    (∀ record ∈ payload.pointRecords,
      low.userKey ≤ record.userKey ∧ record.userKey ≤ high.userKey) ∧
    ∀ tombstone ∈ payload.rangeTombstones, tombstone.unboundedSide = false ∧
      (∀ key ∈ finiteBoundBytes tombstone.range.start, low.userKey ≤ key) ∧
        ∀ key ∈ finiteBoundBytes tombstone.range.end_, key ≤ high.userKey

lemma CompactionTablePayload.AroundRecords.bounds {table : Table}
    (h : payload.AroundRecords) (hwritten : payload.WrittenTo table) :
    table.hasKeyBounds = true ∧ table.smallestUserKey ≤ table.largestUserKey ∧
      ∃ low ∈ payload.pointRecords, ∃ high ∈ payload.pointRecords,
        low.userKey ≤ table.smallestUserKey ∧ table.largestUserKey ≤ high.userKey := by
  obtain ⟨low, hlow, high, hhigh, hrecords, htombstones⟩ := h
  have hmem : ∀ {tombstone}, tombstone ∈ table.rangeTombstones.all →
      tombstone ∈ payload.rangeTombstones := fun ht => by
    rwa [hwritten.2, RangeTombstoneIndex.mem_all_new] at ht
  have hfinite : ∀ t ∈ table.rangeTombstones.all, t.unboundedSide = false :=
    fun t ht => (htombstones t (hmem ht)).1
  have hin : low ∈ table.pointRecords := hwritten.1 ▸ hlow
  have hbetween := Table.userKey_between (by simpa [any_eq_false] using hfinite) hin
  have hwithin := Table.keyBounds_within hfinite
    (fun record hrecord => hrecords record (hwritten.1 ▸ hrecord))
    (fun t ht => (htombstones t (hmem ht)).2.1) fun t ht => (htombstones t (hmem ht)).2.2
  exact ⟨Table.hasKeyBounds_of_records (ne_nil_of_mem hin), hbetween.1.trans hbetween.2,
    low, hlow, high, hhigh, hwithin.1, hwithin.2⟩

namespace CompactionInput

variable {oldestActiveSnapshot target : ℕ} {policy : IndexSearchPolicy} {input : CompactionInput}
  {range : KeyRange}

lemma cleanupRangeTombstonesByCoverage_nil {records : List PointRecord} {full : Bool} :
    cleanupRangeTombstonesByCoverage [] records full = [] := by
  unfold cleanupRangeTombstonesByCoverage
  split_ifs <;> rfl

section Records

variable (h : input.fullBucketCompaction = true ∨
  collectCompactionRangeTombstones input range = [])

include h

lemma rewritten_eq_filterMap :
    input.rewritten oldestActiveSnapshot policy range target =
      (chunksOf (input.effectiveTarget range target)
        (input.keptRecords oldestActiveSnapshot policy range)).filterMap
        (payloadOfChunk input.fullBucketCompaction
          (cleanupRangeTombstonesByCoverage (collectCompactionRangeTombstones input range)
            (input.keptRecords oldestActiveSnapshot policy range).flatten
            input.fullBucketCompaction)) := by
  set chunks := chunksOf (input.effectiveTarget range target)
    (input.keptRecords oldestActiveSnapshot policy range) with hchunks
  set cleaned := cleanupRangeTombstonesByCoverage (collectCompactionRangeTombstones input range)
    (input.keptRecords oldestActiveSnapshot policy range).flatten input.fullBucketCompaction
    with hcleaned
  have hassigned : cleaned.filter (fun tombstone =>
      !isAssigned input.fullBucketCompaction chunks tombstone) = [] := by
    refine filter_eq_nil_iff.mpr fun tombstone htombstone => ?_
    rw [Bool.not_eq_true', Bool.not_eq_false]
    rcases h with hfull | hnone
    · -- A range deletion that has been kept covers a put of some chunk.
      rw [hcleaned, cleanupRangeTombstonesByCoverage, hfull, if_neg (by simp)] at htombstone
      obtain ⟨put, hput, hcovers⟩ := any_eq_true.mp (mem_filter.mp htombstone).2
      simp only [RangeTombstone.coversPut, Bool.and_eq_true, decide_eq_true_eq] at hcovers
      rw [← @flatMap_chunksOf (input.effectiveTarget range target)] at hput
      obtain ⟨chunk, hchunk, hin⟩ := mem_flatMap.mp hput
      obtain ⟨smallest, largest, hspan, hkeys⟩ :=
        exists_chunkRange (pairwise_chunk hchunk) (ne_nil_of_mem hin)
      obtain ⟨common, hcommon, -⟩ := exists_rangeIntersection hcovers.2 (hkeys put hin)
      refine any_eq_true.mpr ⟨chunk, hchunk, ?_⟩
      simp [hspan, tombstoneForOutputSpan, hfull, hcommon]
    · rw [hcleaned, hnone, cleanupRangeTombstonesByCoverage_nil] at htombstone
      cases htombstone
  rw [rewritten, compactionPayloadsFromChunks, ← hchunks, ← hcleaned, hassigned]
  simp [tombstoneOnlyPayloads]

lemma aroundRecords_of_mem_rewritten
    (hpayload : payload ∈ input.rewritten oldestActiveSnapshot policy range target) :
    payload.AroundRecords := by
  rw [rewritten_eq_filterMap h] at hpayload
  obtain ⟨chunk, hchunk, heq⟩ := mem_filterMap.mp hpayload
  obtain ⟨span, hspan, rfl⟩ := Option.map_eq_some_iff.mp heq
  have hsorted := pairwise_chunk hchunk
  have hne := pointRecords_ne_nil_of_mem_chunksOf hchunk
  have hascend : KeysAscend chunk.pointRecords := hsorted.imp fun h => InternalKey.userKey_le_of_le h
  have hhead := List.head?_eq_some_head hne
  have hlast := List.getLast?_eq_some_getLast hne
  refine ⟨_, head_mem hne, _, getLast_mem hne,
    fun record hrecord => hascend.between hhead hlast hrecord, fun tombstone htombstone => ?_⟩
  obtain ⟨whole, hwhole, hfor⟩ := mem_filterMap.mp htombstone
  simp only [chunkRange, hhead, hlast, Option.some.injEq] at hspan
  subst hspan
  rcases h with hfull | hnone
  · simp only [tombstoneForOutputSpan, hfull, if_true] at hfor
    obtain ⟨range, hrange, rfl⟩ := Option.map_eq_some_iff.mp hfor
    obtain ⟨hstart, hend⟩ := finite_of_rangeIntersection hrange
    exact ⟨by simp [RangeTombstone.unboundedSide, hstart, hend], ends_of_rangeIntersection hrange⟩
  · rw [hnone, cleanupRangeTombstonesByCoverage_nil] at hwhole
    cases hwhole

lemma pairwise_rewritten :
    (input.rewritten oldestActiveSnapshot policy range target).Pairwise fun left right =>
      KeysBefore left.pointRecords right.pointRecords := by
  rw [rewritten_eq_filterMap h]
  refine List.Pairwise.filterMap _ (fun left right hbefore payload hpayload other hother => ?_)
    (pairwise_chunksOf pairwise_groups_keptOf)
  obtain ⟨-, -, rfl⟩ := Option.map_eq_some_iff.mp hpayload
  obtain ⟨-, -, rfl⟩ := Option.map_eq_some_iff.mp hother
  exact hbefore

end Records

/-! ## Outputs of a partial compaction with range deletions -/

/-- The range deletions that overlap the range between the first and the last kept record. -/
def nearTombstones (kept : List PointRecord) (tombstones : List RangeTombstone) :
    List RangeTombstone :=
  tombstones.filter fun tombstone => (chunkRange kept).any (rangesOverlap tombstone.range)

def farTombstones (kept : List PointRecord) (tombstones : List RangeTombstone) :
    List RangeTombstone :=
  tombstones.filter fun tombstone => !(chunkRange kept).any (rangesOverlap tombstone.range)

/-- There is at most one output with records, and at most one without. -/
lemma rewritten_eq_near_far (hpart : input.fullBucketCompaction = false)
    (hsome : collectCompactionRangeTombstones input range ≠ []) :
    let kept := (input.keptRecords oldestActiveSnapshot policy range).flatten
    let tombstones := collectCompactionRangeTombstones input range
    input.rewritten oldestActiveSnapshot policy range target =
      ([⟨kept, nearTombstones kept tombstones⟩, ⟨[], farTombstones kept tombstones⟩] :
        List CompactionTablePayload).filter
        fun payload => !(payload.pointRecords.isEmpty && payload.rangeTombstones.isEmpty) := by
  intro kept tombstones
  have htarget : input.effectiveTarget range target = maxUInt64 := if_neg (by simpa using hsome)
  have hclean : cleanupRangeTombstonesByCoverage tombstones kept false = tombstones := if_pos rfl
  rw [rewritten, hpart, hclean, htarget, compactionPayloadsFromChunks,
    tombstoneOnlyPayloads_maxUInt64]
  have hone := length_chunksOf_maxUInt64 (input.keptRecords oldestActiveSnapshot policy range)
  have hflat : (chunksOf maxUInt64 (input.keptRecords oldestActiveSnapshot policy range)).flatMap
      CompactionChunk.pointRecords = kept := flatMap_chunksOf
  have hspan := fun chunk => @isSome_chunkRange oldestActiveSnapshot policy input range maxUInt64
    chunk
  have hnone := fun chunk => @pointRecords_ne_nil_of_mem_chunksOf maxUInt64
    (input.keptRecords oldestActiveSnapshot policy range) chunk
  generalize chunksOf maxUInt64 (input.keptRecords oldestActiveSnapshot policy range) = chunks at *
  have hfor : ∀ span, tombstoneForOutputSpan false span =
      Option.guard fun tombstone => rangesOverlap tombstone.range span := fun span => by
    funext tombstone
    simp [tombstoneForOutputSpan, Option.guard]
  rcases chunks with _ | ⟨chunk, _ | ⟨second, rest⟩⟩
  · rw [show kept = [] from hflat.symm]
    simp [nearTombstones, farTombstones, isAssigned, chunkRange, tombstones, hsome]
  · rw [show kept = chunk.pointRecords from hflat ▸ flatMap_singleton _ chunk]
    obtain ⟨span, hspan⟩ := Option.isSome_iff_exists.mp (hspan chunk (mem_singleton_self chunk))
    have hne := hnone chunk (mem_singleton_self chunk)
    simp only [nearTombstones, farTombstones, isAssigned, payloadOfChunk, hspan, hfor, any_cons,
      any_nil, Option.any_some, Option.map_some, filterMap_cons, filterMap_nil,
      filterMap_eq_filter, Option.isSome_guard, Bool.or_false, nil_append]
    generalize tombstones.filter (fun tombstone => !rangesOverlap tombstone.range span) = far
    cases far <;> simp [hne]
  · simp at hone

end CompactionInput

/-! ## Acceptance -/

def Table.cloneWithLevel (table : Table) (level : ℕ) : Table := { table with level }

namespace LsmVersion

variable {version : LsmVersion} {bytes : Table → ℕ} {tableOptions : TableWriteOptions}
  {range : KeyRange} {plan : CompactionPlan} {outputs : List Table}

def Accepts (version : LsmVersion) (input : CompactionInput) (outputs : List Table) : Prop :=
  outputs.Pairwise Table.DisjointBounds ∧
  (∀ table ∈ version.tables, table.id ∉ input.inputTableIds → table.level = input.tableLevel →
    ∀ output ∈ outputs, table.DisjointBounds output) ∧
  ∃ result, version.withReplacedTables input.inputTableIds outputs = .ok result

lemma mem_inputTableIds {table : Table} (htable : table ∈ version.tables) :
    table.id ∈ (version.compactionInput tableOptions range plan).inputTableIds ↔
      table.id ∈ plan.inputTables := by
  simp only [compactionInput, mem_map, mem_filter, decide_eq_true_eq]
  constructor
  · rintro ⟨other, ⟨-, hselected⟩, heq⟩
    exact heq ▸ hselected
  · intro hselected
    exact ⟨table, ⟨htable, hselected⟩, rfl⟩

/-- The tables that remain in the output level. -/
def remaining (version : LsmVersion) (plan : CompactionPlan) : List Table :=
  (version.tables.filter fun table => decide (table.level = plan.outputLevel)).filter
    fun table => decide (table.id ∉ plan.inputTables)

lemma mem_remaining {table : Table} :
    table ∈ version.remaining plan ↔
      table ∈ version.tables ∧ table.id ∉ plan.inputTables ∧ table.level = plan.outputLevel := by
  simp only [remaining, mem_filter, decide_eq_true_eq]
  tauto

/-- The outputs are accepted exactly if they are apart from each other and from the tables that
remain, and make a level with them. -/
lemma accepts_iff (hversion : LevelsOk version.tables) (hids : (version.tables.map Table.id).Nodup)
    (hzero : plan.outputLevel ≠ 0) (hlevel : ∀ output ∈ outputs, output.level = plan.outputLevel) :
    version.Accepts (version.compactionInput tableOptions range plan) outputs ↔
      outputs.Pairwise Table.DisjointBounds ∧
      (∀ table ∈ version.remaining plan, ∀ output ∈ outputs, table.DisjointBounds output) ∧
      LevelOk (version.remaining plan ++ outputs) := by
  set input := version.compactionInput tableOptions range plan with hinput
  have hselected : ∀ table ∈ version.tables, table.id ∈ input.inputTableIds ↔
      table.id ∈ plan.inputTables := fun table htable => mem_inputTableIds htable
  have hremoved : version.tables.filter (fun table => decide (table.id ∈ input.inputTableIds)) =
      input.inputTables :=
    filter_congr fun table htable => decide_eq_decide.mpr (hselected table htable)
  have hnodup : input.inputTableIds.Nodup := hids.sublist (filter_sublist.map _)
  have hreplace : (∃ result, version.withReplacedTables input.inputTableIds outputs = .ok result) ↔
      ∃ replaced, new (version.tables.filter (fun table =>
        !decide (table.id ∈ input.inputTableIds)) ++ outputs) = .ok replaced := by
    unfold withReplacedTables
    dsimp only
    rw [hremoved, hnodup.dedup, if_neg (by simp [hinput, compactionInput])]
    cases new (version.tables.filter (fun table => !decide (table.id ∈ input.inputTableIds)) ++
      outputs) with
    | error error => simp
    | ok replaced => exact iff_of_true ⟨_, rfl⟩ ⟨_, rfl⟩
  -- The other levels are as before.
  have hlevels : LevelsOk (version.tables.filter (fun table =>
      !decide (table.id ∈ input.inputTableIds)) ++ outputs) ↔
      LevelOk (version.remaining plan ++ outputs) := by
    have hremain : (version.tables.filter fun table =>
        !decide (table.id ∈ input.inputTableIds)).filter
          (fun table => decide (table.level = plan.outputLevel)) = version.remaining plan := by
      rw [filter_filter, remaining, filter_filter]
      refine filter_congr fun table htable => ?_
      rw [Bool.and_comm, decide_eq_decide.mpr (hselected table htable), decide_not]
    have hall : outputs.filter (fun table => decide (table.level = plan.outputLevel)) = outputs :=
      filter_eq_self.mpr fun table htable => by simpa using hlevel table htable
    constructor
    · intro h
      have hok := h plan.outputLevel hzero
      rwa [filter_append, hremain, hall] at hok
    · intro h level hne
      rw [filter_append]
      by_cases hout : plan.outputLevel = level
      · rwa [← hout, hremain, hall]
      · rw [show outputs.filter (fun table => decide (table.level = level)) = [] from
          filter_eq_nil_iff.mpr fun table htable => by simpa [hlevel table htable] using hout,
          append_nil]
        exact (hversion level hne).sublist (filter_sublist.filter _)
  unfold Accepts
  rw [hreplace, exists_new_iff, hlevels]
  refine and_congr_right fun _ => and_congr_left fun _ => ?_
  simp only [mem_remaining]
  constructor
  · exact fun h table htable => h table htable.1 (fun hin => htable.2.1
      ((hselected table htable.1).mp hin)) htable.2.2
  · exact fun h table htable hout hsame => h table ⟨htable, fun hin => hout
      ((hselected table htable).mpr hin), hsame⟩

lemma hasKeyBounds_of_fromProperties {table : Table} {size : ℕ}
    (h : (fromPropertiesWithBytes table size).hasKeyBounds = true) :
    table.hasKeyBounds = true := by
  simp only [hasKeyBounds, fromPropertiesWithBytes,
    Bool.not_eq_true', Bool.and_eq_false_iff] at h
  simp only [Table.hasKeyBounds, Bool.not_eq_true', Bool.and_eq_false_iff]
  exact h.imp_left Or.inr

lemma outside_of_remaining {bucket : String} {oldestActiveSnapshot : ℕ}
    {options : CompactionOptions} {skip : Option CompactionSkip}
    (hplan : planCompaction (version.compactionTables bytes) bucket range
      oldestActiveSnapshot options = .ok ⟨some plan, skip⟩) {table : Table}
    (htable : table ∈ version.tables) (hout : table.id ∉ plan.inputTables)
    (hlevel : table.level = plan.outputLevel) :
    ∃ span, keySpanForInputs (version.compactionTables bytes) plan.inputTables = some span ∧
      plan.keyRange = ⟨.included span.smallest, .included span.largest⟩ ∧
      table.hasKeyBounds = true ∧
        (span.largest < table.smallestUserKey ∨ table.largestUserKey < span.smallest) := by
  have hplanned := plannedFrom_of_planCompaction hplan
  obtain ⟨inputs, hinputs⟩ := hplanned.exists_includeOverlappingLevel
  have hseen : fromPropertiesWithBytes table (bytes table) ∈
      version.compactionTables bytes := mem_map_of_mem htable
  have hnot : ¬∀ span, keySpanForInputs (version.compactionTables bytes) plan.inputTables =
      some span → (fromPropertiesWithBytes table
        (bytes table)).overlapsKeySpan span = true := by
    intro hall
    rw [hinputs] at hall hout
    exact hout (mem_includeOverlappingLevel_of_overlaps hseen hlevel hall)
  push Not at hnot
  obtain ⟨span, hspan, hover⟩ := hnot
  refine ⟨span, hspan, by rw [hplanned.1, keyRangeForInputs, hspan], ?_⟩
  have hbounds : (fromPropertiesWithBytes table
      (bytes table)).hasKeyBounds = true := by
    by_contra hnone
    simp [overlapsKeySpan, hnone] at hover
  refine ⟨hasKeyBounds_of_fromProperties hbounds, ?_⟩
  simp only [overlapsKeySpan, hbounds, Bool.not_true, Bool.false_eq_true, if_false,
    ne_eq, Bool.and_eq_true, decide_eq_true_eq] at hover
  rcases not_and_or.mp hover with h | h
  · exact .inl (not_le.mp h)
  · exact .inr (not_le.mp h)

lemma hasKeyBounds_cloneWithLevel {table : Table} {level : ℕ} :
    (table.cloneWithLevel level).hasKeyBounds = table.hasKeyBounds := by
  rw [Bool.eq_iff_iff]
  by_cases hrecords : table.pointRecords = []
  · rw [Table.hasKeyBounds_of_no_records hrecords,
      @Table.hasKeyBounds_of_no_records (table.cloneWithLevel level) hrecords]
    rfl
  · simp [Table.hasKeyBounds_of_records hrecords,
      @Table.hasKeyBounds_of_records (table.cloneWithLevel level) hrecords]

lemma keyIsInRange_of_mem_keptRecords {oldestActiveSnapshot : ℕ} {policy : IndexSearchPolicy}
    {input : CompactionInput} {range : KeyRange} {record : PointRecord}
    (h : record ∈ (input.keptRecords oldestActiveSnapshot policy range).flatten) :
    keyIsInRange record.userKey range = true := by
  obtain ⟨table, -, hmem⟩ := mem_tables_of_mem_keptOf h
  exact (mem_filter.mp
    ((table.scanned_sublist (.range range) .forward policy).subset hmem)).2

section Plan

variable {bucket : String} {oldestActiveSnapshot target : ℕ} {options : CompactionOptions}
  {skip : Option CompactionSkip} {policy : IndexSearchPolicy}

/-- What the outputs of a plan have to meet. Those within the range of the plan are apart from the
tables that remain, and an output with records has its bounds in order. -/
structure Fits (version : LsmVersion) (plan : CompactionPlan) (outputs : List Table) : Prop where
  apart : outputs.Pairwise Table.DisjointBounds
  ordered : ∀ output ∈ outputs, output.pointRecords = [] → output.hasKeyBounds = true →
    output.smallestUserKey ≤ output.largestUserKey
  alone : ∀ output ∈ outputs, output.hasKeyBounds = false →
    outputs = [output] ∧ version.remaining plan = []
  beyond : ∀ output ∈ outputs, ¬(keyIsInRange output.smallestUserKey plan.keyRange = true ∧
    keyIsInRange output.largestUserKey plan.keyRange = true) →
      ∀ table ∈ version.remaining plan, table.DisjointBounds output

lemma ordered_of_records {table : Table} (h : table.pointRecords ≠ []) :
    table.smallestUserKey ≤ table.largestUserKey := by
  cases hside : table.rangeTombstones.all.any RangeTombstone.unboundedSide with
  | true => rw [Table.smallestUserKey, Table.largestUserKey, Table.keyBounds_of_unbounded hside]
  | false =>
    obtain ⟨record, hrecord⟩ := exists_mem_of_ne_nil _ h
    have hbetween := Table.userKey_between hside hrecord
    exact hbetween.1.trans hbetween.2

lemma keyIsInRange_included {key smallest largest : Key} :
    keyIsInRange key ⟨.included smallest, .included largest⟩ = true ↔
      smallest ≤ key ∧ key ≤ largest := by
  simp [keyIsInRange, keyIsBeforeStart, keyIsAfterEnd]

lemma exists_input_of_keySpan {tables : List CompactionTable} {inputs : List ℕ} {span : KeySpan}
    (h : keySpanForInputs tables inputs = some span) :
    ∃ table ∈ tables, table.id ∈ inputs ∧ table.hasKeyBounds = true := by
  by_contra hnone
  push Not at hnone
  have hempty : tables.filter (fun table => decide (table.id ∈ inputs) && table.hasKeyBounds) =
      [] := by
    refine filter_eq_nil_iff.mpr fun table htable => ?_
    simpa using hnone table htable
  rw [keySpanForInputs, hempty] at h
  cases h

lemma level_of_written {level : ℕ} {payloads : List CompactionTablePayload}
    (h : List.Forall₂ (fun payload output => payload.WrittenTo output ∧ output.level = level)
      payloads outputs) : ∀ output ∈ outputs, output.level = level := by
  intro output houtput
  obtain ⟨-, -, -, hlevel⟩ := exists_of_mem_right h houtput
  exact hlevel

section Accepts

variable (hversion : LevelsOk version.tables) (hids : (version.tables.map Table.id).Nodup)
  (hplan : planCompaction (version.compactionTables bytes) bucket range oldestActiveSnapshot
    options = .ok ⟨some plan, skip⟩)

include hversion hids hplan

/-- The outputs of a plan are accepted exactly if they fit.

**Proof sketch.** The tables that remain in the output level have bounds, outside of the range of the
plan. So outputs in the range are apart from them. -/
lemma accepts_iff_fits (hlevel : ∀ output ∈ outputs, output.level = plan.outputLevel) :
    version.Accepts (version.compactionInput tableOptions range plan) outputs ↔
      version.Fits plan outputs := by
  have hzero : plan.outputLevel ≠ 0 := by
    rcases (plannedFrom_of_planCompaction hplan).2 with ⟨hone, -⟩ | ⟨seed, -, -, hout, -⟩ <;> omega
  rw [accepts_iff hversion hids hzero hlevel]
  constructor
  · rintro ⟨hapart, hcross, hok⟩
    refine ⟨hapart, fun output houtput _ => hok.ordered output (mem_append_right _ houtput),
      fun output houtput hnone => ?_, fun output houtput _ table htable =>
        hcross table htable output houtput⟩
    have hcount : ¬1 < (version.remaining plan ++ outputs).length := fun hcount => by
      simp [hok.bounded hcount output (mem_append_right _ houtput)] at hnone
    have hpos := length_pos_of_mem houtput
    rw [length_append] at hcount
    obtain ⟨only, rfl⟩ := length_eq_one_iff.mp (show outputs.length = 1 by omega)
    exact ⟨by rw [mem_singleton.mp houtput], length_eq_zero_iff.mp (by omega)⟩
  · intro h
    have hremain : ∀ table ∈ version.remaining plan, table.hasKeyBounds = true ∧
        ∀ output ∈ outputs, table.DisjointBounds output := by
      intro table htable
      obtain ⟨hin, hout, hsame⟩ := mem_remaining.mp htable
      obtain ⟨span, -, hrange, hhas, houtside⟩ := outside_of_remaining hplan hin hout hsame
      refine ⟨hhas, fun output houtput => ?_⟩
      by_cases hwithin : keyIsInRange output.smallestUserKey plan.keyRange = true ∧
          keyIsInRange output.largestUserKey plan.keyRange = true
      · rw [hrange, keyIsInRange_included, keyIsInRange_included] at hwithin
        rcases houtside with houtside | houtside
        · exact .inr (hwithin.2.2.trans_lt houtside)
        · exact .inl (houtside.trans_le hwithin.1.1)
      · exact h.beyond output houtput hwithin table htable
    refine ⟨h.apart, fun table htable => (hremain table htable).2, ?_⟩
    have hok : LevelOk (version.remaining plan) :=
      (hversion plan.outputLevel hzero).sublist filter_sublist
    refine ⟨fun table htable => ?_, fun hcount table htable => ?_, pairwise_append.mpr
      ⟨hok.disjoint, h.apart.imp fun hdisjoint _ _ => hdisjoint, fun table htable output houtput _ _ =>
        (hremain table htable).2 output houtput⟩⟩
    · rcases mem_append.mp htable with htable | houtput
      · exact hok.ordered table htable
      · by_cases hrecords : table.pointRecords = []
        · exact h.ordered table houtput hrecords
        · exact fun _ => ordered_of_records hrecords
    · rcases mem_append.mp htable with htable | houtput
      · exact (hremain table htable).1
      · by_contra hnone
        obtain ⟨hone, hempty⟩ := h.alone table houtput (by simpa using hnone)
        simp [hone, hempty] at hcount

lemma accepts_moved {table : Table}
    (hsingle : (version.compactionInput tableOptions range plan).inputTables = [table])
    (hordered : table.hasKeyBounds = true → table.smallestUserKey ≤ table.largestUserKey) :
    version.Accepts (version.compactionInput tableOptions range plan)
      [table.cloneWithLevel plan.outputLevel] := by
  have hinput : ∀ other, other ∈ version.tables → other.id ∈ plan.inputTables → other = table := by
    intro other hother hselected
    have hin : other ∈ (version.compactionInput tableOptions range plan).inputTables :=
      mem_filter.mpr ⟨hother, decide_eq_true hselected⟩
    exact mem_singleton.mp (hsingle ▸ hin)
  have hremain : ∀ other ∈ version.remaining plan, table.hasKeyBounds = true ∧
      keyIsInRange table.smallestUserKey plan.keyRange = true ∧
        keyIsInRange table.largestUserKey plan.keyRange = true := by
    intro other hother
    obtain ⟨hin, hout, hsame⟩ := mem_remaining.mp hother
    obtain ⟨span, hspan, hrange, -⟩ := outside_of_remaining hplan hin hout hsame
    obtain ⟨seen, hseen, hselected, hbounds⟩ := exists_input_of_keySpan hspan
    obtain ⟨source, hsource, rfl⟩ := mem_map.mp hseen
    obtain rfl := hinput source hsource hselected
    obtain ⟨wider, hwider, hlow, hhigh⟩ := exists_keySpanForInputs hseen hselected hbounds
    obtain rfl : wider = span := Option.some.inj (hwider.symm.trans hspan)
    have hhas := hasKeyBounds_of_fromProperties hbounds
    have hle := hordered hhas
    rw [hrange, keyIsInRange_included, keyIsInRange_included]
    exact ⟨hhas, ⟨hlow, hle.trans hhigh⟩, hlow.trans hle, hhigh⟩
  rw [accepts_iff_fits hversion hids hplan (by simp [Table.cloneWithLevel])]
  refine ⟨pairwise_singleton _ _, fun output houtput _ hhas => ?_, fun output houtput hnone => ?_,
    fun output houtput hbeyond other hother => ?_⟩
  · rw [mem_singleton.mp houtput] at hhas ⊢
    exact hordered (hasKeyBounds_cloneWithLevel ▸ hhas)
  · rw [mem_singleton.mp houtput] at hnone ⊢
    refine ⟨rfl, eq_nil_iff_forall_not_mem.mpr fun other hother => ?_⟩
    rw [hasKeyBounds_cloneWithLevel, (hremain other hother).1] at hnone
    cases hnone
  · rw [mem_singleton.mp houtput] at hbeyond
    exact absurd (hremain other hother).2 hbeyond

lemma accepts_records
    (h : (version.compactionInput tableOptions range plan).fullBucketCompaction = true ∨
      collectCompactionRangeTombstones (version.compactionInput tableOptions range plan)
        plan.keyRange = [])
    (hwritten : List.Forall₂ (fun payload output => payload.WrittenTo output ∧
      output.level = plan.outputLevel)
      ((version.compactionInput tableOptions range plan).rewritten oldestActiveSnapshot policy
        plan.keyRange target) outputs) :
    version.Accepts (version.compactionInput tableOptions range plan) outputs := by
  have hbounds : ∀ output ∈ outputs, ∃ payload ∈ (version.compactionInput tableOptions range
      plan).rewritten oldestActiveSnapshot policy plan.keyRange target,
      output.hasKeyBounds = true ∧ output.smallestUserKey ≤ output.largestUserKey ∧
        ∃ low ∈ payload.pointRecords, ∃ high ∈ payload.pointRecords,
          low.userKey ≤ output.smallestUserKey ∧ output.largestUserKey ≤ high.userKey := by
    intro output houtput
    obtain ⟨payload, hpayload, hw, -⟩ := exists_of_mem_right hwritten houtput
    exact ⟨payload, hpayload,
      (CompactionInput.aroundRecords_of_mem_rewritten h hpayload).bounds hw⟩
  have hpair : outputs.Pairwise Table.DisjointBounds := by
    refine pairwise_of_forall₂ hwritten ?_ (CompactionInput.pairwise_rewritten h)
    intro left right first second hleft hright hfirst hsecond hbefore
    obtain ⟨-, -, -, -, high, hhigh, -, hlast⟩ :=
      (CompactionInput.aroundRecords_of_mem_rewritten h hleft).bounds hfirst.1
    obtain ⟨-, -, low, hlow, -, -, hnext, -⟩ :=
      (CompactionInput.aroundRecords_of_mem_rewritten h hright).bounds hsecond.1
    exact .inl ((hlast.trans_lt (hbefore high hhigh low hlow)).trans_le hnext)
  rw [accepts_iff_fits hversion hids hplan (level_of_written hwritten)]
  refine ⟨hpair, fun output houtput _ _ => ?_, fun output houtput hnone => ?_,
    fun output houtput hbeyond => absurd ?_ hbeyond⟩
  · obtain ⟨-, -, -, hordered, -⟩ := hbounds output houtput
    exact hordered
  · obtain ⟨-, -, hhas, -⟩ := hbounds output houtput
    rw [hhas] at hnone
    cases hnone
  · obtain ⟨payload, hpayload, -, hordered, low, hlow, high, hhigh, hsmallest, hlargest⟩ :=
      hbounds output houtput
    have hkey : ∀ record ∈ payload.pointRecords, keyIsInRange record.userKey plan.keyRange = true :=
      fun record hrecord => keyIsInRange_of_mem_keptRecords
        (CompactionInput.mem_pointRecords_rewritten.mp ⟨payload, hpayload, hrecord⟩)
    exact ⟨keyIsInRange_of_between hsmallest (hordered.trans hlargest) (hkey low hlow)
        (hkey high hhigh),
      keyIsInRange_of_between (hsmallest.trans hordered) hlargest (hkey low hlow) (hkey high hhigh)⟩

end Accepts

end Plan

/-- The plan for the two puts of `a` in two levels. -/
def layeredPlan : CompactionPlan :=
  ⟨"default", [2, 1], 1, 3, ⟨.included [97], .included [97]⟩, .l0Overlap⟩

/-- A put of `m` between two range deletions. -/
def splitTable : Table where
  id := 4
  level := 0
  options := ⟨4096, .disabled, .disabled, .disabled, .uniform⟩
  residence := .written
  pointRecords := [.ofPut [109] [1] 2 0]
  rangeTombstones := RangeTombstoneIndex.new
    [⟨⟨.included [97], .excluded [99]⟩, 3, 0⟩, ⟨⟨.included [120], .excluded [122]⟩, 4, 0⟩]
  sorted := pairwise_singleton _ _
  nonempty := Or.inl (cons_ne_nil _ _)

/-- The table over an older put of `m`, and a put of `b` further down. -/
def splitVersion : LsmVersion :=
  ⟨[⟨0, [splitTable], fun h => absurd rfl h⟩, ⟨1, [putTable 2 1 [109] 1], fun _ => rfl⟩,
    ⟨2, [putTable 1 2 [98] 1], fun _ => rfl⟩]⟩

def splitOutput : Table where
  id := 6
  level := 1
  options := ⟨4096, .disabled, .disabled, .disabled, .uniform⟩
  residence := .written
  pointRecords := []
  rangeTombstones := splitTable.rangeTombstones
  sorted := strictlySorted_nil
  nonempty := Or.inr (cons_ne_nil _ _)

end LsmVersion

end TrineKv
