import TrineKv.Compaction.RewriteReads
import TrineKv.Table.BlockDecode

/-!
# Records that are in several inputs of a compaction

A record that is flushed, replayed and flushed again is in two tables, with one internal key. A
compaction keeps one of them if it is not newer than the oldest active snapshot, and both if it is;
the decoder refuses the block with both. A full compaction drops the last version of a key if it is
a deletion, and with it one repetition.

## Main definitions

* `RepeatsAllowed`: how often internal keys newer than the snapshot may occur.
* `CompactionInput.collected`: the versions of a key that the cursors over the inputs return.

## Main results

* `CompactionInput.strictlySorted_rewrite_iff`: the outputs are sorted strictly exactly if the
  repetitions among the collected versions of every key are allowed.
* `CompactionInput.repeatedInput_refused`: a record in two inputs.
-/

namespace TrineKv

open List
open PointRecord (internalKey userKey)

/-- Among the internal keys of the versions of a key, one that is newer than the snapshot occurs at
most once; in a full compaction a deletion occurs at most twice if it is the oldest version. -/
def RepeatsAllowed (oldestActiveSnapshot : ℕ) (full : Bool) (keys : List InternalKey) : Prop :=
  ∀ key, oldestActiveSnapshot < key.sequence → keys.count key ≤
    if full = true ∧ key.kind = .pointDelete ∧ ∀ other ∈ keys, other ≤ key then 2 else 1

lemma RepeatsAllowed.perm {oldestActiveSnapshot : ℕ} {full : Bool} {left right : List InternalKey}
    (h : left.Perm right) :
    RepeatsAllowed oldestActiveSnapshot full left ↔
      RepeatsAllowed oldestActiveSnapshot full right := by
  simp only [RepeatsAllowed, h.count_eq, h.mem_iff]

/-! ## Versions of a key -/

section Versions

variable {oldestActiveSnapshot : ℕ} {records newer older : List PointRecord} {key : Key}
  {full : Bool}

/-- What is kept of the versions of a key: those newer than the snapshot, without the last one if a
full compaction has no older version and it is a deletion, and at most one older version. -/
lemma exists_compactPointRecordGroup_eq (hkey : ∀ record ∈ records, record.userKey = key) :
    ∃ newer older kept, records.Perm (newer ++ older) ∧ (newer ++ older).Pairwise internalKeyLe ∧
      (∀ record ∈ newer, oldestActiveSnapshot < record.sequence) ∧
      (∀ record ∈ older, record.sequence ≤ oldestActiveSnapshot) ∧
      kept.length ≤ 1 ∧ kept ⊆ older ∧
      compactPointRecordGroup oldestActiveSnapshot full records =
        (if full = true ∧ older = [] then cleanupPointTombstones newer else newer) ++ kept := by
  obtain ⟨newer, older, hperm, hsorted, hnewer, holder, hcompact⟩ :=
    exists_compactPointRecords_eq oldestActiveSnapshot hkey
  have hkeys : ∀ record ∈ newer ++ older, record.userKey = key := fun record hmem =>
    hkey record (hperm.mem_iff.mpr hmem)
  unfold compactPointRecordGroup
  dsimp only
  rw [hcompact]
  cases full with
  | false =>
    exact ⟨newer, older, older.take 1, hperm, hsorted, hnewer, holder, length_take_le 1 _,
      take_subset 1 _, by simp⟩
  | true =>
    cases older with
    | nil =>
      exact ⟨newer, [], [], hperm, hsorted, hnewer, holder, Nat.zero_le 1, List.Subset.refl _,
        by simp⟩
    | cons first older =>
      have hsub : (newer ++ [first]).Sublist (newer ++ first :: older) :=
        (List.Sublist.refl newer).append ((nil_sublist older).cons_cons first)
      have hclean := cleanupPointTombstones_append (fun record hmem => hkeys record (hsub.subset hmem))
        (hsorted.sublist hsub)
      refine ⟨newer, first :: older, if first.kind = .pointDelete then [] else [first], hperm,
        hsorted, hnewer, holder, ?_, ?_, by simpa using hclean⟩
      · split_ifs <;> simp
      · split_ifs <;> simp

lemma strictlySorted_iff_count (hsorted : records.Pairwise internalKeyLe) :
    StrictlySorted records ↔ ∀ key, (records.map internalKey).count key ≤ 1 := by
  rw [← nodup_iff_count_le_one, List.Nodup, pairwise_map]
  constructor
  · exact fun h => h.imp fun hlt => hlt.ne
  · exact fun h => (hsorted.and h).imp fun hpair => lt_of_le_of_ne hpair.1 hpair.2

/-- Beside at most one older version, strictness is that of the newer versions. -/
lemma strictlySorted_append_iff {kept : List PointRecord}
    (hsorted : (newer ++ kept).Pairwise internalKeyLe) (hlength : kept.length ≤ 1)
    (hnewer : ∀ record ∈ newer, oldestActiveSnapshot < record.sequence)
    (hkept : ∀ record ∈ kept, record.sequence ≤ oldestActiveSnapshot) :
    StrictlySorted (newer ++ kept) ↔ StrictlySorted newer := by
  obtain ⟨-, -, hle⟩ := pairwise_append.mp hsorted
  unfold StrictlySorted
  rw [pairwise_append]
  refine ⟨fun h => h.1, fun h => ⟨h, ?_, fun left hleft right hright => ?_⟩⟩
  · match kept, hlength with
    | [], _ => exact List.Pairwise.nil
    | [record], _ => exact pairwise_singleton _ _
  · refine lt_of_le_of_ne (hle left hleft right hright) fun heq => ?_
    have hlt := hnewer left hleft
    have hold := hkept right hright
    rw [PointRecord.sequence, heq] at hlt
    exact absurd hlt (not_lt_of_ge hold)

/-- Among the versions of a key, the oldest is the last one. -/
lemma oldest_iff_eq_last {last : PointRecord} {version : InternalKey}
    (hsorted : (records ++ [last]).Pairwise internalKeyLe)
    (hmem : version ∈ (records ++ [last]).map internalKey) :
    (∀ other ∈ (records ++ [last]).map internalKey, other ≤ version) ↔
      version = last.internalKey := by
  have hle : ∀ other ∈ (records ++ [last]).map internalKey,
      other ≤ last.internalKey := by
    intro other hother
    obtain ⟨record, hrecord, rfl⟩ := mem_map.mp hother
    rcases mem_append.mp hrecord with hrecord | hrecord
    · exact (pairwise_append.mp hsorted).2.2 record hrecord last (mem_singleton_self last)
    · rw [mem_singleton.mp hrecord]
  constructor
  · intro h
    exact le_antisymm (hle version hmem) (h _ (mem_map_of_mem
      (mem_append_right _ (mem_singleton_self last))))
  · rintro rfl
    exact hle

/-- Without older versions, a full compaction forgives one repetition of the last version if it is
a deletion. -/
lemma strictlySorted_cleanup_iff (hkey : ∀ record ∈ newer, record.userKey = key)
    (hsorted : newer.Pairwise internalKeyLe)
    (hnewer : ∀ record ∈ newer, oldestActiveSnapshot < record.sequence) :
    StrictlySorted (cleanupPointTombstones newer) ↔
      RepeatsAllowed oldestActiveSnapshot true (newer.map internalKey) := by
  rcases eq_nil_or_concat newer with rfl | ⟨records, last, rfl⟩
  · simp [cleanupPointTombstones, RepeatsAllowed, StrictlySorted]
  rw [concat_eq_append] at *
  rw [strictlySorted_iff_count (hsorted.sublist (cleanupPointTombstones_sublist _)),
    cleanupPointTombstones_append hkey hsorted]
  refine forall_congr' fun version => ?_
  by_cases hmem : version ∈ (records ++ [last]).map internalKey
  case neg =>
    have hout : version ∉ (records ++ if last.kind = .pointDelete then [] else [last]).map
        internalKey := fun h => hmem (map_subset _ (by split_ifs <;> simp) h)
    rw [count_eq_zero_of_not_mem hmem, count_eq_zero_of_not_mem hout]
    exact iff_of_true (Nat.zero_le _) fun _ => Nat.zero_le _
  have hnew : oldestActiveSnapshot < version.sequence := by
    obtain ⟨record, hrecord, rfl⟩ := mem_map.mp hmem
    exact hnewer record hrecord
  simp only [hnew, forall_true_left, true_and, oldest_iff_eq_last hsorted hmem]
  rw [map_append, map_append, count_append, count_append]
  by_cases heq : version = last.internalKey
  · subst heq
    by_cases hkind : last.kind = .pointDelete
    · have hkind' : last.internalKey.kind = .pointDelete := hkind
      simp [hkind, hkind']
    · have hkind' : last.internalKey.kind ≠ .pointDelete := hkind
      simp [hkind, hkind']
  · have hzero : (List.map internalKey [last]).count version = 0 :=
      count_eq_zero_of_not_mem (by simpa using heq)
    split_ifs <;> simp_all

/-- With an older version, or in a partial compaction, no repetition is forgiven. -/
lemma strictlySorted_newer_iff (hkey : ∀ record ∈ newer ++ older, record.userKey = key)
    (hsorted : newer.Pairwise internalKeyLe)
    (hnewer : ∀ record ∈ newer, oldestActiveSnapshot < record.sequence)
    (holder : ∀ record ∈ older, record.sequence ≤ oldestActiveSnapshot)
    (hmode : full = true → older ≠ []) :
    StrictlySorted newer ↔
      RepeatsAllowed oldestActiveSnapshot full ((newer ++ older).map internalKey) := by
  rw [strictlySorted_iff_count hsorted]
  refine forall_congr' fun version => ?_
  by_cases hnew : oldestActiveSnapshot < version.sequence
  case neg =>
    have hout : version ∉ newer.map internalKey := by
      rintro hmem
      obtain ⟨record, hrecord, rfl⟩ := mem_map.mp hmem
      exact hnew (hnewer record hrecord)
    rw [count_eq_zero_of_not_mem hout]
    exact iff_of_true (Nat.zero_le _) fun h => absurd h hnew
  have hout : version ∉ older.map internalKey := by
    rintro hmem
    obtain ⟨record, hrecord, rfl⟩ := mem_map.mp hmem
    exact absurd hnew (not_lt_of_ge (holder record hrecord))
  rw [map_append, count_append, count_eq_zero_of_not_mem hout, Nat.add_zero]
  by_cases hmem : version ∈ newer.map internalKey
  case neg =>
    rw [count_eq_zero_of_not_mem hmem]
    exact iff_of_true (Nat.zero_le _) fun _ => Nat.zero_le _
  -- The older version is not before the key.
  have hnot : ¬(full = true ∧ version.kind = .pointDelete ∧
      ∀ other ∈ newer.map internalKey ++ older.map internalKey,
        other ≤ version) := by
    rintro ⟨hfull, -, holdest⟩
    obtain ⟨last, hlast⟩ := exists_mem_of_ne_nil older (hmode hfull)
    obtain ⟨record, hrecord, rfl⟩ := mem_map.mp hmem
    have hsame : last.userKey = record.userKey :=
      (hkey last (mem_append_right _ hlast)).trans
        (hkey record (mem_append_left _ hrecord)).symm
    have hle := sequence_le_of_internalKeyLe hsame
      (holdest last.internalKey (mem_append_right _ (mem_map_of_mem hlast)))
    have hlow := holder last hlast
    have hhigh := hnewer record hrecord
    omega
  rw [if_neg hnot]
  exact ⟨fun h _ => h, fun h => h hnew⟩

/-- What is left of the versions of a key is sorted strictly exactly if their repetitions are allowed.

**Proof sketch.** Range deletions drop only versions that are not newer than the snapshot, of which at
most one is left. So strictness is about the newer versions, all of which are kept, except that
without older ones a full compaction drops a deletion at the end. -/
lemma strictlySorted_group_iff (hkey : ∀ record ∈ records, record.userKey = key)
    (tombstones : List RangeTombstone) :
    StrictlySorted (dropRecordsCoveredByDroppableTombstone oldestActiveSnapshot tombstones
        (compactPointRecordGroup oldestActiveSnapshot full records)) ↔
      RepeatsAllowed oldestActiveSnapshot full (records.map internalKey) := by
  have hpair : (dropRecordsCoveredByDroppableTombstone oldestActiveSnapshot tombstones
      (compactPointRecordGroup oldestActiveSnapshot full records)).Pairwise internalKeyLe :=
    (pairwise_compactPointRecordGroup oldestActiveSnapshot).sublist filter_sublist
  obtain ⟨newer, older, kept, hperm, hsorted, hnewer, holder, hlength, hkept, heq⟩ :=
    @exists_compactPointRecordGroup_eq oldestActiveSnapshot records key full hkey
  have hkeys : ∀ record ∈ newer ++ older, record.userKey = key := fun record hmem =>
    hkey record (hperm.mem_iff.mpr hmem)
  have hsortedNewer := (pairwise_append.mp hsorted).1
  rw [RepeatsAllowed.perm (hperm.map internalKey)]
  set left := if full = true ∧ older = [] then cleanupPointTombstones newer else newer with hleft
  have hleftNewer : ∀ record ∈ left, oldestActiveSnapshot < record.sequence := by
    intro record hmem
    refine hnewer record ?_
    rw [hleft] at hmem
    split_ifs at hmem
    · exact (cleanupPointTombstones_sublist newer).subset hmem
    · exact hmem
  have hself : dropRecordsCoveredByDroppableTombstone oldestActiveSnapshot tombstones left = left := by
    refine filter_eq_self.mpr fun record hmem => ?_
    have hnew := hleftNewer record hmem
    rw [Bool.not_eq_true', any_eq_false]
    intro tombstone _
    simp only [RangeTombstone.hidesForAll, Bool.and_eq_true, decide_eq_true_eq]
    omega
  rw [heq, dropRecordsCoveredByDroppableTombstone, filter_append,
    ← dropRecordsCoveredByDroppableTombstone, hself] at hpair ⊢
  rw [strictlySorted_append_iff hpair ((length_filter_le _ _).trans hlength) hleftNewer
    fun record hmem => holder record (hkept (mem_filter.mp hmem).1), hleft]
  split_ifs with hmode
  · obtain ⟨rfl, rfl⟩ := hmode
    rw [append_nil] at hkeys ⊢
    exact strictlySorted_cleanup_iff hkeys hsortedNewer hnewer
  · exact strictlySorted_newer_iff hkeys hsortedNewer hnewer holder
      fun hfull hnil => hmode ⟨hfull, hnil⟩

end Versions

/-! ## The outputs -/

namespace CompactionInput

variable {oldestActiveSnapshot : ℕ} {policy : IndexSearchPolicy} {input : CompactionInput}
  {range : KeyRange} {tables : List Table} {records : List PointRecord} {target : ℕ}

/-- The versions of a key that the cursors over the inputs return, without the inputs that a range
deletion hides altogether. -/
def collected (oldestActiveSnapshot : ℕ) (policy : IndexSearchPolicy) (input : CompactionInput)
    (range : KeyRange) (key : Key) : List PointRecord :=
  ((input.readTables oldestActiveSnapshot (collectCompactionRangeTombstones input range)).flatMap
    (Table.read policy range)).filter fun record => decide (record.userKey = key)

lemma flatMap_filter_groups (table : Table) (key : Key) :
    ((table.groups policy range).filter fun group => decide (group.userKey = key)).flatMap
        RecordGroup.records =
      (table.read policy range).filter fun record => decide (record.userKey = key) := by
  have hfilter : (fun group : RecordGroup => decide (group.userKey = key)) ∘ (fun key => ⟨key,
      (table.read policy range).filter fun record => decide (record.userKey = key)⟩) =
      fun other => decide (other = key) := rfl
  rw [Table.groups, filter_map, hfilter, filter_eq]
  by_cases hmem : key ∈ ((table.read policy range).map userKey).dedup
  · rw [count_eq_one_of_mem (nodup_dedup _) hmem]
    simp
  · rw [count_eq_zero_of_not_mem hmem]
    refine (filter_eq_nil_iff.mpr fun record hrecord heq => hmem ?_).symm
    exact mem_dedup.mpr (mem_map.mpr ⟨record, hrecord, by simpa using heq⟩)

/-- A merged group has the records of its key, from one table after the other. -/
lemma mem_mergedRecords_iff :
    records ∈ mergedRecords (tables.map (Table.groups policy range)) ↔
      ∃ key, (∃ record ∈ tables.flatMap (Table.read policy range), record.userKey = key) ∧
        records = (tables.flatMap (Table.read policy range)).filter
          fun record => decide (record.userKey = key) := by
  have hrecords : ∀ key, ((tables.map (Table.groups policy range)).flatMap fun source =>
      source.filter fun group => decide (group.userKey = key)).flatMap RecordGroup.records =
      (tables.flatMap (Table.read policy range)).filter
        fun record => decide (record.userKey = key) := by
    intro key
    simp only [flatMap_assoc, flatMap_map, flatMap_filter_groups, filter_flatMap]
  have hsome : ∀ key, (∃ source ∈ tables.map (Table.groups policy range), ∃ group ∈ source,
      group.userKey = key) ↔
      ∃ record ∈ tables.flatMap (Table.read policy range), record.userKey = key := by
    intro key
    simp only [mem_map, mem_flatMap]
    constructor
    · rintro ⟨_, ⟨table, htable, rfl⟩, group, hgroup, rfl⟩
      obtain ⟨record, hrecord, heq⟩ := (Table.mem_groups.mp hgroup).1
      exact ⟨record, ⟨table, htable, hrecord⟩, heq⟩
    · rintro ⟨record, ⟨table, htable, hrecord⟩, rfl⟩
      obtain ⟨group, hgroup, heq, -⟩ := Table.exists_mem_groups.mpr ⟨hrecord, rfl⟩
      exact ⟨_, ⟨table, htable, rfl⟩, group, hgroup, heq⟩
  constructor
  · intro h
    obtain ⟨⟨key, groups⟩, hgroup, rfl⟩ := mem_map.mp h
    obtain ⟨hkey, rfl⟩ := (GroupMerge.mem_merge (ascending_groups tables) (Nat.lt_succ_self _)).mp hgroup
    refine ⟨key, (hsome key).mp hkey, ?_⟩
    convert hrecords key
  · rintro ⟨key, hkey, rfl⟩
    refine mem_map.mpr ⟨(key, _), (GroupMerge.mem_merge (ascending_groups tables)
      (Nat.lt_succ_self _)).mpr ⟨(hsome key).mpr hkey, rfl⟩, ?_⟩
    convert hrecords key

/-- The outputs are cut between keys, so that they are sorted strictly if all that is kept is. -/
lemma strictlySorted_rewritten_iff :
    (∀ payload ∈ input.rewritten oldestActiveSnapshot policy range target,
      StrictlySorted payload.pointRecords) ↔
      StrictlySorted (input.keptRecords oldestActiveSnapshot policy range).flatten := by
  have hflat := @flatMap_chunksOf (input.effectiveTarget range target)
    (input.keptRecords oldestActiveSnapshot policy range)
  constructor
  · intro h
    rw [← hflat]
    refine pairwise_flatMap.mpr ⟨fun chunk hchunk => ?_, ?_⟩
    · obtain ⟨payload, hpayload, hrecords⟩ :=
        exists_payload_of_mem_chunks hchunk (isSome_chunkRange hchunk)
      exact hrecords ▸ h payload hpayload
    · exact (pairwise_chunksOf pairwise_groups_keptOf).imp
        fun hbefore a ha b hb => InternalKey.lt_of_userKey_lt (hbefore a ha b hb)
  · intro h payload hpayload
    rcases mem_append.mp hpayload with hpayload | hpayload
    · obtain ⟨chunk, hchunk, hsome⟩ := mem_filterMap.mp hpayload
      obtain ⟨span, -, rfl⟩ := Option.map_eq_some_iff.mp hsome
      rw [← hflat] at h
      exact (pairwise_flatMap.mp h).1 chunk hchunk
    · rw [mem_tombstoneOnlyPayloads.1 payload hpayload]
      exact List.Pairwise.nil

/-- All that is kept is sorted strictly exactly if the repetitions in the collected records are
allowed. -/
lemma strictlySorted_keptRecords_iff :
    StrictlySorted (input.keptRecords oldestActiveSnapshot policy range).flatten ↔
      ∀ key, RepeatsAllowed oldestActiveSnapshot input.fullBucketCompaction
        ((input.collected oldestActiveSnapshot policy range key).map internalKey) := by
  have hgroups : (input.keptRecords oldestActiveSnapshot policy range).Pairwise fun left right =>
      ∀ a ∈ left, ∀ b ∈ right, a.internalKey < b.internalKey :=
    pairwise_groups_keptOf.imp fun h a ha b hb => InternalKey.lt_of_userKey_lt (h a ha b hb)
  rw [StrictlySorted, pairwise_flatten, and_iff_left hgroups]
  set tables := input.readTables oldestActiveSnapshot (collectCompactionRangeTombstones input range)
    with htables
  have hgroup : ∀ key, StrictlySorted (dropRecordsCoveredByDroppableTombstone oldestActiveSnapshot
      (collectCompactionRangeTombstones input range) (compactPointRecordGroup oldestActiveSnapshot
        input.fullBucketCompaction ((tables.flatMap (Table.read policy range)).filter
          fun record => decide (record.userKey = key)))) ↔ _ := fun key =>
    strictlySorted_group_iff (fun record hmem => by simpa using (mem_filter.mp hmem).2) _
  constructor
  · intro h key
    refine (hgroup key).mp ?_
    by_cases hempty : dropRecordsCoveredByDroppableTombstone oldestActiveSnapshot
        (collectCompactionRangeTombstones input range) (compactPointRecordGroup oldestActiveSnapshot
          input.fullBucketCompaction ((tables.flatMap (Table.read policy range)).filter
            fun record => decide (record.userKey = key))) = []
    · rw [hempty]
      exact List.Pairwise.nil
    · refine h _ (mem_filter.mpr ⟨mem_map_of_mem (mem_mergedRecords_iff.mpr
        ⟨key, ?_, rfl⟩), by simpa using hempty⟩)
      obtain ⟨record, hrecord⟩ := exists_mem_of_ne_nil _ hempty
      have hin := mem_filter.mp (drop_compactPointRecordGroup_subset hrecord)
      exact ⟨record, hin.1, by simpa using hin.2⟩
  · intro h kept hkept
    obtain ⟨-, records, hrecords, rfl⟩ := exists_of_mem_keptOf hkept
    obtain ⟨key, -, rfl⟩ := mem_mergedRecords_iff.mp hrecords
    exact (hgroup key).mpr (h key)

/-- The outputs are sorted strictly exactly if no internal key newer than the snapshot is collected
more often than allowed; and an output is sorted strictly exactly if the decoder accepts every block
that is cut from it. -/
theorem strictlySorted_rewrite_iff (oldestActiveSnapshot : ℕ) (policy : IndexSearchPolicy)
    (input : CompactionInput) (range : KeyRange) (target : ℕ) :
    ∃ payloads, buildCompactionTablePayloads oldestActiveSnapshot policy input range target =
        .ok payloads ∧
      ((∀ payload ∈ payloads, StrictlySorted payload.pointRecords) ↔
        ∀ key, RepeatsAllowed oldestActiveSnapshot input.fullBucketCompaction
          ((input.collected oldestActiveSnapshot policy range key).map internalKey)) ∧
      ∀ payload ∈ payloads, StrictlySorted payload.pointRecords ↔
        ∀ block, block <:+: payload.pointRecords →
          validateSortedDecodedDataBlock block = .ok () := by
  refine ⟨_, buildCompactionTablePayloads_eq,
    strictlySorted_rewritten_iff.trans strictlySorted_keptRecords_iff, fun payload _ => ?_⟩
  simp only [validateSortedDecodedDataBlock_eq_ok]
  exact ⟨fun h block hblock => h.sublist hblock.sublist, fun h => h _ infix_rfl⟩

def repeatedInput : CompactionInput :=
  { layeredInput with
    inputTables := [LsmVersion.putTable 2 0 [97] 3, LsmVersion.putTable 1 0 [97] 3] }

/-- With an older snapshot both are kept, and the decoder refuses the output. -/
theorem repeatedInput_refused :
    buildCompactionTablePayloads 2 .auto repeatedInput repeatedInput.compactionRange 100 =
        .ok [⟨[.ofPut [97] [1] 3 0, .ofPut [97] [1] 3 0], []⟩] ∧
      ¬StrictlySorted [.ofPut [97] [1] 3 0, .ofPut [97] [1] 3 0] ∧
      validateSortedDecodedDataBlock [.ofPut [97] [1] 3 0, .ofPut [97] [1] 3 0] =
        .error (.corruption "table point records are not sorted by internal key") := by
  refine ⟨by decide, by decide, by decide⟩

end CompactionInput

end TrineKv
