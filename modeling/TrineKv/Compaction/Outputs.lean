import TrineKv.Compaction.KeptRecords

/-!
# The output tables of a compaction

The kept records are cut into chunks without loss. A partial compaction puts every range deletion
into an output. A full one puts into an output what the range deletion covers of its span, which is
enough for the records of that output.

## Main results

* `flatMap_chunksOf`, `mem_pointRecords_payloads`, `exists_of_mem_rangeTombstones_payloads`,
  `exists_mem_rangeTombstones_partial`, `exists_mem_rangeTombstones_full`.
-/

namespace TrineKv

open List

/-! ## Common parts of ranges -/

section Intersection

variable {left right : KeyRange}

lemma le_of_startRank_le {smallest key : Key} {start : Bound Key}
    (h : startRank (.included smallest) ≤ startRank start)
    (hkey : finiteBoundBytes start = some key) : smallest ≤ key := by
  have hlex : ∀ flag : Bool, (toLex (smallest, false) : Key ×ₗ Bool) ≤ toLex (key, flag) →
      smallest ≤ key := by
    intro flag hle
    rcases Prod.Lex.toLex_le_toLex.mp hle with hlt | ⟨heq, -⟩
    · exact hlt.le
    · exact heq.le
  cases start with
  | included bytes =>
    obtain rfl : bytes = key := Option.some.inj hkey
    exact hlex false (WithBot.coe_le_coe.mp h)
  | excluded bytes =>
    obtain rfl : bytes = key := Option.some.inj hkey
    exact hlex true (WithBot.coe_le_coe.mp h)
  | unbounded => cases hkey

lemma le_of_endRank_le {largest key : Key} {end_ : Bound Key}
    (h : endRank end_ ≤ endRank (.included largest))
    (hkey : finiteBoundBytes end_ = some key) : key ≤ largest := by
  have hlex : ∀ flag : Bool, (toLex (key, flag) : Key ×ₗ Bool) ≤ toLex (largest, true) →
      key ≤ largest := by
    intro flag hle
    rcases Prod.Lex.toLex_le_toLex.mp hle with hlt | ⟨heq, -⟩
    · exact hlt.le
    · exact heq.le
  cases end_ with
  | included bytes =>
    obtain rfl : bytes = key := Option.some.inj hkey
    exact hlex true (WithTop.coe_le_coe.mp h)
  | excluded bytes =>
    obtain rfl : bytes = key := Option.some.inj hkey
    exact hlex false (WithTop.coe_le_coe.mp h)
  | unbounded => cases hkey

lemma ends_of_rangeIntersection {range : KeyRange} {smallest largest : Key}
    (h : rangeIntersection left (rangeFromInclusiveSpan smallest largest) = some range) :
    (∀ key ∈ finiteBoundBytes range.start, smallest ≤ key) ∧
      ∀ key ∈ finiteBoundBytes range.end_, key ≤ largest := by
  unfold rangeIntersection at h
  split_ifs at h
  obtain rfl := Option.some.inj h
  refine ⟨fun key hkey => le_of_startRank_le ?_ hkey, fun key hkey => le_of_endRank_le ?_ hkey⟩
  · rw [startRank_maxStartBound]
    exact le_max_right _ _
  · rw [endRank_minEndBound]
    exact min_le_right _ _

lemma finite_of_rangeIntersection {range : KeyRange} {smallest largest : Key}
    (h : rangeIntersection left (rangeFromInclusiveSpan smallest largest) = some range) :
    range.start ≠ .unbounded ∧ range.end_ ≠ .unbounded := by
  unfold rangeIntersection at h
  split_ifs at h
  obtain rfl := Option.some.inj h
  constructor
  · intro heq
    have hrank := startRank_maxStartBound left.start (.included smallest)
    rw [show maxStartBound left.start (.included smallest) = .unbounded from heq] at hrank
    have hle : startRank (.included smallest) ≤ startRank .unbounded :=
      hrank ▸ le_max_right _ _
    simp [startRank] at hle
  · intro heq
    have hrank := endRank_minEndBound left.end_ (.included largest)
    rw [show minEndBound left.end_ (.included largest) = .unbounded from heq] at hrank
    have hle : endRank .unbounded ≤ endRank (.included largest) := hrank ▸ min_le_right _ _
    simp [endRank] at hle

end Intersection

/-! ## Chunks -/

section Chunks

variable {target : ℕ} {groups : List (List PointRecord)}

/-- Filling chunks loses nothing and leaves only filled chunks behind. -/
lemma foldl_pushCompactionRecordsToChunks (target : ℕ) (groups : List (List PointRecord))
    (state : List CompactionChunk × CompactionChunk) :
    let result := groups.foldl (pushCompactionRecordsToChunks target) state
    result.1.flatMap CompactionChunk.pointRecords ++ result.2.pointRecords =
        state.1.flatMap CompactionChunk.pointRecords ++ state.2.pointRecords ++ groups.flatten ∧
      ∀ chunk ∈ result.1, chunk ∈ state.1 ∨ chunk.pointRecords ≠ [] := by
  induction groups generalizing state with
  | nil => exact ⟨by simp, fun chunk hchunk => Or.inl hchunk⟩
  | cons records groups ih =>
    obtain ⟨hflat, hchunks⟩ := ih (pushCompactionRecordsToChunks target state records)
    refine ⟨?_, fun chunk hchunk => ?_⟩
    · rw [foldl_cons, hflat]
      simp only [pushCompactionRecordsToChunks]
      split_ifs <;> simp
    · rcases hchunks chunk hchunk with hchunk | hne
      · simp only [pushCompactionRecordsToChunks] at hchunk
        split_ifs at hchunk with hsplit
        · rcases mem_append.mp hchunk with hchunk | hchunk
          · exact .inl hchunk
          · rw [mem_singleton] at hchunk
            rw [Bool.and_eq_true, Bool.not_eq_true', isEmpty_eq_false_iff] at hsplit
            exact .inr (hchunk ▸ hsplit.1)
        · exact .inl hchunk
      · exact .inr hne

lemma flatMap_chunksOf :
    (chunksOf target groups).flatMap CompactionChunk.pointRecords = groups.flatten := by
  have hflat := (foldl_pushCompactionRecordsToChunks target groups ([], ⟨[], 0⟩)).1
  simp only [flatMap_nil, nil_append] at hflat
  unfold chunksOf
  dsimp only
  split_ifs with hempty
  · rw [← hflat, List.isEmpty_iff.mp hempty, append_nil]
  · rw [← hflat, flatMap_append, flatMap_singleton]

lemma pointRecords_ne_nil_of_mem_chunksOf {chunk : CompactionChunk}
    (h : chunk ∈ chunksOf target groups) : chunk.pointRecords ≠ [] := by
  have hchunks := (foldl_pushCompactionRecordsToChunks target groups ([], ⟨[], 0⟩)).2
  unfold chunksOf at h
  dsimp only at h
  split_ifs at h with hempty
  · exact (hchunks chunk h).resolve_left not_mem_nil
  · rcases mem_append.mp h with h | h
    · exact (hchunks chunk h).resolve_left not_mem_nil
    · rw [mem_singleton.mp h]
      simpa using hempty

def KeysBefore (left right : List PointRecord) : Prop :=
  ∀ a ∈ left, ∀ b ∈ right, a.userKey < b.userKey

/-- Chunks are cut between keys.

**Proof sketch.** Induction on the groups that are left: they come after all that is in the chunks,
and the chunks ascend. -/
lemma pairwise_foldl_pushCompactionRecordsToChunks (target : ℕ)
    (groups : List (List PointRecord))
    (state : List CompactionChunk × CompactionChunk) (hgroups : groups.Pairwise KeysBefore)
    (hafter : ∀ chunk ∈ state.1 ++ [state.2], ∀ records ∈ groups,
      KeysBefore chunk.pointRecords records)
    (hchunks : (state.1 ++ [state.2]).Pairwise fun left right =>
      KeysBefore left.pointRecords right.pointRecords) :
    let result := groups.foldl (pushCompactionRecordsToChunks target) state
    (result.1 ++ [result.2]).Pairwise fun left right =>
      KeysBefore left.pointRecords right.pointRecords := by
  induction groups generalizing state with
  | nil => exact hchunks
  | cons records groups ih =>
    obtain ⟨hfirst, hrest⟩ := pairwise_cons.mp hgroups
    obtain ⟨hpast, -, hlast⟩ := pairwise_append.mp hchunks
    have hrecords : ∀ chunk ∈ state.1 ++ [state.2], KeysBefore chunk.pointRecords records :=
      fun chunk hchunk => hafter chunk hchunk records mem_cons_self
    have hlater : ∀ chunk ∈ state.1 ++ [state.2], ∀ later ∈ groups,
        KeysBefore chunk.pointRecords later := fun chunk hchunk later hmem =>
      hafter chunk hchunk later (mem_cons_of_mem _ hmem)
    refine ih _ hrest ?_ ?_
    · intro chunk hchunk later hmem
      simp only [pushCompactionRecordsToChunks] at hchunk
      rcases mem_append.mp hchunk with hchunk | hchunk
      · split_ifs at hchunk
        · exact hlater chunk hchunk later hmem
        · exact hlater chunk (mem_append_left _ hchunk) later hmem
      · rw [mem_singleton] at hchunk
        subst hchunk
        intro a ha b hb
        split_ifs at ha
        · exact hfirst later hmem a (by simpa using ha) b hb
        · rcases mem_append.mp ha with ha | ha
          · exact hlater state.2 (by simp) later hmem a ha b hb
          · exact hfirst later hmem a ha b hb
    · simp only [pushCompactionRecordsToChunks]
      split_ifs
      · refine pairwise_append.mpr ⟨hchunks, pairwise_singleton _ _, ?_⟩
        intro chunk hchunk next hnext
        rw [mem_singleton.mp hnext]
        simpa using hrecords chunk hchunk
      · refine pairwise_append.mpr ⟨hpast, pairwise_singleton _ _, ?_⟩
        intro chunk hchunk next hnext a ha b hb
        rw [mem_singleton.mp hnext] at hb
        rcases mem_append.mp hb with hb | hb
        · exact hlast chunk hchunk state.2 mem_cons_self a ha b hb
        · exact hrecords chunk (mem_append_left _ hchunk) a ha b hb

lemma pairwise_chunksOf (hgroups : groups.Pairwise KeysBefore) :
    (chunksOf target groups).Pairwise fun left right =>
      KeysBefore left.pointRecords right.pointRecords := by
  have hpair := pairwise_foldl_pushCompactionRecordsToChunks target groups ([], ⟨[], 0⟩)
    hgroups
    (by
      intro chunk hchunk
      rw [mem_singleton.mp hchunk]
      intro records _ a ha
      cases ha)
    (pairwise_singleton _ _)
  unfold chunksOf
  dsimp only
  split_ifs
  · exact hpair.sublist (sublist_append_left _ _)
  · exact hpair

lemma length_chunksOf_maxUInt64 (groups : List (List PointRecord)) :
    (chunksOf maxUInt64 groups).length ≤ 1 := by
  have hnever : ∀ (state : List CompactionChunk × CompactionChunk),
      (groups.foldl (pushCompactionRecordsToChunks maxUInt64) state).1 = state.1 := by
    induction groups with
    | nil => exact fun state => rfl
    | cons records groups ih =>
      intro state
      have hle : ¬maxUInt64 <
          saturatingAdd state.2.estimatedBytes (records.map compactionRecordBytes).sum :=
        not_lt_of_ge (min_le_right _ _)
      rw [foldl_cons, ih]
      simp [pushCompactionRecordsToChunks, hle]
  unfold chunksOf
  dsimp only
  rw [hnever]
  split_ifs <;> simp

lemma exists_chunkRange {records : List PointRecord} (hsorted : records.Pairwise internalKeyLe)
    (hne : records ≠ []) :
    ∃ smallest largest, chunkRange records = some (rangeFromInclusiveSpan smallest largest) ∧
      ∀ record ∈ records,
        keyIsInRange record.userKey (rangeFromInclusiveSpan smallest largest) = true := by
  obtain ⟨first, hfirst⟩ : ∃ first, records.head? = some first :=
    Option.isSome_iff_exists.mp (isSome_head?.mpr hne)
  obtain ⟨last, hlast⟩ : ∃ last, records.getLast? = some last :=
    ⟨records.getLast hne, List.getLast?_eq_some_getLast hne⟩
  refine ⟨first.userKey, last.userKey, by simp [chunkRange, hfirst, hlast], fun record hmem => ?_⟩
  have hascend : KeysAscend records := hsorted.imp fun h => InternalKey.userKey_le_of_le h
  obtain ⟨hlow, hhigh⟩ := hascend.between hfirst hlast hmem
  simp [keyIsInRange, rangeFromInclusiveSpan, keyIsBeforeStart, keyIsAfterEnd, hlow, hhigh]

end Chunks

/-! ## Payloads -/

section Payloads

variable {chunks : List CompactionChunk} {tombstones : List RangeTombstone} {full : Bool}
  {target : ℕ} {payload : CompactionTablePayload} {tombstone : RangeTombstone}

/-- Outputs for range deletions only have no records, and hold the range deletions. -/
lemma mem_tombstoneOnlyPayloads {current : List RangeTombstone} {bytes : ℕ} :
    (∀ payload ∈ tombstoneOnlyPayloads target current bytes tombstones,
      payload.pointRecords = []) ∧
    ∀ tombstone, (∃ payload ∈ tombstoneOnlyPayloads target current bytes tombstones,
      tombstone ∈ payload.rangeTombstones) ↔ tombstone ∈ current ++ tombstones := by
  induction tombstones generalizing current bytes with
  | nil =>
    rw [tombstoneOnlyPayloads, append_nil]
    split_ifs with hempty
    · simp [List.isEmpty_iff.mp hempty]
    · simp
  | cons first tombstones ih =>
    rw [tombstoneOnlyPayloads]
    split_ifs with hsplit
    · obtain ⟨hrecords, hmem⟩ :=
        @ih [first] (saturatingAdd 0 (compactionTombstoneBytes first))
      refine ⟨fun payload hpayload => ?_, fun tombstone => ?_⟩
      · rcases mem_cons.mp hpayload with rfl | hpayload
        · rfl
        · exact hrecords payload hpayload
      · simp only [mem_cons, exists_eq_or_imp, hmem, mem_append]
        simp
    · obtain ⟨hrecords, hmem⟩ := @ih (current ++ [first])
        (saturatingAdd bytes (compactionTombstoneBytes first))
      exact ⟨hrecords, fun tombstone => (hmem tombstone).trans (by simp)⟩

lemma tombstoneOnlyPayloads_maxUInt64 (tombstones current : List RangeTombstone) (bytes : ℕ) :
    tombstoneOnlyPayloads maxUInt64 current bytes tombstones =
      if (current ++ tombstones).isEmpty then [] else [⟨[], current ++ tombstones⟩] := by
  induction tombstones generalizing current bytes with
  | nil => simp [tombstoneOnlyPayloads]
  | cons first tombstones ih =>
    have hle : ¬maxUInt64 < saturatingAdd bytes (compactionTombstoneBytes first) :=
      not_lt_of_ge (min_le_right _ _)
    rw [tombstoneOnlyPayloads]
    simp [hle, ih]

/-- The records of a chunk are those of an output. -/
lemma exists_payload_of_mem_chunks {chunk : CompactionChunk} (hchunk : chunk ∈ chunks)
    (hspan : (chunkRange chunk.pointRecords).isSome = true) :
    ∃ payload ∈ compactionPayloadsFromChunks chunks tombstones full target,
      payload.pointRecords = chunk.pointRecords := by
  obtain ⟨span, hspan⟩ := Option.isSome_iff_exists.mp hspan
  refine ⟨⟨chunk.pointRecords, tombstones.filterMap (tombstoneForOutputSpan full span)⟩, ?_, rfl⟩
  refine mem_append_left _ (mem_filterMap.mpr ⟨chunk, hchunk, ?_⟩)
  rw [payloadOfChunk, hspan, Option.map_some]

lemma mem_pointRecords_payloads {record : PointRecord}
    (hspan : ∀ chunk ∈ chunks, (chunkRange chunk.pointRecords).isSome = true) :
    (∃ payload ∈ compactionPayloadsFromChunks chunks tombstones full target,
      record ∈ payload.pointRecords) ↔ record ∈ chunks.flatMap CompactionChunk.pointRecords := by
  rw [mem_flatMap]
  constructor
  · rintro ⟨payload, hpayload, hmem⟩
    rcases mem_append.mp hpayload with hpayload | hpayload
    · obtain ⟨chunk, hchunk, heq⟩ := mem_filterMap.mp hpayload
      obtain ⟨span, -, rfl⟩ := Option.map_eq_some_iff.mp heq
      exact ⟨chunk, hchunk, hmem⟩
    · rw [mem_tombstoneOnlyPayloads.1 payload hpayload] at hmem
      cases hmem
  · rintro ⟨chunk, hchunk, hmem⟩
    obtain ⟨payload, hpayload, hrecords⟩ :=
      @exists_payload_of_mem_chunks chunks tombstones full target chunk hchunk (hspan chunk hchunk)
    exact ⟨payload, hpayload, hrecords ▸ hmem⟩

lemma tombstoneForOutputSpan_spec {span : KeyRange} {part : RangeTombstone}
    (h : tombstoneForOutputSpan full span tombstone = some part) :
    part.sequence = tombstone.sequence ∧ part.batchIndex = tombstone.batchIndex ∧
      ∀ key, keyIsInRange key part.range = true → keyIsInRange key tombstone.range = true := by
  unfold tombstoneForOutputSpan at h
  split_ifs at h
  · obtain ⟨range, hrange, rfl⟩ := Option.map_eq_some_iff.mp h
    exact ⟨rfl, rfl, fun key hkey => ((keyIsInRange_of_rangeIntersection hrange).mp hkey).1⟩
  · obtain rfl := Option.some.inj h
    exact ⟨rfl, rfl, fun key hkey => hkey⟩

lemma exists_of_mem_rangeTombstones_payloads {part : RangeTombstone}
    (hpayload : payload ∈ compactionPayloadsFromChunks chunks tombstones full target)
    (hpart : part ∈ payload.rangeTombstones) :
    ∃ tombstone ∈ tombstones, part.sequence = tombstone.sequence ∧
      part.batchIndex = tombstone.batchIndex ∧
      ∀ key, keyIsInRange key part.range = true → keyIsInRange key tombstone.range = true := by
  rcases mem_append.mp hpayload with hpayload | hpayload
  · obtain ⟨chunk, -, heq⟩ := mem_filterMap.mp hpayload
    obtain ⟨span, -, rfl⟩ := Option.map_eq_some_iff.mp heq
    obtain ⟨tombstone, hmem, hpart⟩ := mem_filterMap.mp hpart
    exact ⟨tombstone, hmem, tombstoneForOutputSpan_spec hpart⟩
  · have hmem := (mem_tombstoneOnlyPayloads.2 part).mp ⟨payload, hpayload, hpart⟩
    exact ⟨part, (mem_filter.mp hmem).1, rfl, rfl, fun key hkey => hkey⟩

lemma mem_of_mem_rangeTombstones_partial
    (hpayload : payload ∈ compactionPayloadsFromChunks chunks tombstones false target)
    (hmem : tombstone ∈ payload.rangeTombstones) : tombstone ∈ tombstones := by
  rcases mem_append.mp hpayload with hpayload | hpayload
  · obtain ⟨chunk, -, heq⟩ := mem_filterMap.mp hpayload
    obtain ⟨span, -, rfl⟩ := Option.map_eq_some_iff.mp heq
    obtain ⟨whole, hwhole, hfor⟩ := mem_filterMap.mp hmem
    simp only [tombstoneForOutputSpan, Bool.false_eq_true, if_false] at hfor
    split_ifs at hfor
    exact Option.some.inj hfor ▸ hwhole
  · have hin := (mem_tombstoneOnlyPayloads.2 tombstone).mp ⟨payload, hpayload, hmem⟩
    exact (mem_filter.mp hin).1

/-- A partial compaction keeps every range deletion.

**Proof sketch.** A range deletion that overlaps a chunk is in the output of that chunk, another one
in an output of its own. -/
lemma exists_mem_rangeTombstones_partial (hmem : tombstone ∈ tombstones) :
    ∃ payload ∈ compactionPayloadsFromChunks chunks tombstones false target,
      tombstone ∈ payload.rangeTombstones := by
  cases hassigned : isAssigned false chunks tombstone with
  | true =>
    obtain ⟨chunk, hchunk, hsome⟩ := any_eq_true.mp hassigned
    cases hspan : chunkRange chunk.pointRecords with
    | none => simp [hspan] at hsome
    | some span =>
      have hfor : tombstoneForOutputSpan false span tombstone = some tombstone := by
        rw [hspan, Option.any_some] at hsome
        simp only [tombstoneForOutputSpan, Bool.false_eq_true, if_false] at hsome ⊢
        split_ifs at hsome ⊢ with hoverlap
        · rfl
        · simp at hsome
      refine ⟨⟨chunk.pointRecords, tombstones.filterMap (tombstoneForOutputSpan false span)⟩, ?_,
        mem_filterMap.mpr ⟨tombstone, hmem, hfor⟩⟩
      refine mem_append_left _ (mem_filterMap.mpr ⟨chunk, hchunk, ?_⟩)
      rw [payloadOfChunk, hspan, Option.map_some]
  | false =>
    have hin : tombstone ∈ [] ++ tombstones.filter fun other => !isAssigned false chunks other :=
      mem_filter.mpr ⟨hmem, by simp [hassigned]⟩
    obtain ⟨payload, hpayload, hpart⟩ := (mem_tombstoneOnlyPayloads.2 tombstone).mpr hin
    exact ⟨payload, mem_append_right _ hpayload, hpart⟩

lemma exists_mem_rangeTombstones_full {chunk : CompactionChunk} {record : PointRecord}
    (hchunk : chunk ∈ chunks) (hsorted : chunk.pointRecords.Pairwise internalKeyLe)
    (hrecord : record ∈ chunk.pointRecords) (hmem : tombstone ∈ tombstones)
    (hcovers : keyIsInRange record.userKey tombstone.range = true) :
    ∃ payload ∈ compactionPayloadsFromChunks chunks tombstones true target,
      ∃ part ∈ payload.rangeTombstones, part.stamp = tombstone.stamp ∧
        part.sequence = tombstone.sequence ∧ keyIsInRange record.userKey part.range = true := by
  obtain ⟨smallest, largest, hspan, hin⟩ := exists_chunkRange hsorted (ne_nil_of_mem hrecord)
  obtain ⟨range, hrange, hkey⟩ := exists_rangeIntersection hcovers (hin record hrecord)
  set part : RangeTombstone := { tombstone with range } with hpart
  have hfor : tombstoneForOutputSpan true (rangeFromInclusiveSpan smallest largest) tombstone =
      some part := by
    simp [tombstoneForOutputSpan, hrange, hpart]
  refine ⟨⟨chunk.pointRecords, tombstones.filterMap (tombstoneForOutputSpan true
    (rangeFromInclusiveSpan smallest largest))⟩, ?_, part,
    mem_filterMap.mpr ⟨tombstone, hmem, hfor⟩, rfl, rfl, hkey⟩
  refine mem_append_left _ (mem_filterMap.mpr ⟨chunk, hchunk, ?_⟩)
  rw [payloadOfChunk, hspan, Option.map_some]

lemma unboundedSide_of_mem_rangeTombstones_full (hne : payload.pointRecords ≠ [])
    (hpayload : payload ∈ compactionPayloadsFromChunks chunks tombstones true target)
    (hmem : tombstone ∈ payload.rangeTombstones) : tombstone.unboundedSide = false := by
  rcases mem_append.mp hpayload with hpayload | hpayload
  · obtain ⟨chunk, -, heq⟩ := mem_filterMap.mp hpayload
    obtain ⟨span, hspan, rfl⟩ := Option.map_eq_some_iff.mp heq
    obtain ⟨whole, -, hfor⟩ := mem_filterMap.mp hmem
    obtain ⟨range, hrange, rfl⟩ := Option.map_eq_some_iff.mp hfor
    obtain ⟨smallest, largest, rfl⟩ : ∃ smallest largest,
        span = rangeFromInclusiveSpan smallest largest := by
      unfold chunkRange at hspan
      split at hspan
      · exact ⟨_, _, (Option.some.inj hspan).symm⟩
      · cases hspan
    obtain ⟨hstart, hend⟩ := finite_of_rangeIntersection hrange
    simp [RangeTombstone.unboundedSide, hstart, hend]
  · exact absurd (mem_tombstoneOnlyPayloads.1 payload hpayload) hne

end Payloads

end TrineKv
