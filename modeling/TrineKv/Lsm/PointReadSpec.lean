import TrineKv.Lsm.Changes

/-!
# What a point read returns

A point read takes all visible changes of the key into account except those it cannot reach:

* the changes in a table whose recorded span is the pair of empty keys although it has records,
  because one of its range deletions has an infinite side;
* the versions in a delta whose sequence is not greater than that of a version already found in a
  memtable or an earlier delta.

The read is right exactly when the newest visible change can be reached, or when the newest one
that can be reached gives the same answer.

## Main results

* `readVisiblePointValueInSnapshot_eq_expected_iff`: when a read is right.
-/

namespace TrineKv

open List
open PointRecord (internalKey stamp)

variable {candidate : Option PointRecord}

/-! ## Visible and reachable changes -/

def Table.visible (table : Table) (key : Key) (readSequence : ℕ) : List PointRecord :=
  table.pointRecords.filter fun record => record.isVisible key readSequence

def RangeTombstone.isVisible (key : Key) (readSequence : ℕ) (tombstone : RangeTombstone) : Bool :=
  keyIsInRange key tombstone.range && decide (tombstone.sequence ≤ readSequence)

def Table.reachable (key : Key) (table : Table) : Bool :=
  !table.misbounded || key.isEmpty

/-- A delta is left out when its sequence is not greater than that of a version found before it. -/
def unmaskedVersions (key : Key) (readSequence : ℕ) :
    List PointRecord → List InMemoryDelta → List PointRecord
  | _, [] => []
  | found, delta :: deltas =>
    let visible := delta.memtable.visible key readSequence
    (if found.any fun record => delta.sequence ≤ record.sequence then [] else visible) ++
      unmaskedVersions key readSequence (found ++ visible) deltas

namespace LsmPointReadSnapshot

variable (snapshot : LsmPointReadSnapshot) (key : Key) (readSequence : ℕ)

def versions : List PointRecord :=
  snapshot.activeMemtable.entries ++
    snapshot.immutableMemtables.flatMap (fun immutable => immutable.memtable.entries) ++
    snapshot.deltas.flatMap (fun delta => delta.memtable.entries) ++
    snapshot.version.tables.flatMap Table.pointRecords

def tombstones : List RangeTombstone :=
  snapshot.memtableTombstones ++
    snapshot.version.tables.flatMap fun table => table.rangeTombstones.all

def changes : List Change := changesOf snapshot.versions snapshot.tombstones

def visibleVersions : List PointRecord :=
  snapshot.versions.filter fun record => record.isVisible key readSequence

def visibleTombstones : List RangeTombstone :=
  snapshot.tombstones.filter fun tombstone => tombstone.isVisible key readSequence

def memtableVersions : List PointRecord :=
  snapshot.activeMemtable.visible key readSequence ++
    snapshot.immutableMemtables.flatMap fun immutable => immutable.memtable.visible key readSequence

def reachableVersions : List PointRecord :=
  snapshot.memtableVersions key readSequence ++
    unmaskedVersions key readSequence (snapshot.memtableVersions key readSequence) snapshot.deltas ++
    (snapshot.version.tables.filter (Table.reachable key)).flatMap
      fun table => table.visible key readSequence

def reachableTombstones : List RangeTombstone :=
  (snapshot.memtableTombstones ++
    (snapshot.version.tables.filter (Table.reachable key)).flatMap
      fun table => table.rangeTombstones.all).filter
    fun tombstone => tombstone.isVisible key readSequence

end LsmPointReadSnapshot

lemma mem_of_mem_unmaskedVersions {key : Key} {readSequence : ℕ} {found : List PointRecord}
    {deltas : List InMemoryDelta} {record : PointRecord}
    (h : record ∈ unmaskedVersions key readSequence found deltas) :
    ∃ delta ∈ deltas, record ∈ delta.memtable.visible key readSequence := by
  induction deltas generalizing found with
  | nil => simp [unmaskedVersions] at h
  | cons delta deltas ih =>
    rw [unmaskedVersions, mem_append] at h
    rcases h with h | h
    · split_ifs at h
      · simp at h
      · exact ⟨delta, mem_cons_self, h⟩
    · obtain ⟨other, hother, hmem⟩ := ih h
      exact ⟨other, mem_cons_of_mem _ hother, hmem⟩

namespace LsmPointReadSnapshot

variable {snapshot : LsmPointReadSnapshot} {key : Key} {readSequence : ℕ}

lemma mem_visibleVersions {record : PointRecord} :
    record ∈ snapshot.visibleVersions key readSequence ↔
      record ∈ snapshot.memtableVersions key readSequence ∨
        (∃ delta ∈ snapshot.deltas, record ∈ delta.memtable.visible key readSequence) ∨
          ∃ table ∈ snapshot.version.tables, record ∈ table.visible key readSequence := by
  simp only [visibleVersions, versions, memtableVersions, Memtable.visible, Table.visible,
    filter_append, filter_flatMap, mem_append, mem_flatMap, or_assoc]

lemma reachableVersions_subset :
    snapshot.reachableVersions key readSequence ⊆ snapshot.visibleVersions key readSequence := by
  intro record h
  rw [mem_visibleVersions]
  simp only [reachableVersions, mem_append, mem_flatMap] at h
  rcases h with (h | h) | ⟨table, htable, h⟩
  · exact .inl h
  · exact .inr (Or.inl (mem_of_mem_unmaskedVersions h))
  · exact .inr (Or.inr ⟨table, (mem_filter.mp htable).1, h⟩)

lemma reachableTombstones_subset :
    snapshot.reachableTombstones key readSequence ⊆
      snapshot.visibleTombstones key readSequence := by
  intro tombstone h
  obtain ⟨hmem, hvis⟩ := mem_filter.mp h
  refine mem_filter.mpr ⟨?_, hvis⟩
  rcases mem_append.mp hmem with hmem | hmem
  · exact mem_append_left _ hmem
  · obtain ⟨table, htable, hin⟩ := mem_flatMap.mp hmem
    exact mem_append_right _
      (mem_flatMap.mpr ⟨table, (mem_filter.mp htable).1, hin⟩)

lemma userKey_of_mem_visibleVersions {record : PointRecord}
    (h : record ∈ snapshot.visibleVersions key readSequence) : record.userKey = key :=
  (PointRecord.isVisible_iff.mp (mem_filter.mp h).2).1

end LsmPointReadSnapshot

/-! ## The candidate of a read -/

section Candidate

variable {key : Key} {readSequence : ℕ}
  {seen : List PointRecord} {record : PointRecord} {table : Table}

lemma stamp_le_of_internalKey_le {left right : PointRecord} (hkey : left.userKey = right.userKey)
    (h : left.internalKey ≤ right.internalKey) : right.stamp ≤ left.stamp := by
  by_cases hne : left.stamp = right.stamp
  · exact hne.ge
  · by_contra hnot
    have hlt := (PointRecord.stamp_lt_of_internalKey_lt hkey.symm (Ne.symm hne)).mpr
      (not_le.mp hnot)
    exact absurd h (not_le_of_gt hlt)

lemma internalKey_lt_of_sequence_lt {left right : PointRecord}
    (hkey : left.userKey = right.userKey) (h : right.sequence < left.sequence) :
    left.internalKey < right.internalKey :=
  InternalKey.lt_iff.mpr (Or.inr ⟨hkey, Or.inl h⟩)

lemma sequence_le_of_isBest {candidate : PointRecord}
    (h : Best.IsBest internalKey (some candidate) seen)
    (hkey : ∀ record ∈ seen, record.userKey = key)
    (hmem : record ∈ seen) : record.sequence ≤ candidate.sequence := by
  by_contra hnot
  have hlt := internalKey_lt_of_sequence_lt
    ((hkey record hmem).trans (hkey candidate h.1).symm) (not_le.mp hnot)
  exact absurd (h.2 record hmem) (not_le_of_gt hlt)

/-- The steps over deltas: the candidate is the newest of what was found and of the versions in
the deltas that are not left out.

The deltas that are left out hold versions of at most the candidate's sequence, so it does not
matter whether they count as found. -/
lemma isBest_foldl_deltas {found : List PointRecord}
    {deltas : List InMemoryDelta} (h : Best.IsBest internalKey candidate seen)
    (hkey : ∀ record ∈ seen, record.userKey = key)
    (hsub : seen ⊆ found)
    (hfound : ∀ record ∈ found, ∃ other ∈ seen, record.sequence ≤ other.sequence) :
    Best.IsBest internalKey
      (deltas.foldl (LsmPointReadSnapshot.keepNewestVisibleDeltaPointCandidate key readSequence)
        candidate)
      (seen ++ unmaskedVersions key readSequence found deltas) := by
  induction deltas generalizing candidate seen found with
  | nil => simpa [unmaskedVersions] using h
  | cons delta deltas ih =>
    have hvisible : ∀ record ∈ delta.memtable.visible key readSequence,
        record.userKey = key ∧ record.sequence ≤ delta.sequence := by
      intro record hrecord
      obtain ⟨hmem, hvis⟩ := mem_filter.mp hrecord
      exact ⟨(PointRecord.isVisible_iff.mp hvis).1, delta.sequence_le record hmem⟩
    -- The code compares with the candidate, which has the greatest sequence found so far.
    have hmask : (candidate.any fun current => delta.sequence ≤ current.sequence) =
        found.any fun record => delta.sequence ≤ record.sequence := by
      rw [← Bool.coe_iff_coe, any_eq_true, Option.any_eq_true]
      constructor
      · rintro ⟨current, hcurrent, hle⟩
        rw [hcurrent] at h
        exact ⟨current, hsub h.1, hle⟩
      · rintro ⟨record, hrecord, hle⟩
        rw [decide_eq_true_eq] at hle
        obtain ⟨other, hother, hseq⟩ := hfound record hrecord
        cases hcandidate : candidate with
        | none =>
          rw [hcandidate] at h
          have hnil : seen = [] := h
          simp [hnil] at hother
        | some current =>
          rw [hcandidate] at h
          have := sequence_le_of_isBest h hkey hother
          exact ⟨current, rfl, decide_eq_true (by omega)⟩
    rw [foldl_cons, unmaskedVersions,
      LsmPointReadSnapshot.keepNewestVisibleDeltaPointCandidate, hmask]
    split_ifs with hmasked
    · rw [nil_append]
      refine ih h hkey (List.Subset.trans hsub (subset_append_left _ _)) fun record hrecord => ?_
      rcases mem_append.mp hrecord with hrecord | hrecord
      · exact hfound record hrecord
      · obtain ⟨other, hother, hle⟩ := any_eq_true.mp hmasked
        rw [decide_eq_true_eq] at hle
        obtain ⟨best, hbest, hseq⟩ := hfound other hother
        have := (hvisible record hrecord).2
        exact ⟨best, hbest, by omega⟩
    · rw [← append_assoc]
      refine ih (isBest_keepNewestVisibleMemtablePointCandidate h _ _ _) ?_ ?_ ?_
      · intro record hrecord
        rcases mem_append.mp hrecord with hrecord | hrecord
        · exact hkey record hrecord
        · exact (hvisible record hrecord).1
      · intro record hrecord
        rcases mem_append.mp hrecord with hrecord | hrecord
        · exact mem_append_left _ (hsub hrecord)
        · exact mem_append_right _ hrecord
      · intro record hrecord
        rcases mem_append.mp hrecord with hrecord | hrecord
        · obtain ⟨other, hother, hle⟩ := hfound record hrecord
          exact ⟨other, mem_append_left _ hother, hle⟩
        · exact ⟨record, mem_append_right _ hrecord, le_rfl⟩

lemma isBest_newestVisibleMemtablePointCandidate (snapshot : LsmPointReadSnapshot) (key : Key)
    (readSequence : ℕ) :
    Best.IsBest internalKey
      (snapshot.newestVisibleMemtablePointCandidate key readSequence)
      (snapshot.memtableVersions key readSequence ++
        unmaskedVersions key readSequence (snapshot.memtableVersions key readSequence)
          snapshot.deltas) := by
  have hfold : ∀ (immutables : List ImmutableMemtable) (candidate : Option PointRecord)
      (seen : List PointRecord), Best.IsBest internalKey candidate seen →
      Best.IsBest internalKey
        (immutables.foldl (fun candidate immutable =>
          keepNewestVisibleMemtablePointCandidate candidate immutable.memtable key readSequence)
          candidate)
        (seen ++ immutables.flatMap fun i => i.memtable.visible key readSequence) := by
    intro immutables
    induction immutables with
    | nil => intro candidate seen h; simpa using h
    | cons immutable immutables ih =>
      intro candidate seen h
      rw [foldl_cons, flatMap_cons, ← append_assoc]
      exact ih _ _ (isBest_keepNewestVisibleMemtablePointCandidate h _ _ _)
  have hactive := isBest_keepNewestVisibleMemtablePointCandidate Best.isBest_nil
    snapshot.activeMemtable key readSequence
  rw [nil_append] at hactive
  refine isBest_foldl_deltas (hfold _ _ _ hactive) ?_ (List.Subset.refl _)
    fun record hrecord => ⟨record, hrecord, le_rfl⟩
  exact fun record hrecord => LsmPointReadSnapshot.userKey_of_mem_visibleVersions
    (LsmPointReadSnapshot.mem_visibleVersions.mpr (Or.inl hrecord))

lemma Table.keyBoundsMayContainKey_eq_reachable
    (h : record ∈ table.visible key readSequence) :
    table.keyBoundsMayContainKey key = table.reachable key := by
  obtain ⟨hmem, hvis⟩ := mem_filter.mp h
  obtain ⟨rfl, -⟩ := PointRecord.isVisible_iff.mp hvis
  cases hmis : table.misbounded with
  | false => simp [Table.reachable, hmis, Table.keyBoundsMayContainKey_of_record hmis hmem]
  | true =>
    rw [Table.keyBoundsMayContainKey_of_misbounded hmis, Table.reachable, hmis]
    cases record.userKey <;> simp

lemma Table.sequence_le_largestSequence
    (h : record ∈ table.pointRecords) : record.sequence ≤ table.largestSequence := by
  set sequences := table.pointRecords.map PointRecord.sequence ++
    table.rangeTombstones.all.map RangeTombstone.sequence with hsequences
  have hmem : record.sequence ∈ sequences :=
    mem_append_left _ (mem_map_of_mem h)
  show _ ≤ sequences.max?.getD 0
  cases hmax : sequences.max? with
  | none => simp [List.max?_eq_none_iff.mp hmax] at hmem
  | some largest => exact (List.max?_eq_some_iff.mp hmax).2 _ hmem

lemma Table.mayContainKey_of_visible
    (h : record ∈ table.visible key readSequence)
    (hbounds : table.keyBoundsMayContainKey key = true) : table.mayContainKey key = true := by
  obtain ⟨hmem, hvis⟩ := mem_filter.mp h
  obtain ⟨rfl, -⟩ := PointRecord.isVisible_iff.mp hvis
  simp only [Table.mayContainKey, hbounds, Bool.not_true, Bool.false_eq_true, if_false]
  cases hfilter : table.pointKeyFilter with
  | none => rfl
  | some filter =>
    rw [Table.pointKeyFilter] at hfilter
    split_ifs at hfilter
    exact buildPointKeyFilter_allows hmem filter hfilter

lemma isBest_foldlM_tables (policy : IndexSearchPolicy) {tables : List Table}
    (h : Best.IsBest internalKey candidate seen)
    (hkey : ∀ record ∈ seen, record.userKey = key)
    (hbounds : ∀ table ∈ tables, table.keyBoundsMayContainKey key = true) :
    ∃ result, tables.foldlM (LsmVersion.probeTable key tableMayHaveNewerPointRecord
        (visitPointLookupTable key readSequence policy)) candidate = .ok result ∧
      Best.IsBest internalKey result
        (seen ++ tables.flatMap fun table => table.visible key readSequence) := by
  induction tables generalizing candidate seen with
  | nil => exact ⟨candidate, rfl, by simpa using h⟩
  | cons table tables ih =>
    have hvisible : ∀ record ∈ table.visible key readSequence,
        record.userKey = key ∧ record ∈ table.pointRecords := by
      intro record hrecord
      obtain ⟨hmem, hvis⟩ := mem_filter.mp hrecord
      exact ⟨(PointRecord.isVisible_iff.mp hvis).1, hmem⟩
    have hstep : ∃ next, LsmVersion.probeTable key tableMayHaveNewerPointRecord
        (visitPointLookupTable key readSequence policy) candidate table = .ok next ∧
        Best.IsBest internalKey next (seen ++ table.visible key readSequence) := by
      rw [LsmVersion.probeTable]
      by_cases hprobe : tableMayHaveNewerPointRecord candidate table = true
      · by_cases hmay : table.mayContainKey key = true
        · rw [if_neg (by simpa using hprobe), if_pos hmay, visitPointLookupTable,
            table.newestVisiblePointValueRecordForKey_eq]
          have hfirst := Best.isBest_find? (table.sorted.imp fun hab => hab.le)
            fun record => record.isVisible key readSequence
          simp only [bind, Except.bind]
          cases hfind : table.pointRecords.find? fun r => r.isVisible key readSequence with
          | none =>
            rw [hfind] at hfirst
            have hnil : table.visible key readSequence = [] := hfirst
            exact ⟨candidate, rfl, by rwa [hnil, append_nil]⟩
          | some record =>
            rw [hfind] at hfirst
            exact ⟨_, rfl, h.keep hfirst⟩
        · -- The filter refuses the key: the table has no version of it.
          have hnil : table.visible key readSequence = [] :=
            eq_nil_iff_forall_not_mem.mpr fun record hrecord =>
              hmay (table.mayContainKey_of_visible hrecord (hbounds table mem_cons_self))
          rw [if_neg (by simpa using hprobe), if_neg hmay]
          exact ⟨candidate, rfl, by rwa [hnil, append_nil]⟩
      · -- All versions in the table are older than the candidate.
        rw [if_pos (by simpa using hprobe)]
        refine ⟨candidate, rfl, h.skip fun record hrecord => ?_⟩
        cases candidate with
        | none => simp [tableMayHaveNewerPointRecord] at hprobe
        | some current =>
          have hlt : table.largestSequence < current.sequence := by
            simpa [tableMayHaveNewerPointRecord] using hprobe
          obtain ⟨hrecordKey, hmem⟩ := hvisible record hrecord
          have hle := Table.sequence_le_largestSequence hmem
          exact ⟨current, h.1, (internalKey_lt_of_sequence_lt
            ((hkey current h.1).trans hrecordKey.symm) (by omega)).le⟩
    obtain ⟨next, hnext, hbest⟩ := hstep
    rw [foldlM_cons, hnext, flatMap_cons, ← append_assoc]
    refine ih hbest ?_ fun t ht => hbounds t (mem_cons_of_mem _ ht)
    intro record hrecord
    rcases mem_append.mp hrecord with hrecord | hrecord
    · exact hkey record hrecord
    · exact (hvisible record hrecord).1

lemma exists_candidate (policy : IndexSearchPolicy) (snapshot : LsmPointReadSnapshot) (key : Key)
    (readSequence : ℕ) :
    ∃ candidate, snapshot.version.forEachPointLookupTable key tableMayHaveNewerPointRecord
        (visitPointLookupTable key readSequence policy)
        (snapshot.newestVisibleMemtablePointCandidate key readSequence) = .ok candidate ∧
      Best.IsBest internalKey candidate
        (snapshot.reachableVersions key readSequence) := by
  rw [LsmVersion.forEachPointLookupTable_eq]
  obtain ⟨candidate, hresult, hbest⟩ := isBest_foldlM_tables policy
    (isBest_newestVisibleMemtablePointCandidate snapshot key readSequence)
    (fun record hrecord => LsmPointReadSnapshot.userKey_of_mem_visibleVersions
      (LsmPointReadSnapshot.reachableVersions_subset (mem_append_left _ hrecord)))
    (fun table htable => (mem_filter.mp htable).2)
  refine ⟨candidate, hresult, hbest.congr fun record => ?_⟩
  simp only [LsmPointReadSnapshot.reachableVersions, mem_append, mem_flatMap,
    mem_filter]
  refine or_congr_right ?_
  constructor
  · rintro ⟨table, ⟨htable, hadmits⟩, hrecord⟩
    exact ⟨table, ⟨htable, by rwa [← Table.keyBoundsMayContainKey_eq_reachable hrecord]⟩, hrecord⟩
  · rintro ⟨table, ⟨htable, hreach⟩, hrecord⟩
    exact ⟨table, ⟨htable, by rwa [Table.keyBoundsMayContainKey_eq_reachable hrecord]⟩, hrecord⟩

end Candidate

/-! ## Range deletions -/

section Covered

variable {key : Key} {readSequence : ℕ} {record : PointRecord}

lemma RangeTombstone.isVisible_iff {tombstone : RangeTombstone} :
    tombstone.isVisible key readSequence = true ↔
      keyIsInRange key tombstone.range = true ∧ tombstone.sequence ≤ readSequence := by
  simp [RangeTombstone.isVisible]

lemma rangeTombstonesCover_iff {index : RangeTombstoneIndex} :
    rangeTombstonesCover index key record.sequence record.batchIndex readSequence = true ↔
      ∃ tombstone ∈ index.all, tombstone.isVisible key readSequence = true ∧
        record.stamp < tombstone.stamp := by
  rw [rangeTombstonesCover, RangeTombstoneIndex.coveringKey_eq_filter, any_eq_true]
  simp only [mem_filter, RangeTombstone.coversVisiblePoint_iff, RangeTombstone.isVisible_iff]
  constructor
  · rintro ⟨t, ⟨hmem, hin⟩, hseq, -, hlt⟩
    exact ⟨t, hmem, ⟨hin, hseq⟩, hlt⟩
  · rintro ⟨t, hmem, ⟨hin, hseq⟩, hlt⟩
    exact ⟨t, ⟨hmem, hin⟩, hseq, hin, hlt⟩

/-- A table is asked for the range deletions that delete the version. -/
lemma Table.rangeTombstoneCoversVisiblePoint_iff {table : Table} :
    table.rangeTombstoneCoversVisiblePoint key record.sequence record.batchIndex readSequence =
        true ↔
      ∃ tombstone ∈ table.rangeTombstones.all, tombstone.isVisible key readSequence = true ∧
        record.stamp < tombstone.stamp := by
  have hstamp : ∀ tombstone : RangeTombstone, record.stamp < tombstone.stamp ↔
      record.sequence < tombstone.sequence ∨
        tombstone.sequence = record.sequence ∧ record.batchIndex < tombstone.batchIndex := by
    intro tombstone
    rw [stamp, RangeTombstone.stamp, Prod.Lex.toLex_lt_toLex,
      @eq_comm ℕ tombstone.sequence]
  simp only [Table.rangeTombstoneCoversVisiblePoint, RangeTombstoneIndex.coveringKey_eq_filter,
    RangeTombstone.isVisible_iff, hstamp]
  split_ifs with hnone
  · rw [false_iff]
    rintro ⟨t, hmem, -⟩
    simp [Table.mayHaveRangeTombstones_of_mem hmem] at hnone
  · simp only [any_eq_true, mem_filter, Bool.and_eq_true, Bool.or_eq_true,
      decide_eq_true_eq, beq_iff_eq]
    constructor
    · rintro ⟨t, ⟨hmem, hin⟩, hseq, hlt⟩
      exact ⟨t, hmem, ⟨hin, hseq⟩, hlt⟩
    · rintro ⟨t, hmem, ⟨hin, hseq⟩, hlt⟩
      exact ⟨t, ⟨hmem, hin⟩, hseq, hlt⟩

/-- A version counts as deleted exactly when a range deletion that can be reached is newer. -/
lemma coversVisiblePoint_iff_reachable (snapshot : LsmPointReadSnapshot) (key : Key)
    (readSequence : ℕ) (record : PointRecord) :
    snapshot.coversVisiblePoint key record.sequence record.batchIndex readSequence = true ↔
      ∃ tombstone ∈ snapshot.reachableTombstones key readSequence,
        record.stamp < tombstone.stamp := by
  have hreach : ∀ table : Table, ∀ tombstone ∈ table.rangeTombstones.all,
      tombstone.isVisible key readSequence = true →
      ((table.mayHaveRangeTombstones = true ∧ table.keyBoundsMayContainKey key = true) ↔
        table.reachable key = true) := by
    intro table tombstone hmem hvis
    have hin := (RangeTombstone.isVisible_iff.mp hvis).1
    have hmay := Table.mayHaveRangeTombstones_of_mem hmem
    cases hmis : table.misbounded with
    | false =>
      simp [hmay, Table.reachable, hmis,
        Table.keyBoundsMayContainKey_of_tombstone hmis hmem hin]
    | true =>
      rw [Table.keyBoundsMayContainKey_of_misbounded hmis, Table.reachable, hmis]
      simp [hmay]
  have hor : ∀ a b : Bool, (a || (!a && b)) = true ↔ a = true ∨ b = true := by decide
  simp only [LsmPointReadSnapshot.coversVisiblePoint, hor, any_eq_true]
  rw [LsmPointReadSnapshot.memtableRangeTombstones, rangeTombstonesCover_iff]
  simp only [RangeTombstoneIndex.mem_all_new, LsmVersion.mem_rangeTombstoneTablesForKey,
    Table.rangeTombstoneCoversVisiblePoint_iff, LsmPointReadSnapshot.reachableTombstones,
    mem_filter, mem_append, mem_flatMap]
  constructor
  · rintro (⟨t, hmem, hvis, hlt⟩ | ⟨table, ⟨htable, hboth⟩, t, hmem, hvis, hlt⟩)
    · exact ⟨t, ⟨Or.inl hmem, hvis⟩, hlt⟩
    · exact ⟨t, ⟨Or.inr ⟨table, ⟨htable, (hreach table t hmem hvis).mp hboth⟩, hmem⟩, hvis⟩, hlt⟩
  · rintro ⟨t, ⟨hmem | ⟨table, ⟨htable, hr⟩, hmem⟩, hvis⟩, hlt⟩
    · exact .inl ⟨t, hmem, hvis, hlt⟩
    · exact .inr ⟨table, ⟨htable, (hreach table t hmem hvis).mpr hr⟩, t, hmem, hvis, hlt⟩

end Covered

/-! ## The whole read -/

section Read

variable {blobs : Option BlobReader} {policy : IndexSearchPolicy}
  {snapshot : LsmPointReadSnapshot} {key : Key} {readSequence : ℕ}

def LsmPointReadSnapshot.visibleChanges (snapshot : LsmPointReadSnapshot) (key : Key)
    (readSequence : ℕ) : List Change :=
  changesOf (snapshot.visibleVersions key readSequence)
    (snapshot.visibleTombstones key readSequence)

def LsmPointReadSnapshot.reachableChanges (snapshot : LsmPointReadSnapshot) (key : Key)
    (readSequence : ℕ) : List Change :=
  changesOf (snapshot.reachableVersions key readSequence)
    (snapshot.reachableTombstones key readSequence)

lemma LsmPointReadSnapshot.visibleChanges_subset (snapshot : LsmPointReadSnapshot) (key : Key)
    (readSequence : ℕ) :
    snapshot.visibleChanges key readSequence ⊆ snapshot.changes := by
  intro change h
  cases change with
  | version record =>
    exact version_mem_changesOf.mpr (mem_filter.mp (version_mem_changesOf.mp h)).1
  | deletion tombstone =>
    exact deletion_mem_changesOf.mpr (mem_filter.mp (deletion_mem_changesOf.mp h)).1

lemma LsmPointReadSnapshot.reachableChanges_subset :
    snapshot.reachableChanges key readSequence ⊆ snapshot.visibleChanges key readSequence := by
  intro change h
  cases change with
  | version record =>
    exact version_mem_changesOf.mpr (reachableVersions_subset (version_mem_changesOf.mp h))
  | deletion tombstone =>
    exact deletion_mem_changesOf.mpr (reachableTombstones_subset (deletion_mem_changesOf.mp h))

lemma exists_candidateValue (blobs : Option BlobReader) (policy : IndexSearchPolicy)
    (snapshot : LsmPointReadSnapshot) (key : Key) (readSequence : ℕ) :
    ∃ candidate : Option PointRecord,
      Best.IsBest internalKey candidate
        (snapshot.reachableVersions key readSequence) ∧
      readVisiblePointValueInSnapshot blobs policy snapshot key readSequence =
        candidate.elim (.ok none)
          (candidateValue blobs (snapshot.reachableTombstones key readSequence)) := by
  obtain ⟨candidate, hcandidate, hbest⟩ := exists_candidate policy snapshot key readSequence
  refine ⟨candidate, hbest, ?_⟩
  rw [readVisiblePointValueInSnapshot, hcandidate]
  simp only [bind, Except.bind]
  cases candidate with
  | none => rfl
  | some record =>
    have hcovered := coversVisiblePoint_iff_reachable snapshot key readSequence record
    simp only [Option.elim_some, candidateValue]
    cases hkind : record.kind with
    | put =>
      by_cases hdeleted : ∃ tombstone ∈ snapshot.reachableTombstones key readSequence,
          record.stamp < tombstone.stamp
      · have hnot : ¬∀ tombstone ∈ snapshot.reachableTombstones key readSequence,
            ¬record.stamp < tombstone.stamp := by simpa using hdeleted
        rw [if_pos (hcovered.mpr hdeleted), if_neg fun h => hnot h.2]
        rfl
      · have hall : ∀ tombstone ∈ snapshot.reachableTombstones key readSequence,
            ¬record.stamp < tombstone.stamp := by simpa using hdeleted
        rw [if_neg fun h => hdeleted (hcovered.mp h), if_pos ⟨rfl, hall⟩]
        cases pointValue blobs record <;> rfl
    | pointDelete => rfl
    | rangeDelete => rfl

/-- A read returns what is expected from the changes that can be reached, if no two of the versions
have the same age. -/
theorem readVisiblePointValueInSnapshot_eq_of_versions
    (h : DistinctStamps (changesOf (snapshot.reachableVersions key readSequence) [])) :
    readVisiblePointValueInSnapshot blobs policy snapshot key readSequence =
      expectedPointValue blobs (snapshot.reachableVersions key readSequence)
        (snapshot.reachableTombstones key readSequence) := by
  obtain ⟨candidate, hbest, hread⟩ :=
    exists_candidateValue blobs policy snapshot key readSequence
  rw [hread, expectedPointValue]
  cases candidate with
  | none =>
    have hnil : snapshot.reachableVersions key readSequence = [] := hbest
    rw [hnil]
    rfl
  | some record =>
    have hkeys : ∀ other ∈ snapshot.reachableVersions key readSequence, other.userKey = key :=
      fun other hother => LsmPointReadSnapshot.userKey_of_mem_visibleVersions
        (LsmPointReadSnapshot.reachableVersions_subset hother)
    have hnewest := argmax_versions h hbest.1 fun other hother =>
      stamp_le_of_internalKey_le ((hkeys record hbest.1).trans (hkeys other hother).symm)
        (hbest.2 other hother)
    rw [hnewest]
    rfl

theorem readVisiblePointValueInSnapshot_eq
    (h : DistinctStamps (snapshot.reachableChanges key readSequence)) :
    readVisiblePointValueInSnapshot blobs policy snapshot key readSequence =
      expectedPointValue blobs (snapshot.reachableVersions key readSequence)
        (snapshot.reachableTombstones key readSequence) := by
  apply readVisiblePointValueInSnapshot_eq_of_versions
  exact h.mono (append_subset.mpr
    ⟨subset_append_left _ _, by simp⟩)

/-- A point read returns the value of the newest visible version of the key, if it is a put that
no newer visible range deletion covers, and nothing otherwise, exactly when the newest visible
change of the key can be reached or the newest change that can be reached gives the same
answer. -/
theorem readVisiblePointValueInSnapshot_eq_expected_iff (h : DistinctStamps snapshot.changes) :
    readVisiblePointValueInSnapshot blobs policy snapshot key readSequence =
        expectedPointValue blobs (snapshot.visibleVersions key readSequence)
          (snapshot.visibleTombstones key readSequence) ↔
      ∀ change ∈ snapshot.visibleChanges key readSequence,
        (∀ other ∈ snapshot.visibleChanges key readSequence, other.stamp ≤ change.stamp) →
          change ∈ snapshot.reachableChanges key readSequence ∨
            Change.answer blobs (some change) = Change.answer blobs
              ((snapshot.reachableChanges key readSequence).argmax Change.stamp) := by
  have hvisible := h.mono (snapshot.visibleChanges_subset key readSequence)
  have hreachable := hvisible.mono LsmPointReadSnapshot.reachableChanges_subset
  rw [readVisiblePointValueInSnapshot_eq hreachable, expectedPointValue_eq_answer blobs hreachable,
    expectedPointValue_eq_answer blobs hvisible]
  exact Newest.answer_eq_iff (Change.answer blobs) LsmPointReadSnapshot.reachableChanges_subset
    hvisible

end Read

def putOfA (sequence : Fin 4) (byte : UInt8) : PointRecord where
  internalKey :=
    { userKey := [97], sequence := sequence, kind := .put, batchIndex := 0
      sequence_le := sequence.isLt.le.trans (by decide) }
  value := some (.inline [byte])
  put_has_value := fun _ => rfl

def halfInfiniteTable : Table where
  id := 1
  level := 0
  options := ⟨4096, .disabled, .disabled, .disabled, .uniform⟩
  residence := .written
  pointRecords := [putOfA 1 1]
  rangeTombstones := RangeTombstoneIndex.new [⟨⟨.included [120], .unbounded⟩, 2, 0⟩]
  sorted := by decide
  nonempty := by decide

def halfInfiniteSnapshot (memtable : Memtable) : LsmPointReadSnapshot where
  version := ⟨[⟨0, [halfInfiniteTable], fun h => absurd rfl h⟩]⟩
  deltas := []
  activeMemtable := memtable
  activeRangeTombstones := []
  immutableMemtables := []

/-- The table is left out of a read of `a`, which finds nothing. -/
theorem read_halfInfiniteSnapshot :
    DistinctStamps (halfInfiniteSnapshot .empty).changes ∧
      readVisiblePointValueInSnapshot none .auto (halfInfiniteSnapshot .empty) [97] 2 = .ok none ∧
      expectedPointValue none ((halfInfiniteSnapshot .empty).visibleVersions [97] 2)
        ((halfInfiniteSnapshot .empty).visibleTombstones [97] 2) = .ok (some [1]) := by
  decide

theorem read_halfInfiniteSnapshot_newer :
    DistinctStamps (halfInfiniteSnapshot (Memtable.empty.insert (putOfA 3 2))).changes ∧
      readVisiblePointValueInSnapshot none .auto
          (halfInfiniteSnapshot (Memtable.empty.insert (putOfA 3 2))) [97] 3 =
        expectedPointValue none
          ((halfInfiniteSnapshot (Memtable.empty.insert (putOfA 3 2))).visibleVersions [97] 3)
          ((halfInfiniteSnapshot (Memtable.empty.insert (putOfA 3 2))).visibleTombstones [97] 3) :=
  ⟨by decide, (readVisiblePointValueInSnapshot_eq_expected_iff (by decide)).mpr (by decide)⟩

end TrineKv
