import Mathlib.Data.List.Pairwise
import TrineKv.Compaction.Rewrite
import TrineKv.Lsm.ScanSpec

/-!
# The records that a compaction keeps

A record of the inputs is kept, or readers at the oldest active snapshot or later do not need it: a
newer version or a range deletion hides it, or it is a deletion of a full compaction that is the
oldest record left of its key.

## Main results

* `CompactionInput.mapM_source`, `exists_mem_mergedRecords`, `mem_compactPointRecordGroup`,
  `mem_keptOf`, `pairwise_keptOf`.
-/

namespace TrineKv

open List
open PointRecord (stamp userKey)

/-! ## Versions of a key -/

section Versions

variable {oldestActiveSnapshot : ℕ} {records newer older : List PointRecord} {record : PointRecord}
  {key : Key}

lemma sequence_le_of_internalKeyLe {left right : PointRecord} (hkey : left.userKey = right.userKey)
    (h : internalKeyLe left right) : right.sequence ≤ left.sequence := by
  have hstamp := stamp_le_of_internalKey_le hkey h
  rw [stamp, stamp, Prod.Lex.toLex_le_toLex] at hstamp
  rcases hstamp with hlt | ⟨heq, -⟩
  · exact hlt.le
  · exact heq.le

lemma compactSortedRecords_eq_nil (hkey : ∀ record ∈ records, record.userKey = key)
    (hold : ∀ record ∈ records, record.sequence ≤ oldestActiveSnapshot) :
    compactSortedRecords oldestActiveSnapshot (some key) true records = [] := by
  induction records with
  | nil => rfl
  | cons first records ih =>
    obtain ⟨hfirst, hrest⟩ := forall_mem_cons.mp hold
    obtain ⟨hfirstKey, hrestKey⟩ := forall_mem_cons.mp hkey
    simp [compactSortedRecords, hfirstKey, not_lt.mpr hfirst, ih hrestKey hrest]

/-- Sorted versions of a key are the versions newer than the snapshot and then the others. -/
lemma exists_newer_older (hkey : ∀ record ∈ records, record.userKey = key)
    (hsorted : records.Pairwise internalKeyLe) :
    ∃ newer older, records = newer ++ older ∧
      (∀ record ∈ newer, oldestActiveSnapshot < record.sequence) ∧
      ∀ record ∈ older, record.sequence ≤ oldestActiveSnapshot := by
  induction records with
  | nil => exact ⟨[], [], rfl, nofun, nofun⟩
  | cons first records ih =>
    obtain ⟨hfirst, hrest⟩ := pairwise_cons.mp hsorted
    have hrestKey := fun record hmem => hkey record (mem_cons_of_mem first hmem)
    by_cases hnew : oldestActiveSnapshot < first.sequence
    · obtain ⟨newer, older, rfl, hnewer, holder⟩ := ih hrestKey hrest
      refine ⟨first :: newer, older, rfl, ?_, holder⟩
      exact forall_mem_cons.mpr ⟨hnew, hnewer⟩
    · refine ⟨[], first :: records, rfl, nofun, forall_mem_cons.mpr ⟨not_lt.mp hnew, ?_⟩⟩
      intro record hmem
      have hsame := (hkey first mem_cons_self).trans (hrestKey record hmem).symm
      exact (sequence_le_of_internalKeyLe hsame (hfirst record hmem)).trans (not_lt.mp hnew)

/-- The versions newer than the snapshot are kept, and the first of the others. -/
lemma compactSortedRecords_append (hkey : ∀ record ∈ newer ++ older, record.userKey = key)
    (hnewer : ∀ record ∈ newer, oldestActiveSnapshot < record.sequence)
    (holder : ∀ record ∈ older, record.sequence ≤ oldestActiveSnapshot) (current : Option Key) :
    compactSortedRecords oldestActiveSnapshot current false (newer ++ older) =
      newer ++ older.take 1 := by
  induction newer generalizing current with
  | nil =>
    cases older with
    | nil => rfl
    | cons first older =>
      obtain ⟨hfirst, hrest⟩ := forall_mem_cons.mp holder
      obtain ⟨hfirstKey, hrestKey⟩ := forall_mem_cons.mp hkey
      simp [compactSortedRecords, hfirstKey, compactSortedRecords_eq_nil hrestKey hrest,
        not_lt.mpr hfirst]
  | cons first newer ih =>
    obtain ⟨hfirst, hrest⟩ := forall_mem_cons.mp hnewer
    have ih := ih (forall_mem_cons.mp hkey).2 hrest (some first.userKey)
    simp [compactSortedRecords, hfirst, ih]

/-- What the snapshot leaves of the versions of a key: those newer than it, and the first of the
others. -/
lemma exists_compactPointRecords_eq (oldestActiveSnapshot : ℕ)
    (hkey : ∀ record ∈ records, record.userKey = key) :
    ∃ newer older, records.Perm (newer ++ older) ∧ (newer ++ older).Pairwise internalKeyLe ∧
      (∀ record ∈ newer, oldestActiveSnapshot < record.sequence) ∧
      (∀ record ∈ older, record.sequence ≤ oldestActiveSnapshot) ∧
      compactPointRecords oldestActiveSnapshot records = newer ++ older.take 1 := by
  have hperm := perm_insertionSort internalKeyLe records
  have hsorted := pairwise_insertionSort internalKeyLe records
  have hkeys : ∀ record ∈ records.insertionSort internalKeyLe, record.userKey = key :=
    fun record hmem => hkey record (hperm.mem_iff.mp hmem)
  obtain ⟨newer, older, heq, hnewer, holder⟩ :=
    @exists_newer_older oldestActiveSnapshot _ key hkeys hsorted
  rw [heq] at hperm hsorted hkeys
  refine ⟨newer, older, hperm.symm, hsorted, hnewer, holder, ?_⟩
  rw [compactPointRecords, heq, compactSortedRecords_append hkeys hnewer holder]

lemma cleanupPointTombstones_sublist (records : List PointRecord) :
    (cleanupPointTombstones records).Sublist records := by
  induction records with
  | nil => exact List.Sublist.refl _
  | cons record records ih =>
    simp only [cleanupPointTombstones]
    split_ifs
    · exact ih.cons record
    · exact ih.cons_cons record

/-- A full compaction drops the last version if it is a deletion, and no other. -/
lemma cleanupPointTombstones_append {last : PointRecord}
    (hkey : ∀ record ∈ records ++ [last], record.userKey = key)
    (hsorted : (records ++ [last]).Pairwise internalKeyLe) :
    cleanupPointTombstones (records ++ [last]) =
      records ++ if last.kind = .pointDelete then [] else [last] := by
  induction records with
  | nil => by_cases hkind : last.kind = .pointDelete <;> simp [cleanupPointTombstones, hkind]
  | cons first records ih =>
    obtain ⟨hfirst, hrest⟩ := pairwise_cons.mp hsorted
    obtain ⟨hfirstKey, hrestKey⟩ := forall_mem_cons.mp hkey
    have hsame : (records ++ [last]).takeWhile (fun other => decide (other.userKey = first.userKey))
        = records ++ [last] :=
      takeWhile_eq_self_iff.mpr fun other hmem => by simp [hrestKey other hmem, hfirstKey]
    have hlast : last ∈ records ++ [last] := mem_append_right _ (mem_singleton_self last)
    have hle := sequence_le_of_internalKeyLe (hfirstKey.trans (hrestKey last hlast).symm)
      (hfirst last hlast)
    have hany : (records ++ [last]).any (fun other => decide (other.sequence ≤ first.sequence)) =
        true := any_eq_true.mpr ⟨last, hlast, decide_eq_true hle⟩
    rw [cons_append, cleanupPointTombstones, hsame, if_neg (by simp [hany]),
      ih hrestKey hrest, cons_append]

variable (oldestActiveSnapshot)

lemma compactSortedRecords_sublist (records : List PointRecord) (current : Option Key)
    (kept : Bool) :
    (compactSortedRecords oldestActiveSnapshot current kept records).Sublist records := by
  induction records generalizing current kept with
  | nil => exact List.Sublist.refl _
  | cons record records ih =>
    simp only [compactSortedRecords]
    split_ifs
    · exact (ih _ _).cons_cons record
    · exact (ih _ _).cons_cons record
    · exact (ih _ _).cons record

lemma compactPointRecordGroup_subset {full : Bool} :
    compactPointRecordGroup oldestActiveSnapshot full records ⊆ records := by
  have hcompact : compactPointRecords oldestActiveSnapshot records ⊆ records := fun record hmem =>
    (mem_insertionSort internalKeyLe).mp
      ((compactSortedRecords_sublist oldestActiveSnapshot _ none false).subset hmem)
  unfold compactPointRecordGroup
  dsimp only
  split_ifs
  · exact fun record hmem => hcompact ((cleanupPointTombstones_sublist _).subset hmem)
  · exact hcompact

lemma pairwise_compactPointRecordGroup {full : Bool} :
    (compactPointRecordGroup oldestActiveSnapshot full records).Pairwise internalKeyLe := by
  have hcompact : (compactPointRecords oldestActiveSnapshot records).Pairwise internalKeyLe :=
    (pairwise_insertionSort internalKeyLe records).sublist
      (compactSortedRecords_sublist oldestActiveSnapshot _ none false)
  unfold compactPointRecordGroup
  dsimp only
  split_ifs
  · exact hcompact.sublist (cleanupPointTombstones_sublist _)
  · exact hcompact

/-- A version is kept, or a newer one that the snapshot sees is kept instead, or a full compaction
drops it as a deletion at the end. -/
lemma mem_compactPointRecordGroup (full : Bool) (hkey : ∀ record ∈ records, record.userKey = key)
    (hmem : record ∈ records) :
    record ∈ compactPointRecordGroup oldestActiveSnapshot full records ∨
      (∃ newer ∈ records, newer ≠ record ∧ newer.sequence ≤ oldestActiveSnapshot ∧
        record.stamp ≤ newer.stamp) ∨
      full = true ∧ record.kind ≠ .put ∧
        ∀ other ∈ compactPointRecordGroup oldestActiveSnapshot full records,
          record.stamp ≤ other.stamp := by
  obtain ⟨newer, older, hperm, hsorted, -, holder, hcompact⟩ :=
    exists_compactPointRecords_eq oldestActiveSnapshot hkey
  have hle : ∀ {left right : PointRecord}, left ∈ newer ++ older → right ∈ newer ++ older →
      internalKeyLe left right → right.stamp ≤ left.stamp := fun hleft hright h =>
    stamp_le_of_internalKey_le
      ((hkey _ (hperm.mem_iff.mpr hleft)).trans (hkey _ (hperm.mem_iff.mpr hright)).symm) h
  have hsub : (newer ++ older.take 1).Sublist (newer ++ older) :=
    (List.Sublist.refl newer).append (take_sublist 1 older)
  unfold compactPointRecordGroup
  dsimp only
  rw [hcompact]
  by_cases hkept : record ∈ newer ++ older.take 1
  · cases full with
    | false => exact .inl hkept
    | true =>
      -- Only the last of what the snapshot leaves can be dropped.
      rcases eq_nil_or_concat (newer ++ older.take 1) with hnil | ⟨init, last, hlast⟩
      · rw [hnil] at hkept
        cases hkept
      rw [concat_eq_append] at hlast
      rw [hlast] at hkept hsub
      have hpair := hsorted.sublist hsub
      have hclean := cleanupPointTombstones_append
        (fun other hother => hkey other (hperm.mem_iff.mpr (hsub.subset hother))) hpair
      rw [hlast, if_pos rfl, hclean]
      by_cases hkind : last.kind = .pointDelete
      case neg => exact .inl (by rwa [if_neg hkind])
      rw [if_pos hkind, append_nil]
      rcases mem_append.mp hkept with hin | hin
      · exact .inl hin
      · obtain rfl := mem_singleton.mp hin
        refine .inr (Or.inr ⟨rfl, by simp [hkind], fun other hother => ?_⟩)
        exact hle (hsub.subset (mem_append_left _ hother)) (hsub.subset hkept)
          ((pairwise_append.mp hpair).2.2 other hother record hin)
  · refine .inr (Or.inl ?_)
    have hin : record ∈ older := (mem_append.mp (hperm.mem_iff.mp hmem)).resolve_left
      fun h => hkept (mem_append_left _ h)
    cases older with
    | nil => cases hin
    | cons first older =>
      have hfirst : first ∈ newer ++ first :: older :=
        mem_append_right _ mem_cons_self
      have hne : first ≠ record := fun heq => hkept (mem_append_right _ (by simp [heq]))
      have hrest := (mem_cons.mp hin).resolve_left hne.symm
      refine ⟨first, hperm.mem_iff.mpr hfirst, hne, holder first mem_cons_self,
        hle hfirst (mem_append_right _ hin) ?_⟩
      exact rel_of_pairwise_cons (pairwise_append.mp hsorted).2.1 hrest

end Versions

/-! ## The sources of the merge -/

section Sources

variable {input : CompactionInput} {range : KeyRange} {table : Table} {tables : List Table}
  {policy : IndexSearchPolicy}

/-- The records that the cursor over an input returns. -/
def Table.read (policy : IndexSearchPolicy) (range : KeyRange) (table : Table) :
    List PointRecord :=
  table.scanned (.range range) .forward policy

lemma Table.read_sublist (table : Table) : (table.read policy range).Sublist table.pointRecords :=
  (table.scanned_sublist (.range range) .forward policy).trans filter_sublist

/-- The cursor over an input returns all of its records: they lie in the range, and no restart
point stands between two versions of the key at which the cursor starts. -/
def Table.ReadWhole (table : Table) (range : KeyRange) : Prop :=
  (∀ record ∈ table.pointRecords, keyIsInRange record.userKey range = true) ∧
    ∀ key, (ScanSelector.range range).startKey = some key → keyIsInRange key range = true →
      table.restartSplits key = false

lemma Table.ReadWhole.read_eq (h : table.ReadWhole range) :
    table.read policy range = table.pointRecords := by
  rw [Table.read, Table.scanned, (table.forwardFrom_eq_iff (.range range) policy).mpr h.2]
  exact filter_eq_self.mpr h.1

def Table.groups (policy : IndexSearchPolicy) (range : KeyRange) (table : Table) :
    List RecordGroup :=
  ((table.read policy range).map userKey).dedup.map fun key =>
    ⟨key, (table.read policy range).filter fun record => record.userKey = key⟩

lemma Table.pairwise_groups (table : Table) :
    (table.groups policy range).Pairwise fun left right => left.userKey < right.userKey := by
  have hle : ((table.read policy range).map userKey).Pairwise (· ≤ ·) :=
    pairwise_map.mpr (table.sorted.keysAscend.sublist table.read_sublist)
  have hdedup := hle.sublist (dedup_sublist _)
  have hne : ((table.read policy range).map userKey).dedup.Pairwise (· ≠ ·) :=
    nodup_dedup _
  refine pairwise_map.mpr ((hdedup.and hne).imp ?_)
  exact fun h => lt_of_le_of_ne h.1 h.2

lemma Table.mem_groups {group : RecordGroup} :
    group ∈ table.groups policy range ↔
      (∃ record ∈ table.read policy range, record.userKey = group.userKey) ∧
        group.records =
          (table.read policy range).filter fun record => record.userKey = group.userKey := by
  simp only [groups, mem_map, mem_dedup]
  constructor
  · rintro ⟨key, ⟨record, hmem, rfl⟩, rfl⟩
    exact ⟨⟨record, hmem, rfl⟩, rfl⟩
  · rintro ⟨⟨record, hmem, heq⟩, hrecords⟩
    exact ⟨group.userKey, ⟨record, hmem, heq⟩, by cases group; simp_all⟩

lemma Table.exists_mem_groups {key : Key} {record : PointRecord} :
    (∃ group ∈ table.groups policy range, group.userKey = key ∧ record ∈ group.records) ↔
      record ∈ table.read policy range ∧ record.userKey = key := by
  constructor
  · rintro ⟨group, hgroup, rfl, hmem⟩
    rw [(Table.mem_groups.mp hgroup).2, mem_filter, decide_eq_true_eq] at hmem
    exact hmem
  · rintro ⟨hmem, rfl⟩
    refine ⟨⟨record.userKey, (table.read policy range).filter fun other =>
      other.userKey = record.userKey⟩, Table.mem_groups.mpr ⟨⟨record, hmem, rfl⟩, rfl⟩, rfl, ?_⟩
    exact mem_filter.mpr ⟨hmem, decide_eq_true rfl⟩

lemma CompactionInput.source_eq :
    input.source policy range table = .ok (table.groups policy range) := by
  have hsorted : StrictlySorted (table.read policy range) := table.sorted.sublist table.read_sublist
  rw [source, TablePointCursor.drain_new, Table.groups, Except.ok.injEq]
  change (Grouping.runs userKey (table.read policy range)).map groupOfRun = _
  rw [Grouping.runs_eq_of_sorted (r := (· ≤ ·)) hsorted.keysAscend, map_map]
  refine map_congr_left fun key _ => ?_
  rw [Function.comp_apply, groupOfRun,
    insertionSort_eq_of_perm (List.Perm.refl _) (hsorted.sublist filter_sublist)]

lemma CompactionInput.mapM_source :
    tables.mapM (input.source policy range) = .ok (tables.map (Table.groups policy range)) :=
  ByteCodec.mapM_eq_ok_map fun _ _ => source_eq

lemma ascending_groups (tables : List Table) :
    GroupMerge.Ascending RecordGroup.userKey (tables.map (Table.groups policy range)) := by
  intro source hsource
  obtain ⟨table, -, rfl⟩ := mem_map.mp hsource
  exact table.pairwise_groups

def VersionsOf (policy : IndexSearchPolicy) (range : KeyRange) (tables : List Table) (key : Key)
    (records : List PointRecord) : Prop :=
  ∀ record, record ∈ records ↔ (∃ table ∈ tables,
    record ∈ table.read policy range) ∧ record.userKey = key

lemma versionsOf_of_mem_merge {key : Key} {groups : List RecordGroup}
    (h : (key, groups) ∈ GroupMerge.merge RecordGroup.userKey
      (GroupMerge.size (tables.map (Table.groups policy range)) + 1) (tables.map
        (Table.groups policy range))) :
    VersionsOf policy range tables key (groups.flatMap RecordGroup.records) := by
  intro record
  obtain ⟨-, rfl⟩ := (GroupMerge.mem_merge (ascending_groups tables) (Nat.lt_succ_self _)).mp h
  simp only [mem_flatMap, mem_map, mem_filter, decide_eq_true_eq]
  constructor
  · rintro ⟨group, ⟨source, ⟨table, htable, rfl⟩, hgroup, hkey⟩, hmem⟩
    obtain ⟨hrecord, heq⟩ := Table.exists_mem_groups.mp ⟨group, hgroup, hkey, hmem⟩
    exact ⟨⟨table, htable, hrecord⟩, heq⟩
  · rintro ⟨⟨table, htable, hrecord⟩, heq⟩
    obtain ⟨group, hgroup, hkey, hmem⟩ := Table.exists_mem_groups.mpr ⟨hrecord, heq⟩
    exact ⟨group, ⟨table.groups policy range, ⟨table, htable, rfl⟩, hgroup, hkey⟩, hmem⟩

lemma exists_versionsOf {records : List PointRecord}
    (h : records ∈ mergedRecords (tables.map (Table.groups policy range))) :
    ∃ key, VersionsOf policy range tables key records := by
  obtain ⟨⟨key, groups⟩, hgroup, rfl⟩ := mem_map.mp h
  exact ⟨key, versionsOf_of_mem_merge hgroup⟩

lemma exists_mem_mergedRecords {record : PointRecord} {table : Table} (htable : table ∈ tables)
    (hmem : record ∈ table.read policy range) :
    ∃ records ∈ mergedRecords (tables.map (Table.groups policy range)),
      VersionsOf policy range tables record.userKey records := by
  obtain ⟨group, hgroup, hkey, -⟩ := Table.exists_mem_groups.mpr ⟨hmem, rfl⟩
  have hmerge := (GroupMerge.mem_merge (ascending_groups tables)
    (Nat.lt_succ_self (GroupMerge.size (tables.map (Table.groups policy range))))).mpr
    ⟨⟨table.groups policy range, mem_map_of_mem htable, group, hgroup, hkey⟩, rfl⟩
  exact ⟨_, mem_map_of_mem hmerge, versionsOf_of_mem_merge hmerge⟩

lemma pairwise_mergedRecords (tables : List Table) :
    (mergedRecords (tables.map (Table.groups policy range))).Pairwise fun left right =>
      ∀ a ∈ left, ∀ b ∈ right, a.userKey < b.userKey := by
  have hpair := GroupMerge.pairwise_merge (ascending_groups tables)
    (Nat.lt_succ_self (GroupMerge.size (tables.map (Table.groups policy range))))
  refine pairwise_map.mpr (List.Pairwise.imp_of_mem (fun hleft hright hlt a ha b hb => ?_) hpair)
  rw [((versionsOf_of_mem_merge hleft a).mp ha).2, ((versionsOf_of_mem_merge hright b).mp hb).2]
  exact hlt

lemma eq_of_mem_mergedRecords {left right : List PointRecord} {a b : PointRecord}
    (hleft : left ∈ mergedRecords (tables.map (Table.groups policy range)))
    (hright : right ∈ mergedRecords (tables.map (Table.groups policy range))) (ha : a ∈ left)
    (hb : b ∈ right)
    (hkey : a.userKey = b.userKey) : left = right := by
  by_contra hne
  have hpair : (mergedRecords (tables.map (Table.groups policy range))).Pairwise fun left right =>
      ∀ a ∈ left, ∀ b ∈ right, a.userKey ≠ b.userKey :=
    (pairwise_mergedRecords tables).imp fun h a ha b hb => (h a ha b hb).ne
  have : Std.Symm fun left right : List PointRecord =>
      ∀ a ∈ left, ∀ b ∈ right, a.userKey ≠ b.userKey :=
    ⟨fun _ _ h b hb a ha => (h a ha b hb).symm⟩
  exact hpair.forall hleft hright hne a ha b hb hkey

end Sources

/-! ## What is kept altogether -/

section Kept

variable {oldestActiveSnapshot : ℕ} {input : CompactionInput} {range : KeyRange}
  {tables : List Table} {tombstones : List RangeTombstone} {record : PointRecord}
  {policy : IndexSearchPolicy}

def keptOf (oldestActiveSnapshot : ℕ) (policy : IndexSearchPolicy) (input : CompactionInput)
    (range : KeyRange) (tombstones : List RangeTombstone) (tables : List Table) :
    List (List PointRecord) :=
  keptGroups oldestActiveSnapshot input tombstones (mergedRecords (tables.map
    (Table.groups policy range)))

lemma exists_of_mem_keptOf {kept : List PointRecord}
    (h : kept ∈ keptOf oldestActiveSnapshot policy input range tombstones tables) :
    kept ≠ [] ∧ ∃ records ∈ mergedRecords (tables.map (Table.groups policy range)),
      kept = dropRecordsCoveredByDroppableTombstone oldestActiveSnapshot tombstones
        (compactPointRecordGroup oldestActiveSnapshot input.fullBucketCompaction records) := by
  obtain ⟨hmem, hne⟩ := mem_filter.mp h
  obtain ⟨records, hrecords, rfl⟩ := mem_map.mp hmem
  exact ⟨by simpa using hne, records, hrecords, rfl⟩

lemma drop_compactPointRecordGroup_subset {records : List PointRecord} {full : Bool} :
    dropRecordsCoveredByDroppableTombstone oldestActiveSnapshot tombstones
      (compactPointRecordGroup oldestActiveSnapshot full records) ⊆ records :=
  fun _ hmem => compactPointRecordGroup_subset oldestActiveSnapshot (mem_filter.mp hmem).1

lemma mem_tables_of_mem_keptOf
    (h : record ∈ (keptOf oldestActiveSnapshot policy input range tombstones tables).flatten) :
    ∃ table ∈ tables, record ∈ table.read policy range := by
  obtain ⟨kept, hkept, hmem⟩ := mem_flatten.mp h
  obtain ⟨-, records, hrecords, rfl⟩ := exists_of_mem_keptOf hkept
  obtain ⟨key, hversions⟩ := exists_versionsOf hrecords
  exact ((hversions record).mp (drop_compactPointRecordGroup_subset hmem)).1

lemma pairwise_groups_keptOf :
    (keptOf oldestActiveSnapshot policy input range tombstones tables).Pairwise fun left right =>
      ∀ a ∈ left, ∀ b ∈ right, a.userKey < b.userKey := by
  refine (pairwise_map.mpr ((pairwise_mergedRecords tables).imp ?_)).sublist
    filter_sublist
  intro left right hlt a ha b hb
  exact hlt a (drop_compactPointRecordGroup_subset ha) b (drop_compactPointRecordGroup_subset hb)

lemma pairwise_keptOf :
    (keptOf oldestActiveSnapshot policy input range tombstones tables).flatten.Pairwise
      internalKeyLe := by
  refine pairwise_flatten.mpr ⟨fun kept hkept => ?_, ?_⟩
  · obtain ⟨-, records, -, rfl⟩ := exists_of_mem_keptOf hkept
    exact (pairwise_compactPointRecordGroup oldestActiveSnapshot).sublist filter_sublist
  · exact pairwise_groups_keptOf.imp fun h a ha b hb =>
      (InternalKey.lt_of_userKey_lt (h a ha b hb)).le

/-- A record of the tables is kept, or it is not newer than another version of its key that is not
newer than the snapshot, or a range deletion hides it from all active readers, or a full compaction
drops it as a deletion that is not newer than any version of its key that is kept. -/
lemma mem_keptOf {table : Table} (htable : table ∈ tables) (hmem : record ∈ table.read policy range) :
    record ∈ (keptOf oldestActiveSnapshot policy input range tombstones tables).flatten ∨
      (∃ newer, (∃ table ∈ tables, newer ∈ table.read policy range) ∧ newer.userKey = record.userKey ∧
        newer ≠ record ∧ newer.sequence ≤ oldestActiveSnapshot ∧ record.stamp ≤ newer.stamp) ∨
      (∃ tombstone ∈ tombstones, tombstone.hidesForAll oldestActiveSnapshot record = true) ∨
      input.fullBucketCompaction = true ∧ record.kind ≠ .put ∧
        ∀ other ∈ (keptOf oldestActiveSnapshot policy input range tombstones tables).flatten,
          other.userKey = record.userKey → record.stamp ≤ other.stamp := by
  obtain ⟨records, hrecords, hversions⟩ := exists_mem_mergedRecords htable hmem
  have hkey : ∀ other ∈ records, other.userKey = record.userKey := fun other hother =>
    ((hversions other).mp hother).2
  rcases mem_compactPointRecordGroup oldestActiveSnapshot input.fullBucketCompaction hkey
    ((hversions record).mpr ⟨⟨table, htable, hmem⟩, rfl⟩) with hkept | ⟨newer, hnewer, hne, hseq,
      hle⟩ | ⟨hfull, hkind, hlast⟩
  · by_cases hhidden : ∃ tombstone ∈ tombstones,
        tombstone.hidesForAll oldestActiveSnapshot record = true
    · exact .inr (Or.inr (Or.inl hhidden))
    · have hdrop : record ∈ dropRecordsCoveredByDroppableTombstone oldestActiveSnapshot tombstones
          (compactPointRecordGroup oldestActiveSnapshot input.fullBucketCompaction records) := by
        refine mem_filter.mpr ⟨hkept, ?_⟩
        rw [Bool.not_eq_true', any_eq_false]
        exact fun tombstone htombstone hhides => hhidden ⟨tombstone, htombstone, hhides⟩
      refine .inl (mem_flatten.mpr ⟨_, mem_filter.mpr
        ⟨mem_map_of_mem hrecords, ?_⟩, hdrop⟩)
      simpa using ne_nil_of_mem hdrop
  · have hin := (hversions newer).mp hnewer
    exact .inr (Or.inl ⟨newer, hin.1, hin.2, hne, hseq, hle⟩)
  · refine .inr (Or.inr (Or.inr ⟨hfull, hkind, fun other hother hsame => ?_⟩))
    obtain ⟨kept, hkept, hin⟩ := mem_flatten.mp hother
    obtain ⟨-, others, hothers, rfl⟩ := exists_of_mem_keptOf hkept
    have hrecord := (hversions record).mpr ⟨⟨table, htable, hmem⟩, rfl⟩
    obtain rfl := eq_of_mem_mergedRecords hothers hrecords
      (drop_compactPointRecordGroup_subset hin) hrecord hsame
    exact hlast other (mem_filter.mp hin).1

end Kept

end TrineKv
