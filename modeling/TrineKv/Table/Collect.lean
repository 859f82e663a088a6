import TrineKv.Table.BlockDecode
import TrineKv.Table.CursorDrain

/-!
# Versions collected from a table

Besides the newest visible version, a table returns all versions of a key, through the hash indexes
of its blocks, and all versions of the keys in a range, block by block from the restart point at the
start of the range.

## Main results

* `DecodedDataBlock.lookups_eq_scan`: a lookup in a block agrees with a scan of its records.
* `Table.pointRecordsForKey_eq`, `Table.pointRecordsInRange_eq`: what is collected from a table.
* `Table.reads_congr`: what a table answers depends on its records alone.
-/

namespace TrineKv

open List
open ScanSelector (selected selects)

/-! ## Records of a table -/

namespace DecodedDataBlock

def pointRecordRangeForKey (block : DecodedDataBlock) (key : Key) :
    List BlockHashEntry → Except Error (ℕ × ℕ)
  | [] => .ok (0, 0)
  | entry :: entries => do
    let firstRecord ← block.recordView entry.startRecord
    if firstRecord.userKey = key then return (entry.startRecord, entry.endRecord)
    else block.pointRecordRangeForKey key entries

def pointRecordsForKey (block : DecodedDataBlock) (key : Key) :
    Except Error (List PointRecord) := do
  let (start, end_) ← block.pointRecordRangeForKey key (block.matchingEntries (userKeyHash key))
  (List.range' start (end_ - start)).mapM block.recordView

def collectInRange (block : DecodedDataBlock) (range : KeyRange) :
    List ℕ → Except Error (List PointRecord)
  | [] => .ok []
  | recordIndex :: recordIndices => do
    let record ← block.recordView recordIndex
    if keyIsBeforeStart record.userKey range.start then block.collectInRange range recordIndices
    else if keyIsAfterEnd record.userKey range.end_ then return []
    else return record :: (← block.collectInRange range recordIndices)

def pointRecordsInRange (block : DecodedDataBlock) (range : KeyRange)
    (policy : IndexSearchPolicy) : Except Error (List PointRecord) :=
  let start := block.restartIndexForBound range.start policy
  block.collectInRange range (List.range' start (block.recordCount - start))

end DecodedDataBlock

namespace Table

def collectForKey (table : Table) (key : Key) : List ℕ → Except Error (List PointRecord)
  | [] => .ok []
  | blockIndex :: blockIndices => do
    let metadata ← table.dataBlockMetadata blockIndex
    match metadata.pointDecision key with
    | .done => return []
    | .skip => table.collectForKey key blockIndices
    | .read =>
      let block ← table.loadDataBlock blockIndex
      let records ← block.pointRecordsForKey key
      return records ++ (← table.collectForKey key blockIndices)

def pointRecordsForKey (table : Table) (key : Key) (policy : IndexSearchPolicy) :
    Except Error (List PointRecord) := do
  match ← table.firstBlockMatchingKey key policy with
  | none => return []
  | some start => table.collectForKey key (List.range' start (table.dataBlockCount - start))

/-- The first block that does not end before the range. -/
def firstBlockMatchingRangeStart (table : Table) (range : KeyRange) (policy : IndexSearchPolicy) :
    Except Error (Option ℕ) :=
  table.firstBlockMatching policy fun other => keyIsBeforeStart other range.start

def collectInRange (table : Table) (range : KeyRange) (policy : IndexSearchPolicy) :
    List ℕ → Except Error (List PointRecord)
  | [] => .ok []
  | blockIndex :: blockIndices => do
    let metadata ← table.dataBlockMetadata blockIndex
    if keyIsAfterEnd metadata.smallestUserKey range.end_ then return []
    else if !metadata.overlapsRange range then table.collectInRange range policy blockIndices
    else
      let block ← table.loadDataBlock blockIndex
      let records ← block.pointRecordsInRange range policy
      return records ++ (← table.collectInRange range policy blockIndices)

def pointRecordsInRange (table : Table) (range : KeyRange) (policy : IndexSearchPolicy) :
    Except Error (List PointRecord) := do
  match ← table.firstBlockMatchingRangeStart range policy with
  | none => return []
  | some start =>
    table.collectInRange range policy (List.range' start (table.dataBlockCount - start))

end Table

/-! ## Records collected from a block -/

namespace DecodedDataBlock

variable {records : List PointRecord} {block : DecodedDataBlock}

lemma mapM_recordView {start : ℕ} {versions : List PointRecord}
    (h : ∀ i, i < versions.length → block.records[start + i]? = versions[i]?) :
    (List.range' start versions.length).mapM block.recordView = .ok versions := by
  induction versions generalizing start with
  | nil => rfl
  | cons record versions ih =>
    have hhead : block.records[start]? = some record := by simpa using h 0 (by simp)
    have htail := @ih (start + 1) fun i hi => by
      have := h (i + 1) (by simpa using hi)
      rw [show start + 1 + i = start + (i + 1) by omega]
      simpa using this
    have hview : block.recordView start = .ok record := by
      simp [recordView, hhead]
    rw [length_cons, range'_succ, mapM_cons, hview]
    simp only [bind, Except.bind, htail, pure, Except.pure]

lemma pointRecordRangeForKey_spec {entries : List BlockHashEntry} (key : Key)
    (hspans : ∀ entry ∈ entries, ∃ key, entry.Spans block.records key)
    (hkey : (∃ entry ∈ entries, entry.Spans block.records key) ∨
      block.records.filter (fun record => record.userKey = key) = []) :
    ∃ start, block.pointRecordRangeForKey key entries =
        .ok (start, start + (block.records.filter fun record => record.userKey = key).length) ∧
      ∀ i, i < (block.records.filter fun record => record.userKey = key).length →
        block.records[start + i]? = (block.records.filter fun record => record.userKey = key)[i]? := by
  induction entries with
  | nil =>
    have hnil : block.records.filter (fun record => record.userKey = key) = [] := by simpa using hkey
    exact ⟨0, by rw [hnil]; rfl, by simp [hnil]⟩
  | cons entry entries ih =>
    obtain ⟨key', hentry⟩ := hspans entry mem_cons_self
    obtain ⟨first, rest, hversions, hmem, hfirst, hget⟩ := hentry.first
    have hview : block.recordView entry.startRecord = .ok first := by
      simp [recordView, hget]
    rw [pointRecordRangeForKey, hview]
    simp only [bind, Except.bind]
    by_cases heq : key' = key
    · subst heq
      rw [if_pos hfirst]
      exact ⟨entry.startRecord, by rw [hentry.endRecord_eq]; rfl, hentry.getElem?_eq⟩
    · rw [if_neg (by rw [hfirst]; exact heq)]
      refine ih (fun e he => hspans e (mem_cons_of_mem _ he)) ?_
      rcases hkey with ⟨e, he, hspan⟩ | hnil
      · rcases mem_cons.mp he with rfl | he
        · exact absurd (hentry.unique hspan) heq
        · exact .inl ⟨e, he, hspan⟩
      · exact .inr hnil

lemma pointRecordsForKey_eq
    (hindex : block.pointLookupIndex = (fromRecords block.records).pointLookupIndex)
    (hsorted : KeysAscend block.records) (key : Key) :
    block.pointRecordsForKey key =
      .ok (block.records.filter fun record => record.userKey = key) := by
  obtain ⟨hspans, hentry⟩ := matchingEntries_spans hindex hsorted key
  obtain ⟨start, hrange, hget⟩ := pointRecordRangeForKey_spec key hspans hentry
  rw [pointRecordsForKey, hrange]
  simp only [bind, Except.bind, Nat.add_sub_cancel_left]
  exact mapM_recordView hget

/-- In a block that the decoder accepts, the lookups through the hash index return what a scan of all
records of the block returns. -/
theorem lookups_eq_scan {smallestInternalKey largestInternalKey : InternalKey}
    {restartIndices : List ℕ} {entries : List BlockHashEntry}
    (h : readDataBlock smallestInternalKey largestInternalKey records restartIndices entries =
      .ok block) (key : Key) :
    block.records = records ∧
    block.pointRecordsForKey key = .ok (records.filter fun record => record.userKey = key) ∧
    ∀ readSequence, block.newestVisiblePointValueRecordForKey key readSequence =
      .ok (records.any fun record => record.userKey = key,
        records.find? fun record => record.isVisible key readSequence) := by
  obtain ⟨rfl, hsorted, hindex⟩ := readDataBlock_eq_ok h
  exact ⟨rfl, pointRecordsForKey_eq hindex hsorted.keysAscend key,
    newestVisiblePointValueRecordForKey_eq hindex hsorted.keysAscend key⟩

def threeVersions : List PointRecord :=
  [.ofPut [97] [1] 3 0, .ofPut [97] [2] 1 0, .ofPut [98] [3] 2 0]

/-- The block of three versions is accepted with entries in any order, and an older version is found. -/
theorem lookups_eq_scan_threeVersions :
    ∃ block, readDataBlock (PointRecord.ofPut [97] [1] 3 0).internalKey
        (PointRecord.ofPut [98] [3] 2 0).internalKey threeVersions [0]
        [⟨userKeyHash [98], 2, 3⟩, ⟨userKeyHash [97], 0, 2⟩] = .ok block ∧
      block.pointRecordsForKey [97] = .ok [.ofPut [97] [1] 3 0, .ofPut [97] [2] 1 0] ∧
      block.newestVisiblePointValueRecordForKey [97] 2 = .ok (true, some (.ofPut [97] [2] 1 0)) := by
  have hok : readDataBlock (PointRecord.ofPut [97] [1] 3 0).internalKey
      (PointRecord.ofPut [98] [3] 2 0).internalKey threeVersions [0]
      [⟨userKeyHash [98], 2, 3⟩, ⟨userKeyHash [97], 0, 2⟩] =
      .ok ⟨threeVersions, [0], (fromRecords threeVersions).pointLookupIndex⟩ := by decide +kernel
  obtain ⟨-, hall, hnewest⟩ := lookups_eq_scan hok [97]
  exact ⟨_, hok, hall.trans (by decide), (hnewest 2).trans (by decide)⟩

lemma restartIndexForBound_le (hsorted : KeysAscend records) (bound : Bound Key)
    (policy : IndexSearchPolicy) :
    (fromRecords records).restartIndexForBound bound policy ≤ records.length := by
  have hkey : ∀ key, (fromRecords records).restartIndexForKey key policy ≤ records.length := by
    intro key
    rcases (restartIndexForKey_spec key hsorted policy).1 with hzero | ⟨hmem, -⟩
    · rw [hzero]
      exact Nat.zero_le _
    · exact (mem_restartIndicesOf hmem).le
  cases bound with
  | included key => exact hkey key
  | excluded key => exact hkey key
  | unbounded => exact Nat.zero_le _

lemma collectInRange_eq (hsorted : KeysAscend records) (range : KeyRange) (n start : ℕ)
    (hn : start + n = records.length) :
    (fromRecords records).collectInRange range (List.range' start n) =
      .ok (selected (.range range) (records.drop start)) := by
  induction n generalizing start with
  | zero =>
    rw [drop_eq_nil_of_le (by omega)]
    rfl
  | succ n ih =>
    have hlt : start < records.length := by omega
    have hview : (fromRecords records).recordView start = .ok records[start] := by
      simp [recordView, fromRecords, List.getElem?_eq_getElem hlt]
    have hdrop := drop_eq_getElem_cons hlt
    rw [range'_succ, collectInRange, hview, hdrop]
    simp only [bind, Except.bind]
    split_ifs with hbefore hafter
    · rw [ih (start + 1) (by omega), ScanSelector.selected_cons_of_not_selects]
      simp [selects, keyIsInRange, hbefore]
    · -- The records ascend, so all later ones lie behind the range as well.
      rw [ScanSelector.selected_eq_nil]
      · rfl
      · intro record hmem
        have hle : records[start].userKey ≤ record.userKey := by
          rcases mem_cons.mp hmem with rfl | hmem
          · exact le_rfl
          · have hascend : KeysAscend (records[start] :: records.drop (start + 1)) :=
              hdrop ▸ hsorted.sublist (drop_sublist _ _)
            exact (pairwise_cons.mp hascend).1 record hmem
        have hlater := keyIsAfterEnd_of_le hle hafter
        simp [selects, keyIsInRange, hlater]
    · rw [ih (start + 1) (by omega), ScanSelector.selected_cons_of_selects]
      · rfl
      · simp [selects, keyIsInRange, hbefore, hafter]

end DecodedDataBlock

/-! ## Records collected from a table -/

namespace Table

variable (table : Table)

lemma collectForKey_eq (key : Key) (n b : ℕ) (hn : b + n = table.dataBlockCount) :
    table.collectForKey key (List.range' b n) =
      .ok (((table.dataBlocks.drop b).flatMap TableDataBlock.records).filter
        fun record => record.userKey = key) := by
  have hnil : ∀ {records : List PointRecord}, (∀ record ∈ records, record.userKey ≠ key) →
      records.filter (fun record => decide (record.userKey = key)) = [] := fun h =>
    filter_eq_nil_iff.mpr fun record hmem => by simpa using h record hmem
  induction n generalizing b with
  | zero =>
    rw [drop_eq_nil_of_le (by rw [← dataBlockCount]; omega)]
    rfl
  | succ n ih =>
    have hb : b < table.dataBlocks.length := by
      rw [← dataBlockCount]
      omega
    have hblock := List.getElem?_eq_getElem hb
    set block := table.dataBlocks[b]
    have hdecision := pointDecision_spec hblock key
    have htail := ih (b + 1) (by omega)
    have hdrop : table.dataBlocks.drop b = block :: table.dataBlocks.drop (b + 1) :=
      drop_eq_getElem_cons hb
    have hsorted := (table.sorted_block (mem_of_getElem? hblock)).keysAscend
    rw [range'_succ, collectForKey, dataBlockMetadata_eq hblock]
    simp only [bind, Except.bind]
    cases hcase : block.pointDecision key with
    | done =>
      rw [hcase] at hdecision
      rw [hnil]
      · rfl
      · intro record hrecord
        obtain ⟨later, hlater, hin⟩ := mem_flatMap.mp hrecord
        exact hdecision later hlater record hin
    | skip =>
      rw [hcase] at hdecision
      rw [hdrop, flatMap_cons, filter_append, hnil hdecision, nil_append]
      exact htail
    | read =>
      have hlookup := @DecodedDataBlock.pointRecordsForKey_eq (.fromRecords block.records) rfl
        hsorted key
      simp only [loadDataBlock_eq hblock, hlookup, DecodedDataBlock.records_fromRecords, htail]
      rw [hdrop, flatMap_cons, filter_append]
      rfl

theorem pointRecordsForKey_eq (key : Key) (policy : IndexSearchPolicy) :
    table.pointRecordsForKey key policy =
      .ok (table.pointRecords.filter fun record => record.userKey = key) := by
  obtain ⟨start, hstart, hcount, hbelow⟩ := table.firstBlockMatchingKey_spec key policy
  have hskip : table.pointRecords.filter (fun record => decide (record.userKey = key)) =
      ((table.dataBlocks.drop (start.getD table.dataBlockCount)).flatMap
        TableDataBlock.records).filter fun record => record.userKey = key := by
    rw [← table.flatMap_dataBlocks]
    conv_lhs => rw [← take_append_drop (start.getD table.dataBlockCount) table.dataBlocks,
      flatMap_append, filter_append]
    rw [filter_eq_nil_iff.mpr, nil_append]
    intro record hrecord
    simpa using ne_of_mem_take hbelow hrecord
  rw [pointRecordsForKey, hstart, hskip]
  cases start with
  | none =>
    rw [Option.getD_none, dataBlockCount, drop_length]
    rfl
  | some start =>
    have hlt := hcount start rfl
    exact table.collectForKey_eq key _ start (by omega)

/-- What a table answers depends on its records alone: not on the sizes of its blocks, its filters
and index partitions, where its metadata are, and how its indexes are searched. -/
theorem reads_congr {left right : Table} (h : left.pointRecords = right.pointRecords)
    (policy other : IndexSearchPolicy) :
    (∀ key readSequence, left.newestVisiblePointValueRecordForKey key readSequence policy =
        right.newestVisiblePointValueRecordForKey key readSequence other) ∧
      (∀ key, left.pointRecordsForKey key policy = right.pointRecordsForKey key other) ∧
      ∀ selector extractor extractor',
        (TablePointCursor.new left selector extractor .reverse policy).drain =
          (TablePointCursor.new right selector extractor' .reverse other).drain := by
  refine ⟨fun key readSequence => ?_, fun key => ?_, fun selector extractor extractor' => ?_⟩
  · rw [newestVisiblePointValueRecordForKey_eq, newestVisiblePointValueRecordForKey_eq, h]
  · rw [pointRecordsForKey_eq, pointRecordsForKey_eq, h]
  · simp only [TablePointCursor.drain_new, scanned, h]

theorem reads_congr_smallBlocks :
    ∃ small : Table, small.options.blockBytes = 1 ∧ ∀ key,
      small.pointRecordsForKey key .auto =
        TablePointCursor.hotKeyTable.pointRecordsForKey key .auto :=
  ⟨{ TablePointCursor.hotKeyTable with
    options := ⟨1, .disabled, .disabled, .disabled, .uniform⟩ }, rfl,
    (reads_congr (by rfl) .auto .auto).2.1⟩

lemma collectInRange_eq (range : KeyRange) (policy : IndexSearchPolicy) (n b : ℕ)
    (hn : b + n = table.dataBlockCount) :
    table.collectInRange range policy (List.range' b n) =
      .ok (table.forwardFrom (.range range) policy b) := by
  induction n generalizing b with
  | zero =>
    rw [forwardFrom_eq_nil_of_le (by omega)]
    rfl
  | succ n ih =>
    have hb : b < table.dataBlocks.length := by
      rw [← dataBlockCount]
      omega
    have hblock := List.getElem?_eq_getElem hb
    set block := table.dataBlocks[b]
    have hmem : block ∈ table.dataBlocks := mem_of_getElem? hblock
    have htail := ih (b + 1) (by omega)
    have hsorted := (table.sorted_block hmem).keysAscend
    rw [range'_succ, collectInRange, dataBlockMetadata_eq hblock]
    simp only [bind, Except.bind]
    split_ifs with hafter hoverlap
    · rw [forwardFrom_eq_nil]
      · rfl
      · intro j later hj hget record hrecord
        exact not_selects_of_afterEnd hafter ((smallestUserKey_mono hj hblock hget).trans
          (smallestUserKey_le (mem_of_getElem? hget) hrecord))
    · have hbefore : keyIsBeforeStart block.largestUserKey range.start = true := by
        simpa [TableDataBlock.overlapsRange, hafter] using hoverlap
      have hsublist : (selected (.range range)
          (block.entered (.range range) policy)).Sublist
            (selected (.range range) block.records) := selected_entered_sublist block
      rw [selected_eq_nil_of_before hmem hbefore] at hsublist
      rw [htail, forwardFrom_eq_cons hblock, sublist_nil.mp hsublist, nil_append]
    · have hentry : (DecodedDataBlock.fromRecords block.records).pointRecordsInRange range policy =
          .ok (selected (.range range) (block.entered (.range range) policy)) := by
        have hle := DecodedDataBlock.restartIndexForBound_le hsorted range.start policy
        exact DecodedDataBlock.collectInRange_eq hsorted range _ _ (Nat.add_sub_of_le hle)
      simp only [loadDataBlock_eq hblock, hentry, htail]
      rw [forwardFrom_eq_cons hblock]
      rfl

/-- From a table the versions of keys in the range are collected that a forward cursor returns. -/
theorem pointRecordsInRange_eq (range : KeyRange) (policy : IndexSearchPolicy) :
    table.pointRecordsInRange range policy =
      .ok (table.scanned (.range range) .forward policy) := by
  obtain ⟨start, hstart, hcount, hbelow⟩ := table.firstBlockMatching_spec
    (fun _ _ hle h => keyIsBeforeStart_of_le hle h :
      ∀ j k, j ≤ k → keyIsBeforeStart k range.start = true →
        keyIsBeforeStart j range.start = true) policy
  have hsame : table.firstBlockMatchingRangeStart range policy = .ok start := hstart
  have hskip : table.scanned (.range range) .forward policy =
      table.forwardFrom (.range range) policy (start.getD table.dataBlockCount) :=
    forwardFrom_skip fun j block hj hget =>
      selected_eq_nil_of_before (mem_of_getElem? hget) (hbelow j block hj hget)
  rw [pointRecordsInRange, hsame, hskip]
  cases start with
  | none =>
    rw [Option.getD_none, forwardFrom_eq_nil_of_le le_rfl]
    rfl
  | some start =>
    have hlt := hcount start rfl
    exact table.collectInRange_eq range policy _ start (by omega)

end Table

end TrineKv
