import TrineKv.Lib.Grouping
import TrineKv.Table.Layout

/-!
# Finding and loading data blocks

A loaded table searches its data blocks directly. Other tables keep only the top level of the
block index, one entry for 128 blocks, and search that; a cursor then starts at the first or
last block of the partition it found and skips blocks until one overlaps.

## Main results

* `Table.firstBlockCandidate_spec`: where a key begins.
-/

namespace TrineKv

open List Option PartitionPoint

inductive IndexSearchPolicy where
  | linear
  | binary
  | auto
  deriving DecidableEq, Repr

def partitionPointBy (len : ℕ) (policy : IndexSearchPolicy) (predicate : ℕ → Bool) : ℕ :=
  match policy with
  | .linear => linear len predicate
  | .auto =>
    if len ≤ 8 then linear len predicate
    else binary len predicate
  | .binary => binary len predicate

lemma partitionPointBy_spec {len : ℕ} {predicate : ℕ → Bool} (policy : IndexSearchPolicy)
    (h : PartitionPoint.InitiallyTrue len predicate) :
    PartitionPoint.IsPartitionPoint len predicate (partitionPointBy len policy predicate) := by
  cases policy with
  | linear => exact linear_spec h
  | binary => exact binary_spec h
  | auto =>
    simp only [partitionPointBy]
    split_ifs with hlen
    · exact linear_spec h
    · exact binary_spec h

def invalidTable (message : String) : Error :=
  .invalidFormat ("invalid table: " ++ message)

/-! ## Decoded data blocks -/

structure BlockHashEntry where
  keyHash : UInt64
  startRecord : ℕ
  endRecord : ℕ
  deriving DecidableEq, Repr

structure DecodedDataBlock where
  records : List PointRecord
  restartIndices : List ℕ
  pointLookupIndex : List BlockHashEntry
  deriving DecidableEq, Repr

def userKeyHash (key : Key) : UInt64 :=
  bloomHash fnvOffsetA key

def restartIndicesOf (recordCount : ℕ) : List ℕ :=
  (List.range recordCount).filter fun index => index % dataBlockRestartInterval == 0

/-- Number the runs of equal user keys by the records they span. -/
def blockHashEntries : ℕ → List (Key × List PointRecord) → List BlockHashEntry
  | _, [] => []
  | start, (key, group) :: groups =>
    ⟨userKeyHash key, start, start + group.length⟩ ::
      blockHashEntries (start + group.length) groups

/-- The order of a lookup index: by hash, then by first record. -/
def blockHashEntryLe (left right : BlockHashEntry) : Prop :=
  left.keyHash < right.keyHash ∨
    left.keyHash = right.keyHash ∧ left.startRecord ≤ right.startRecord

instance : DecidableRel blockHashEntryLe := fun left right =>
  inferInstanceAs (Decidable (left.keyHash < right.keyHash ∨
    left.keyHash = right.keyHash ∧ left.startRecord ≤ right.startRecord))

namespace DecodedDataBlock

def fromRecords (records : List PointRecord) : DecodedDataBlock :=
  { records
    restartIndices := restartIndicesOf records.length
    pointLookupIndex :=
      (blockHashEntries 0 (Grouping.runs PointRecord.userKey records)).insertionSort
        blockHashEntryLe }

@[simp] lemma records_fromRecords (records : List PointRecord) :
    (fromRecords records).records = records := rfl

def recordCount (block : DecodedDataBlock) : ℕ := block.records.length

def recordView (block : DecodedDataBlock) (index : ℕ) : Except Error PointRecord :=
  match block.records[index]? with
  | some record => .ok record
  | none => .error (invalidTable "record index outside data block")

end DecodedDataBlock

/-! ## The block index -/

structure IndexPartitionEntry where
  smallestInternalKey : InternalKey
  largestInternalKey : InternalKey
  firstDataBlockIndex : ℕ
  dataBlockCount : ℕ
  deriving DecidableEq, Repr

def indexPartitionEntry (chunk : List TableDataBlock) (partitionIndex : ℕ) :
    Option IndexPartitionEntry := do
  let first ← chunk.head?
  let last ← chunk.getLast?
  some { smallestInternalKey := first.smallestInternalKey
         largestInternalKey := last.largestInternalKey
         firstDataBlockIndex := partitionIndex * indexPartitionTargetEntries
         dataBlockCount := chunk.length }

/-- The top-level index over the given blocks. -/
def indexPartitionsForLoadedBlocks (blocks : List TableDataBlock) : List IndexPartitionEntry :=
  (Chunks.chunks indexPartitionTargetEntries blocks).zipIdx.filterMap fun (chunk, index) =>
    indexPartitionEntry chunk index

namespace Table

variable {table : Table} {i b j : ℕ} {a : TableDataBlock}

def indexPartitions (table : Table) : List IndexPartitionEntry :=
  indexPartitionsForLoadedBlocks table.dataBlocks

def partitionContainsBlock (table : Table) (partitionIndex blockIndex : ℕ) : Bool :=
  match table.indexPartitions[partitionIndex]? with
  | none => false
  | some entry =>
    decide (entry.firstDataBlockIndex ≤ blockIndex) &&
      decide (blockIndex < entry.firstDataBlockIndex + entry.dataBlockCount)

def indexPartitionIndexForBlock (table : Table) (blockIndex : ℕ) : Except Error ℕ :=
  if table.dataBlockCount ≤ blockIndex then
    .error (invalidTable "data block index outside table")
  else
    let expected := blockIndex / indexPartitionTargetEntries
    if table.partitionContainsBlock expected blockIndex then .ok expected
    else
      let upper := ofList table.indexPartitions
        fun entry => decide (entry.firstDataBlockIndex ≤ blockIndex)
      if upper = 0 then .error (invalidTable "data block index has no partition")
      else if table.partitionContainsBlock (upper - 1) blockIndex then .ok (upper - 1)
      else .error (invalidTable "data block index has no partition")

def loadIndexPartition (table : Table) (partitionIndex : ℕ) :
    Except Error (List TableDataBlock) :=
  match (Chunks.chunks indexPartitionTargetEntries table.dataBlocks)[partitionIndex]? with
  | some partition => .ok partition
  | none => .error (invalidTable "index partition outside table")

def dataBlockMetadataInPartition (table : Table) (blockIndex : ℕ) :
    Except Error TableDataBlock := do
  let partitionIndex ← table.indexPartitionIndexForBlock blockIndex
  let partition ← table.loadIndexPartition partitionIndex
  match table.indexPartitions[partitionIndex]? with
  | none => .error (invalidTable "index partition outside table")
  | some entry =>
    if blockIndex < entry.firstDataBlockIndex then
      .error (invalidTable "data block index before partition")
    else
      match partition[blockIndex - entry.firstDataBlockIndex]? with
      | some block => .ok block
      | none => .error (invalidTable "data block index outside partition")

def dataBlockMetadata (table : Table) (blockIndex : ℕ) : Except Error TableDataBlock :=
  match table.residence with
  | .loaded =>
    match table.dataBlocks[blockIndex]? with
    | some block => .ok block
    | none => .error (invalidTable "data block index outside table")
  | _ => table.dataBlockMetadataInPartition blockIndex

def loadDataBlock (table : Table) (blockIndex : ℕ) : Except Error DecodedDataBlock := do
  let block ← table.dataBlockMetadata blockIndex
  return DecodedDataBlock.fromRecords block.records

private lemma getElem?_filterMap_of_isSome {α β : Type*} {f : α → Option β} {l : List α}
    (h : ∀ a ∈ l, (f a).isSome) (i : ℕ) : (l.filterMap f)[i]? = l[i]?.bind f := by
  induction l generalizing i with
  | nil => simp
  | cons a l ih =>
    obtain ⟨b, hb⟩ := isSome_iff_exists.mp (h a mem_cons_self)
    rw [filterMap_cons_some hb]
    cases i with
    | zero => simp [hb]
    | succ i => simpa using ih (fun x hx => h x (mem_cons_of_mem _ hx)) i

private lemma indexPartitionEntry_isSome {chunk : List TableDataBlock} (h : chunk ≠ [])
    (index : ℕ) : (indexPartitionEntry chunk index).isSome := by
  simp [indexPartitionEntry, List.head?_eq_some_head h, List.getLast?_eq_some_getLast h]

private lemma getElem?_indexPartitions (table : Table) (i : ℕ) :
    table.indexPartitions[i]? =
      if 128 * i < table.dataBlockCount then
        indexPartitionEntry ((table.dataBlocks.drop (128 * i)).take 128) i
      else none := by
  have hpos : 0 < indexPartitionTargetEntries := by decide
  unfold indexPartitions indexPartitionsForLoadedBlocks
  rw [getElem?_filterMap_of_isSome, List.getElem?_zipIdx, Chunks.getElem?_chunks hpos]
  · show (Option.map _ (if 128 * i < table.dataBlockCount then _ else none)).bind _ = _
    split_ifs with h
    · simp [indexPartitionTargetEntries]
    · rfl
  · rintro ⟨chunk, index⟩ hmem
    apply indexPartitionEntry_isSome
    obtain ⟨j, hj⟩ := mem_iff_getElem?.mp (fst_mem_of_mem_zipIdx hmem)
    rw [Chunks.getElem?_chunks hpos] at hj
    split_ifs at hj with hlt
    obtain rfl : _ = chunk := Option.some.inj hj
    exact Chunks.chunk_ne_nil hpos hlt

lemma lt_length_indexPartitions :
    i < table.indexPartitions.length ↔ 128 * i < table.dataBlockCount := by
  rw [← not_iff_not, not_lt, ← List.getElem?_eq_none_iff, getElem?_indexPartitions]
  split_ifs with h
  · have hne := indexPartitionEntry_isSome
      (Chunks.chunk_ne_nil (n := 128) (by decide) h) i
    simp [h, isSome_iff_ne_none.mp hne]
  · simp [h]

lemma indexPartitions_spec {entry : IndexPartitionEntry}
    (h : table.indexPartitions[i]? = some entry) :
    128 * i < table.dataBlockCount ∧ entry.firstDataBlockIndex = 128 * i ∧
      entry.dataBlockCount = min 128 (table.dataBlockCount - 128 * i) ∧
      (∃ first, table.dataBlocks[128 * i]? = some first ∧
        entry.smallestInternalKey = first.smallestInternalKey) ∧
      ∃ last, table.dataBlocks[128 * i + entry.dataBlockCount - 1]? = some last ∧
        entry.largestInternalKey = last.largestInternalKey := by
  rw [getElem?_indexPartitions] at h
  split_ifs at h with hlt
  set chunk := (table.dataBlocks.drop (128 * i)).take 128 with hchunk
  have hne : chunk ≠ [] := Chunks.chunk_ne_nil (n := 128) (by decide) hlt
  have hlen : chunk.length = min 128 (table.dataBlockCount - 128 * i) := Chunks.length_chunk
  simp only [indexPartitionEntry, List.head?_eq_some_head hne,
    List.getLast?_eq_some_getLast hne, bind_eq_bind, bind_some,
    Option.some.injEq] at h
  subst h
  have hpos : 0 < chunk.length := length_pos_iff.mpr hne
  refine ⟨hlt, Nat.mul_comm _ _, hlen, ⟨chunk.head hne, ?_, rfl⟩, chunk.getLast hne, ?_, rfl⟩
  · have hget := Chunks.getElem?_of_chunk (n := 128) (l := table.dataBlocks) (i := i)
      (j := 0) (by decide)
    rw [Nat.add_zero, ← hchunk] at hget
    rw [← hget, ← List.head?_eq_getElem?, List.head?_eq_some_head hne]
  · show table.dataBlocks[128 * i + chunk.length - 1]? = _
    have hget := Chunks.getElem?_of_chunk (n := 128) (l := table.dataBlocks) (i := i)
      (j := chunk.length - 1) (by omega)
    rw [← hchunk] at hget
    rw [Nat.add_sub_assoc (by omega), ← hget, ← List.getLast?_eq_getElem?,
      List.getLast?_eq_some_getLast hne]

lemma indexPartitionIndexForBlock_eq (h : b < table.dataBlockCount) :
    table.indexPartitionIndexForBlock b = .ok (b / 128) := by
  have hlt : b / 128 < table.indexPartitions.length := by
    rw [lt_length_indexPartitions]
    omega
  have hget := List.getElem?_eq_getElem hlt
  obtain ⟨-, hfirst, hcount, -⟩ := indexPartitions_spec hget
  have hcontains : table.partitionContainsBlock (b / 128) b = true := by
    simp only [partitionContainsBlock, hget, hfirst, hcount, Bool.and_eq_true, decide_eq_true_eq]
    omega
  simp [indexPartitionIndexForBlock, h, indexPartitionTargetEntries, hcontains]

lemma loadIndexPartition_eq (h : 128 * i < table.dataBlockCount) :
    table.loadIndexPartition i = .ok ((table.dataBlocks.drop (128 * i)).take 128) := by
  have hget : (Chunks.chunks indexPartitionTargetEntries table.dataBlocks)[i]? =
      some ((table.dataBlocks.drop (128 * i)).take 128) := by
    rw [Chunks.getElem?_chunks (by decide)]
    exact if_pos h
  simp only [loadIndexPartition, hget]

lemma dataBlockMetadata_eq {block : TableDataBlock}
    (h : table.dataBlocks[b]? = some block) : table.dataBlockMetadata b = .ok block := by
  have hb : b < table.dataBlockCount := by
    by_contra hge
    rw [List.getElem?_eq_none (not_lt.mp hge)] at h
    simp at h
  have hlt : b / 128 < table.indexPartitions.length := by
    rw [lt_length_indexPartitions]
    omega
  have hentry := List.getElem?_eq_getElem hlt
  obtain ⟨hstart, hfirst, -⟩ := indexPartitions_spec hentry
  have hchunk : ((table.dataBlocks.drop (128 * (b / 128))).take 128)[b - 128 * (b / 128)]? =
      some block := by
    rw [Chunks.getElem?_of_chunk (by omega), ← h]
    congr 1
    omega
  have hpartition : table.dataBlockMetadataInPartition b = .ok block := by
    rw [dataBlockMetadataInPartition, indexPartitionIndexForBlock_eq hb]
    simp only [bind, Except.bind, loadIndexPartition_eq hstart, hentry, hfirst, hchunk]
    rw [if_neg (by omega)]
  unfold dataBlockMetadata
  cases table.residence with
  | loaded => simp [h]
  | written => exact hpartition
  | reopened => exact hpartition

lemma loadDataBlock_eq {block : TableDataBlock}
    (h : table.dataBlocks[b]? = some block) :
    table.loadDataBlock b = .ok (DecodedDataBlock.fromRecords block.records) := by
  rw [loadDataBlock, dataBlockMetadata_eq h]
  rfl

/-! ## Where cursors start -/

/-- The first block whose greatest key is not `before`, or the first block of the first such
partition. -/
def firstBlockCandidate (table : Table) (policy : IndexSearchPolicy) (before : Key → Bool) :
    Option ℕ :=
  if table.residence = .loaded then
    let index := partitionPointBy table.dataBlockCount policy
      (along table.dataBlocks fun block => before block.largestUserKey)
    if index < table.dataBlockCount then some index else none
  else
    let partitionIndex := partitionPointBy table.indexPartitions.length policy
      (along table.indexPartitions fun entry =>
        before entry.largestInternalKey.userKey)
    table.indexPartitions[partitionIndex]?.map IndexPartitionEntry.firstDataBlockIndex

def firstBlockCandidateForKey (table : Table) (key : Key) (policy : IndexSearchPolicy) :
    Option ℕ :=
  table.firstBlockCandidate policy fun largest => decide (largest < key)

def firstBlockCandidateForRange (table : Table) (range : KeyRange)
    (policy : IndexSearchPolicy) : Option ℕ :=
  table.firstBlockCandidate policy fun largest => keyIsBeforeStart largest range.start

def lastBlockCandidateForRange (table : Table) (range : KeyRange)
    (policy : IndexSearchPolicy) : Option ℕ :=
  if table.residence = .loaded then
    let upper := partitionPointBy table.dataBlockCount policy
      (along table.dataBlocks fun block =>
        !keyIsAfterEnd block.smallestUserKey range.end_)
    if upper = 0 then none else some (upper - 1)
  else
    let upper := partitionPointBy table.indexPartitions.length policy
      (along table.indexPartitions fun entry =>
        !keyIsAfterEnd entry.smallestInternalKey.userKey range.end_)
    if upper = 0 then none
    else
      table.indexPartitions[upper - 1]?.bind fun entry =>
        if entry.firstDataBlockIndex + entry.dataBlockCount = 0 then none
        else some (entry.firstDataBlockIndex + entry.dataBlockCount - 1)

lemma internalKey_lt_of_blocks {b : TableDataBlock} (hij : i < j)
    (ha : table.dataBlocks[i]? = some a) (hb : table.dataBlocks[j]? = some b) {x y : PointRecord}
    (hx : x ∈ a.records) (hy : y ∈ b.records) : x.internalKey < y.internalKey := by
  obtain ⟨hi, rfl⟩ := List.getElem?_eq_some_iff.mp ha
  obtain ⟨hj, rfl⟩ := List.getElem?_eq_some_iff.mp hb
  exact pairwise_iff_getElem.mp table.pairwise_dataBlocks i j hi hj hij x hx y hy

lemma largestUserKey_mono {b : TableDataBlock} (hij : i ≤ j)
    (ha : table.dataBlocks[i]? = some a) (hb : table.dataBlocks[j]? = some b) :
    a.largestUserKey ≤ b.largestUserKey := by
  rcases Nat.lt_or_eq_of_le hij with hlt | rfl
  · exact InternalKey.userKey_le_of_le
      (internalKey_lt_of_blocks hlt ha hb a.last_mem b.last_mem).le
  · rw [ha] at hb
    rw [Option.some.inj hb]

lemma smallestUserKey_mono {b : TableDataBlock} (hij : i ≤ j)
    (ha : table.dataBlocks[i]? = some a) (hb : table.dataBlocks[j]? = some b) :
    a.smallestUserKey ≤ b.smallestUserKey := by
  rcases Nat.lt_or_eq_of_le hij with hlt | rfl
  · exact InternalKey.userKey_le_of_le
      (internalKey_lt_of_blocks hlt ha hb a.first_mem b.first_mem).le
  · rw [ha] at hb
    rw [Option.some.inj hb]

lemma initiallyTrue_largest (table : Table) {before : Key → Bool}
    (hbefore : ∀ j k, j ≤ k → before k = true → before j = true) :
    PartitionPoint.InitiallyTrue table.dataBlocks.length
      (along table.dataBlocks fun block => before block.largestUserKey) ∧
    PartitionPoint.InitiallyTrue table.indexPartitions.length
      (along table.indexPartitions fun entry =>
        before entry.largestInternalKey.userKey) := by
  constructor
  · apply initiallyTrue_along
    rw [pairwise_iff_getElem]
    intro i j hi hj hij
    apply hbefore
    exact largestUserKey_mono hij.le (List.getElem?_eq_getElem hi) (List.getElem?_eq_getElem hj)
  · apply initiallyTrue_along
    rw [pairwise_iff_getElem]
    intro i j hi hj hij
    apply hbefore
    obtain ⟨hi', -, hci, -, last, hlast, heq⟩ :=
      indexPartitions_spec (List.getElem?_eq_getElem hi)
    obtain ⟨hj', -, hcj, -, last', hlast', heq'⟩ :=
      indexPartitions_spec (List.getElem?_eq_getElem hj)
    rw [heq, heq']
    exact largestUserKey_mono (by omega) hlast hlast'

lemma firstBlockCandidate_spec (table : Table) {before : Key → Bool}
    (hbefore : ∀ j k, j ≤ k → before k = true → before j = true) (policy : IndexSearchPolicy) :
    (∀ i, table.firstBlockCandidate policy before = some i → i < table.dataBlockCount) ∧
      ∀ j block, j < (table.firstBlockCandidate policy before).getD table.dataBlockCount →
        table.dataBlocks[j]? = some block → before block.largestUserKey = true := by
  obtain ⟨hblocks, hpartitions⟩ := initiallyTrue_largest table hbefore
  unfold firstBlockCandidate
  by_cases hres : table.residence = .loaded
  · simp only [hres, if_true]
    obtain ⟨-, hlt, -⟩ := partitionPointBy_spec policy hblocks
    set index := partitionPointBy table.dataBlockCount policy
      (along table.dataBlocks fun block => before block.largestUserKey)
    refine ⟨fun i hi => ?_, fun j block hj hblock => ?_⟩
    · split_ifs at hi with h
      rwa [← Option.some.inj hi]
    · obtain ⟨hjn, rfl⟩ := List.getElem?_eq_some_iff.mp hblock
      have hji : j < index := by
        split_ifs at hj with h
        · exact hj
        · exact lt_of_lt_of_le hj (not_lt.mp h)
      have hp := hlt j hji
      rwa [along_of_lt hjn] at hp
  · simp only [hres, if_false]
    obtain ⟨-, hlt, -⟩ := partitionPointBy_spec policy hpartitions
    set index := partitionPointBy table.indexPartitions.length policy
      (along table.indexPartitions fun entry =>
        before entry.largestInternalKey.userKey)
    refine ⟨fun i hi => ?_, fun j block hj hblock => ?_⟩
    · obtain ⟨entry, hentry, rfl⟩ := map_eq_some_iff.mp hi
      obtain ⟨hstart, hfirst, -⟩ := indexPartitions_spec hentry
      omega
    · obtain ⟨hjn, -⟩ := List.getElem?_eq_some_iff.mp hblock
      -- The partition of block `j` lies before the one the search stopped at.
      have hjlen : j / 128 < table.indexPartitions.length := by
        rw [lt_length_indexPartitions]
        exact lt_of_le_of_lt (Nat.mul_div_le j 128) hjn
      have hji : j / 128 < index := by
        cases hentry : table.indexPartitions[index]? with
        | none => exact lt_of_lt_of_le hjlen (List.getElem?_eq_none_iff.mp hentry)
        | some entry =>
          obtain ⟨-, hfirst, -⟩ := indexPartitions_spec hentry
          simp only [hentry, map_some, getD_some, hfirst] at hj
          omega
      have hp := hlt _ hji
      rw [along_of_lt hjlen] at hp
      obtain ⟨-, -, hcount, -, last, hlast, heq⟩ :=
        indexPartitions_spec (List.getElem?_eq_getElem hjlen)
      rw [heq] at hp
      have hjcount : j < table.dataBlockCount := hjn
      exact hbefore _ _ (largestUserKey_mono (by omega) hblock hlast) hp

private lemma initiallyTrue_smallest (table : Table) (range : KeyRange) :
    PartitionPoint.InitiallyTrue table.dataBlocks.length
      (along table.dataBlocks fun block =>
        !keyIsAfterEnd block.smallestUserKey range.end_) ∧
    PartitionPoint.InitiallyTrue table.indexPartitions.length
      (along table.indexPartitions fun entry =>
        !keyIsAfterEnd entry.smallestInternalKey.userKey range.end_) := by
  have hmono : ∀ j k : Key, j ≤ k → (!keyIsAfterEnd k range.end_) = true →
      (!keyIsAfterEnd j range.end_) = true := by
    intro j k hjk hk
    by_contra hj
    simp [keyIsAfterEnd_of_le hjk (by simpa using hj)] at hk
  constructor
  · apply initiallyTrue_along
    rw [pairwise_iff_getElem]
    intro i j hi hj hij
    apply hmono
    exact smallestUserKey_mono hij.le (List.getElem?_eq_getElem hi) (List.getElem?_eq_getElem hj)
  · apply initiallyTrue_along
    rw [pairwise_iff_getElem]
    intro i j hi hj hij
    apply hmono
    obtain ⟨-, -, -, ⟨first, hfirst, heq⟩, -⟩ := indexPartitions_spec (List.getElem?_eq_getElem hi)
    obtain ⟨-, -, -, ⟨first', hfirst', heq'⟩, -⟩ :=
      indexPartitions_spec (List.getElem?_eq_getElem hj)
    rw [heq, heq']
    exact smallestUserKey_mono (by omega) hfirst hfirst'

lemma lastBlockCandidateForRange_spec (table : Table) (range : KeyRange)
    (policy : IndexSearchPolicy) :
    (∀ i, table.lastBlockCandidateForRange range policy = some i → i < table.dataBlockCount) ∧
      ∀ j block, (∀ i, table.lastBlockCandidateForRange range policy = some i → i < j) →
        table.dataBlocks[j]? = some block →
          keyIsAfterEnd block.smallestUserKey range.end_ = true := by
  obtain ⟨hblocks, hpartitions⟩ := initiallyTrue_smallest table range
  unfold lastBlockCandidateForRange
  by_cases hres : table.residence = .loaded
  · simp only [hres, if_true]
    obtain ⟨hle, -, hge⟩ := partitionPointBy_spec policy hblocks
    set upper := partitionPointBy table.dataBlockCount policy
      (along table.dataBlocks fun block =>
        !keyIsAfterEnd block.smallestUserKey range.end_)
    have hle' : upper ≤ table.dataBlockCount := hle
    refine ⟨fun i hi => ?_, fun j block hj hblock => ?_⟩
    · split_ifs at hi with h
      have := Option.some.inj hi
      omega
    · obtain ⟨hjn, rfl⟩ := List.getElem?_eq_some_iff.mp hblock
      have hju : upper ≤ j := by
        by_cases h : upper = 0
        · omega
        · have := hj (upper - 1) (if_neg h)
          omega
      have hp := hge j hju hjn
      rw [along_of_lt hjn] at hp
      simpa using hp
  · simp only [hres, if_false]
    obtain ⟨hle, -, hge⟩ := partitionPointBy_spec policy hpartitions
    set upper := partitionPointBy table.indexPartitions.length policy
      (along table.indexPartitions fun entry =>
        !keyIsAfterEnd entry.smallestInternalKey.userKey range.end_)
    refine ⟨fun i hi => ?_, fun j block hj hblock => ?_⟩
    · split_ifs at hi with h
      obtain ⟨entry, hentry, hi⟩ := bind_eq_some_iff.mp hi
      obtain ⟨hstart, hfirst, hcount, -⟩ := indexPartitions_spec hentry
      split_ifs at hi with h0
      have := Option.some.inj hi
      omega
    · obtain ⟨hjn, -⟩ := List.getElem?_eq_some_iff.mp hblock
      have hjcount : j < table.dataBlockCount := hjn
      -- The partition of block `j` lies after the last one the search admitted.
      have hjlen : j / 128 < table.indexPartitions.length := by
        rw [lt_length_indexPartitions]
        omega
      have hju : upper ≤ j / 128 := by
        by_cases h : upper = 0
        · omega
        · have hlen : upper - 1 < table.indexPartitions.length := by omega
          obtain ⟨hstart, hfirst, hcount, -⟩ :=
            indexPartitions_spec (List.getElem?_eq_getElem hlen)
          have := hj (table.indexPartitions[upper - 1].firstDataBlockIndex +
            table.indexPartitions[upper - 1].dataBlockCount - 1) (by
              rw [if_neg h, List.getElem?_eq_getElem hlen, bind_some,
                if_neg (by omega)])
          omega
      have hp := hge _ hju hjlen
      rw [along_of_lt hjlen] at hp
      obtain ⟨-, -, -, ⟨first, hfirst, heq⟩, -⟩ :=
        indexPartitions_spec (List.getElem?_eq_getElem hjlen)
      rw [heq, Bool.not_eq_false'] at hp
      exact keyIsAfterEnd_of_le (smallestUserKey_mono (by omega) hfirst hblock) hp

end Table

end TrineKv
