import TrineKv.Table.BlockAccess

/-!
# Point lookup in a table

A lookup finds the first data block that can hold the key, asks the filter of each block from there
on, and looks the key up in the hash index of a block, where the entries of one hash are tried one
after another. Statistics are left out.

## Main results

* `Table.newestVisiblePointValueRecordForKey_eq`: what is found.
-/

namespace TrineKv

open List PartitionPoint Grouping
open PointRecord (isVisible userKey)

variable {entry : BlockHashEntry}

/-! ## The hash index of a block -/

namespace DecodedDataBlock

def matchingEntries (block : DecodedDataBlock) (keyHash : UInt64) : List BlockHashEntry :=
  let start := ofList block.pointLookupIndex
    fun entry => decide (entry.keyHash < keyHash)
  let rest := block.pointLookupIndex.drop start
  rest.take (ofList rest fun entry => entry.keyHash == keyHash)

def firstVisibleAt (block : DecodedDataBlock) (readSequence : ℕ) :
    List ℕ → Except Error (Option PointRecord)
  | [] => .ok none
  | index :: indices => do
    let record ← block.recordView index
    if record.sequence ≤ readSequence then return some record
    else block.firstVisibleAt readSequence indices

/-- Try the index entries of a hash until one holds the key. The first component says whether
the block has the key at all. -/
def lookupEntries (block : DecodedDataBlock) (key : Key) (readSequence : ℕ) :
    List BlockHashEntry → Except Error (Bool × Option PointRecord)
  | [] => .ok (false, none)
  | entry :: entries => do
    let firstRecord ← block.recordView entry.startRecord
    if firstRecord.userKey ≠ key then block.lookupEntries key readSequence entries
    else if firstRecord.sequence ≤ readSequence then return (true, some firstRecord)
    else
      let record ← block.firstVisibleAt readSequence
        (List.range' (entry.startRecord + 1) (entry.endRecord - (entry.startRecord + 1)))
      return (true, record)

def newestVisiblePointValueRecordForKey (block : DecodedDataBlock) (key : Key)
    (readSequence : ℕ) : Except Error (Bool × Option PointRecord) :=
  block.lookupEntries key readSequence (block.matchingEntries (userKeyHash key))

end DecodedDataBlock

lemma blockHashEntryLe_iff {a b : BlockHashEntry} :
    blockHashEntryLe a b ↔ a.keyHash.toNat < b.keyHash.toNat ∨
      a.keyHash.toNat = b.keyHash.toNat ∧ a.startRecord ≤ b.startRecord := by
  rw [blockHashEntryLe, UInt64.lt_iff_toNat_lt, UInt64.toNat_inj]

instance : IsTrans BlockHashEntry blockHashEntryLe where
  trans a b c hab hbc := by
    rw [blockHashEntryLe_iff] at hab hbc ⊢
    omega

instance : Std.Total blockHashEntryLe where
  total a b := by
    rw [blockHashEntryLe_iff, blockHashEntryLe_iff]
    omega

namespace DecodedDataBlock

lemma matchingEntries_eq_filter {block : DecodedDataBlock}
    (h : block.pointLookupIndex.Pairwise blockHashEntryLe) (keyHash : UInt64) :
    block.matchingEntries keyHash =
      block.pointLookupIndex.filter fun entry => entry.keyHash == keyHash := by
  have hhash : block.pointLookupIndex.Pairwise fun a b => a.keyHash.toNat ≤ b.keyHash.toNat :=
    h.imp fun hab => by
      rw [blockHashEntryLe_iff] at hab
      omega
  have hlt : block.pointLookupIndex.Pairwise fun a b =>
      decide (b.keyHash < keyHash) = true → decide (a.keyHash < keyHash) = true :=
    hhash.imp fun hab hb => by
      rw [decide_eq_true_eq, UInt64.lt_iff_toNat_lt] at hb ⊢
      omega
  have hrest := (ofList_spec hlt).drop_eq_filter
  rw [matchingEntries, hrest]
  -- Among the entries whose hash is not smaller, those with the hash come first.
  have heq : (block.pointLookupIndex.filter fun entry => !decide (entry.keyHash < keyHash)).Pairwise
      fun a b => (b.keyHash == keyHash) = true → (a.keyHash == keyHash) = true := by
    refine (hhash.filter _).imp_of_mem fun {a b} ha _ hab hb => ?_
    have ha' : ¬a.keyHash < keyHash := by simpa using (mem_filter.mp ha).2
    rw [beq_iff_eq, ← UInt64.toNat_inj] at hb ⊢
    rw [UInt64.lt_iff_toNat_lt] at ha'
    omega
  rw [take_ofList heq, filter_filter]
  refine filter_congr fun entry _ => ?_
  by_cases hentry : entry.keyHash = keyHash <;> simp [hentry]

end DecodedDataBlock

structure BlockHashEntry.Spans (entry : BlockHashEntry) (records : List PointRecord) (key : Key) :
    Prop where
  keyHash_eq : entry.keyHash = userKeyHash key
  endRecord_eq : entry.endRecord =
    entry.startRecord + (records.filter fun record => record.userKey = key).length
  nonempty : records.filter (fun record => record.userKey = key) ≠ []
  getElem?_eq : ∀ i, i < (records.filter fun record => record.userKey = key).length →
    records[entry.startRecord + i]? = (records.filter fun record => record.userKey = key)[i]?

lemma BlockHashEntry.Spans.first {records : List PointRecord} {key : Key}
    (h : entry.Spans records key) :
    ∃ first rest, records.filter (fun record => record.userKey = key) = first :: rest ∧
      first ∈ records ∧ first.userKey = key ∧ records[entry.startRecord]? = some first := by
  obtain ⟨first, rest, hversions⟩ := exists_cons_of_ne_nil h.nonempty
  have hmem : first ∈ records.filter fun record => record.userKey = key := by simp [hversions]
  obtain ⟨hrecord, hkey⟩ := mem_filter.mp hmem
  have hget := h.getElem?_eq 0 (by simp [hversions])
  rw [hversions, Nat.add_zero] at hget
  exact ⟨first, rest, hversions, hrecord, by simpa using hkey, hget⟩

lemma BlockHashEntry.Spans.unique {records : List PointRecord}
    {key key' : Key} (h : entry.Spans records key) (h' : entry.Spans records key') :
    key = key' := by
  obtain ⟨first, -, -, -, hkey, hget⟩ := h.first
  obtain ⟨first', -, -, -, hkey', hget'⟩ := h'.first
  rw [hget] at hget'
  rw [← hkey, ← hkey', Option.some.inj hget']

lemma mem_blockHashEntries {start : ℕ}
    {groups : List (Key × List PointRecord)} :
    entry ∈ blockHashEntries start groups ↔
      ∃ front key group back, groups = front ++ (key, group) :: back ∧
        entry = ⟨userKeyHash key, start + (front.flatMap Prod.snd).length,
          start + (front.flatMap Prod.snd).length + group.length⟩ := by
  induction groups generalizing start with
  | nil => simp [blockHashEntries]
  | cons head groups ih =>
    obtain ⟨key, group⟩ := head
    rw [blockHashEntries, mem_cons, ih]
    constructor
    · rintro (rfl | ⟨front, key', group', back, rfl, rfl⟩)
      · exact ⟨[], key, group, groups, rfl, by simp⟩
      · exact ⟨(key, group) :: front, key', group', back, rfl, by simp; omega⟩
    · rintro ⟨front, key', group', back, hsplit, rfl⟩
      cases front with
      | nil =>
        obtain ⟨heq, rfl⟩ := List.cons.inj hsplit
        obtain ⟨rfl, rfl⟩ := Prod.mk.inj heq
        exact .inl (by simp)
      | cons head' front =>
        obtain ⟨rfl, rfl⟩ := List.cons.inj hsplit
        exact .inr ⟨front, key', group', back, rfl, by simp; omega⟩

namespace DecodedDataBlock

section Lookup

variable {records : List PointRecord} {block : DecodedDataBlock}

lemma pointLookupIndex_spec (hsorted : KeysAscend records) :
    (∀ entry ∈ (fromRecords records).pointLookupIndex, ∃ key, entry.Spans records key) ∧
      ∀ record ∈ records, ∃ entry ∈ (fromRecords records).pointLookupIndex,
        entry.Spans records record.userKey := by
  have hruns := runs_eq_of_sorted (r := (· ≤ ·)) hsorted
  have hflat := flatten_runs userKey records
  have hmem : ∀ entry, entry ∈ (fromRecords records).pointLookupIndex ↔
      entry ∈ blockHashEntries 0 (runs userKey records) :=
    fun entry => mem_insertionSort _
  -- An entry of a run spans the versions of its key.
  have hspans : ∀ front key group back,
      runs userKey records = front ++ (key, group) :: back →
      BlockHashEntry.Spans ⟨userKeyHash key, 0 + (front.flatMap Prod.snd).length,
        0 + (front.flatMap Prod.snd).length + group.length⟩ records key := by
    intro front key group back hsplit
    have hin : (key, group) ∈ runs userKey records := by simp [hsplit]
    rw [hruns, mem_map] at hin
    obtain ⟨key', hkey', heq⟩ := hin
    obtain ⟨rfl, rfl⟩ := Prod.mk.inj heq
    rw [hsplit, flatMap_append, flatMap_cons] at hflat
    refine ⟨rfl, rfl, ?_, fun i hi => ?_⟩
    · obtain ⟨record, hrecord, hkey⟩ := mem_map.mp (mem_dedup.mp hkey')
      exact ne_nil_of_mem (mem_filter.mpr ⟨hrecord, by simpa using hkey⟩)
    · set versions := records.filter fun record => record.userKey = key'
      conv_lhs => rw [← hflat]
      show (_ ++ _)[0 + (front.flatMap Prod.snd).length + i]? = _
      rw [Nat.zero_add, List.getElem?_append_right (by omega), Nat.add_sub_cancel_left,
        List.getElem?_append_left hi]
  constructor
  · intro entry hentry
    rw [hmem, mem_blockHashEntries] at hentry
    obtain ⟨front, key, group, back, hsplit, rfl⟩ := hentry
    exact ⟨key, hspans front key group back hsplit⟩
  · intro record hrecord
    have hin : (record.userKey, records.filter fun a => a.userKey = record.userKey) ∈
        runs userKey records := by
      rw [hruns, mem_map]
      exact ⟨_, mem_dedup.mpr (mem_map_of_mem hrecord), rfl⟩
    obtain ⟨front, back, hsplit⟩ := append_of_mem hin
    exact ⟨_, (hmem _).mpr (mem_blockHashEntries.mpr ⟨front, _, _, back, hsplit, rfl⟩),
      hspans front _ _ back hsplit⟩

lemma firstVisibleAt_eq (readSequence start : ℕ) {versions : List PointRecord}
    (h : ∀ i, i < versions.length → block.records[start + i]? = versions[i]?) :
    block.firstVisibleAt readSequence (List.range' start versions.length) =
      .ok (versions.find? fun record => record.sequence ≤ readSequence) := by
  induction versions generalizing start with
  | nil => rfl
  | cons record versions ih =>
    have hhead : block.records[start]? = some record := by simpa using h 0 (by simp)
    have htail := ih (start + 1) fun i hi => by
      have := h (i + 1) (by simpa using hi)
      rw [show start + 1 + i = start + (i + 1) by omega]
      simpa using this
    rw [length_cons, range'_succ, firstVisibleAt]
    by_cases hseq : record.sequence ≤ readSequence
    · simp [recordView, hhead, bind, Except.bind, hseq, pure, Except.pure]
    · simp only [recordView, hhead, bind, Except.bind, hseq, if_false,
        List.find?_cons, decide_false]
      exact htail

lemma lookupEntries_eq {entries : List BlockHashEntry} (key : Key) (readSequence : ℕ)
    (hspans : ∀ entry ∈ entries, ∃ key, entry.Spans block.records key)
    (hkey : (∃ entry ∈ entries, entry.Spans block.records key) ∨
      block.records.filter (fun record => record.userKey = key) = []) :
    block.lookupEntries key readSequence entries =
      .ok (block.records.any fun record => record.userKey = key,
        (block.records.filter fun record => record.userKey = key).find?
          fun record => record.sequence ≤ readSequence) := by
  induction entries with
  | nil =>
    have hnil : block.records.filter (fun record => record.userKey = key) = [] := by simpa using hkey
    have hany : (block.records.any fun record => record.userKey = key) = false := by
      rw [any_eq_false]
      exact filter_eq_nil_iff.mp hnil
    rw [hnil, hany]
    rfl
  | cons entry entries ih =>
    obtain ⟨key', hentry⟩ := hspans entry mem_cons_self
    obtain ⟨first, rest, hversions, hmem, hfirst, hget⟩ := hentry.first
    have hview : block.recordView entry.startRecord = .ok first := by
      simp [recordView, hget]
    rw [lookupEntries, hview]
    simp only [bind, Except.bind]
    by_cases heq : key' = key
    · subst heq
      have hany : (block.records.any fun record => record.userKey = key') = true :=
        any_eq_true.mpr ⟨first, hmem, by simpa using hfirst⟩
      rw [if_neg (by simpa using hfirst), hany, hversions, List.find?_cons]
      by_cases hseq : first.sequence ≤ readSequence
      · simp [hseq, pure, Except.pure]
      · have hlen : entry.endRecord - (entry.startRecord + 1) = rest.length := by
          rw [hentry.endRecord_eq, hversions, length_cons]
          omega
        have hrest : ∀ i, i < rest.length →
            block.records[entry.startRecord + 1 + i]? = rest[i]? := by
          intro i hi
          have := hentry.getElem?_eq (i + 1) (by rw [hversions, length_cons]; omega)
          rw [show entry.startRecord + 1 + i = entry.startRecord + (i + 1) by omega, this,
            hversions, List.getElem?_cons_succ]
        have hscan := firstVisibleAt_eq readSequence (entry.startRecord + 1) hrest
        simp [hseq, hlen, hscan, pure, Except.pure]
    · rw [if_pos (by rw [hfirst]; exact heq)]
      refine ih (fun e he => hspans e (mem_cons_of_mem _ he)) ?_
      rcases hkey with ⟨e, he, hspan⟩ | hnil
      · rcases mem_cons.mp he with rfl | he
        · exact absurd (hentry.unique hspan) heq
        · exact .inl ⟨e, he, hspan⟩
      · exact .inr hnil

lemma matchingEntries_spans
    (hindex : block.pointLookupIndex = (fromRecords block.records).pointLookupIndex)
    (hsorted : KeysAscend block.records) (key : Key) :
    (∀ entry ∈ block.matchingEntries (userKeyHash key), ∃ key, entry.Spans block.records key) ∧
      ((∃ entry ∈ block.matchingEntries (userKeyHash key), entry.Spans block.records key) ∨
        block.records.filter (fun record => record.userKey = key) = []) := by
  obtain ⟨hspans, hindexed⟩ := pointLookupIndex_spec hsorted
  rw [← hindex] at hspans hindexed
  have hpair : block.pointLookupIndex.Pairwise blockHashEntryLe := by
    rw [hindex]
    exact pairwise_insertionSort _ _
  rw [matchingEntries_eq_filter hpair (userKeyHash key)]
  refine ⟨fun entry h => hspans entry (mem_filter.mp h).1, ?_⟩
  by_cases hnil : block.records.filter (fun record => record.userKey = key) = []
  · exact .inr hnil
  · obtain ⟨record, hmem⟩ := exists_mem_of_ne_nil _ hnil
    obtain ⟨hrecord, hkey⟩ := mem_filter.mp hmem
    obtain ⟨entry, hentry, hspan⟩ := hindexed record hrecord
    rw [decide_eq_true_eq] at hkey
    rw [hkey] at hspan
    exact .inl ⟨entry, mem_filter.mpr ⟨hentry, by simp [hspan.keyHash_eq]⟩, hspan⟩

lemma newestVisiblePointValueRecordForKey_eq
    (hindex : block.pointLookupIndex = (fromRecords block.records).pointLookupIndex)
    (hsorted : KeysAscend block.records) (key : Key) (readSequence : ℕ) :
    block.newestVisiblePointValueRecordForKey key readSequence =
      .ok (block.records.any fun record => record.userKey = key,
        block.records.find? fun record => record.isVisible key readSequence) := by
  obtain ⟨hspans, hentry⟩ := matchingEntries_spans hindex hsorted key
  rw [newestVisiblePointValueRecordForKey, lookupEntries_eq key readSequence hspans hentry,
    List.find?_filter]
  congr 3
  funext record
  simp [isVisible]

end Lookup

end DecodedDataBlock

/-! ## Lookup in a table -/

namespace Table

/-- The first block whose largest key is not before the target, found through the partitions of the
index unless all blocks are loaded. Lookups of a key and of the start of a range search this way. -/
def firstBlockMatching (table : Table) (policy : IndexSearchPolicy) (before : Key → Bool) :
    Except Error (Option ℕ) :=
  if table.residence = .loaded then
    let index := partitionPointBy table.dataBlockCount policy
      (along table.dataBlocks fun block => before block.largestUserKey)
    .ok (if index < table.dataBlockCount then some index else none)
  else
    let partitionIndex := partitionPointBy table.indexPartitions.length policy
      (along table.indexPartitions fun entry =>
        before entry.largestInternalKey.userKey)
    match table.indexPartitions[partitionIndex]? with
    | none => .ok none
    | some partitionEntry => do
      let partition ← table.loadIndexPartition partitionIndex
      let localIndex := partitionPointBy partition.length policy
        (along partition fun block => before block.largestUserKey)
      return if localIndex < partition.length then
        some (partitionEntry.firstDataBlockIndex + localIndex) else none

/-- The first block that can hold the key. -/
def firstBlockMatchingKey (table : Table) (key : Key) (policy : IndexSearchPolicy) :
    Except Error (Option ℕ) :=
  table.firstBlockMatching policy fun other => decide (other < key)

end Table

inductive PointBlockDecision where
  | done
  | skip
  | read
  deriving DecidableEq, Repr

namespace TableDataBlock

def pointFilterAllows (block : TableDataBlock) (key : Key) : Bool :=
  if !block.keyBoundsMayContain key then false
  else (block.pointFilterResult key).getD true

def pointDecision (block : TableDataBlock) (key : Key) : PointBlockDecision :=
  if key < block.smallestUserKey then .done
  else if !block.pointFilterAllows key then .skip
  else .read

end TableDataBlock

namespace Table

def lookupBlocks (table : Table) (key : Key) (readSequence : ℕ) :
    List ℕ → Except Error (Option PointRecord)
  | [] => .ok none
  | blockIndex :: blockIndices => do
    let metadata ← table.dataBlockMetadata blockIndex
    match metadata.pointDecision key with
    | .done => return none
    | .skip => table.lookupBlocks key readSequence blockIndices
    | .read =>
      let block ← table.loadDataBlock blockIndex
      let (blockHasKey, record) ← block.newestVisiblePointValueRecordForKey key readSequence
      if !blockHasKey then table.lookupBlocks key readSequence blockIndices
      else
        match record with
        | some record => return some record
        | none => table.lookupBlocks key readSequence blockIndices

def newestVisiblePointValueRecordForKey (table : Table) (key : Key) (readSequence : ℕ)
    (policy : IndexSearchPolicy) : Except Error (Option PointRecord) := do
  match ← table.firstBlockMatchingKey key policy with
  | none => return none
  | some start =>
    table.lookupBlocks key readSequence (List.range' start (table.dataBlockCount - start))

lemma firstBlockMatching_spec (table : Table) {before : Key → Bool}
    (hbefore : ∀ j k, j ≤ k → before k = true → before j = true) (policy : IndexSearchPolicy) :
    ∃ start, table.firstBlockMatching policy before = .ok start ∧
      (∀ i, start = some i → i < table.dataBlockCount) ∧
      ∀ j block, j < start.getD table.dataBlockCount → table.dataBlocks[j]? = some block →
        before block.largestUserKey = true := by
  obtain ⟨hcount, hcandidate⟩ := table.firstBlockCandidate_spec hbefore policy
  by_cases hres : table.residence = .loaded
  · rw [firstBlockCandidate, if_pos hres] at hcount hcandidate
    exact ⟨_, by rw [firstBlockMatching, if_pos hres], hcount, hcandidate⟩
  · rw [firstBlockMatching, if_neg hres]
    simp only [firstBlockCandidate, if_neg hres] at hcandidate
    set index := partitionPointBy table.indexPartitions.length policy
      (along table.indexPartitions fun entry =>
        before entry.largestInternalKey.userKey)
    cases hentry : table.indexPartitions[index]? with
    | none =>
      refine ⟨none, by simp only [hentry], by simp, fun j block hj hblock => ?_⟩
      exact hcandidate j block (by rw [hentry]; exact hj) hblock
    | some entry =>
      obtain ⟨hstart, hfirst, hcount, -, last, hlast, hlargest⟩ := indexPartitions_spec hentry
      simp only [hentry, Option.map_some, Option.getD_some, hfirst] at hcandidate
      simp only [hentry, loadIndexPartition_eq hstart, hfirst, bind, Except.bind]
      set partition := (table.dataBlocks.drop (128 * index)).take 128 with hpartition
      have hget : ∀ j < 128, partition[j]? = table.dataBlocks[128 * index + j]? := fun j hj =>
        Chunks.getElem?_of_chunk hj
      have hlen : partition.length = entry.dataBlockCount := by
        rw [hcount]
        exact Chunks.length_chunk
      have hle : entry.dataBlockCount ≤ 128 := by omega
      have hasc : partition.Pairwise fun a b => a.largestUserKey ≤ b.largestUserKey := by
        rw [pairwise_iff_getElem]
        intro i j hi hj hij
        have hi' : table.dataBlocks[128 * index + i]? = some partition[i] := by
          rw [← hget i (by omega), List.getElem?_eq_getElem hi]
        have hj' : table.dataBlocks[128 * index + j]? = some partition[j] := by
          rw [← hget j (by omega), List.getElem?_eq_getElem hj]
        exact largestUserKey_mono (by omega) hi' hj'
      obtain ⟨-, hlt, -⟩ := partitionPointBy_spec policy
        (initiallyTrue_along (hasc.imp fun hab => hbefore _ _ hab))
      set localIndex := partitionPointBy partition.length policy
        (along partition fun block => before block.largestUserKey)
      -- The search among the partitions stopped at this one, so the search inside it stops too.
      have hinside : localIndex < partition.length := by
        by_contra hnot
        have hlastIn : partition[entry.dataBlockCount - 1]? = some last := by
          rw [hget _ (by omega), ← hlast]
          congr 1
          omega
        obtain ⟨hlastLt, hlastEq⟩ := List.getElem?_eq_some_iff.mp hlastIn
        have hp := hlt (entry.dataBlockCount - 1) (by omega)
        rw [along_of_lt hlastLt, hlastEq] at hp
        obtain ⟨-, -, hge⟩ := partitionPointBy_spec policy (table.initiallyTrue_largest hbefore).2
        obtain ⟨hindexLt, hindexEq⟩ := List.getElem?_eq_some_iff.mp hentry
        have hq := hge index le_rfl hindexLt
        rw [along_of_lt hindexLt, hindexEq, hlargest] at hq
        have hsame : last.largestUserKey = last.largestInternalKey.userKey := rfl
        simp [hsame, hq] at hp
      refine ⟨some (128 * index + localIndex), by rw [if_pos hinside]; rfl, fun i hi => ?_,
        fun j block hj hblock => ?_⟩
      · rw [← Option.some.inj hi]
        omega
      rw [Option.getD_some] at hj
      by_cases hbelow : j < 128 * index
      · exact hcandidate j block hbelow hblock
      · have hin : partition[j - 128 * index]? = some block := by
          rw [hget _ (by omega), ← hblock]
          congr 1
          omega
        obtain ⟨hjlt, hjeq⟩ := List.getElem?_eq_some_iff.mp hin
        have hp := hlt (j - 128 * index) (by omega)
        rwa [along_of_lt hjlt, hjeq] at hp

lemma firstBlockMatchingKey_spec (table : Table) (key : Key) (policy : IndexSearchPolicy) :
    ∃ start, table.firstBlockMatchingKey key policy = .ok start ∧
      (∀ i, start = some i → i < table.dataBlockCount) ∧
      ∀ j block, j < start.getD table.dataBlockCount → table.dataBlocks[j]? = some block →
        block.largestUserKey < key := by
  have hbefore : ∀ j k : Key, j ≤ k → decide (k < key) = true → decide (j < key) = true :=
    fun j k hjk hk => by simpa using lt_of_le_of_lt hjk (by simpa using hk)
  obtain ⟨start, hstart, hcount, hbelow⟩ := table.firstBlockMatching_spec hbefore policy
  exact ⟨start, hstart, hcount, fun j block hj hblock =>
    of_decide_eq_true (hbelow j block hj hblock)⟩

lemma ne_of_mem_take {table : Table} {key : Key} {n : ℕ}
    (hbelow : ∀ j block, j < n → table.dataBlocks[j]? = some block → block.largestUserKey < key)
    {record : PointRecord}
    (hrecord : record ∈ (table.dataBlocks.take n).flatMap TableDataBlock.records) :
    record.userKey ≠ key := by
  rintro rfl
  obtain ⟨block, hblock, hin⟩ := mem_flatMap.mp hrecord
  obtain ⟨j, hj, rfl⟩ := mem_iff_getElem.mp hblock
  rw [length_take] at hj
  have hget : table.dataBlocks[j]? = some (table.dataBlocks.take n)[j] := by
    rw [getElem_take, List.getElem?_eq_getElem]
  have hlt := hbelow j _ (by omega) hget
  exact absurd hlt (not_lt_of_ge (le_largestUserKey (mem_of_getElem? hget) hin))

lemma pointDecision_spec {table : Table} {b : ℕ} {block : TableDataBlock}
    (hblock : table.dataBlocks[b]? = some block) (key : Key) :
    match block.pointDecision key with
    | .done => ∀ later ∈ table.dataBlocks.drop b, ∀ record ∈ later.records, record.userKey ≠ key
    | .skip => ∀ record ∈ block.records, record.userKey ≠ key
    | .read => True := by
  have hmem : block ∈ table.dataBlocks := mem_of_getElem? hblock
  unfold TableDataBlock.pointDecision
  split_ifs with hdone hskip
  · intro later hlater record hrecord heq
    obtain ⟨i, hi, rfl⟩ := mem_iff_getElem.mp hlater
    rw [length_drop] at hi
    have hget : table.dataBlocks[b + i]? = some ((table.dataBlocks.drop b)[i]) := by
      rw [getElem_drop, List.getElem?_eq_getElem]
    have hle := smallestUserKey_mono (Nat.le_add_right b i) hblock hget
    have hin := smallestUserKey_le (mem_of_getElem? hget) hrecord
    exact absurd hdone (not_lt_of_ge ((hle.trans hin).trans_eq heq))
  · rintro record hrecord rfl
    have hbounds : block.keyBoundsMayContain record.userKey = true := by
      simp only [TableDataBlock.keyBoundsMayContain, Bool.and_eq_true, decide_eq_true_eq]
      exact ⟨smallestUserKey_le hmem hrecord, le_largestUserKey hmem hrecord⟩
    have hfilter := pointFilterResult_ne_false hmem hrecord
    rw [TableDataBlock.pointFilterAllows, hbounds] at hskip
    cases hresult : block.pointFilterResult record.userKey with
    | none => simp [hresult] at hskip
    | some allowed => cases allowed <;> simp [hresult] at hskip hfilter
  · trivial

private lemma find?_eq_none_of_ne {records : List PointRecord} {key : Key} {readSequence : ℕ}
    (h : ∀ record ∈ records, record.userKey ≠ key) :
    records.find? (fun record => record.isVisible key readSequence) = none := by
  rw [List.find?_eq_none]
  intro record hrecord
  simp [isVisible, h record hrecord]

lemma lookupBlocks_eq (table : Table) (key : Key) (readSequence : ℕ) (n b : ℕ)
    (hn : b + n = table.dataBlockCount) :
    table.lookupBlocks key readSequence (List.range' b n) =
      .ok (((table.dataBlocks.drop b).flatMap TableDataBlock.records).find?
        fun record => record.isVisible key readSequence) := by
  induction n generalizing b with
  | zero =>
    rw [drop_eq_nil_of_le (by rw [← dataBlockCount]; omega)]
    rfl
  | succ n ih =>
    have hb : b < table.dataBlocks.length := by
      rw [← dataBlockCount]
      omega
    have hblock := List.getElem?_eq_getElem hb
    set block := table.dataBlocks[b]
    have hdecision := pointDecision_spec hblock key
    have htail := ih (b + 1) (by omega)
    have hdrop : table.dataBlocks.drop b = block :: table.dataBlocks.drop (b + 1) :=
      drop_eq_getElem_cons hb
    have hsorted := StrictlySorted.keysAscend
      (table.sorted_block (mem_of_getElem? hblock))
    rw [range'_succ, lookupBlocks, dataBlockMetadata_eq hblock]
    simp only [bind, Except.bind]
    cases hcase : block.pointDecision key with
    | done =>
      rw [hcase] at hdecision
      rw [find?_eq_none_of_ne]
      · rfl
      · intro record hrecord
        obtain ⟨later, hlater, hin⟩ := mem_flatMap.mp hrecord
        exact hdecision later hlater record hin
    | skip =>
      rw [hcase] at hdecision
      rw [hdrop, flatMap_cons, List.find?_append, find?_eq_none_of_ne hdecision,
        Option.none_or]
      exact htail
    | read =>
      have hlookup := @DecodedDataBlock.newestVisiblePointValueRecordForKey_eq
        (.fromRecords block.records) rfl hsorted key readSequence
      simp only [loadDataBlock_eq hblock, hlookup, DecodedDataBlock.records_fromRecords]
      rw [hdrop, flatMap_cons, List.find?_append]
      by_cases hany : (block.records.any fun record => record.userKey = key) = true
      · simp only [hany, Bool.not_true, Bool.false_eq_true, if_false]
        cases block.records.find? fun record => record.isVisible key readSequence with
        | some record => rfl
        | none => exact htail
      · have hnone : ∀ record ∈ block.records, record.userKey ≠ key := by simpa using hany
        rw [Bool.not_eq_true] at hany
        simp only [hany, Bool.not_false, if_true]
        rw [find?_eq_none_of_ne hnone, Option.none_or]
        exact htail

/-- The lookup in a table returns the first of its records that is a visible version of the key:
the newest one. -/
theorem newestVisiblePointValueRecordForKey_eq (table : Table) (key : Key) (readSequence : ℕ)
    (policy : IndexSearchPolicy) :
    table.newestVisiblePointValueRecordForKey key readSequence policy =
      .ok (table.pointRecords.find? fun record => record.isVisible key readSequence) := by
  obtain ⟨start, hstart, hcount, hbelow⟩ := table.firstBlockMatchingKey_spec key policy
  -- Blocks before the start hold no version of the key.
  have hskip : ∀ n, n ≤ start.getD table.dataBlockCount →
      (table.pointRecords.find? fun record => record.isVisible key readSequence) =
        ((table.dataBlocks.drop n).flatMap TableDataBlock.records).find?
          fun record => record.isVisible key readSequence := by
    intro n hn
    rw [← table.flatMap_dataBlocks]
    conv_lhs => rw [← take_append_drop n table.dataBlocks, flatMap_append,
      List.find?_append]
    rw [find?_eq_none_of_ne, Option.none_or]
    exact fun record => ne_of_mem_take fun j block hj => hbelow j block (by omega)
  rw [newestVisiblePointValueRecordForKey, hstart]
  cases start with
  | none =>
    rw [hskip table.dataBlockCount le_rfl, dataBlockCount, drop_length]
    rfl
  | some start =>
    have hlt := hcount start rfl
    rw [hskip start le_rfl]
    exact table.lookupBlocks_eq key readSequence _ start (by omega)

end Table

end TrineKv
