import TrineKv.Lib.ByteCodec
import TrineKv.Table.PointLookup

/-!
# What the decoder of data blocks accepts

The decoder checks that the restart points ascend from the first record, that the ranges of the
stored hash index cover every record once, that a range stays on one key and has its hash, that the
index is the one of the records, and that the records are sorted. Records, restart points and
entries are given as read from the bytes; a restart point is the number of the record at its offset,
so offsets inside a record, which the decoder refuses as well, are left out.

## Main results

* `validateSortedDecodedDataBlock_eq_ok`: the order check accepts sorted records.
* `readDataBlock_eq_ok`: a block that is accepted is sorted and has the index of its records.
-/

namespace TrineKv

open List Option ByteCodec Grouping

def ensure (condition : Bool) (error : Error) : Except Error Unit :=
  if condition then .ok () else .error error

lemma ensure_eq_ok {condition : Bool} {error : Error} {value : Unit} :
    ensure condition error = .ok value ↔ condition = true := by
  cases condition <;> simp [ensure]

/-! ## Restart points -/

/-- Restart points lie in the block and ascend from the one before them. -/
def validateRestartPoints (recordCount : ℕ) : Option ℕ → List ℕ → Except Error Unit
  | _, [] => .ok ()
  | previousRestart, restart :: restarts => do
    ensure (decide (restart < recordCount)) (invalidTable "data block restart outside record area")
    ensure (previousRestart.all fun previous => decide (previous < restart))
      (invalidTable "data block restart points are not sorted")
    validateRestartPoints recordCount (some restart) restarts

def decodeRestartPoints (recordCount : ℕ) (restarts : List ℕ) : Except Error (List ℕ) := do
  if recordCount = 0 then
    ensure restarts.isEmpty (invalidTable "empty data block has restart points")
    return []
  else
    ensure (!restarts.isEmpty) (invalidTable "data block is missing restart points")
    validateRestartPoints recordCount none restarts
    ensure (restarts.head? == some 0) (invalidTable "data block first restart is not first record")
    return restarts

/-! ## The hash index -/

def BlockHashEntry.inBlock (records : List PointRecord) (entry : BlockHashEntry) : Bool :=
  decide (entry.startRecord < entry.endRecord) && decide (entry.endRecord ≤ records.length)

/-- How many more ranges cover the record than cover the one before it. -/
def coverageDelta (entries : List BlockHashEntry) (index : ℕ) : ℤ :=
  entries.countP (fun entry => entry.startRecord == index) -
    entries.countP fun entry => entry.endRecord == index

/-- The coverage of the record before the indices is given, and that of the last one is returned. -/
def validateCoverage (entries : List BlockHashEntry) : ℤ → List ℕ → Except Error ℤ
  | coverage, [] => .ok coverage
  | coverage, index :: indices => do
    let covered := coverage + coverageDelta entries index
    ensure (covered == 1)
      (invalidTable "data block hash index ranges do not cover every record exactly once")
    validateCoverage entries covered indices

def validateDataBlockHashEntry (block : DecodedDataBlock) (entry : BlockHashEntry) :
    Except Error Unit := do
  ensure (entry.inBlock block.records) (invalidTable "data block hash index range is invalid")
  let firstRecord ← block.recordView entry.startRecord
  ensure (userKeyHash firstRecord.userKey == entry.keyHash)
    (invalidTable "data block hash index hash mismatch")
  (List.range' entry.startRecord (entry.endRecord - entry.startRecord)).forM fun index => do
    let record ← block.recordView index
    ensure (record.userKey == firstRecord.userKey)
      (invalidTable "data block hash index range crosses keys")

def decodeDataBlockPointLookupIndex (records : List PointRecord) (entries : List BlockHashEntry)
    (validateFullHashIndex : Bool) : Except Error (List BlockHashEntry) := do
  let block := DecodedDataBlock.fromRecords records
  ensure (entries.all (BlockHashEntry.inBlock records))
    (invalidTable "data block hash index range is invalid")
  let coverage ← validateCoverage entries 0 (List.range records.length)
  ensure (coverage + coverageDelta entries records.length == 0)
    (invalidTable "data block hash index range is invalid")
  entries.forM (validateDataBlockHashEntry block)
  let decoded := entries.insertionSort blockHashEntryLe
  ensure (!validateFullHashIndex || decoded == block.pointLookupIndex)
    (invalidTable "data block hash index does not match records")
  return decoded

def decodeDataBlockShared (records : List PointRecord) (restarts : List ℕ)
    (entries : List BlockHashEntry) (validateFullHashIndex : Bool) :
    Except Error DecodedDataBlock := do
  let restartIndices ← decodeRestartPoints records.length restarts
  let pointLookupIndex ← decodeDataBlockPointLookupIndex records entries validateFullHashIndex
  return { records, restartIndices, pointLookupIndex }

/-! ## The order of the records -/

/-- Every record comes before its successor. -/
def validateSortedDecodedDataBlock : List PointRecord → Except Error Unit
  | [] | [_] => .ok ()
  | previous :: current :: records => do
    ensure (decide (previous.internalKey < current.internalKey))
      (.corruption "table point records are not sorted by internal key")
    validateSortedDecodedDataBlock (current :: records)

def validateDecodedDataBlockEntry (smallestInternalKey largestInternalKey : InternalKey)
    (block : DecodedDataBlock) : Except Error Unit := do
  ensure (block.recordCount != 0) (.corruption "data block index points to an empty block")
  let first ← block.recordView 0
  let last ← block.recordView (block.recordCount - 1)
  ensure (first.internalKey == smallestInternalKey && last.internalKey == largestInternalKey)
    (.corruption "data block index key bounds do not match block records")
  validateSortedDecodedDataBlock block.records

/-- Read a block of a table. The check of its filters, which comes last, is left out. -/
def readDataBlock (smallestInternalKey largestInternalKey : InternalKey)
    (records : List PointRecord) (restartIndices : List ℕ) (entries : List BlockHashEntry) :
    Except Error DecodedDataBlock := do
  let decoded ← decodeDataBlockShared records restartIndices entries true
  validateDecodedDataBlockEntry smallestInternalKey largestInternalKey decoded
  return decoded

/-! ## What is accepted -/

variable {records : List PointRecord} {restartIndices : List ℕ} {entries : List BlockHashEntry}
  {smallestInternalKey largestInternalKey : InternalKey} {block : DecodedDataBlock}

lemma validateSortedDecodedDataBlock_eq_ok :
    validateSortedDecodedDataBlock records = .ok () ↔ StrictlySorted records := by
  induction records with
  | nil => exact iff_of_true rfl List.Pairwise.nil
  | cons previous records ih =>
    cases records with
    | nil => exact iff_of_true rfl (pairwise_singleton _ _)
    | cons current records =>
      rw [StrictlySorted, ← isChain_iff_pairwise, isChain_cons_cons,
        isChain_iff_pairwise, ← StrictlySorted, ← ih, validateSortedDecodedDataBlock,
        bind_eq_ok]
      simp only [ensure_eq_ok, decide_eq_true_eq, exists_const]

lemma readDataBlock_eq_ok
    (h : readDataBlock smallestInternalKey largestInternalKey records restartIndices entries =
      .ok block) :
    block.records = records ∧ StrictlySorted block.records ∧
      block.pointLookupIndex = (DecodedDataBlock.fromRecords block.records).pointLookupIndex := by
  obtain ⟨decoded, hdecoded, hvalid⟩ := bind_eq_ok.mp h
  obtain ⟨⟨⟩, hentry, hblock⟩ := bind_eq_ok.mp hvalid
  obtain rfl := Except.ok.inj hblock
  obtain ⟨restarts, -, hdecoded⟩ := bind_eq_ok.mp hdecoded
  obtain ⟨index, hindex, hdecoded⟩ := bind_eq_ok.mp hdecoded
  obtain rfl := Except.ok.inj hdecoded
  refine ⟨rfl, ?_, ?_⟩
  · obtain ⟨_, -, hentry⟩ := bind_eq_ok.mp hentry
    obtain ⟨_, -, hentry⟩ := bind_eq_ok.mp hentry
    obtain ⟨_, -, hentry⟩ := bind_eq_ok.mp hentry
    obtain ⟨_, -, hsorted⟩ := bind_eq_ok.mp hentry
    exact validateSortedDecodedDataBlock_eq_ok.mp hsorted
  · obtain ⟨_, -, hindex⟩ := bind_eq_ok.mp hindex
    obtain ⟨_, -, hindex⟩ := bind_eq_ok.mp hindex
    obtain ⟨_, -, hindex⟩ := bind_eq_ok.mp hindex
    obtain ⟨_, -, hindex⟩ := bind_eq_ok.mp hindex
    obtain ⟨⟨⟩, hfull, hindex⟩ := bind_eq_ok.mp hindex
    obtain rfl := Except.ok.inj hindex
    simpa [ensure_eq_ok] using hfull

end TrineKv
