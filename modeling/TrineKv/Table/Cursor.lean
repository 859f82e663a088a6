import TrineKv.Lib.Stream
import TrineKv.Table.BlockAccess

/-!
# The point cursor of a table

A cursor returns the selected records of a table in groups of all versions of a key. It skips blocks
whose key span or prefix filter excludes the selection, and starts inside a block at the last
restart point that is not above the start. Statistics and the block cache are left out.
-/

namespace TrineKv

/-! ## Entering a block -/

namespace DecodedDataBlock

/-- The last restart point with at most the given user key, or the first record. The decoder accepts
restart points inside the block only, so looking them up does not fail. -/
def restartIndexForKey (block : DecodedDataBlock) (key : Key) (policy : IndexSearchPolicy) : ℕ :=
  let upper := partitionPointBy block.restartIndices.length policy
    (PartitionPoint.along block.restartIndices fun restart =>
      (block.records[restart]?).elim false fun record => decide (record.userKey ≤ key))
  if upper = 0 then 0 else block.restartIndices.getD (upper - 1) 0

def restartIndexForBound (block : DecodedDataBlock) (bound : Bound Key)
    (policy : IndexSearchPolicy) : ℕ :=
  match bound with
  | .included key => block.restartIndexForKey key policy
  | .excluded key => block.restartIndexForKey key policy
  | .unbounded => 0

/-- Where a forward cursor enters a block. -/
def firstRecordIndex (block : DecodedDataBlock) (selector : ScanSelector)
    (policy : IndexSearchPolicy) : ℕ :=
  match selector with
  | .range range => block.restartIndexForBound range.start policy
  | .withPrefix pref => block.restartIndexForKey pref policy

end DecodedDataBlock

/-! ## Cursors -/

/-- All versions of a user key that a source holds, sorted by internal key. -/
structure RecordGroup where
  userKey : Key
  records : List PointRecord
  deriving DecidableEq, Repr

/-- The order in which the records of a group are sorted. -/
def internalKeyLe (left right : PointRecord) : Prop :=
  left.internalKey ≤ right.internalKey

instance : DecidableRel internalKeyLe := fun left right =>
  inferInstanceAs (Decidable (left.internalKey ≤ right.internalKey))

def recordGroupFromFirstAndRest (userKey : Key) (first : PointRecord) (rest : List PointRecord) :
    RecordGroup :=
  ⟨userKey, (first :: rest).insertionSort internalKeyLe⟩

inductive CursorBlockState where
  | scan
  | skip
  | done
  deriving DecidableEq, Repr

inductive BlockScan where
  | found (record : PointRecord) (recordIndex : ℕ)
  | pastSelection
  | endOfBlock
  deriving DecidableEq, Repr

def scanBlockForward (selector : ScanSelector) : ℕ → List PointRecord → BlockScan
  | _, [] => .endOfBlock
  | recordIndex, record :: records =>
    match selector.forwardKeyState record.userKey with
    | .before => scanBlockForward selector (recordIndex + 1) records
    | .match => .found record (recordIndex + 1)
    | .after => .pastSelection

/-- The records come in descending order. -/
def scanBlockReverse (selector : ScanSelector) : ℕ → List PointRecord → BlockScan
  | _, [] => .endOfBlock
  | recordIndex, record :: records =>
    match selector.reverseKeyState record.userKey with
    | .above => scanBlockReverse selector (recordIndex - 1) records
    | .match => .found record (recordIndex - 1)
    | .below => .pastSelection

structure TablePointCursor where
  table : Table
  selector : ScanSelector
  prefixExtractor : PrefixExtractor
  direction : Direction
  policy : IndexSearchPolicy
  blockIndex : Option ℕ
  recordIndex : ℕ
  currentBlock : Option (ℕ × DecodedDataBlock)
  pending : Option PointRecord
  exhausted : Bool

namespace TablePointCursor

/-- The block in which a forward cursor starts. -/
def firstBlockForSelector (table : Table) (selector : ScanSelector)
    (policy : IndexSearchPolicy) : Option ℕ :=
  match selector with
  | .range range => table.firstBlockCandidateForRange range policy
  | .withPrefix pref => table.firstBlockCandidateForKey pref policy

/-- The block in which a reverse cursor starts. -/
def lastBlockForSelector (table : Table) (selector : ScanSelector)
    (policy : IndexSearchPolicy) : Option ℕ :=
  table.lastBlockCandidateForRange selector.queryRange policy

/-- A cursor at the start of the selection. -/
def new (table : Table) (selector : ScanSelector) (prefixExtractor : PrefixExtractor)
    (direction : Direction) (policy : IndexSearchPolicy) : TablePointCursor :=
  { table, selector, prefixExtractor, direction, policy
    blockIndex := match direction with
      | .forward => firstBlockForSelector table selector policy
      | .reverse => lastBlockForSelector table selector policy
    recordIndex := 0
    currentBlock := none
    pending := none
    exhausted := false }

def currentBlockIs (cursor : TablePointCursor) (blockIndex : ℕ) : Bool :=
  match cursor.currentBlock with
  | some (current, _) => current == blockIndex
  | none => false

def prefixBlockState (cursor : TablePointCursor) (blockIndex : ℕ) (block : TableDataBlock)
    (pref : Key) : CursorBlockState :=
  if cursor.currentBlockIs blockIndex then .scan
  else
    match block.prefixFilterResult pref cursor.prefixExtractor with
    | some false => .skip
    | _ => .scan

def forwardBlockState (cursor : TablePointCursor) (blockIndex : ℕ) :
    Except Error CursorBlockState := do
  let block ← cursor.table.dataBlockMetadata blockIndex
  return match cursor.selector with
    | .range range =>
      if keyIsAfterEnd block.smallestUserKey range.end_ then .done
      else if block.overlapsRange range then .scan
      else .skip
    | .withPrefix pref =>
      if !block.prefixBoundsMayOverlap pref then
        if block.largestUserKey < pref then .skip else .done
      else cursor.prefixBlockState blockIndex block pref

def reverseBlockState (cursor : TablePointCursor) (blockIndex : ℕ) :
    Except Error CursorBlockState := do
  let block ← cursor.table.dataBlockMetadata blockIndex
  return match cursor.selector with
    | .range range =>
      if keyIsBeforeStart block.largestUserKey range.start then .done
      else if block.overlapsRange range then .scan
      else .skip
    | .withPrefix pref =>
      if block.largestUserKey < pref then .done
      else if !block.prefixBoundsMayOverlap pref then .skip
      else cursor.prefixBlockState blockIndex block pref

def moveToNextBlock (cursor : TablePointCursor) : TablePointCursor :=
  match cursor.blockIndex with
  | none => { cursor with exhausted := true }
  | some blockIndex =>
    { cursor with
      blockIndex :=
        if blockIndex + 1 < cursor.table.dataBlockCount then some (blockIndex + 1) else none
      recordIndex := 0
      currentBlock := none }

def moveToPreviousBlock (cursor : TablePointCursor) : TablePointCursor :=
  match cursor.blockIndex with
  | none => { cursor with exhausted := true }
  | some blockIndex =>
    { cursor with
      blockIndex := if blockIndex = 0 then none else some (blockIndex - 1)
      recordIndex := 0
      currentBlock := none }

def entryIndex (cursor : TablePointCursor) (block : DecodedDataBlock) : ℕ :=
  match cursor.direction with
  | .forward => block.firstRecordIndex cursor.selector cursor.policy
  | .reverse => block.recordCount

def ensureCurrentBlock (cursor : TablePointCursor) (blockIndex : ℕ) :
    Except Error (DecodedDataBlock × TablePointCursor) :=
  match cursor.currentBlock with
  | some (current, block) =>
    if current = blockIndex then .ok (block, cursor)
    else load
  | none => load
where
  /-- Load the block and place the cursor where it enters it. -/
  load : Except Error (DecodedDataBlock × TablePointCursor) := do
    let block ← cursor.table.loadDataBlock blockIndex
    return (block,
      { cursor with
        recordIndex := cursor.entryIndex block
        currentBlock := some (blockIndex, block) })

def exhaust (cursor : TablePointCursor) : TablePointCursor :=
  { cursor with exhausted := true }

def finishScan (cursor : TablePointCursor) (scan : BlockScan)
    (next : Except Error (Option PointRecord × TablePointCursor)) :
    Except Error (Option PointRecord × TablePointCursor) :=
  match scan with
  | .found record recordIndex => .ok (some record, { cursor with recordIndex := recordIndex })
  | .pastSelection => .ok (none, cursor.exhaust)
  | .endOfBlock => next

/-- The loop of a forward cursor. Each round visits a block, so `fuel` rounds suffice as soon as
they outnumber the blocks. -/
def nextRecordForward : ℕ → TablePointCursor → Except Error (Option PointRecord × TablePointCursor)
  | 0, cursor => .ok (none, cursor)
  | fuel + 1, cursor =>
    if cursor.exhausted then .ok (none, cursor)
    else
      match cursor.blockIndex with
      | none => .ok (none, cursor)
      | some blockIndex => do
        let state ←
          if cursor.currentBlockIs blockIndex then pure .scan
          else cursor.forwardBlockState blockIndex
        match state with
        | .skip => nextRecordForward fuel cursor.moveToNextBlock
        | .done => .ok (none, cursor.exhaust)
        | .scan =>
          let (block, cursor) ← cursor.ensureCurrentBlock blockIndex
          cursor.finishScan
            (scanBlockForward cursor.selector cursor.recordIndex
              (block.records.drop cursor.recordIndex))
            (nextRecordForward fuel cursor.moveToNextBlock)

def nextRecordReverse : ℕ → TablePointCursor → Except Error (Option PointRecord × TablePointCursor)
  | 0, cursor => .ok (none, cursor)
  | fuel + 1, cursor =>
    if cursor.exhausted then .ok (none, cursor)
    else
      match cursor.blockIndex with
      | none => .ok (none, cursor)
      | some blockIndex => do
        let state ←
          if cursor.currentBlockIs blockIndex then pure .scan
          else cursor.reverseBlockState blockIndex
        match state with
        | .skip => nextRecordReverse fuel cursor.moveToPreviousBlock
        | .done => .ok (none, cursor.exhaust)
        | .scan =>
          let (block, cursor) ← cursor.ensureCurrentBlock blockIndex
          cursor.finishScan
            (scanBlockReverse cursor.selector cursor.recordIndex
              (block.records.take cursor.recordIndex).reverse)
            (nextRecordReverse fuel cursor.moveToPreviousBlock)

def nextRecord (cursor : TablePointCursor) :
    Except Error (Option PointRecord × TablePointCursor) :=
  match cursor.direction with
  | .forward => nextRecordForward (cursor.table.dataBlockCount + 1) cursor
  | .reverse => nextRecordReverse (cursor.table.dataBlockCount + 1) cursor

/-- The first record with another key is kept for the next group. Each round takes a record, so one
round more than the table has records suffices. -/
def collectRest (userKey : Key) : ℕ → TablePointCursor →
    Except Error (List PointRecord × TablePointCursor)
  | 0, cursor => .ok ([], cursor)
  | fuel + 1, cursor => do
    let (next, cursor) ← cursor.nextRecord
    match next with
    | none => .ok ([], cursor)
    | some record =>
      if record.userKey = userKey then
        let (rest, cursor) ← collectRest userKey fuel cursor
        .ok (record :: rest, cursor)
      else .ok ([], { cursor with pending := some record })

def nextGroup (cursor : TablePointCursor) : Except Error (Option RecordGroup × TablePointCursor) :=
  match cursor.pending with
  | some first => group first { cursor with pending := none }
  | none => do
    let (next, cursor) ← cursor.nextRecord
    match next with
    | none => .ok (none, cursor)
    | some first => group first cursor
where
  /-- The group that starts with the given record. -/
  group (first : PointRecord) (cursor : TablePointCursor) :
      Except Error (Option RecordGroup × TablePointCursor) := do
    let (rest, cursor) ← collectRest first.userKey (cursor.table.pointRecords.length + 1) cursor
    .ok (some (recordGroupFromFirstAndRest first.userKey first rest), cursor)

def drain (cursor : TablePointCursor) : Except Error (List RecordGroup) :=
  Stream.drain nextGroup (cursor.table.pointRecords.length + 1) cursor

end TablePointCursor

end TrineKv
