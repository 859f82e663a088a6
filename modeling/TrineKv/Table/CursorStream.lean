import TrineKv.Table.Cursor

/-!
# The records that a table cursor still returns

The state of a cursor determines the records it will still return: those selected in the rest of
the current block and in the blocks it has not visited. Each call of `nextRecord` pops that
list, whatever blocks it skips on the way.

## Main results

* `TablePointCursor.nextRecord_pops`, `TablePointCursor.remaining_new_forward`,
  `TablePointCursor.remaining_new_reverse`.
-/

namespace TrineKv

open List
open DecodedDataBlock (fromRecords recordCount)

def ScanSelector.selected (selector : ScanSelector) (records : List PointRecord) :
    List PointRecord :=
  records.filter fun record => selector.selects record.userKey

namespace ScanSelector

@[simp]
lemma selected_append (selector : ScanSelector) (l m : List PointRecord) :
    selector.selected (l ++ m) = selector.selected l ++ selector.selected m :=
  filter_append ..

lemma selected_cons_of_selects {selector : ScanSelector} {record : PointRecord}
    (h : selector.selects record.userKey = true) (l : List PointRecord) :
    selector.selected (record :: l) = record :: selector.selected l :=
  filter_cons_of_pos h

lemma selected_cons_of_not_selects {selector : ScanSelector} {record : PointRecord}
    (h : selector.selects record.userKey = false) (l : List PointRecord) :
    selector.selected (record :: l) = selector.selected l :=
  filter_cons_of_neg (by simp [h])

lemma selected_reverse (selector : ScanSelector) (l : List PointRecord) :
    selector.selected l.reverse = (selector.selected l).reverse :=
  filter_reverse ..

lemma selected_eq_nil {selector : ScanSelector} {l : List PointRecord}
    (h : ∀ record ∈ l, selector.selects record.userKey = false) : selector.selected l = [] := by
  rw [selected, filter_eq_nil_iff]
  intro record hmem
  simp [h record hmem]

end ScanSelector

/-! ## Scanning one block -/

/-- The first selected record with the index to go on from, a record beyond which nothing is
selected, or nothing. -/
def BlockScan.Spec (selector : ScanSelector) (beyond : Key → Key → Prop)
    (records : List PointRecord) (index : List PointRecord → List PointRecord → ℕ) :
    BlockScan → Prop
  | .found record next => ∃ skipped rest, records = skipped ++ record :: rest ∧
      selector.selected skipped = [] ∧ selector.selects record.userKey = true ∧
        next = index skipped rest
  | .pastSelection => selector.selected records = [] ∧ ∃ record ∈ records,
      ∀ key, beyond record.userKey key → selector.selects key = false
  | .endOfBlock => selector.selected records = []

namespace BlockScan

variable {selector : ScanSelector} {beyond : Key → Key → Prop} {record : PointRecord}
  {records : List PointRecord} {index index' : List PointRecord → List PointRecord → ℕ}

lemma Spec.cons {scan : BlockScan} (h : scan.Spec selector beyond records index)
    (hnot : selector.selects record.userKey = false)
    (hindex : ∀ skipped rest, index skipped rest = index' (record :: skipped) rest) :
    scan.Spec selector beyond (record :: records) index' := by
  cases scan with
  | found found next =>
    obtain ⟨skipped, rest, rfl, hskip, hsel, rfl⟩ := h
    exact ⟨record :: skipped, rest, rfl,
      (ScanSelector.selected_cons_of_not_selects hnot _).trans hskip, hsel, hindex skipped rest⟩
  | pastSelection =>
    obtain ⟨hnil, found, hmem, hbeyond⟩ := h
    exact ⟨(ScanSelector.selected_cons_of_not_selects hnot _).trans hnil, found,
      mem_cons_of_mem _ hmem, hbeyond⟩
  | endOfBlock => exact (ScanSelector.selected_cons_of_not_selects hnot _).trans h

lemma spec_pastSelection
    (hsorted : (record :: records).Pairwise fun left right => beyond left.userKey right.userKey)
    (hself : beyond record.userKey record.userKey)
    (h : ∀ key, beyond record.userKey key → selector.selects key = false) :
    pastSelection.Spec selector beyond (record :: records) index := by
  refine ⟨ScanSelector.selected_eq_nil fun other hother => h _ ?_, record, mem_cons_self, h⟩
  rcases mem_cons.mp hother with rfl | hother
  · exact hself
  · exact rel_of_pairwise_cons hsorted hother

end BlockScan

lemma scanBlockForward_spec (selector : ScanSelector) {records : List PointRecord}
    (hsorted : KeysAscend records) (recordIndex : ℕ) :
    (scanBlockForward selector recordIndex records).Spec selector (fun key later => key ≤ later)
      records fun skipped _ => recordIndex + skipped.length + 1 := by
  induction records generalizing recordIndex with
  | nil => rfl
  | cons record records ih =>
    rw [scanBlockForward]
    cases hstate : selector.forwardKeyState record.userKey with
    | before =>
      refine (ih (List.Pairwise.of_cons hsorted) (recordIndex + 1)).cons ?_ fun skipped rest => ?_
      · rw [← Bool.not_eq_true, ← ScanSelector.forwardKeyState_eq_match, hstate]
        simp
      · simp only [length_cons]
        omega
    | «match» =>
      exact ⟨[], records, rfl, rfl, ScanSelector.forwardKeyState_eq_match.mp hstate, rfl⟩
    | after =>
      exact BlockScan.spec_pastSelection hsorted le_rfl fun key hle =>
        ScanSelector.not_selects_of_after hstate hle

lemma scanBlockReverse_spec (selector : ScanSelector) {records : List PointRecord}
    (hsorted : records.Pairwise fun left right => right.userKey ≤ left.userKey)
    (recordIndex : ℕ) (hlen : records.length = recordIndex) :
    (scanBlockReverse selector recordIndex records).Spec selector
      (fun key earlier => earlier ≤ key) records fun _ rest => rest.length := by
  induction records generalizing recordIndex with
  | nil => rfl
  | cons record records ih =>
    rw [length_cons] at hlen
    rw [scanBlockReverse]
    cases hstate : selector.reverseKeyState record.userKey with
    | above =>
      refine (ih (List.Pairwise.of_cons hsorted) (recordIndex - 1) (by omega)).cons ?_
        fun _ _ => rfl
      rw [← Bool.not_eq_true, ← ScanSelector.reverseKeyState_eq_match, hstate]
      simp
    | «match» =>
      refine ⟨[], records, rfl, rfl, ScanSelector.reverseKeyState_eq_match.mp hstate, ?_⟩
      show recordIndex - 1 = records.length
      omega
    | below =>
      exact BlockScan.spec_pastSelection hsorted le_rfl fun key hle =>
        ScanSelector.not_selects_of_below hstate hle

/-! ## Skipping and ending -/

namespace Table

variable {table : Table} {block : TableDataBlock} {selector : ScanSelector}

lemma selected_eq_nil_of_before {range : KeyRange} (hblock : block ∈ table.dataBlocks)
    (h : keyIsBeforeStart block.largestUserKey range.start = true) :
    (ScanSelector.range range).selected block.records = [] := by
  apply ScanSelector.selected_eq_nil
  intro record hmem
  have := keyIsBeforeStart_of_le (le_largestUserKey hblock hmem) h
  simp [ScanSelector.selects, keyIsInRange, this]

lemma not_selects_of_afterEnd {range : KeyRange} {key later : Key}
    (h : keyIsAfterEnd key range.end_ = true) (hle : key ≤ later) :
    (ScanSelector.range range).selects later = false := by
  simp [ScanSelector.selects, keyIsInRange, keyIsAfterEnd_of_le hle h]

lemma not_selects_of_lt_prefix {pref key : Key} (h : key < pref) :
    (ScanSelector.withPrefix pref).selects key = false := by
  by_contra hne
  have hpre : pref <+: key := by simpa [ScanSelector.selects] using hne
  exact absurd (ByteOrder.le_of_isPrefix hpre) (not_le.mpr h)

lemma not_selects_of_above_prefix {pref key later : Key} (hle : pref ≤ key)
    (h : pref.isPrefixOf key = false) (hlater : key ≤ later) :
    (ScanSelector.withPrefix pref).selects later = false := by
  by_contra hne
  have hpre : pref <+: later := by simpa [ScanSelector.selects] using hne
  rw [ isPrefixOf_iff_prefix.mpr (ByteOrder.isPrefix_of_le_of_le hle hlater hpre)] at h
  simp at h

lemma selected_eq_nil_of_filter {pref : Key} {extractor : PrefixExtractor}
    (hblock : block ∈ table.dataBlocks)
    (h : block.prefixFilterResult pref extractor = some false) :
    (ScanSelector.withPrefix pref).selected block.records = [] := by
  apply ScanSelector.selected_eq_nil
  intro record hmem
  by_contra hne
  have hpre : pref <+: record.userKey := by simpa [ScanSelector.selects] using hne
  exact prefixFilterResult_ne_false extractor hblock hmem hpre h

end Table

namespace TablePointCursor

variable {cursor : TablePointCursor} {b : ℕ} {block : TableDataBlock}

lemma prefixBlockState_eq_skip {pref : Key} (hblock : block ∈ cursor.table.dataBlocks)
    (h : cursor.prefixBlockState b block pref = .skip) :
    (ScanSelector.withPrefix pref).selected block.records = [] := by
  unfold prefixBlockState at h
  split_ifs at h
  split at h
  · next hf => exact Table.selected_eq_nil_of_filter hblock hf
  · simp at h

lemma prefixBlockState_ne_done {pref : Key} : cursor.prefixBlockState b block pref ≠ .done := by
  unfold prefixBlockState
  split_ifs
  · simp
  · split <;> simp

lemma forwardBlockState_spec (hget : cursor.table.dataBlocks[b]? = some block) :
    ∃ state, cursor.forwardBlockState b = .ok state ∧
      (state = .skip → cursor.selector.selected block.records = []) ∧
      (state = .done → ∀ key, block.smallestUserKey ≤ key →
        cursor.selector.selects key = false) := by
  have hblock : block ∈ cursor.table.dataBlocks := mem_of_getElem? hget
  simp only [forwardBlockState, Table.dataBlockMetadata_eq hget, bind, Except.bind, pure,
    Except.pure]
  refine ⟨_, rfl, ?_, ?_⟩
  · cases hsel : cursor.selector with
    | range range =>
      intro h
      simp only at h
      split_ifs at h with hafter hover
      simp only [TableDataBlock.overlapsRange, Bool.and_eq_true, Bool.not_eq_true', not_and,
        Bool.not_eq_false] at hover
      exact Table.selected_eq_nil_of_before hblock (hover (by simpa using hafter))
    | withPrefix pref =>
      intro h
      simp only at h
      split_ifs at h with hover hlt
      · apply ScanSelector.selected_eq_nil
        intro record hmem
        exact Table.not_selects_of_lt_prefix
          (lt_of_le_of_lt (Table.le_largestUserKey hblock hmem) hlt)
      · exact prefixBlockState_eq_skip hblock h
  · cases hsel : cursor.selector with
    | range range =>
      intro h key hle
      simp only at h
      split_ifs at h with hafter
      exact Table.not_selects_of_afterEnd hafter hle
    | withPrefix pref =>
      intro h key hle
      simp only at h
      split_ifs at h with hover hlt
      · -- The block starts above the prefix without having it.
        simp only [TableDataBlock.prefixBoundsMayOverlap, Bool.not_eq_true',
          Bool.and_eq_false_iff, Bool.or_eq_false_iff, decide_eq_false_iff_not, not_le] at hover
        rcases hover with hover | ⟨hnot, habove⟩
        · exact absurd hover hlt
        · exact Table.not_selects_of_above_prefix habove.le hnot hle
      · exact absurd h prefixBlockState_ne_done

lemma reverseBlockState_spec (hget : cursor.table.dataBlocks[b]? = some block) :
    ∃ state, cursor.reverseBlockState b = .ok state ∧
      (state = .skip → cursor.selector.selected block.records = []) ∧
      (state = .done → ∀ key, key ≤ block.largestUserKey →
        cursor.selector.selects key = false) := by
  have hblock : block ∈ cursor.table.dataBlocks := mem_of_getElem? hget
  simp only [reverseBlockState, Table.dataBlockMetadata_eq hget, bind, Except.bind, pure,
    Except.pure]
  refine ⟨_, rfl, ?_, ?_⟩
  · cases hsel : cursor.selector with
    | range range =>
      intro h
      simp only at h
      split_ifs at h with hbefore hover
      simp only [TableDataBlock.overlapsRange, Bool.and_eq_true, Bool.not_eq_true', not_and,
        Bool.not_eq_false] at hover
      apply ScanSelector.selected_eq_nil
      intro record hmem
      refine Table.not_selects_of_afterEnd ?_ (Table.smallestUserKey_le hblock hmem)
      by_contra hafter
      exact hbefore (hover (by simpa using hafter))
    | withPrefix pref =>
      intro h
      simp only at h
      split_ifs at h with hlt hover
      · apply ScanSelector.selected_eq_nil
        intro record hmem
        simp only [TableDataBlock.prefixBoundsMayOverlap, Bool.not_eq_true',
          Bool.and_eq_false_iff, Bool.or_eq_false_iff, decide_eq_false_iff_not, not_le] at hover
        rcases hover with hover | ⟨hnot, habove⟩
        · exact absurd hover hlt
        · exact Table.not_selects_of_above_prefix habove.le hnot
            (Table.smallestUserKey_le hblock hmem)
      · exact prefixBlockState_eq_skip hblock h
  · cases hsel : cursor.selector with
    | range range =>
      intro h key hle
      simp only at h
      split_ifs at h with hbefore
      simp [ScanSelector.selects, keyIsInRange, keyIsBeforeStart_of_le hle hbefore]
    | withPrefix pref =>
      intro h key hle
      simp only at h
      split_ifs at h with hlt hover
      · exact Table.not_selects_of_lt_prefix (lt_of_le_of_lt hle hlt)
      · exact absurd h prefixBlockState_ne_done

end TablePointCursor

/-! ## The remaining records -/

def TableDataBlock.entered (block : TableDataBlock) (selector : ScanSelector)
    (policy : IndexSearchPolicy) : List PointRecord :=
  block.records.drop ((fromRecords block.records).firstRecordIndex selector policy)

namespace Table

def forwardFrom (table : Table) (selector : ScanSelector) (policy : IndexSearchPolicy) (i : ℕ) :
    List PointRecord :=
  (table.dataBlocks.drop i).flatMap fun block => selector.selected (block.entered selector policy)

def reverseBelow (table : Table) (selector : ScanSelector) (i : ℕ) : List PointRecord :=
  (table.dataBlocks.take i).reverse.flatMap fun block =>
    (selector.selected block.records).reverse

variable {table : Table} {selector : ScanSelector} {policy : IndexSearchPolicy} {i : ℕ}

lemma forwardFrom_eq_cons {block : TableDataBlock} (h : table.dataBlocks[i]? = some block) :
    table.forwardFrom selector policy i =
      selector.selected (block.entered selector policy) ++
        table.forwardFrom selector policy (i + 1) := by
  obtain ⟨hi, rfl⟩ := List.getElem?_eq_some_iff.mp h
  rw [forwardFrom, drop_eq_getElem_cons hi, flatMap_cons]
  rfl

lemma forwardFrom_eq_nil_of_le (h : table.dataBlockCount ≤ i) :
    table.forwardFrom selector policy i = [] := by
  rw [forwardFrom, drop_eq_nil_of_le h]
  rfl

lemma reverseBelow_succ {block : TableDataBlock} (h : table.dataBlocks[i]? = some block) :
    table.reverseBelow selector (i + 1) =
      (selector.selected block.records).reverse ++ table.reverseBelow selector i := by
  obtain ⟨hi, rfl⟩ := List.getElem?_eq_some_iff.mp h
  rw [reverseBelow, take_succ_eq_append_getElem hi, reverse_append, flatMap_append]
  simp [reverseBelow]

lemma entered_subset {block : TableDataBlock} {record : PointRecord}
    (h : record ∈ block.entered selector policy) : record ∈ block.records :=
  mem_of_mem_drop h

lemma forwardFrom_eq_nil (h : ∀ j block, i ≤ j → table.dataBlocks[j]? = some block →
      ∀ record ∈ block.records, selector.selects record.userKey = false) :
    table.forwardFrom selector policy i = [] := by
  rw [forwardFrom, flatMap_eq_nil_iff]
  intro block hmem
  obtain ⟨j, hj⟩ := mem_iff_getElem?.mp hmem
  rw [List.getElem?_drop] at hj
  apply ScanSelector.selected_eq_nil
  intro record hrecord
  exact h (i + j) block (by omega) hj record (entered_subset hrecord)

lemma forwardFrom_skip (h : ∀ j block, j < i → table.dataBlocks[j]? = some block →
      selector.selected block.records = []) :
    table.forwardFrom selector policy 0 = table.forwardFrom selector policy i := by
  induction i with
  | zero => rfl
  | succ i ih =>
    rw [ih fun j block hj => h j block (by omega)]
    by_cases hcount : i < table.dataBlockCount
    · have hget : table.dataBlocks[i]? = some table.dataBlocks[i] :=
        List.getElem?_eq_getElem hcount
      have hsublist : (selector.selected (table.dataBlocks[i].entered selector policy)).Sublist
          (selector.selected table.dataBlocks[i].records) := (drop_sublist _ _).filter _
      rw [h i _ (by omega) hget] at hsublist
      rw [forwardFrom_eq_cons hget, sublist_nil.mp hsublist, nil_append]
    · rw [forwardFrom_eq_nil_of_le (by omega), forwardFrom_eq_nil_of_le (by omega)]

lemma reverseBelow_eq_nil (h : ∀ j block, j < i → table.dataBlocks[j]? = some block →
      ∀ record ∈ block.records, selector.selects record.userKey = false) :
    table.reverseBelow selector i = [] := by
  rw [reverseBelow, flatMap_eq_nil_iff]
  intro block hmem
  rw [mem_reverse] at hmem
  obtain ⟨j, hj⟩ := mem_iff_getElem?.mp hmem
  rw [List.getElem?_take] at hj
  split_ifs at hj with hji
  rw [ScanSelector.selected_eq_nil fun record hrecord => h j block hji hj record hrecord]
  rfl

end Table

namespace TablePointCursor

def remaining (cursor : TablePointCursor) : List PointRecord :=
  if cursor.exhausted then []
  else
    match cursor.direction, cursor.currentBlock, cursor.blockIndex with
    | .forward, some (current, block), _ =>
      cursor.selector.selected (block.records.drop cursor.recordIndex) ++
        cursor.table.forwardFrom cursor.selector cursor.policy (current + 1)
    | .forward, none, some blockIndex =>
      cursor.table.forwardFrom cursor.selector cursor.policy blockIndex
    | .reverse, some (current, block), _ =>
      (cursor.selector.selected (block.records.take cursor.recordIndex)).reverse ++
        cursor.table.reverseBelow cursor.selector current
    | .reverse, none, some blockIndex =>
      cursor.table.reverseBelow cursor.selector (blockIndex + 1)
    | _, none, none => []

structure Valid (cursor : TablePointCursor) : Prop where
  blockIndex_lt : ∀ b, cursor.blockIndex = some b → b < cursor.table.dataBlockCount
  currentBlock_eq : ∀ b decoded, cursor.currentBlock = some (b, decoded) →
    cursor.blockIndex = some b ∧ ∃ block, cursor.table.dataBlocks[b]? = some block ∧
      decoded = fromRecords block.records
  recordIndex_le : ∀ b decoded, cursor.currentBlock = some (b, decoded) →
    cursor.direction = .reverse → cursor.recordIndex ≤ decoded.recordCount

/-- A cursor elsewhere in the same scan. -/
def Moved (cursor cursor' : TablePointCursor) : Prop :=
  ∃ blockIndex recordIndex currentBlock exhausted,
    cursor' = { cursor with
      blockIndex := blockIndex, recordIndex := recordIndex
      currentBlock := currentBlock, exhausted := exhausted }

lemma Moved.refl (cursor : TablePointCursor) : Moved cursor cursor :=
  ⟨_, _, _, _, rfl⟩

lemma Moved.trans {a b c : TablePointCursor} (hab : Moved a b) (hbc : Moved b c) : Moved a c := by
  obtain ⟨_, _, _, _, rfl⟩ := hab
  obtain ⟨_, _, _, _, rfl⟩ := hbc
  exact ⟨_, _, _, _, rfl⟩

variable {cursor : TablePointCursor} {b : ℕ}

lemma ensureCurrentBlock_spec (hvalid : cursor.Valid) (hlive : cursor.exhausted = false)
    (hindex : cursor.blockIndex = some b) :
    ∃ block cursor', cursor.table.dataBlocks[b]? = some block ∧
      cursor.ensureCurrentBlock b =
        .ok (fromRecords block.records, cursor') ∧
      cursor'.Valid ∧ cursor'.exhausted = false ∧ cursor'.blockIndex = some b ∧
      cursor'.currentBlock = some (b, fromRecords block.records) ∧
      cursor'.remaining = cursor.remaining ∧ cursor.Moved cursor' := by
  cases hcurrent : cursor.currentBlock with
  | some current =>
    obtain ⟨current, decoded⟩ := current
    obtain ⟨hcur, block, hget, rfl⟩ := hvalid.currentBlock_eq current decoded hcurrent
    obtain rfl : current = b := by
      rw [hindex] at hcur
      exact (Option.some.inj hcur).symm
    refine ⟨block, cursor, hget, ?_, hvalid, hlive, hindex, hcurrent, rfl, Moved.refl cursor⟩
    simp [ensureCurrentBlock, hcurrent]
  | none =>
    have hb := hvalid.blockIndex_lt b hindex
    obtain ⟨block, hget⟩ : ∃ block, cursor.table.dataBlocks[b]? = some block :=
      ⟨_, List.getElem?_eq_getElem hb⟩
    set decoded := fromRecords block.records with hdecoded
    refine ⟨block, { cursor with
        recordIndex := cursor.entryIndex decoded
        currentBlock := some (b, decoded) }, hget, ?_, ?_, hlive, hindex, rfl, ?_,
      ⟨_, _, _, _, rfl⟩⟩
    · simp [ensureCurrentBlock, hcurrent, ensureCurrentBlock.load, Table.loadDataBlock_eq hget,
        bind, Except.bind, pure, Except.pure, ← hdecoded]
    · refine ⟨hvalid.blockIndex_lt, fun b' decoded' h => ?_, fun b' decoded' h hdir => ?_⟩
      · obtain ⟨rfl, rfl⟩ := Prod.mk.inj (Option.some.inj h)
        exact ⟨hindex, block, hget, rfl⟩
      · obtain ⟨rfl, rfl⟩ := Prod.mk.inj (Option.some.inj h)
        simp [entryIndex, show cursor.direction = .reverse from hdir]
    · cases hdir : cursor.direction with
      | forward =>
        simp only [remaining, hlive, hdir, hcurrent, hindex, entryIndex, Bool.false_eq_true,
          if_false]
        rw [Table.forwardFrom_eq_cons hget]
        rfl
      | reverse =>
        simp only [remaining, hlive, hdir, hcurrent, hindex, entryIndex, Bool.false_eq_true,
          if_false]
        rw [Table.reverseBelow_succ hget, hdecoded]
        simp [recordCount, fromRecords]

lemma moveToNextBlock_spec (hlive : cursor.exhausted = false) (hdir : cursor.direction = .forward)
    (hindex : cursor.blockIndex = some b) :
    cursor.moveToNextBlock.Valid ∧
      cursor.moveToNextBlock.remaining =
        cursor.table.forwardFrom cursor.selector cursor.policy (b + 1) ∧
      cursor.Moved cursor.moveToNextBlock ∧
      ∀ b', cursor.moveToNextBlock.blockIndex = some b' → b' = b + 1 := by
  have heq : cursor.moveToNextBlock =
      { cursor with
        blockIndex := if b + 1 < cursor.table.dataBlockCount then some (b + 1) else none
        recordIndex := 0
        currentBlock := none } := by
    simp [moveToNextBlock, hindex]
  rw [heq]
  refine ⟨⟨fun b' h => ?_, fun b' decoded h => by simp at h, fun b' decoded h => by simp at h⟩,
    ?_, ⟨_, _, _, _, rfl⟩, fun b' h => ?_⟩
  · simp only at h
    split_ifs at h with hlt
    rwa [← Option.some.inj h]
  · simp only [remaining, hlive, hdir, Bool.false_eq_true, if_false]
    split_ifs with hlt
    · rfl
    · exact (Table.forwardFrom_eq_nil_of_le (not_lt.mp hlt)).symm
  · simp only at h
    split_ifs at h with hlt
    exact (Option.some.inj h).symm

lemma moveToPreviousBlock_spec (hvalid : cursor.Valid) (hlive : cursor.exhausted = false)
    (hdir : cursor.direction = .reverse) (hindex : cursor.blockIndex = some b) :
    cursor.moveToPreviousBlock.Valid ∧
      cursor.moveToPreviousBlock.remaining = cursor.table.reverseBelow cursor.selector b ∧
      cursor.Moved cursor.moveToPreviousBlock ∧
      ∀ b', cursor.moveToPreviousBlock.blockIndex = some b' → b' + 1 = b := by
  have hb := hvalid.blockIndex_lt b hindex
  have heq : cursor.moveToPreviousBlock =
      { cursor with
        blockIndex := if b = 0 then none else some (b - 1)
        recordIndex := 0
        currentBlock := none } := by
    simp [moveToPreviousBlock, hindex]
  rw [heq]
  refine ⟨⟨fun b' h => ?_, fun b' decoded h => by simp at h, fun b' decoded h => by simp at h⟩,
    ?_, ⟨_, _, _, _, rfl⟩, fun b' h => ?_⟩
  · simp only at h
    split_ifs at h with h0
    have := Option.some.inj h
    show b' < cursor.table.dataBlockCount
    omega
  · simp only [remaining, hlive, hdir, Bool.false_eq_true, if_false]
    split_ifs with h0
    · subst h0
      rfl
    · show cursor.table.reverseBelow cursor.selector (b - 1 + 1) = _
      rw [Nat.sub_add_cancel (by omega)]
  · simp only at h
    split_ifs at h with h0
    have := Option.some.inj h
    omega

lemma exhausted_spec (hvalid : cursor.Valid) :
    cursor.exhaust.Valid ∧ cursor.exhaust.remaining = [] ∧ cursor.Moved cursor.exhaust :=
  ⟨⟨hvalid.blockIndex_lt, hvalid.currentBlock_eq, hvalid.recordIndex_le⟩,
    by simp [remaining, exhaust], ⟨_, _, _, _, rfl⟩⟩

private lemma remaining_of_not_current (hvalid : cursor.Valid) (hlive : cursor.exhausted = false)
    (hindex : cursor.blockIndex = some b) (hcur : cursor.currentBlockIs b = false) :
    cursor.remaining = match cursor.direction with
      | .forward => cursor.table.forwardFrom cursor.selector cursor.policy b
      | .reverse => cursor.table.reverseBelow cursor.selector (b + 1) := by
  cases hcurrent : cursor.currentBlock with
  | some current =>
    obtain ⟨current, decoded⟩ := current
    obtain ⟨h, -⟩ := hvalid.currentBlock_eq current decoded hcurrent
    rw [hindex] at h
    simp [currentBlockIs, hcurrent, Option.some.inj h] at hcur
  | none =>
    cases hdir : cursor.direction <;> simp [remaining, hlive, hdir, hcurrent, hindex]

/-- What a call does: it returns the first of the remaining records and leaves the others. -/
def Pops (cursor : TablePointCursor)
    (result : Except Error (Option PointRecord × TablePointCursor)) : Prop :=
  ∃ cursor', result = .ok (cursor.remaining.head?, cursor') ∧ cursor'.Valid ∧
    cursor'.remaining = cursor.remaining.tail ∧ cursor.Moved cursor'

private lemma Pops.of_moved {cursor' : TablePointCursor}
    {result : Except Error (Option PointRecord × TablePointCursor)}
    (h : cursor'.Pops result) (hremaining : cursor'.remaining = cursor.remaining)
    (hmoved : cursor.Moved cursor') : cursor.Pops result := by
  obtain ⟨cursor'', heq, hvalid, htail, hmoved'⟩ := h
  rw [hremaining] at heq htail
  exact ⟨cursor'', heq, hvalid, htail, hmoved.trans hmoved'⟩

private lemma Pops.of_exhausted (hvalid : cursor.Valid) (hnil : cursor.remaining = []) :
    cursor.Pops (.ok (none, cursor.exhaust)) := by
  obtain ⟨hvalid', hremaining, hmoved⟩ := exhausted_spec hvalid
  exact ⟨_, by rw [hnil]; rfl, hvalid', by rw [hremaining, hnil]; rfl, hmoved⟩

private lemma Pops.of_nil (hvalid : cursor.Valid) (hnil : cursor.remaining = []) :
    cursor.Pops (.ok (none, cursor)) :=
  ⟨cursor, by rw [hnil]; rfl, hvalid, by rw [hnil]; rfl, Moved.refl cursor⟩

private lemma selected_eq_nil_of_subset {selector : ScanSelector} {l m : List PointRecord}
    (h : selector.selected l = []) (hsub : ∀ record ∈ m, record ∈ l) :
    selector.selected m = [] := by
  apply ScanSelector.selected_eq_nil
  intro record hmem
  rw [ScanSelector.selected, filter_eq_nil_iff] at h
  simpa using h record (hsub record hmem)

private lemma remaining_of_blockIndex_none (hvalid : cursor.Valid)
    (hindex : cursor.blockIndex = none) : cursor.remaining = [] := by
  have hcurrent : cursor.currentBlock = none := by
    by_contra hne
    obtain ⟨⟨current, decoded⟩, hsome⟩ := Option.ne_none_iff_exists'.mp hne
    obtain ⟨h, -⟩ := hvalid.currentBlock_eq current decoded hsome
    simp [hindex] at h
  cases hdir : cursor.direction <;> simp [remaining, hdir, hcurrent, hindex]

section Rounds

variable {next skipped scanned : Except Error (Option PointRecord × TablePointCursor)}
  (hvalid : cursor.Valid)

include hvalid

private lemma pops_finishScan {scan : BlockScan} {beyond : Key → Key → Prop}
    {records later : List PointRecord} {index : List PointRecord → List PointRecord → ℕ}
    {moved : TablePointCursor} (hspec : scan.Spec cursor.selector beyond records index)
    (hremaining : cursor.remaining = cursor.selector.selected records ++ later)
    (hfound : ∀ skipped record rest, records = skipped ++ record :: rest →
      Valid { cursor with recordIndex := index skipped rest } ∧
        remaining { cursor with recordIndex := index skipped rest } =
          cursor.selector.selected rest ++ later)
    (hpast : ∀ record ∈ records,
      (∀ key, beyond record.userKey key → cursor.selector.selects key = false) → later = [])
    (hmoved : cursor.Moved moved) (hlater : moved.remaining = later) (hnext : moved.Pops next) :
    cursor.Pops (cursor.finishScan scan next) := by
  cases scan with
  | found record next =>
    obtain ⟨skipped, rest, hsplit, hskip, hsel, rfl⟩ := hspec
    obtain ⟨hvalid', hrest⟩ := hfound skipped record rest hsplit
    have hpopped : cursor.remaining = record :: (cursor.selector.selected rest ++ later) := by
      rw [hremaining, hsplit, ScanSelector.selected_append, hskip,
        ScanSelector.selected_cons_of_selects hsel]
      rfl
    exact ⟨_, by rw [hpopped]; rfl, hvalid', by rw [hpopped]; exact hrest, ⟨_, _, _, _, rfl⟩⟩
  | pastSelection =>
    obtain ⟨hnil, record, hmem, hbeyond⟩ := hspec
    refine Pops.of_exhausted hvalid ?_
    rw [hremaining, hnil, hpast record hmem hbeyond, append_nil]
  | endOfBlock =>
    refine hnext.of_moved ?_ hmoved
    rw [hlater, hremaining, show cursor.selector.selected records = [] from hspec, nil_append]

private lemma pops_round {state : Except Error CursorBlockState} (hscan : cursor.Pops scanned)
    (hstate : cursor.currentBlockIs b = false → ∃ found, state = .ok found ∧
      (found = .skip → cursor.Pops skipped) ∧ (found = .done → cursor.remaining = [])) :
    cursor.Pops (do
      let found ← if cursor.currentBlockIs b then pure .scan else state
      match found with
      | .skip => skipped
      | .done => .ok (none, cursor.exhaust)
      | .scan => scanned) := by
  cases hcurrent : cursor.currentBlockIs b with
  | true => exact hscan
  | false =>
    obtain ⟨found, rfl, hskip, hdone⟩ := hstate hcurrent
    cases found with
    | scan => exact hscan
    | skip => exact hskip rfl
    | done => exact Pops.of_exhausted hvalid (hdone rfl)

/-- A round of either loop. -/
private lemma pops_loop {body : ℕ → Except Error (Option PointRecord × TablePointCursor)}
    (h : cursor.exhausted = false → ∀ b, cursor.blockIndex = some b → cursor.Pops (body b)) :
    cursor.Pops (if cursor.exhausted then .ok (none, cursor)
      else match cursor.blockIndex with
        | none => .ok (none, cursor)
        | some blockIndex => body blockIndex) := by
  split_ifs with hlive
  · exact Pops.of_nil hvalid (by simp [remaining, hlive])
  · rw [Bool.not_eq_true] at hlive
    cases hindex : cursor.blockIndex with
    | none => exact Pops.of_nil hvalid (remaining_of_blockIndex_none hvalid hindex)
    | some b => exact h hlive b hindex

end Rounds

private lemma forward_scan_pops {block : TableDataBlock}
    {next : Except Error (Option PointRecord × TablePointCursor)} (hvalid : cursor.Valid)
    (hlive : cursor.exhausted = false) (hdir : cursor.direction = .forward)
    (hindex : cursor.blockIndex = some b) (hget : cursor.table.dataBlocks[b]? = some block)
    (hcurrent : cursor.currentBlock = some (b, fromRecords block.records))
    (hnext : cursor.moveToNextBlock.Pops next) :
    cursor.Pops (cursor.finishScan
      (scanBlockForward cursor.selector cursor.recordIndex
        (block.records.drop cursor.recordIndex)) next) := by
  have hsorted : KeysAscend (block.records.drop cursor.recordIndex) :=
    (Table.sorted_block (mem_of_getElem? hget)).keysAscend.sublist (drop_sublist _ _)
  obtain ⟨-, hlater, hmoved, -⟩ := moveToNextBlock_spec hlive hdir hindex
  refine pops_finishScan hvalid (scanBlockForward_spec _ hsorted _)
    (by simp [remaining, hlive, hdir, hcurrent, fromRecords]) ?_ ?_ hmoved hlater
    hnext
  · intro skipped record rest hsplit
    have hrest : block.records.drop (cursor.recordIndex + skipped.length + 1) = rest := by
      rw [Nat.add_assoc, ← drop_drop, hsplit, ← drop_drop, drop_left]
      rfl
    refine ⟨⟨hvalid.blockIndex_lt, hvalid.currentBlock_eq, fun _ _ _ h => ?_⟩, ?_⟩
    · simp [hdir] at h
    · simp [remaining, hlive, hdir, hcurrent, fromRecords, hrest]
  · intro record hmem hbeyond
    refine Table.forwardFrom_eq_nil fun j block' hj hget' record' hmem' => hbeyond _ ?_
    exact InternalKey.userKey_le_of_le (Table.internalKey_lt_of_blocks (by omega) hget hget'
      (mem_of_mem_drop hmem) hmem').le

private lemma reverse_scan_pops {block : TableDataBlock}
    {next : Except Error (Option PointRecord × TablePointCursor)} (hvalid : cursor.Valid)
    (hlive : cursor.exhausted = false) (hdir : cursor.direction = .reverse)
    (hindex : cursor.blockIndex = some b) (hget : cursor.table.dataBlocks[b]? = some block)
    (hcurrent : cursor.currentBlock = some (b, fromRecords block.records))
    (hnext : cursor.moveToPreviousBlock.Pops next) :
    cursor.Pops (cursor.finishScan
      (scanBlockReverse cursor.selector cursor.recordIndex
        (block.records.take cursor.recordIndex).reverse) next) := by
  have hsorted : (block.records.take cursor.recordIndex).reverse.Pairwise
      fun left right => right.userKey ≤ left.userKey := by
    rw [pairwise_reverse]
    exact (Table.sorted_block (mem_of_getElem? hget)).keysAscend.sublist
      (take_sublist _ _)
  have hlen : (block.records.take cursor.recordIndex).reverse.length = cursor.recordIndex := by
    simpa [recordCount, fromRecords] using
      hvalid.recordIndex_le b _ hcurrent hdir
  obtain ⟨-, hlater, hmoved, -⟩ := moveToPreviousBlock_spec hvalid hlive hdir hindex
  refine pops_finishScan hvalid (scanBlockReverse_spec _ hsorted _ hlen) ?_ ?_ ?_ hmoved hlater hnext
  · rw [ScanSelector.selected_reverse]
    simp [remaining, hlive, hdir, hcurrent, fromRecords]
  · intro skipped record rest hsplit
    have hle : rest.length ≤ cursor.recordIndex := by
      rw [← hlen, hsplit]
      simp only [length_append, length_cons]
      omega
    have hrest : block.records.take rest.length = rest.reverse := by
      have hfront : block.records.take cursor.recordIndex =
          rest.reverse ++ (record :: skipped.reverse) := by
        rw [← reverse_reverse (block.records.take cursor.recordIndex), hsplit]
        simp
      calc block.records.take rest.length
          = (block.records.take cursor.recordIndex).take rest.length := by
            rw [take_take, Nat.min_eq_left hle]
        _ = rest.reverse := by rw [hfront, ← length_reverse, take_left]
    refine ⟨⟨hvalid.blockIndex_lt, hvalid.currentBlock_eq, fun b' decoded h _ => ?_⟩, ?_⟩
    · exact hle.trans (hvalid.recordIndex_le b' decoded h hdir)
    · simp [remaining, hlive, hdir, hcurrent, fromRecords, hrest,
        ScanSelector.selected_reverse]
  · intro record hmem hbeyond
    refine Table.reverseBelow_eq_nil fun j block' hj hget' record' hmem' => hbeyond _ ?_
    exact InternalKey.userKey_le_of_le (Table.internalKey_lt_of_blocks hj hget' hget hmem'
      (mem_of_mem_take (mem_reverse.mp hmem))).le

/-- The forward loop pops the remaining records, given more rounds than blocks are left.

**Proof sketch.** Induction on the rounds. A skipped block has no selected record, so moving on
keeps what remains; where the cursor ends, no later block has one; a scanned block either gives
its first selected record or has none. -/
lemma nextRecordForward_pops (fuel : ℕ) :
    ∀ cursor : TablePointCursor, cursor.Valid → cursor.direction = .forward → 0 < fuel →
      (∀ b, cursor.blockIndex = some b → cursor.table.dataBlockCount - b < fuel) →
      cursor.Pops (nextRecordForward fuel cursor) := by
  induction fuel with
  | zero =>
    intro cursor _ _ hpos
    omega
  | succ fuel ih =>
    intro cursor hvalid hdir _ hfuel
    refine pops_loop hvalid fun hlive b hindex => ?_
    have hb := hvalid.blockIndex_lt b hindex
    have hbound := hfuel b hindex
    -- Whatever cursor moves on from this block is covered by the remaining rounds.
    have hmove : ∀ c : TablePointCursor, c.exhausted = false → c.direction = .forward →
        c.blockIndex = some b → c.table = cursor.table →
        c.moveToNextBlock.Pops (nextRecordForward fuel c.moveToNextBlock) := by
      intro c hclive hcdir hcindex hctable
      obtain ⟨hvalid', -, ⟨_, _, _, _, hmoved⟩, hindex'⟩ := moveToNextBlock_spec hclive hcdir hcindex
      have htable : c.moveToNextBlock.table = cursor.table := by rw [hmoved]; exact hctable
      refine ih _ hvalid' (by rw [hmoved]; exact hcdir) (by omega) fun b' hb' => ?_
      rw [htable, hindex' b' hb']
      omega
    refine pops_round hvalid ?_ fun hcurrent => ?_
    · obtain ⟨block, cursor', hget, heq, hvalid', hlive', hindex', hcurrent', hremaining, hmoved⟩ :=
        ensureCurrentBlock_spec hvalid hlive hindex
      obtain ⟨_, _, _, _, hcursor⟩ := id hmoved
      have htable : cursor'.table = cursor.table := by rw [hcursor]
      have hdir' : cursor'.direction = .forward := by rw [hcursor]; exact hdir
      rw [heq]
      exact (forward_scan_pops hvalid' hlive' hdir' hindex' (htable ▸ hget) hcurrent'
        (hmove cursor' hlive' hdir' hindex' htable)).of_moved hremaining hmoved
    · have hget : cursor.table.dataBlocks[b]? = some _ := List.getElem?_eq_getElem hb
      obtain ⟨state, hstate, hskip, hdone⟩ := forwardBlockState_spec hget
      have hremaining := remaining_of_not_current hvalid hlive hindex hcurrent
      rw [hdir] at hremaining
      refine ⟨state, hstate, fun h => ?_, fun h => ?_⟩
      · obtain ⟨-, hlater, hmoved, -⟩ := moveToNextBlock_spec hlive hdir hindex
        refine (hmove cursor hlive hdir hindex rfl).of_moved ?_ hmoved
        rw [hlater, hremaining, Table.forwardFrom_eq_cons hget,
          selected_eq_nil_of_subset (hskip h) fun _ hmem => Table.entered_subset hmem,
          nil_append]
      · rw [hremaining]
        refine Table.forwardFrom_eq_nil fun j block' hj hget' record hmem => hdone h _ ?_
        exact (Table.smallestUserKey_mono hj hget hget').trans
          (Table.smallestUserKey_le (mem_of_getElem? hget') hmem)

lemma nextRecordReverse_pops (fuel : ℕ) :
    ∀ cursor : TablePointCursor, cursor.Valid → cursor.direction = .reverse → 0 < fuel →
      (∀ b, cursor.blockIndex = some b → b + 1 < fuel) →
      cursor.Pops (nextRecordReverse fuel cursor) := by
  induction fuel with
  | zero =>
    intro cursor _ _ hpos
    omega
  | succ fuel ih =>
    intro cursor hvalid hdir _ hfuel
    refine pops_loop hvalid fun hlive b hindex => ?_
    have hb := hvalid.blockIndex_lt b hindex
    have hbound := hfuel b hindex
    have hmove : ∀ c : TablePointCursor, c.Valid → c.exhausted = false →
        c.direction = .reverse → c.blockIndex = some b →
        c.moveToPreviousBlock.Pops (nextRecordReverse fuel c.moveToPreviousBlock) := by
      intro c hc hclive hcdir hcindex
      obtain ⟨hvalid', -, ⟨_, _, _, _, hmoved⟩, hindex'⟩ :=
        moveToPreviousBlock_spec hc hclive hcdir hcindex
      refine ih _ hvalid' (by rw [hmoved]; exact hcdir) (by omega) fun b' hb' => ?_
      have := hindex' b' hb'
      omega
    refine pops_round hvalid ?_ fun hcurrent => ?_
    · obtain ⟨block, cursor', hget, heq, hvalid', hlive', hindex', hcurrent', hremaining, hmoved⟩ :=
        ensureCurrentBlock_spec hvalid hlive hindex
      obtain ⟨_, _, _, _, hcursor⟩ := id hmoved
      have htable : cursor'.table = cursor.table := by rw [hcursor]
      have hdir' : cursor'.direction = .reverse := by rw [hcursor]; exact hdir
      rw [heq]
      exact (reverse_scan_pops hvalid' hlive' hdir' hindex' (htable ▸ hget) hcurrent'
        (hmove cursor' hvalid' hlive' hdir' hindex')).of_moved hremaining hmoved
    · have hget : cursor.table.dataBlocks[b]? = some _ := List.getElem?_eq_getElem hb
      obtain ⟨state, hstate, hskip, hdone⟩ := reverseBlockState_spec hget
      have hremaining := remaining_of_not_current hvalid hlive hindex hcurrent
      rw [hdir] at hremaining
      refine ⟨state, hstate, fun h => ?_, fun h => ?_⟩
      · obtain ⟨-, hlater, hmoved, -⟩ := moveToPreviousBlock_spec hvalid hlive hdir hindex
        refine (hmove cursor hvalid hlive hdir hindex).of_moved ?_ hmoved
        rw [hlater, hremaining, Table.reverseBelow_succ hget, hskip h]
        rfl
      · rw [hremaining]
        refine Table.reverseBelow_eq_nil fun j block' hj hget' record hmem => hdone h _ ?_
        exact (Table.le_largestUserKey (mem_of_getElem? hget') hmem).trans
          (Table.largestUserKey_mono (by omega) hget' hget)

/-- A call of `nextRecord` returns the first of the remaining records and leaves the others. -/
theorem nextRecord_pops (hvalid : cursor.Valid) : cursor.Pops cursor.nextRecord := by
  unfold nextRecord
  cases hdir : cursor.direction with
  | forward =>
    refine nextRecordForward_pops _ cursor hvalid hdir (by omega) fun b hb => ?_
    omega
  | reverse =>
    refine nextRecordReverse_pops _ cursor hvalid hdir (by omega) fun b hb => ?_
    have := hvalid.blockIndex_lt b hb
    omega

/-! ## What a new cursor returns -/

lemma firstBlockForSelector_spec (table : Table) (selector : ScanSelector)
    (policy : IndexSearchPolicy) :
    (∀ i, firstBlockForSelector table selector policy = some i → i < table.dataBlockCount) ∧
      ∀ j block, j < (firstBlockForSelector table selector policy).getD table.dataBlockCount →
        table.dataBlocks[j]? = some block → selector.selected block.records = [] := by
  cases selector with
  | range range =>
    have hmono : ∀ j k : Key, j ≤ k → keyIsBeforeStart k range.start = true →
        keyIsBeforeStart j range.start = true := fun j k hjk hk => keyIsBeforeStart_of_le hjk hk
    obtain ⟨hlt, hbefore⟩ := table.firstBlockCandidate_spec hmono policy
    refine ⟨hlt, fun j block hj hget => ?_⟩
    exact Table.selected_eq_nil_of_before (mem_of_getElem? hget) (hbefore j block hj hget)
  | withPrefix pref =>
    have hmono : ∀ j k : Key, j ≤ k → decide (k < pref) = true → decide (j < pref) = true := by
      intro j k hjk hk
      simp only [decide_eq_true_eq] at hk ⊢
      exact lt_of_le_of_lt hjk hk
    obtain ⟨hlt, hbefore⟩ := table.firstBlockCandidate_spec hmono policy
    refine ⟨hlt, fun j block hj hget => ScanSelector.selected_eq_nil fun record hmem => ?_⟩
    have hlargest : block.largestUserKey < pref := by simpa using hbefore j block hj hget
    exact Table.not_selects_of_lt_prefix
      (lt_of_le_of_lt (Table.le_largestUserKey (mem_of_getElem? hget) hmem) hlargest)

lemma lastBlockForSelector_spec (table : Table) (selector : ScanSelector)
    (policy : IndexSearchPolicy) :
    (∀ i, lastBlockForSelector table selector policy = some i → i < table.dataBlockCount) ∧
      ∀ j block, (∀ i, lastBlockForSelector table selector policy = some i → i < j) →
        table.dataBlocks[j]? = some block → selector.selected block.records = [] := by
  obtain ⟨hlt, hafter⟩ := table.lastBlockCandidateForRange_spec selector.queryRange policy
  refine ⟨hlt, fun j block hj hget => ScanSelector.selected_eq_nil fun record hmem => ?_⟩
  have hend := keyIsAfterEnd_of_le (Table.smallestUserKey_le (mem_of_getElem? hget) hmem)
    (hafter j block hj hget)
  rw [← Bool.not_eq_true, ScanSelector.selects_iff_queryRange, keyIsInRange_iff, hend]
  simp

lemma valid_new (table : Table) (selector : ScanSelector) (extractor : PrefixExtractor)
    (direction : Direction) (policy : IndexSearchPolicy) :
    (new table selector extractor direction policy).Valid := by
  refine ⟨fun b h => ?_, fun b decoded h => by simp [new] at h,
    fun b decoded h => by simp [new] at h⟩
  cases direction with
  | forward => exact (firstBlockForSelector_spec table selector policy).1 b h
  | reverse => exact (lastBlockForSelector_spec table selector policy).1 b h

lemma remaining_new_forward (table : Table) (selector : ScanSelector)
    (extractor : PrefixExtractor) (policy : IndexSearchPolicy) :
    (new table selector extractor .forward policy).remaining =
      table.forwardFrom selector policy 0 := by
  obtain ⟨hlt, hskip⟩ := firstBlockForSelector_spec table selector policy
  rw [Table.forwardFrom_skip hskip]
  cases hfirst : firstBlockForSelector table selector policy with
  | none =>
    rw [Option.getD_none, Table.forwardFrom_eq_nil_of_le le_rfl]
    simp [remaining, new, hfirst]
  | some b => simp [remaining, new, hfirst]

lemma remaining_new_reverse (table : Table) (selector : ScanSelector)
    (extractor : PrefixExtractor) (policy : IndexSearchPolicy) :
    (new table selector extractor .reverse policy).remaining =
      table.reverseBelow selector table.dataBlockCount := by
  obtain ⟨hlt, hskip⟩ := lastBlockForSelector_spec table selector policy
  -- Blocks above the starting one contribute nothing.
  have hup : ∀ i, (∀ b, lastBlockForSelector table selector policy = some b → b < i) →
      ∀ j, i ≤ j → j ≤ table.dataBlockCount →
        table.reverseBelow selector j = table.reverseBelow selector i := by
    intro i hi j hij
    induction j, hij using Nat.le_induction with
    | base => intro _; rfl
    | succ j hij ih =>
      intro hj
      obtain ⟨block, hget⟩ : ∃ block, table.dataBlocks[j]? = some block :=
        ⟨_, List.getElem?_eq_getElem hj⟩
      rw [Table.reverseBelow_succ hget, hskip j block (fun b hb => by
        have := hi b hb
        omega) hget, ih (by omega)]
      rfl
  cases hlast : lastBlockForSelector table selector policy with
  | none =>
    rw [hup 0 (by simp [hlast]) _ (by omega) le_rfl]
    simp [remaining, new, hlast, Table.reverseBelow]
  | some b =>
    rw [hup (b + 1) (by simp [hlast]) _ (hlt b hlast) le_rfl]
    simp [remaining, new, hlast]

end TablePointCursor

end TrineKv
